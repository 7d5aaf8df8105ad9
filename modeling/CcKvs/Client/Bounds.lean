/-
Which entries of `ops`, `resp` and `key_homes` are accessed in
`handle_cold_requests`. What is done with a slot touches the entries of that slot
only, so the cursor decides. It stays below `CACHE_BATCH_SIZE` in two of the loops;
in `cache_hit_bookkeeping` it does not, since a batch whose last slot was a hit is
left only by looking at the next one.

How far the main loop gets depends on the window and on what is asserted of the
slots. Its counters are those of the requests in front of the cursor (`At`), so
where it is left and where it stops can be told from the arrays as they are when
the call begins (`Leaves`, `Fails`).
-/
import CcKvs.Client.Checks

namespace CcKvs.Client.Scan

open Function Sc Bytes Worker Traced

/-! ## One slot at a time -/

/-- What stays while slot `i` is dealt with. -/
structure Elsewhere (i : ℕ) (s s' : Scan) : Prop where
  slots : ∀ j, j ≠ i → s'.slots j = s.slots j
  machine : (s'.slots i).machine = (s.slots i).machine
  batch : s'.batch = s.batch
  perWorkerOutstanding : s'.perWorkerOutstanding = s.perWorkerOutstanding
  wrI : s'.wrI = s.wrI
  remReqI : s'.remReqI = s.remReqI

instance (i : ℕ) : Std.Refl (Elsewhere i) := ⟨fun _ => ⟨fun _ _ => rfl, rfl, rfl, rfl, rfl, rfl⟩⟩

instance (i : ℕ) : IsTrans Scan (Elsewhere i) :=
  ⟨fun _ _ _ h h' => ⟨fun j hj => (h'.slots j hj).trans (h.slots j hj), h'.machine.trans h.machine,
    h'.batch.trans h.batch, h'.perWorkerOutstanding.trans h.perWorkerOutstanding, h'.wrI.trans h.wrI, h'.remReqI.trans h.remReqI⟩⟩

/-- Only entries of slot `i` are accessed, and only it is changed. -/
abbrev AtSlot {α : Type} (i : ℕ) (m : ScanM α) : Prop := Confined (fun a => a.index = i) (Elsewhere i) m

variable {N : ℕ} (e : Env N) (i : ℕ)

theorem atSlot_respType : AtSlot i (respType i) := .reads rfl

theorem atSlot_setRespType (t : RespType) : AtSlot i (setRespType i t) :=
  .writes rfl fun _ => ⟨fun _ hj => update_of_ne hj _ _, by simp, rfl, rfl, rfl, rfl⟩

theorem atSlot_op : AtSlot i (op i) := .reads rfl

theorem atSlot_setOp (g : Bytes → Bytes) : AtSlot i (setOp i g) :=
  .writes rfl fun _ => ⟨fun _ hj => update_of_ne hj _ _, by simp, rfl, rfl, rfl, rfl⟩

theorem atSlot_machine : AtSlot i (machine i) := .reads rfl

theorem atSlot_respIs (t : RespType) : AtSlot i (respIs i t) := (atSlot_respType i).bind fun _ => .pure

theorem atSlot_opcode : AtSlot i (opcode i) := (atSlot_op i).bind fun _ => .pure

theorem atSlot_opcodeIs (o : Opcode) : AtSlot i (opcodeIs i o) := (atSlot_opcode i).bind fun _ => .pure

theorem atSlot_valLen : AtSlot i (valLen i) := (atSlot_op i).bind fun _ => .pure

theorem atSlot_value0 : AtSlot i (value0 i) := (atSlot_op i).bind fun _ => .pure

theorem atSlot_codeToStr (code : UInt8) : AtSlot i (codeToStr code) := .ite .pure .stop

theorem atSlot_repoint (k : UInt8) (p : Scan → ℕ) : AtSlot i (repoint i k p) :=
  .change fun s => by
    split
    · exact ⟨fun _ _ => rfl, rfl, rfl, rfl, rfl, rfl⟩
    · exact refl s

theorem atSlot_report : AtSlot i (report i) := by
  refine .bind (.or (atSlot_respIs i _) (.or (atSlot_respIs i _) (.or (atSlot_respIs i _) (atSlot_opcodeIs i _)))) fun b => .ite .pure ?_
  refine (atSlot_opcode i).bind fun o => (atSlot_codeToStr i _).bind fun _ => ?_
  exact (atSlot_respType i).bind fun t => atSlot_codeToStr i t

theorem atSlot_copiedSize : AtSlot i (copiedSize e i) := by
  refine .bind (.or (atSlot_opcodeIs i _) (.or (atSlot_opcodeIs i _) (.or (atSlot_opcodeIs i _) (atSlot_opcodeIs i _)))) fun b => .ite .pure ?_
  exact (atSlot_opcodeIs i _).bind fun b => .ite .pure .stop

theorem atSlot_movePointer (tracks : Bool) : AtSlot i (movePointer tracks i) :=
  (atSlot_respIs i _).bind fun _ => .ite
    ((atSlot_value0 i).bind fun k => .ite (.ite (atSlot_repoint i k _) .stop) .pure) .pure

theorem atSlot_copyOpToNextOp (tracks : Bool) : AtSlot i (copyOpToNextOp e tracks i) := by
  refine (atSlot_report i).bind fun _ => (atSlot_copiedSize e i).bind fun size => (atSlot_movePointer i tracks).bind fun _ => ?_
  refine (atSlot_op i).bind fun op => (atSlot_respType i).bind fun type => (atSlot_machine i).bind fun machine => ?_
  exact .change fun s => ⟨fun _ _ => rfl, rfl, rfl, rfl, rfl, rfl⟩

theorem atSlot_retires : AtSlot i (retires e i) := by
  unfold retires
  cases e.protocol with
  | sc => exact .or (atSlot_respIs i _) (atSlot_opcodeIs i _)
  | lin => exact .or (atSlot_respIs i _) (.or (atSlot_opcodeIs i _) (atSlot_respIs i _))

theorem atSlot_dropPointer : AtSlot i (dropPointer i) :=
  (atSlot_value0 i).bind fun k => .ite (atSlot_repoint i k _) .pure

theorem atSlot_addHits (n : ℕ) : AtSlot i (addHits n) := .change fun _ => ⟨fun _ _ => rfl, rfl, rfl, rfl, rfl, rfl⟩

theorem atSlot_countHits : AtSlot i (countHits e i) := by
  refine (atSlot_respIs i _).bind fun b => .ite ?_ (atSlot_addHits i 1)
  exact (atSlot_valLen i).bind fun n => (atSlot_addHits i _).bind fun _ => .ite (atSlot_dropPointer i) .pure

theorem atSlot_retire : AtSlot i (retire e i) := (atSlot_countHits e i).bind fun _ => atSlot_setRespType i _

theorem atSlot_settle {check : ScanM Unit} (h : AtSlot i check) : AtSlot i (settle e check i) :=
  (atSlot_retires e i).bind fun _ => .ite (atSlot_retire e i) (h.bind fun _ => atSlot_copyOpToNextOp e i _)

theorem atSlot_expect : AtSlot i (expect e i) := by
  unfold expect
  cases e.protocol with
  | sc =>
    refine .bind (.or (atSlot_respIs i _) (.or (atSlot_respIs i _) (.or (atSlot_opcodeIs i _) (atSlot_opcodeIs i _)))) fun b =>
      .ite .pure (.ite ?_ .pure)
    exact (atSlot_opcode i).bind fun _ => (atSlot_respType i).bind fun _ => .stop
  | lin =>
    refine .bind (.or (atSlot_respIs i _) (.or (atSlot_respIs i _) (.or (atSlot_respIs i _) (.or (atSlot_respIs i _)
      (.or (atSlot_respIs i _) (.or (atSlot_opcodeIs i _) (atSlot_opcodeIs i _))))))) fun b => .ite .pure ?_
    refine (atSlot_opcode i).bind fun o => (atSlot_codeToStr i _).bind fun _ => ?_
    exact (atSlot_respType i).bind fun t => (atSlot_codeToStr i t).bind fun _ => .stop

theorem atSlot_hitRound : AtSlot i (hitRound e i) := (atSlot_expect e i).bind fun _ => atSlot_settle e i .pure

theorem atSlot_markUnserved : AtSlot i (markUnserved i) :=
  (atSlot_respIs i _).bind fun _ => .ite (atSlot_setRespType i _) .pure

theorem atSlot_checkCarried : AtSlot i (checkCarried e i) :=
  .ite (.bind (.or (atSlot_respIs i _) (atSlot_respIs i _)) fun _ => .ite .stop .pure) .pure

theorem atSlot_restRound : AtSlot i (restRound e i) :=
  (atSlot_markUnserved i).bind fun _ => atSlot_settle e i (atSlot_checkCarried e i)

theorem atSlot_checkValLen : AtSlot i (checkValLen e i) := by
  refine .bind (.or (atSlot_opcodeIs i _) (atSlot_opcodeIs i _)) fun _ => (atSlot_opcodeIs i _).bind fun _ => .ite ?_ .pure
  exact (atSlot_valLen i).bind fun n => .ite .pure .stop

/-! ## The window -/

/-- A slot with a request for another machine. -/
def IsMiss (s : Scan) (i : ℕ) : Prop := (s.slots i).type = RespType.miss.code ∨ (s.slots i).type = RespType.unservedMiss.code

instance (s : Scan) : DecidablePred s.IsMiss := fun _ => inferInstanceAs (Decidable (_ ∨ _))

/-- How many requests a machine still takes; `per_worker_outstanding` has one byte. -/
def room (w : UInt8) : ℕ := if w = 255 then kvsBatch + 1 else kvsBatch - w.toNat

/-- The requests for machine `rm` in front of slot `i`. -/
def waiting (s : Scan) (rm : UInt8) (i : ℕ) : ℕ := Nat.count (fun j => s.IsMiss j ∧ (s.slots j).machine = rm) i

/-- The request in slot `i` can be handed over. -/
def Fits (s : Scan) (i : ℕ) : Prop :=
  s.IsMiss i ∧ s.waiting (s.slots i).machine i < room (s.perWorkerOutstanding (s.slots i).machine)

instance (s : Scan) : DecidablePred s.Fits := fun _ => inferInstanceAs (Decidable (_ ∧ _))

/-- The requests in front of slot `i` that can be handed over. -/
def handed (s : Scan) (i : ℕ) : ℕ := Nat.count s.Fits i

/-- At slot `i` the main loop is left: the window is full, or the request has to wait and the
batches of all `N` machines count as full. -/
def Leaves (N : ℕ) (s : Scan) (i : ℕ) : Prop :=
  windowSize ≤ s.remReqI + s.handed i ∨ s.IsMiss i ∧ ¬ s.Fits i ∧ kvsBatch * N ≤ s.handed i

/-- The call stops when it comes to slot `i`: at what `cache_hit_bookkeeping` or `copy_op_to_next_op`
asserts of a hit, at the length of a value, at a request for the own machine, at the batch of its
machine if it has `WINDOW_SIZE` requests, or at the opcode of a request that has to wait. -/
def Fails (e : Env N) (s : Scan) (i : ℕ) : Prop :=
  if s.IsMiss i then
    valLenOk e.cfg (s.slots i).op = false ∨ (s.slots i).machine.toNat = e.machineId ∨
      if s.Fits i then windowSize ≤ (s.batch (s.slots i).machine).length + s.waiting (s.slots i).machine i
      else copySize e.cfg (s.slots i).opcode = none
  else (s.slots i).HitFails e

instance (s : Scan) : DecidablePred (s.Fails e) := fun _ => inferInstanceAs (Decidable (ite _ _ _))

/-- The state when the cursor is at `i`, from a call in `s₀`. -/
structure At (s₀ : Scan) (i : ℕ) (s : Scan) : Prop where
  slots : ∀ j, i ≤ j → s.slots j = s₀.slots j
  batch : ∀ rm, (s.batch rm).length = (s₀.batch rm).length + min (s₀.waiting rm i) (room (s₀.perWorkerOutstanding rm))
  perWorkerOutstanding : ∀ rm, s.perWorkerOutstanding rm =
    s₀.perWorkerOutstanding rm + .ofNat (min (s₀.waiting rm i) (room (s₀.perWorkerOutstanding rm)))
  wrI : s.wrI = s₀.handed i
  remReqI : s.remReqI = s₀.remReqI + s₀.handed i

variable {e i} {s₀ s s' : Scan}

theorem room_spec (w : UInt8) (n : ℕ) : (w + .ofNat (min n (room w)) + 1).toNat ≤ kvsBatch ↔ n < room w := by
  have hw := w.toNat_lt
  have h255 : w = 255 ↔ w.toNat = 255 := by rw [← UInt8.toNat_inj]; rfl
  simp only [UInt8.toNat_add, UInt8.toNat_ofNat', UInt8.reduceToNat, room, h255, kvsBatch]
  split <;> omega

theorem At.isMiss_iff (h : At s₀ i s) {j : ℕ} (hj : i ≤ j) : s.IsMiss j ↔ s₀.IsMiss j := by
  rw [IsMiss, IsMiss, h.slots j hj]

/-- Whether the request in the slot is handed over. -/
theorem At.fits_iff (h : At s₀ i s) (hmiss : s₀.IsMiss i) :
    (s.perWorkerOutstanding (s.slots i).machine + 1).toNat ≤ kvsBatch ↔ s₀.Fits i := by
  rw [h.slots i le_rfl, h.perWorkerOutstanding, room_spec]
  exact (and_iff_right hmiss).symm

/-- A count does not change over numbers that are not counted. -/
theorem count_eq_of_not {p : ℕ → Prop} [DecidablePred p] {i j : ℕ} (hij : i ≤ j) (h : ∀ k, i ≤ k → k < j → ¬ p k) :
    Nat.count p j = Nat.count p i := by
  obtain ⟨d, rfl⟩ := Nat.exists_eq_add_of_le hij
  rw [Nat.count_add, Nat.count_of_forall_not fun k hk => h (i + k) (Nat.le_add_right i k) (Nat.add_lt_add_left hk i), Nat.add_zero]

theorem waiting_succ (s : Scan) (rm : UInt8) (i : ℕ) :
    s.waiting rm (i + 1) = s.waiting rm i + if s.IsMiss i ∧ (s.slots i).machine = rm then 1 else 0 :=
  Nat.count_succ _ i

theorem waiting_eq {j : ℕ} (hij : i ≤ j) (h : ∀ k, i ≤ k → k < j → ¬ s.IsMiss k) (rm : UInt8) : s.waiting rm j = s.waiting rm i :=
  count_eq_of_not hij fun k hk hkj hp => h k hk hkj hp.1

theorem handed_eq {j : ℕ} (hij : i ≤ j) (h : ∀ k, i ≤ k → k < j → ¬ s.IsMiss k) : s.handed j = s.handed i :=
  count_eq_of_not hij fun k hk hkj hp => h k hk hkj hp.1

/-- The cursor moves on over slots that are no requests. -/
theorem At.beyond {j : ℕ} (h : At s₀ i s) (hij : i ≤ j) (hnot : ∀ k, i ≤ k → k < j → ¬ s₀.IsMiss k)
    (hslots : ∀ k, j ≤ k → s'.slots k = s.slots k) (hbatch : s'.batch = s.batch)
    (hout : s'.perWorkerOutstanding = s.perWorkerOutstanding)
    (hwr : s'.wrI = s.wrI) (hrem : s'.remReqI = s.remReqI) : At s₀ j s' where
  slots k hk := (hslots k hk).trans (h.slots k (hij.trans hk))
  batch rm := by rw [hbatch, h.batch, waiting_eq hij hnot]
  perWorkerOutstanding rm := by rw [hout, h.perWorkerOutstanding, waiting_eq hij hnot]
  wrI := by rw [hwr, h.wrI, handed_eq hij hnot]
  remReqI := by rw [hrem, h.remReqI, handed_eq hij hnot]

/-- What a round of the main loop does with the request in slot `i`. -/
inductive Issued (N i : ℕ) (s : Scan) : Bool → Scan → Prop
  | handed {s' : Scan} : (s.perWorkerOutstanding (s.slots i).machine + 1).toNat ≤ kvsBatch →
      (∀ j, j ≠ i → s'.slots j = s.slots j) →
      (∀ rm, (s'.batch rm).length = (s.batch rm).length + if (s.slots i).machine = rm then 1 else 0) →
      s'.perWorkerOutstanding =
        update s.perWorkerOutstanding (s.slots i).machine (s.perWorkerOutstanding (s.slots i).machine + 1) →
      s'.wrI = s.wrI + 1 → s'.remReqI = s.remReqI + 1 → Issued N i s false s'
  | passed {last : Bool} {s' : Scan} : ¬ (s.perWorkerOutstanding (s.slots i).machine + 1).toNat ≤ kvsBatch →
      (last = true ↔ kvsBatch * N ≤ s.wrI) → Elsewhere i s s' → Issued N i s last s'

theorem addRequest_meets (rm : UInt8) (size : ℕ) (s : Scan) :
    Traced.Meets (fun a => a.index = i)
      (fun _ s' => ∃ b, b.length = (s.batch rm).length + 1 ∧ s' = { s with batch := update s.batch rm b }) (addRequest rm i size) s := by
  refine .bind_look ?_
  cases hadd : addErpcRequest (s.slots i).op size (s.batch rm) with
  | error f => exact .stop
  | ok b =>
    refine .change ⟨b, ?_, rfl⟩
    unfold addErpcRequest at hadd
    split at hadd
    · cases hadd
      simp
    · cases hadd

theorem handleLackOfCredits_meets (rm : UInt8) (s : Scan) :
    Traced.Meets (fun a => a.index = i)
      (fun last s' => (last = true ↔ kvsBatch * N ≤ s.wrI) ∧
        Elsewhere i { s with perWorkerOutstanding := update s.perWorkerOutstanding rm (s.perWorkerOutstanding rm - 1) } s')
      (handleLackOfCredits e rm i) s := by
  refine .bind_change ((atSlot_copyOpToNextOp e i false _).bind fun _ s₁ h₁ => ?_)
  exact .look ⟨by rw [h₁.wrI, decide_eq_true_iff], h₁⟩

theorem handOver_meets (rm : UInt8) (size : ℕ) (s : Scan) :
    Traced.Meets (fun a => a.index = i)
      (fun last s' => last = false ∧ ∃ b, b.length = (s.batch rm).length + 1 ∧
        Elsewhere i { s with batch := update s.batch rm b, wrI := s.wrI + 1, remReqI := s.remReqI + 1 } s') (handOver rm i size) s := by
  refine (addRequest_meets rm size s).bind ?_
  rintro _ s₁ ⟨b, hb, rfl⟩
  exact .bind_change ((atSlot_setRespType i _ _).bind fun _ s₂ h₂ => .pure ⟨rfl, b, hb, h₂⟩)

theorem dispatch_meets (e : Env N) (i : ℕ) (s : Scan) :
    Traced.Meets (fun a => a.index = i) (Issued N i s) (dispatch e (s.slots i).machine i) s := by
  refine (atSlot_op i s).bind fun op s₁ h₁ => (atSlot_setOp i _ s₁).bind fun _ s₂ h₂ => ?_
  have h₂ : Elsewhere i s s₂ := trans_of _ h₁ h₂
  refine .bind_change (.bind_look ?_)
  simp only [update_self, h₂.perWorkerOutstanding]
  split
  · rename_i hlt
    refine (handleLackOfCredits_meets _ _).mono (fun _ h => h) ?_
    rintro last s' ⟨hlast, h⟩
    refine .passed (Nat.not_le_of_lt hlt) (by rw [hlast, h₂.wrI]) ⟨fun j hj => (h.slots j hj).trans (h₂.slots j hj),
      h.machine.trans h₂.machine, h.batch.trans h₂.batch, ?_, h.wrI.trans h₂.wrI, h.remReqI.trans h₂.remReqI⟩
    -- the count goes up and down again
    rw [h.perWorkerOutstanding]
    simp
  · rename_i hlt
    refine (handOver_meets _ _ _).mono (fun _ h => h) ?_
    rintro last s' ⟨rfl, b, hb, h⟩
    refine .handed (Nat.le_of_not_lt hlt) (fun j hj => (h.slots j hj).trans (h₂.slots j hj)) (fun rm => ?_) h.perWorkerOutstanding
      (h.wrI.trans (congrArg (· + 1) h₂.wrI)) (h.remReqI.trans (congrArg (· + 1) h₂.remReqI))
    have hbatch : s'.batch = update s₂.batch (s.slots i).machine b := h.batch
    have hb : b.length = (s₂.batch (s.slots i).machine).length + 1 := hb
    rw [h₂.batch] at hbatch hb
    rw [hbatch]
    by_cases hrm : rm = (s.slots i).machine
    · rw [hrm, update_self, hb, if_pos rfl]
    · rw [update_of_ne hrm, if_neg (Ne.symm hrm), Nat.add_zero]

theorem Issued.of_elsewhere {s₁ : Scan} {last : Bool} (h : Elsewhere i s s₁) (hi : Issued N i s₁ last s') : Issued N i s last s' := by
  cases hi with
  | handed hroom hslots hbatch hout hwr hrem =>
    rw [h.machine, h.perWorkerOutstanding] at hroom hout
    rw [h.machine, h.batch] at hbatch
    exact .handed hroom (fun j hj => (hslots j hj).trans (h.slots j hj)) hbatch hout (by rw [hwr, h.wrI]) (by rw [hrem, h.remReqI])
  | passed hroom hlast hs =>
    rw [h.machine, h.perWorkerOutstanding] at hroom
    exact .passed hroom (by rw [hlast, h.wrI]) (trans_of _ h hs)

theorem issue_meets (e : Env N) (i : ℕ) (s : Scan) : Traced.Meets (fun a => a.index = i) (Issued N i s) (issue e i) s := by
  refine (atSlot_checkValLen e i s).bind fun _ s₁ h₁ => ?_
  refine (atSlot_setRespType i _ s₁).bind fun _ s₂ h₂ => ?_
  refine .bind_reads rfl ?_
  split
  · exact .stop
  · exact (dispatch_meets e i s₂).mono (fun _ h => h) fun _ _ => .of_elsewhere (trans_of _ h₁ h₂)

/-- A round of the main loop keeps the count. -/
theorem At.issued {last : Bool} (h : At s₀ i s) (hmiss : s₀.IsMiss i) (hi : Issued N i s last s') :
    At s₀ (i + 1) s' ∧ (last = true ↔ ¬ s₀.Fits i ∧ kvsBatch * N ≤ s₀.handed i) := by
  have hrm : (s.slots i).machine = (s₀.slots i).machine := by rw [h.slots i le_rfl]
  have hwait (rm : UInt8) : s₀.waiting rm (i + 1) = s₀.waiting rm i + if (s₀.slots i).machine = rm then 1 else 0 := by
    simp only [waiting_succ, hmiss, true_and]
  cases hi with
  | handed hroom hslots hbatch hout hwr hrem =>
    have hfits := (h.fits_iff hmiss).1 hroom
    have hhanded : s₀.handed (i + 1) = s₀.handed i + 1 := by rw [handed, handed, Nat.count_succ, if_pos hfits]
    refine ⟨⟨fun j hj => (hslots j (by omega)).trans (h.slots j (by omega)), fun rm => ?_, fun rm => ?_,
      by rw [hwr, h.wrI, hhanded], by rw [hrem, h.remReqI, hhanded]; rfl⟩, by simp [hfits]⟩
    · rw [hbatch, h.batch, hwait, hrm]
      by_cases hne : (s₀.slots i).machine = rm
      · subst hne
        have hlt := hfits.2
        rw [if_pos rfl]
        omega
      · rw [if_neg hne, Nat.add_zero, Nat.add_zero]
    rw [hout, hwait, hrm]
    by_cases hne : (s₀.slots i).machine = rm
    · subst hne
      have hlt := hfits.2
      rw [update_self, h.perWorkerOutstanding, if_pos rfl, Nat.min_eq_left hlt.le, Nat.min_eq_left (Nat.add_one_le_of_lt hlt),
        UInt8.ofNat_add, add_assoc]
      rfl
    · rw [update_of_ne (Ne.symm hne), if_neg hne, Nat.add_zero, h.perWorkerOutstanding]
  | passed hroom hlast hs =>
    have hfits : ¬ s₀.Fits i := fun hf => hroom ((h.fits_iff hmiss).2 hf)
    have hhanded : s₀.handed (i + 1) = s₀.handed i := by rw [handed, handed, Nat.count_succ, if_neg hfits, Nat.add_zero]
    have hmin (rm : UInt8) : min (s₀.waiting rm (i + 1)) (room (s₀.perWorkerOutstanding rm)) =
        min (s₀.waiting rm i) (room (s₀.perWorkerOutstanding rm)) := by
      rw [hwait]
      by_cases hne : (s₀.slots i).machine = rm
      · subst hne
        have hle : room (s₀.perWorkerOutstanding (s₀.slots i).machine) ≤ s₀.waiting (s₀.slots i).machine i :=
          Nat.le_of_not_lt fun hlt => hfits ⟨hmiss, hlt⟩
        rw [Nat.min_eq_right hle, Nat.min_eq_right (hle.trans (Nat.le_add_right _ _))]
      · rw [if_neg hne, Nat.add_zero]
    exact ⟨⟨fun j hj => (hs.slots j (by omega)).trans (h.slots j (by omega)), fun rm => by rw [hs.batch, h.batch, hmin],
      fun rm => by rw [hs.perWorkerOutstanding, h.perWorkerOutstanding, hmin], by rw [hs.wrI, h.wrI, hhanded],
      by rw [hs.remReqI, h.remReqI, hhanded]⟩, by rw [hlast, h.wrI]; simp [hfits]⟩

/-! ## The loops -/

/-- All accesses are to entries of the arrays. -/
def Within (l : List Access) : Prop := ∀ a ∈ l, a.index < cacheBatchSize

/-- The entry of `resp` behind the last is accessed, and nothing else behind the arrays. -/
def ReadsPast (l : List Access) : Prop :=
  ⟨.resp, cacheBatchSize⟩ ∈ l ∧ ∀ a ∈ l, a.index < cacheBatchSize ∨ a = ⟨.resp, cacheBatchSize⟩

theorem Within.append {l l' : List Access} (h : Within l) (h' : Within l') : Within (l ++ l') := fun a ha =>
  (List.mem_append.1 ha).elim (h a) (h' a)

theorem ReadsPast.prepend {l l' : List Access} (h : Within l) (h' : ReadsPast l') : ReadsPast (l ++ l') :=
  ⟨List.mem_append_right l h'.1, fun a ha => (List.mem_append.1 ha).elim (fun hl => .inl (h a hl)) (h'.2 a)⟩

theorem ReadsPast.not_within {l : List Access} (h : ReadsPast l) : ¬ Within l := fun hw => Nat.lt_irrefl _ (hw _ h.1)

theorem Within.of_atSlot {α : Type} {m : ScanM α} (h : AtSlot i m) (hi : i < cacheBatchSize) (s : Scan) : Within (m.log s) :=
  fun a ha => ((h s).noted a ha).trans_lt hi

theorem log_respIs (i : ℕ) (t : RespType) (s : Scan) : (respIs i t).log s = [⟨.resp, i⟩] := rfl

theorem outcome_isMiss (i : ℕ) (s : Scan) : (isMiss i).outcome s = .ok (decide (s.IsMiss i), s) := by
  rw [isMiss, outcome_or (outcome_respIs i s .miss) (outcome_respIs i s .unservedMiss)]
  congr 2
  rw [Bool.eq_iff_iff, Bool.or_eq_true, decide_eq_true_iff]
  exact or_congr beq_iff_eq beq_iff_eq

/-- The test for a request reads the entry of `resp`, and no other. -/
theorem mem_log_isMiss (i : ℕ) (s : Scan) : ⟨.resp, i⟩ ∈ (isMiss i).log s ∧ ∀ a ∈ (isMiss i).log s, a = ⟨.resp, i⟩ := by
  have h₁ := outcome_respIs i s .miss
  cases hmiss : (s.slots i).is .miss with
  | true => rw [isMiss, log_or_true (hmiss ▸ h₁), log_respIs]; simp
  | false => rw [isMiss, log_or_false (hmiss ▸ h₁), log_respIs, log_respIs]; simp

/-- A hit that `cache_hit_bookkeeping` gets past. -/
def Settles (e : Env N) (s : Scan) (k : ℕ) : Prop := ¬ s.IsMiss k ∧ ¬ (s.slots k).HitFails e

theorem settles_congr {k : ℕ} (h : s'.slots k = s.slots k) : s'.Settles e k ↔ s.Settles e k := by
  rw [Settles, Settles, IsMiss, IsMiss, h]

/-- How `cache_hit_bookkeeping` ends when it is called with the cursor at `i`: with an assertion, at a
request, or behind the last slot. -/
inductive HitsEnd (e : Env N) (i : ℕ) (s : Scan) : List Access → Except Fault ({j // i ≤ j} × Scan) → Prop
  | fault {l : List Access} {f : Fault} (k : ℕ) : Within l → i ≤ k → k < cacheBatchSize → ¬ s.IsMiss k →
      (s.slots k).HitFails e → HitsEnd e i s l (.error f)
  | miss {l : List Access} {j : {j // i ≤ j}} {s' : Scan} : Within l → j.1 < cacheBatchSize → s.IsMiss j →
      (∀ k, i ≤ k → k < j.1 → s.Settles e k) → (∀ k, j.1 ≤ k → s'.slots k = s.slots k) → s'.batch = s.batch →
      s'.perWorkerOutstanding = s.perWorkerOutstanding → s'.wrI = s.wrI → s'.remReqI = s.remReqI →
      HitsEnd e i s l (.ok (j, s'))
  | past {l : List Access} {j : {j // i ≤ j}} {s' : Scan} : ReadsPast l → j.1 = cacheBatchSize →
      (∀ k, i ≤ k → k < cacheBatchSize → s.Settles e k) → HitsEnd e i s l (.ok (j, s'))

/-- A slot that is no request is passed by. -/
theorem HitsEnd.later {s₁ : Scan} {l : List Access} {m : ScanM {j // i + 1 ≤ j}} (hi : s.Settles e i) (hs : Elsewhere i s s₁)
    (hl : Within l) (h : HitsEnd e (i + 1) s₁ (m.log s₁) (m.outcome s₁)) :
    HitsEnd e i s (l ++ (m >>= fun j => (pure ⟨j, Nat.le_of_succ_le j.2⟩ : ScanM {j // i ≤ j})).log s₁)
      ((m >>= fun j => (pure ⟨j, Nat.le_of_succ_le j.2⟩ : ScanM {j // i ≤ j})).outcome s₁) := by
  have hslots (k : ℕ) (hk : i + 1 ≤ k) : s₁.slots k = s.slots k := hs.slots k (by omega)
  have hsettles {n : ℕ} (hk : ∀ k, i + 1 ≤ k → k < n → s₁.Settles e k) (k : ℕ) (hik : i ≤ k) (hkn : k < n) : s.Settles e k := by
    obtain rfl | hlt := hik.eq_or_lt
    · exact hi
    · exact (settles_congr (hslots k hlt)).1 (hk k hlt hkn)
  generalize hr : m.outcome s₁ = r at h
  generalize hlog : m.log s₁ = l' at h
  cases h with
  | fault k hw hik hlt hm hfail =>
    rw [log_bind_error hr, outcome_bind_error hr, hlog]
    rw [IsMiss, hslots k hik] at hm
    rw [hslots k hik] at hfail
    exact .fault k (hl.append hw) (Nat.le_of_succ_le hik) hlt hm hfail
  | @miss j _ hw hj hm hk hbeyond hbatch hout hwr hrem =>
    rw [log_bind_ok hr, outcome_bind_ok hr, hlog, log_pure, List.append_nil]
    refine .miss (hl.append hw) hj ?_ (hsettles hk) (fun k hjk => (hbeyond k hjk).trans (hslots k (j.2.trans hjk)))
      (hbatch.trans hs.batch) (hout.trans hs.perWorkerOutstanding) (hwr.trans hs.wrI) (hrem.trans hs.remReqI)
    rwa [IsMiss, hslots j j.2] at hm
  | past hp hj hk =>
    rw [log_bind_ok hr, outcome_bind_ok hr, hlog, log_pure, List.append_nil]
    exact .past (.prepend hl hp) hj (hsettles hk)

/-- The loop ends where it is called, after it has read the entry there. -/
theorem HitsEnd.here (hi : i ≤ cacheBatchSize) (hstop : s.IsMiss i ∨ i = cacheBatchSize) :
    HitsEnd e i s ((isMiss i).log s ++ []) (.ok (⟨i, le_rfl⟩, s)) := by
  obtain ⟨hmem, hall⟩ := mem_log_isMiss i s
  rw [List.append_nil]
  obtain rfl | hlt := hi.eq_or_lt
  · exact .past ⟨hmem, fun a ha => .inr (hall a ha)⟩ rfl fun k hk hlt => absurd hlt (Nat.not_lt.2 hk)
  · refine .miss (fun a ha => ?_) hlt (hstop.resolve_right hlt.ne) (fun k hk hlt => absurd hlt (Nat.not_lt.2 hk)) (fun _ _ => rfl) rfl rfl
      rfl rfl
    rw [hall a ha]
    exact hlt

theorem cacheHitBookkeeping_ends (e : Env N) (i : ℕ) (s : Scan) (hi : i ≤ cacheBatchSize) :
    HitsEnd e i s ((cacheHitBookkeeping e i).log s) ((cacheHitBookkeeping e i).outcome s) := by
  have htest := outcome_isMiss i s
  rw [cacheHitBookkeeping, log_bind_ok htest, outcome_bind_ok htest]
  by_cases hmiss : s.IsMiss i
  · rw [if_pos (decide_eq_true hmiss)]
    exact .here hi (.inl hmiss)
  rw [if_neg (by simpa using hmiss)]
  obtain rfl | hlt := hi.eq_or_lt
  · rw [if_neg (Nat.lt_irrefl _)]
    exact .here le_rfl (.inr rfl)
  rw [if_pos hlt]
  have hwithin : Within ((isMiss i).log s) := fun a ha => by rw [(mem_log_isMiss i s).2 a ha]; exact hlt
  have hround := Within.of_atSlot (atSlot_hitRound e i) hlt s
  cases hr : (hitRound e i).outcome s with
  | error f =>
    rw [log_bind_error hr, outcome_bind_error hr]
    exact .fault i (hwithin.append hround) le_rfl hlt hmiss ((hitRound_stops e i s).1 ⟨f, hr⟩)
  | ok p =>
    rw [log_bind_ok hr, outcome_bind_ok hr, ← List.append_assoc]
    have hsettles : s.Settles e i := ⟨hmiss, fun hf => not_stops hr ((hitRound_stops e i s).2 hf)⟩
    exact .later hsettles ((atSlot_hitRound e i s).returned hr) (hwithin.append hround) (cacheHitBookkeeping_ends e (i + 1) p.2 hlt)
termination_by cacheBatchSize - i

/-- How the main loop ends when the cursor is at `i`. -/
inductive LoopEnd (e : Env N) (s₀ : Scan) (i : ℕ) : List Access → Except Fault (ℕ × Scan) → Prop
  | fault {l : List Access} {f : Fault} (k : ℕ) : Within l → i ≤ k → k < cacheBatchSize → s₀.Fails e k → LoopEnd e s₀ i l (.error f)
  | left {l : List Access} {j : ℕ} {s : Scan} : Within l →
      (s₀.IsMiss (cacheBatchSize - 1) ∨ ∃ k, i ≤ k ∧ k < cacheBatchSize ∧ s₀.Leaves N k) → LoopEnd e s₀ i l (.ok (j, s))
  | past {l : List Access} {s : Scan} : ReadsPast l → ¬ s₀.IsMiss (cacheBatchSize - 1) →
      (∀ k, i ≤ k → k < cacheBatchSize → ¬ s₀.Fails e k ∧ ¬ s₀.Leaves N k) → LoopEnd e s₀ i l (.ok (cacheBatchSize, s))

theorem LoopEnd.later {j : ℕ} {l l' : List Access} {r : Except Fault (ℕ × Scan)} (hij : i ≤ j) (hl : Within l)
    (hstay : ∀ k, i ≤ k → k < j → ¬ s₀.Fails e k ∧ ¬ s₀.Leaves N k) (h : LoopEnd e s₀ j l' r) : LoopEnd e s₀ i (l ++ l') r := by
  cases h with
  | fault k hw hk hlt hfail => exact .fault k (hl.append hw) (hij.trans hk) hlt hfail
  | left hw hend =>
    refine .left (hl.append hw) (hend.imp_right ?_)
    rintro ⟨k, hk, hlt, hk'⟩
    exact ⟨k, hij.trans hk, hlt, hk'⟩
  | past hp hmiss hk =>
    refine .past (.prepend hl hp) hmiss fun k hik hlt => ?_
    obtain hkj | hjk := Nat.lt_or_ge k j
    · exact hstay k hik hkj
    · exact hk k hjk hlt

/-- The loop is not left between requests once the window was found open. -/
theorem not_leaves {k : ℕ} (hik : i ≤ k) (hopen : s₀.remReqI + s₀.handed i < windowSize)
    (hnot : ∀ k', i ≤ k' → k' < k → ¬ s₀.IsMiss k') (hlast : s₀.IsMiss k → ¬ (¬ s₀.Fits k ∧ kvsBatch * N ≤ s₀.handed k)) :
    ¬ s₀.Leaves N k := by
  rintro (hfull | ⟨hmiss, hwait⟩)
  · rw [handed_eq hik hnot] at hfull
    omega
  · exact hlast hmiss hwait

theorem Settles.not_fails {k : ℕ} (h : s.Settles e k) : ¬ s.Fails e k := by
  rw [Fails, if_neg h.1]
  exact h.2

theorem At.settles_iff (h : At s₀ i s) {j : ℕ} (hj : i ≤ j) : s.Settles e j ↔ s₀.Settles e j := settles_congr (h.slots j hj)

/-- A round of the main loop stops at what can be told from the arrays when the call begins. -/
theorem At.issue_stops_iff (h : At s₀ i s) (hmiss : s₀.IsMiss i) : (issue e i).Stops s ↔ s₀.Fails e i := by
  have hfits := h.fits_iff hmiss
  rw [issue_stops, Fails, if_pos hmiss]
  rw [h.slots i le_rfl] at hfits ⊢
  refine or_congr_right (or_congr_right ?_)
  by_cases hf : s₀.Fits i
  · rw [if_pos (hfits.2 hf), if_pos hf, h.batch, Nat.min_eq_left hf.2.le]
  · rw [if_neg fun hroom => hf (hfits.1 hroom), if_neg hf]

theorem mainLoop_ends (e : Env N) (i : ℕ) (s : Scan) (hi : i ≤ cacheBatchSize) (hat : At s₀ i s)
    (hlast : i = cacheBatchSize → s₀.IsMiss (cacheBatchSize - 1)) :
    LoopEnd e s₀ i ((mainLoop e i).log s) ((mainLoop e i).outcome s) := by
  have hlook : (look fun s => s.remReqI : ScanM ℕ).outcome s = .ok (s.remReqI, s) := rfl
  rw [mainLoop, log_bind_ok hlook, outcome_bind_ok hlook, log_look, List.nil_append]
  by_cases hopen : s.remReqI < windowSize ∧ i < cacheBatchSize
  · rw [if_pos hopen]
    rw [hat.remReqI] at hopen
    have hhits := cacheHitBookkeeping_ends e i s hi
    generalize hr : (cacheHitBookkeeping e i).outcome s = r at hhits
    generalize hl : (cacheHitBookkeeping e i).log s = l at hhits
    cases hhits with
    | fault k hw hik hlt hm hfail =>
      rw [log_bind_error hr, outcome_bind_error hr, hl]
      refine .fault k hw hik hlt ?_
      rw [Fails, if_neg fun h => hm ((hat.isMiss_iff hik).2 h), ← hat.slots k hik]
      exact hfail
    | @past j _ hp hj hk =>
      have hk' (k : ℕ) (hik : i ≤ k) (hlt : k < cacheBatchSize) : s₀.Settles e k := (hat.settles_iff hik).1 (hk k hik hlt)
      rw [log_bind_ok hr, outcome_bind_ok hr, hl, if_neg (by omega), log_pure, List.append_nil, outcome_pure, hj]
      refine .past hp (hk' _ (by omega) (by omega)).1 fun k hik hlt => ⟨(hk' k hik hlt).not_fails, ?_⟩
      exact not_leaves hik hopen.1 (fun k' h h' => (hk' k' h (h'.trans hlt)).1) fun hm => absurd hm (hk' k hik hlt).1
    | @miss j s₁ hw hj hm hk hbeyond hbatch hout hwr hrem =>
      have hk' (k : ℕ) (hik : i ≤ k) (hlt : k < j.1) : s₀.Settles e k := (hat.settles_iff hik).1 (hk k hik hlt)
      have hnot (k : ℕ) (hik : i ≤ k) (hlt : k < j.1) : ¬ s₀.IsMiss k := (hk' k hik hlt).1
      have hmiss : s₀.IsMiss j := (hat.isMiss_iff j.2).1 hm
      have hat₁ := hat.beyond j.2 hnot hbeyond hbatch hout hwr hrem
      have hissue := issue_meets e j.1 s₁
      have hwithin : Within ((issue e j.1).log s₁) := fun a ha => (hissue.noted a ha).trans_lt hj
      rw [log_bind_ok hr, outcome_bind_ok hr, hl, if_pos hj]
      cases hi : (issue e j.1).outcome s₁ with
      | error f =>
        rw [log_bind_error hi, outcome_bind_error hi]
        exact .fault j (hw.append hwithin) j.2 hj ((hat₁.issue_stops_iff hmiss).1 ⟨f, hi⟩)
      | ok p =>
        obtain ⟨last, s₂⟩ := p
        obtain ⟨hat₂, hleft⟩ := hat₁.issued hmiss (hissue.returned hi)
        rw [log_bind_ok hi, outcome_bind_ok hi, ← List.append_assoc]
        cases last with
        | true =>
          rw [if_pos rfl, log_pure, List.append_nil]
          exact .left (hw.append hwithin) (.inr ⟨j, j.2, hj, .inr ⟨hmiss, hleft.1 rfl⟩⟩)
        | false =>
          rw [if_neg Bool.false_ne_true]
          have hlast' (h : j.1 + 1 = cacheBatchSize) : s₀.IsMiss (cacheBatchSize - 1) := by
            rw [← h]
            exact hmiss
          refine .later (by have := j.2; omega) (hw.append hwithin) (fun k hik hkj => ⟨?_, ?_⟩) (mainLoop_ends e (j + 1) s₂ hj hat₂ hlast')
          · rcases (Nat.lt_succ_iff.1 hkj).eq_or_lt with rfl | hlt
            · exact fun hf => not_stops hi ((hat₁.issue_stops_iff hmiss).2 hf)
            · exact (hk' k hik hlt).not_fails
          refine not_leaves hik hopen.1 (fun k' h h' => hnot k' h (by omega)) fun hm hstop => ?_
          -- a request at or before `j` is the one in slot `j`
          obtain rfl : k = j.1 := by
            by_contra hne
            exact hnot k hik (by omega) hm
          exact absurd (hleft.2 hstop) Bool.false_ne_true
  · rw [if_neg hopen, log_pure, outcome_pure]
    refine .left (by simp [Within]) ?_
    by_cases hlt : i < cacheBatchSize
    · refine .inr ⟨i, le_rfl, hlt, .inl ?_⟩
      rw [← hat.remReqI]
      exact Nat.le_of_not_lt fun h => hopen ⟨h, hlt⟩
    · exact .inl (hlast (le_antisymm hi (Nat.le_of_not_lt hlt)))
termination_by cacheBatchSize - i
decreasing_by
  have := j.2
  omega

theorem runThroughRestOfOps_within (e : Env N) (i : ℕ) (s : Scan) : Within ((runThroughRestOfOps e i).log s) := by
  rw [runThroughRestOfOps]
  by_cases hlt : i < cacheBatchSize
  · rw [if_pos hlt]
    have hround := Within.of_atSlot (atSlot_restRound e i) hlt s
    cases hr : (restRound e i).outcome s with
    | error f => rwa [log_bind_error hr]
    | ok p =>
      rw [log_bind_ok hr]
      exact hround.append (runThroughRestOfOps_within e (i + 1) p.2)
  · rw [if_neg hlt]
    simp [Within]
termination_by cacheBatchSize - i

theorem At.start (s : Scan) : At s 0 { s with wrI := 0 } := 
  ⟨fun _ _ => rfl, fun rm => by simp [waiting], fun rm => by simp [waiting], rfl, rfl⟩

/-- A call stays within the arrays, or it returns after the entry behind the last was read. -/
theorem handleColdRequests_ends (e : Env N) (s : Scan) :
    Within ((handleColdRequests e).log s) ∧ ((∃ k < cacheBatchSize, s.Fails e k ∧ (handleColdRequests e).Stops s) ∨
      s.IsMiss (cacheBatchSize - 1) ∨ ∃ k < cacheBatchSize, s.Leaves N k) ∨
    ReadsPast ((handleColdRequests e).log s) ∧ ¬ s.IsMiss (cacheBatchSize - 1) ∧
      ∀ k < cacheBatchSize, ¬ s.Fails e k ∧ ¬ s.Leaves N k := by
  have hloop := mainLoop_ends e 0 _ (Nat.zero_le _) (At.start s) fun h => absurd h (by decide)
  have hstart : (change fun s => { s with wrI := 0 } : ScanM Unit).outcome s = .ok ((), { s with wrI := 0 }) := rfl
  rw [handleColdRequests, log_bind_ok hstart, stops_bind hstart, log_change, List.nil_append]
  generalize hr : (mainLoop e 0).outcome { s with wrI := 0 } = r at hloop
  generalize hl : (mainLoop e 0).log { s with wrI := 0 } = l at hloop
  cases hloop with
  | fault k hw _ hlt hfail =>
    rw [log_bind_error hr, hl]
    exact .inl ⟨hw, .inl ⟨k, hlt, hfail, Stops.bind ⟨_, hr⟩⟩⟩
  | @left j s₁ hw hend =>
    rw [log_bind_ok hr, hl]
    have hrest := runThroughRestOfOps_within e j s₁
    have hleft : s.IsMiss (cacheBatchSize - 1) ∨ ∃ k < cacheBatchSize, s.Leaves N k := by
      obtain hm | ⟨k, -, hk⟩ := hend
      · exact .inl hm
      · exact .inr ⟨k, hk⟩
    refine .inl ⟨hw.append ?_, .inr hleft⟩
    cases hr' : (runThroughRestOfOps e j).outcome s₁ with
    | error f => rwa [log_bind_error hr']
    | ok p => rwa [log_bind_ok hr', log_look, List.append_nil]
  | @past s₁ hp hmiss hk =>
    have hnone : runThroughRestOfOps e cacheBatchSize = pure () := by rw [runThroughRestOfOps, if_neg (Nat.lt_irrefl _)]
    rw [log_bind_ok hr, hl, hnone]
    refine .inr ⟨?_, hmiss, fun k => hk k (Nat.zero_le k)⟩
    rwa [log_bind_ok outcome_pure, log_pure, log_look, List.append_nil, List.append_nil]

/-- **The scans stay within the arrays just if the cursor does not reach their end past a hit.** Either
a slot fails what is asserted of it, or the last slot is a request, or the main loop is left at a
slot. -/
theorem scans_in_range_iff (e : Env N) (s : Scan) :
    (∀ a ∈ (handleColdRequests e).log s, a.index < cacheBatchSize) ↔
      (∃ k < cacheBatchSize, s.Fails e k) ∨ s.IsMiss (cacheBatchSize - 1) ∨ ∃ k < cacheBatchSize, s.Leaves N k := by
  obtain ⟨hw, hend⟩ | ⟨hp, hmiss, hk⟩ := handleColdRequests_ends e s
  · refine ⟨fun _ => hend.imp_left ?_, fun _ => hw⟩
    rintro ⟨k, hlt, hfail, -⟩
    exact ⟨k, hlt, hfail⟩
  · refine ⟨fun hw => absurd hw hp.not_within, ?_⟩
    rintro (⟨k, hlt, hf⟩ | hm | ⟨k, hlt, hl⟩)
    · exact absurd hf (hk k hlt).1
    · exact absurd hm hmiss
    · exact absurd hl (hk k hlt).2

/-! ## A batch that hits -/

/-- A read that was served passes what is asserted of a hit. -/
theorem settles_of_getSuccess (e : Env N) (h : (s.slots i).type = RespType.getSuccess.code) : s.Settles e i := by
  have hget : (s.slots i).is .getSuccess = true := beq_iff_eq.2 h
  refine ⟨by rw [IsMiss, h]; decide, ?_⟩
  unfold Entry.HitFails Entry.expected Entry.retires
  cases e.protocol <;> simp [hget]

/-- Where all slots are reads that were served, the entry behind them is read. -/
theorem readsPast_of_reads (e : Env N) (hread : ∀ j < cacheBatchSize, (s.slots j).type = RespType.getSuccess.code)
    (hopen : s.remReqI < windowSize) : ReadsPast ((handleColdRequests e).log s) := by
  have hsettles (j : ℕ) (hj : j < cacheBatchSize) : s.Settles e j := settles_of_getSuccess e (hread j hj)
  obtain ⟨-, ⟨k, hlt, hf, -⟩ | hm | ⟨k, hlt, hk⟩⟩ | ⟨hp, -⟩ := handleColdRequests_ends e s
  · exact absurd hf (hsettles k hlt).not_fails
  · exact absurd hm (hsettles _ (by decide)).1
  · refine absurd hk (not_leaves (Nat.zero_le k) hopen (fun k' _ hk' => (hsettles k' (hk'.trans hlt)).1) fun hm => ?_)
    exact absurd hm (hsettles k hlt).1
  · exact hp

/-- A client of the last of four machines. -/
def lastClient (p : Protocol) : Env 4 := ⟨.shipped, p, Fin.last 3, 60, fun _ => 0⟩

/-- A batch of 600 reads of hot keys, all of them served. -/
def servedReads : Scan where
  slots _ := ⟨update (fun _ => 0) 16 Opcode.get.toByte, RespType.getSuccess.code, 0⟩
  nextSlots _ := ⟨fun _ => 0, RespType.empty.code, 0⟩
  nextOpI := 0
  hottestKeysPointers _ := 0
  cacheHits := 0
  batch _ := []
  perWorkerOutstanding _ := 0
  wrI := 0
  remReqI := 0

/-- Under either protocol the last of three tests keeps the loop in bounds, after the first two
have read `resp[CACHE_BATCH_SIZE]`. -/
theorem resp_read_past_end :
    ⟨.resp, cacheBatchSize⟩ ∈ (handleColdRequests (lastClient .sc)).log servedReads ∧
      ⟨.resp, cacheBatchSize⟩ ∈ (handleColdRequests (lastClient .lin)).log servedReads :=
  ⟨(readsPast_of_reads _ (fun _ _ => rfl) (by decide)).1, (readsPast_of_reads _ (fun _ _ => rfl) (by decide)).1⟩

end CcKvs.Client.Scan
