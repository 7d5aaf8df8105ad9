/-
The loops of `handle_cold_requests` over memory and the recursion over the slots of
a batch (`Client.handleColdRequests`) do the same: on arrays that hold the slots,
the one stops or returns as the other does, and leaves what the other returns.
So what is known about the runs of a client holds of its memory. One thing that
follows is how often `resp` is read behind its end: in every iteration that does
not happen to end with a request for another machine.
-/
import CcKvs.Client.Bounds
import CcKvs.Client.Loop

namespace CcKvs

theorem RespType.find_code (t : RespType) : RespType.all.find? (fun u => u.code == t.code) = some t := by cases t <;> rfl

theorem RespType.code_inj {t u : RespType} : t.code = u.code ↔ t = u :=
  ⟨fun h => Option.some.inj ((find_code t).symm.trans (h ▸ find_code u)), fun h => h ▸ rfl⟩

theorem RespType.code_mem_namedCodes (t : RespType) : t.code ∈ namedCodes := by cases t <;> decide

namespace Client.Scan

open Function Sc Bytes Worker Traced

variable {N : ℕ} {e : Env N} {i : ℕ} {x : Slot N} {c : Cold N} {s s' : Scan}

/-- What the arrays have for a slot. -/
def entry (x : Slot N) : Entry := ⟨x.op, x.type.code, .ofNat x.machine⟩

/-- The variables in memory are those of `c`. -/
structure Mirrors (c : Cold N) (s : Scan) : Prop where
  nextSlots : ∀ j, s.nextSlots j = entry (c.nextOps j)
  nextOpI : s.nextOpI = c.nextOpI
  hottestKeysPointers : s.hottestKeysPointers = c.hottestKeysPointers
  cacheHits : s.cacheHits = c.cacheHits
  batch : ∀ rm : Fin N, s.batch (.ofNat rm) = c.batch rm
  perWorkerOutstanding : ∀ rm : Fin N, s.perWorkerOutstanding (.ofNat rm) = .ofNat (c.perWorkerOutstanding rm)
  outstanding_le : ∀ rm, c.perWorkerOutstanding rm ≤ kvsBatch
  wrI : s.wrI = c.wrI
  remReqI : s.remReqI = c.remReqI

theorem Mirrors.setSlots (h : Mirrors c s) (slots : ℕ → Entry) : Mirrors c { s with slots := slots } :=
  ⟨h.nextSlots, h.nextOpI, h.hottestKeysPointers, h.cacheHits, h.batch, h.perWorkerOutstanding, h.outstanding_le, h.wrI, h.remReqI⟩

/-- `m` does in memory what gives `r` for the slot at `i`, and returns `v`. -/
def Follows {α : Type} (v : α) (i : ℕ) (s : Scan) (m : ScanM α) : Except Fault (Slot N × Cold N) → Prop
  | .error _ => ∃ f, m.outcome s = .error f
  | .ok (x, c) => ∃ s', m.outcome s = .ok (v, s') ∧ s'.slots = update s.slots i (entry x) ∧ Mirrors c s'

/-- Up to `s₁` only the slot was written to. -/
theorem Follows.of_outcome {α : Type} {v : α} {m m' : ScanM α} {s₁ : Scan} {y : Entry} {r : Except Fault (Slot N × Cold N)}
    (h : m.outcome s = m'.outcome s₁) (hslots : s₁.slots = update s.slots i y) (hm : Follows v i s₁ m' r) : Follows v i s m r := by
  cases r with
  | error _ =>
    obtain ⟨f, hf⟩ := hm
    exact ⟨f, h.trans hf⟩
  | ok p =>
    obtain ⟨s', hs', hslots', hc⟩ := hm
    exact ⟨s', h.trans hs', by rw [hslots', hslots, update_idem], hc⟩

theorem Follows.congr {α : Type} {v : α} {m m' : ScanM α} {r : Except Fault (Slot N × Cold N)} (h : m.outcome s = m'.outcome s)
    (hm : Follows v i s m' r) : Follows v i s m r :=
  hm.of_outcome h (update_eq_self i s.slots).symm

/-! ## A slot -/

section

variable (hx : s.slots i = entry x)

include hx

theorem is_entry (t : RespType) : (s.slots i).is t = (x.type == t) := by
  rw [hx, Bool.eq_iff_iff, beq_iff_eq]
  exact beq_iff_eq.trans RespType.code_inj

theorem respIs_entry (t : RespType) : (respIs i t).outcome s = .ok (x.type == t, s) := by
  rw [outcome_respIs, is_entry hx]

theorem valLen_entry : (valLen i).outcome s = .ok (x.valLen, s) := by
  rw [outcome_valLen, hx]
  rfl

theorem retires_entry (e : Env N) : (s.slots i).retires e = e.retires x := by
  have ho : (s.slots i).opcode = x.opcode := by rw [hx]; rfl
  cases hp : e.protocol <;> simp only [Entry.retires, Env.retires, hp, is_entry hx, ho, Bool.or_assoc]

theorem expected_entry (e : Env N) : (s.slots i).expected e = e.expects x := by
  have ho : (s.slots i).opcode = x.opcode := by rw [hx]; rfl
  cases hp : e.protocol <;> simp only [Entry.expected, Env.expects, hp, is_entry hx, ho, Bool.or_assoc]

/-- In the arrays of a client every `resp` type has a text. -/
theorem copyFails_entry (e : Env N) (tracks : Bool) :
    (s.slots i).CopyFails e tracks ↔
      copySize e.cfg x.opcode = none ∨ x.type = .getStall ∧ x.value0.toNat < hottestKeysToTrack ∧ tracks = false := by
  have ho : (s.slots i).opcode = x.opcode := by rw [hx]; rfl
  have hv : (s.slots i).op 18 = x.value0 := by rw [hx]; rfl
  have ht : (s.slots i).type ∈ namedCodes := by rw [hx]; exact x.type.code_mem_namedCodes
  simp only [Entry.CopyFails, ho, hv, ht, is_entry hx, not_true_eq_false, and_false, false_or, beq_iff_eq]

theorem Mirrors.copied (hc : Mirrors c s) (size : ℕ) : Mirrors (c.copied i x size) (s.copied i size) where
  nextSlots j := by
    dsimp only [Cold.copied, Scan.copied]
    rw [hx, hc.nextOpI, hc.nextSlots]
    by_cases hj : j = c.nextOpI
    · subst hj
      rw [update_self, update_self]
      rfl
    · rw [update_of_ne hj, update_of_ne hj, hc.nextSlots]
  nextOpI := by rw [Scan.copied, hc.nextOpI]; rfl
  hottestKeysPointers := by
    have hv : (s.slots i).op 18 = x.value0 := by rw [hx]; rfl
    rw [Scan.copied, hv, is_entry hx, hc.hottestKeysPointers, hc.nextOpI, Cold.copied, Cold.repoint]
    by_cases hstall : x.type = .getStall
    · simp only [hstall, beq_self_eq_true, true_and, if_true]
    · simp [hstall]
  cacheHits := hc.cacheHits
  batch := hc.batch
  perWorkerOutstanding := hc.perWorkerOutstanding
  outstanding_le := hc.outstanding_le
  wrI := hc.wrI
  remReqI := hc.remReqI

theorem copyOpToNextOp_follows (hc : Mirrors c s) (tracks : Bool) (ht : x.type = .getStall → tracks = (e.protocol == .lin)) :
    Follows () i s (copyOpToNextOp e tracks i) ((c.copyOpToNextOp e i x).map fun c => (x, c)) := by
  have hfails := copyFails_entry hx e tracks
  have hnull : (x.type = .getStall ∧ x.value0.toNat < hottestKeysToTrack ∧ tracks = false) ↔
      e.protocol = .sc ∧ x.type = .getStall ∧ x.value0.toNat < hottestKeysToTrack := by
    constructor
    · rintro ⟨hstall, hhot, rfl⟩
      refine ⟨?_, hstall, hhot⟩
      cases hp : e.protocol with
      | sc => rfl
      | lin => rw [hp] at ht; exact absurd (ht hstall) (by decide)
    · rintro ⟨hp, hstall, hhot⟩
      exact ⟨hstall, hhot, by rw [ht hstall, hp]; rfl⟩
  rw [hnull] at hfails
  rw [Cold.copyOpToNextOp]
  cases hcopy : copySize e.cfg x.opcode with
  | none => exact (copyOpToNextOp_stops e i s tracks).2 (hfails.2 (.inl hcopy))
  | some size =>
    dsimp only
    split
    · next hnull => exact (copyOpToNextOp_stops e i s tracks).2 (hfails.2 (.inr hnull))
    · next hnull =>
      have hok : ¬ (s.slots i).CopyFails e tracks := by
        rw [hfails, hcopy]
        simpa using hnull
      have hsize : copySize e.cfg (s.slots i).opcode = some size := by
        rw [hx]
        exact hcopy
      refine ⟨_, outcome_copyOpToNextOp e i s hok hsize, ?_, hc.copied hx size⟩
      rw [← hx]
      exact (update_eq_self i s.slots).symm

theorem dropPointer_entry :
    (dropPointer i).outcome s = .ok ((), { s with
      hottestKeysPointers :=
        if x.value0.toNat < hottestKeysToTrack ∧ s.hottestKeysPointers x.value0.toNat = i + 1 then
          update s.hottestKeysPointers x.value0.toNat 0
        else s.hottestKeysPointers }) := by
  rw [outcome_dropPointer, hx]
  rfl

theorem countHits_entry (hc : Mirrors c s) (e : Env N) :
    ∃ s', (countHits e i).outcome s = .ok ((), s') ∧ s'.slots = s.slots ∧ Mirrors (c.retire e i x) s' := by
  rw [countHits, outcome_bind_ok (respIs_entry hx _)]
  by_cases hget : x.type = .getSuccess
  · rw [if_pos (beq_iff_eq.2 hget), outcome_bind_ok (valLen_entry hx)]
    by_cases hp : e.protocol = .lin
    · have hdrop := dropPointer_entry (s := { s with cacheHits := s.cacheHits + (x.valLen.toNat + 1) }) hx
      rw [if_pos hp]
      refine ⟨_, (outcome_bind_ok outcome_change).trans hdrop, rfl, hc.nextSlots, hc.nextOpI, ?_, ?_, hc.batch, hc.perWorkerOutstanding,
        hc.outstanding_le, hc.wrI, hc.remReqI⟩
      · simp only [Cold.retire, Cold.repoint, hp, hget, and_self, if_true, hc.hottestKeysPointers]
      · simp only [Cold.retire, hits, hget, if_true, hc.cacheHits]
    · rw [if_neg hp]
      refine ⟨_, (outcome_bind_ok outcome_change).trans outcome_pure, rfl, hc.nextSlots, hc.nextOpI, ?_, ?_, hc.batch,
        hc.perWorkerOutstanding, hc.outstanding_le, hc.wrI, hc.remReqI⟩
      · simp only [Cold.retire, hp, false_and, if_false, hc.hottestKeysPointers]
      · simp only [Cold.retire, hits, hget, if_true, hc.cacheHits]
  · rw [if_neg (by simpa using hget)]
    refine ⟨_, outcome_change, rfl, hc.nextSlots, hc.nextOpI, ?_, ?_, hc.batch, hc.perWorkerOutstanding, hc.outstanding_le, hc.wrI,
      hc.remReqI⟩
    · simp only [Cold.retire, hget, and_false, if_false, hc.hottestKeysPointers]
    · simp only [Cold.retire, hits, hget, if_false, hc.cacheHits]

theorem retire_follows (hc : Mirrors c s) (e : Env N) :
    Follows () i s (retire e i) (.ok ({ x with type := .empty }, c.retire e i x)) := by
  obtain ⟨s₁, hcount, hslots, hc₁⟩ := countHits_entry hx hc e
  refine ⟨_, (outcome_bind_ok hcount).trans outcome_writes, ?_, hc₁.setSlots _⟩
  rw [hslots, hx]
  rfl

/-- A slot is settled in memory as in the recursion, if what is checked before it is copied holds. -/
theorem settle_follows (hc : Mirrors c s) {check : ScanM Unit} (hcheck : e.retires x = false → check.outcome s = .ok ((), s)) :
    Follows () i s (settle e check i) (c.settle e i x) := by
  have hretires := outcome_retires e i s
  rw [retires_entry hx] at hretires
  rw [Cold.settle]
  cases hr : e.retires x with
  | true =>
    rw [hr] at hretires
    rw [if_pos rfl]
    obtain ⟨s', hs', hslots, hc'⟩ := retire_follows hx hc e
    exact ⟨s', (outcome_bind_ok hretires).trans hs', hslots, hc'⟩
  | false =>
    rw [hr] at hretires
    rw [if_neg Bool.false_ne_true]
    have hcopy := copyOpToNextOp_follows hx hc (e.protocol == .lin) (fun _ => rfl)
    have hrun : (settle e check i).outcome s = (copyOpToNextOp e (e.protocol == .lin) i).outcome s :=
      (outcome_bind_ok hretires).trans (outcome_bind_ok (hcheck hr))
    refine Follows.congr hrun ?_
    cases hr' : c.copyOpToNextOp e i x <;> rwa [hr'] at hcopy

theorem hitRound_follows (hc : Mirrors c s) (e : Env N) : Follows () i s (hitRound e i) (c.cacheHitBookkeeping e i x) := by
  have hexpected := expected_entry hx e
  rw [Cold.cacheHitBookkeeping]
  cases hexp : e.expects x with
  | true =>
    rw [hexp] at hexpected
    rw [if_pos rfl]
    exact .congr (outcome_bind_ok (outcome_expect e i s hexpected)) (settle_follows hx hc fun _ => outcome_pure)
  | false =>
    rw [hexp] at hexpected
    rw [if_neg Bool.false_ne_true]
    exact Stops.bind (expect_stops e i s hexpected)

theorem markUnserved_entry (hc : Mirrors c s) :
    ∃ s', (markUnserved i).outcome s = .ok ((), s') ∧ s'.slots = update s.slots i (entry (unserved x)) ∧ Mirrors c s' := by
  rw [markUnserved, outcome_bind_ok (respIs_entry hx _), unserved]
  by_cases hmiss : x.type = .miss
  · rw [if_pos (beq_iff_eq.2 hmiss), if_pos hmiss]
    refine ⟨_, outcome_writes, ?_, hc.setSlots _⟩
    rw [hx]
    rfl
  · rw [if_neg (by simpa using hmiss), if_neg hmiss]
    exact ⟨s, outcome_pure, by rw [← hx, update_eq_self], hc⟩

end

theorem unserved_type_eq_empty : (unserved x).type = .empty ↔ x.type = .empty := by
  rw [unserved]
  split
  · rename_i hmiss
    simp [hmiss]
  · rfl

theorem checkCarried_entry (hx : s.slots i = entry x) (hretires : e.retires x = false) :
    (checkCarried e i).outcome s = if e.protocol = .sc ∧ x.type = .empty then .error .carriedOver else .ok ((), s) := by
  rw [checkCarried]
  by_cases hp : e.protocol = .sc
  · have htest : (respIs i .getSuccess <||> respIs i .empty).outcome s = .ok (_, s) := outcome_or (respIs_entry hx _) (respIs_entry hx _)
    have hget : (x.type == .getSuccess) = false := by
      rw [Env.retires, hp] at hretires
      exact (Bool.or_eq_false_iff.1 hretires).1
    rw [if_pos hp, outcome_bind_ok htest, hget, Bool.false_or]
    by_cases hempty : x.type = .empty
    · rw [if_pos (beq_iff_eq.2 hempty), if_pos ⟨hp, hempty⟩, outcome_stop]
    · rw [if_neg (by simpa using hempty), if_neg fun h => hempty h.2, outcome_pure]
  · rw [if_neg hp, if_neg fun h => hp h.1, outcome_pure]

theorem restRound_follows (hx : s.slots i = entry x) (hc : Mirrors c s) (e : Env N) :
    Follows () i s (restRound e i) (c.runThrough e i x) := by
  obtain ⟨s₁, hmark, hslots, hc₁⟩ := markUnserved_entry hx hc
  have hx₁ : s₁.slots i = entry (unserved x) := by rw [hslots, update_self]
  refine .of_outcome (outcome_bind_ok hmark) hslots ?_
  rw [Cold.runThrough]
  by_cases hcarried : e.protocol = .sc ∧ e.retires (unserved x) = false ∧ x.type = .empty
  · obtain ⟨hp, hretires, hempty⟩ := hcarried
    rw [if_pos ⟨hp, hretires, hempty⟩]
    have hcheck := checkCarried_entry (e := e) hx₁ hretires
    rw [if_pos ⟨hp, unserved_type_eq_empty.2 hempty⟩] at hcheck
    refine ⟨.carriedOver, ?_⟩
    rw [settle, outcome_bind_ok (outcome_retires e i s₁), retires_entry hx₁, hretires, if_neg Bool.false_ne_true, outcome_bind_error hcheck]
  · rw [if_neg hcarried]
    refine settle_follows hx₁ hc₁ fun hretires => ?_
    rw [checkCarried_entry hx₁ hretires, if_neg]
    exact fun h => hcarried ⟨h.1, hretires, unserved_type_eq_empty.1 h.2⟩

/-! ## A request -/

/-- A round of the main loop for the request in slot `i`. -/
def issued (e : Env N) (i : ℕ) (x : Slot N) (c : Cold N) : Except Fault (Slot N × Cold N) :=
  if valLenOk e.cfg x.op = false then .error .valLen
  else if x.machine = e.machineId then .error .localKey
  else if kvsBatch < c.perWorkerOutstanding x.machine + 1 then (c.copyOpToNextOp e i (e.request x)).map fun c => (e.request x, c)
  else (c.addRequest e (e.request x)).map fun c => ({ e.request x with type := .empty }, c)

/-- Whether the round is the last. -/
def isLast (x : Slot N) (c : Cold N) : Bool := kvsBatch < c.perWorkerOutstanding x.machine + 1 && kvsBatch * N ≤ c.wrI

theorem machine_toNat (hN : N ≤ 256) (rm : Fin N) : (UInt8.ofNat rm).toNat = rm := by
  rw [UInt8.toNat_ofNat']
  exact Nat.mod_eq_of_lt (rm.2.trans_le hN)

theorem machine_inj (hN : N ≤ 256) {rm rm' : Fin N} : UInt8.ofNat rm = UInt8.ofNat rm' ↔ rm = rm' := by
  refine ⟨fun h => Fin.ext ?_, fun h => h ▸ rfl⟩
  rw [← machine_toNat hN rm, h, machine_toNat hN]

/-- What is kept for a machine under its byte. -/
theorem update_machine {α : Type} (hN : N ≤ 256) {f : UInt8 → α} {g : Fin N → α} (h : ∀ rm : Fin N, f (.ofNat rm) = g rm) (rm : Fin N)
    (v : α) (rm' : Fin N) : update f (.ofNat rm) v (.ofNat rm') = update g rm v rm' := by
  by_cases he : rm' = rm
  · subst he
    rw [update_self, update_self]
  · rw [update_of_ne fun h => he ((machine_inj hN).1 h), update_of_ne he, h]

theorem handleLackOfCredits_follows {rm : UInt8} (hx : s.slots i = entry x) (hstall : x.type ≠ .getStall)
    (hc : Mirrors c { s with perWorkerOutstanding := update s.perWorkerOutstanding rm (s.perWorkerOutstanding rm - 1) }) (e : Env N) :
    Follows (decide (kvsBatch * N ≤ c.wrI)) i s (handleLackOfCredits e rm i) ((c.copyOpToNextOp e i x).map fun c => (x, c)) := by
  let s₁ : Scan := { s with perWorkerOutstanding := update s.perWorkerOutstanding rm (s.perWorkerOutstanding rm - 1) }
  have hcopy := copyOpToNextOp_follows (e := e) (s := s₁) hx hc false fun h => absurd h hstall
  cases hr : c.copyOpToNextOp e i x with
  | error f =>
    rw [hr] at hcopy
    obtain ⟨f, hf⟩ := hcopy
    exact ⟨f, (outcome_bind_ok outcome_change).trans (outcome_bind_error hf)⟩
  | ok c' =>
    rw [hr] at hcopy
    obtain ⟨s', hs', hslots, hc'⟩ := hcopy
    refine ⟨s', ?_, hslots, hc'⟩
    refine (outcome_bind_ok outcome_change).trans ((outcome_bind_ok hs').trans ?_)
    have hwr : c'.wrI = c.wrI := congrArg Sc.Cold.wrI (copyOpToNextOp_counters hr)
    rw [outcome_look, hc'.wrI, hwr]

theorem handOver_follows (hN : N ≤ 256) (hx : s.slots i = entry x)
    (hc : Mirrors { c with perWorkerOutstanding := update c.perWorkerOutstanding x.machine (c.perWorkerOutstanding x.machine + 1) } s)
    {size : ℕ} (hsize : size = sizeOfOp e.cfg x.op) :
    Follows false i s (handOver (.ofNat x.machine) i size) ((c.addRequest e x).map fun c => ({ x with type := .empty }, c)) := by
  subst hsize
  have hlook : (look fun s => addErpcRequest (s.slots i).op (sizeOfOp e.cfg x.op) (s.batch (.ofNat x.machine)) : ScanM _).outcome s =
      .ok (addErpcRequest x.op (sizeOfOp e.cfg x.op) (c.batch x.machine), s) := by
    rw [outcome_look, hx, hc.batch]
    rfl
  rw [Cold.addRequest]
  cases hadd : addErpcRequest x.op (sizeOfOp e.cfg x.op) (c.batch x.machine) with
  | error f =>
    rw [hadd] at hlook
    exact ⟨f, outcome_bind_error ((outcome_bind_ok hlook).trans outcome_stop)⟩
  | ok b =>
    rw [hadd] at hlook
    refine ⟨_, (outcome_bind_ok ((outcome_bind_ok hlook).trans outcome_change)).trans ((outcome_bind_ok outcome_change).trans
      ((outcome_bind_ok outcome_writes).trans outcome_pure)), ?_, ?_⟩
    · dsimp only
      rw [hx]
      rfl
    · exact ⟨hc.nextSlots, hc.nextOpI, hc.hottestKeysPointers, hc.cacheHits, update_machine hN hc.batch x.machine b,
        hc.perWorkerOutstanding, hc.outstanding_le, congrArg (· + 1) hc.wrI, congrArg (· + 1) hc.remReqI⟩

/-- A count of at most `KVS_BATCH` has room for one more. -/
theorem outstanding_succ {w : ℕ} (hw : w ≤ kvsBatch) : (UInt8.ofNat w + 1).toNat = w + 1 := by
  rw [UInt8.toNat_add, UInt8.toNat_ofNat']
  simp only [UInt8.reduceToNat]
  rw [kvsBatch] at hw
  omega

theorem Mirrors.one_more (hN : N ≤ 256) (hc : Mirrors c s) (rm rm' : Fin N) :
    update s.perWorkerOutstanding (.ofNat rm) (s.perWorkerOutstanding (.ofNat rm) + 1) (.ofNat rm') =
      .ofNat (update c.perWorkerOutstanding rm (c.perWorkerOutstanding rm + 1) rm') := by
  rw [update_machine hN hc.perWorkerOutstanding, hc.perWorkerOutstanding]
  by_cases he : rm' = rm
  · subst he
    rw [update_self, update_self, UInt8.ofNat_add]
    rfl
  · rw [update_of_ne he, update_of_ne he]

theorem dispatch_follows (hN : N ≤ 256) (hx : s.slots i = entry { x with type := .unservedMiss }) (hc : Mirrors c s) (e : Env N) :
    Follows (isLast x c) i s (dispatch e (.ofNat x.machine) i)
      (if kvsBatch < c.perWorkerOutstanding x.machine + 1 then (c.copyOpToNextOp e i (e.request x)).map fun c => (e.request x, c)
        else (c.addRequest e (e.request x)).map fun c => ({ e.request x with type := .empty }, c)) := by
  have hop : (op i).outcome s = .ok (x.op, s) := by rw [op, outcome_reads, hx]; rfl
  let s₁ : Scan := { s with slots := update s.slots i (entry (e.request x)) }
  have hset : (setOp i (setCltGid e.cltGid)).outcome s = .ok ((), s₁) := by
    rw [setOp, outcome_writes, hx]
    rfl
  have hroom : (s.perWorkerOutstanding (.ofNat x.machine) + 1).toNat = c.perWorkerOutstanding x.machine + 1 := by
    rw [hc.perWorkerOutstanding, outstanding_succ (hc.outstanding_le _)]
  let s₂ : Scan := { s₁ with perWorkerOutstanding := update s.perWorkerOutstanding (.ofNat x.machine) (s.perWorkerOutstanding (.ofNat x.machine) + 1) }
  have hrun : (dispatch e (.ofNat x.machine) i).outcome s =
      (if kvsBatch < c.perWorkerOutstanding x.machine + 1 then handleLackOfCredits e (.ofNat x.machine) i
        else handOver (.ofNat x.machine) i (sizeOfOp e.cfg x.op)).outcome s₂ := by
    have hout : (setOutstanding (.ofNat x.machine) (· + 1)).outcome s₁ = .ok ((), s₂) := outcome_change
    have hlook : (look fun s => s.perWorkerOutstanding (.ofNat x.machine) : ScanM UInt8).outcome s₂ =
        .ok (s.perWorkerOutstanding (.ofNat x.machine) + 1, s₂) :=
      congrArg (fun w => Except.ok (w, s₂)) (update_self _ _ s.perWorkerOutstanding)
    refine (outcome_bind_ok hop).trans ((outcome_bind_ok hset).trans ((outcome_bind_ok hout).trans ((outcome_bind_ok hlook).trans ?_)))
    rw [hroom]
  have hx₂ : s₂.slots i = entry (e.request x) := update_self i _ _
  by_cases hfull : kvsBatch < c.perWorkerOutstanding x.machine + 1
  · rw [if_pos hfull] at hrun ⊢
    have hback : Mirrors c { s₂ with
        perWorkerOutstanding := update s₂.perWorkerOutstanding (.ofNat x.machine) (s₂.perWorkerOutstanding (.ofNat x.machine) - 1) } := by
      refine ⟨hc.nextSlots, hc.nextOpI, hc.hottestKeysPointers, hc.cacheHits, hc.batch, fun rm => ?_, hc.outstanding_le, hc.wrI, hc.remReqI⟩
      rw [← hc.perWorkerOutstanding]
      simp [s₂]
    have hlast : isLast x c = decide (kvsBatch * N ≤ c.wrI) := by rw [isLast, decide_eq_true hfull, Bool.true_and]
    rw [hlast]
    exact .of_outcome hrun rfl (handleLackOfCredits_follows hx₂ (by simp [Env.request]) hback e)
  · rw [if_neg hfull] at hrun ⊢
    have hlast : isLast x c = false := by rw [isLast, decide_eq_false hfull, Bool.false_and]
    rw [hlast]
    refine .of_outcome hrun rfl (handOver_follows hN hx₂ ?_ ?_)
    · refine ⟨hc.nextSlots, hc.nextOpI, hc.hottestKeysPointers, hc.cacheHits, hc.batch, hc.one_more hN x.machine, fun rm => ?_, hc.wrI,
        hc.remReqI⟩
      change update c.perWorkerOutstanding x.machine (c.perWorkerOutstanding x.machine + 1) rm ≤ kvsBatch
      rw [update_apply]
      split
      · exact Nat.le_of_not_lt hfull
      · exact hc.outstanding_le rm
    · rw [sizeOfOp, sizeOfOp]
      exact congrArg (fun o => if o = Opcode.put then e.cfg.herdPutReqSize else herdGetReqSize) (request_opcode e x).symm

theorem issue_follows (hN : N ≤ 256) (hx : s.slots i = entry x) (hc : Mirrors c s) (e : Env N) :
    Follows (isLast x c) i s (issue e i) (issued e i x c) := by
  have hval := outcome_checkValLen e i s
  rw [hx] at hval
  rw [issued]
  by_cases hlen : valLenOk e.cfg x.op = false
  · rw [if_pos (show valLenOk e.cfg (entry x).op = false from hlen)] at hval
    rw [if_pos hlen]
    exact ⟨_, outcome_bind_error hval⟩
  rw [if_neg (show ¬ valLenOk e.cfg (entry x).op = false from hlen)] at hval
  rw [if_neg hlen]
  let s₁ : Scan := { s with slots := update s.slots i (entry { x with type := .unservedMiss }) }
  have hset : (setRespType i .unservedMiss).outcome s = .ok ((), s₁) := by
    rw [setRespType, outcome_writes, hx]
    rfl
  have hx₁ : s₁.slots i = entry { x with type := .unservedMiss } := update_self i _ _
  have hmachine : (machine i).outcome s₁ = .ok (.ofNat x.machine, s₁) := by
    rw [machine, outcome_reads, hx₁]
    rfl
  have hrun : (issue e i).outcome s = (if (UInt8.ofNat x.machine).toNat = e.machineId then stop .localKey
      else dispatch e (.ofNat x.machine) i).outcome s₁ :=
    (outcome_bind_ok hval).trans ((outcome_bind_ok hset).trans (outcome_bind_ok hmachine))
  rw [machine_toNat hN] at hrun
  by_cases hlocal : x.machine = e.machineId
  · rw [if_pos (congrArg Fin.val hlocal)] at hrun
    rw [if_pos hlocal]
    exact ⟨_, hrun⟩
  · rw [if_neg fun h => hlocal (Fin.ext h)] at hrun
    rw [if_neg hlocal]
    exact .of_outcome hrun rfl (dispatch_follows hN hx₁ (hc.setSlots _) e)

/-! ## The loops -/

theorem mainLoop_left (e : Env N) (h : ¬ (s.remReqI < windowSize ∧ i < cacheBatchSize)) : (mainLoop e i).outcome s = .ok (i, s) := by
  rw [mainLoop, outcome_bind_ok outcome_look, if_neg h, outcome_pure]

/-- The main loop behind `cache_hit_bookkeeping`. -/
def afterHits (e : Env N) (j : ℕ) : ScanM ℕ :=
  if j < cacheBatchSize then issue e j >>= fun last => if last then pure (j + 1) else mainLoop e (j + 1) else pure j

/-- With the window open the main loop can be entered once more, as `cache_hit_bookkeeping` also stops at the end. -/
theorem mainLoop_open (e : Env N) (hi : i ≤ cacheBatchSize) (hopen : s.remReqI < windowSize) :
    (mainLoop e i).outcome s = (cacheHitBookkeeping e i >>= fun j => afterHits e j).outcome s := by
  obtain rfl | hlt := hi.eq_or_lt
  · have hend : (cacheHitBookkeeping e cacheBatchSize).outcome s = .ok (⟨cacheBatchSize, le_rfl⟩, s) := by
      rw [cacheHitBookkeeping, outcome_bind_ok (outcome_isMiss _ s), if_neg (Nat.lt_irrefl _)]
      split <;> rfl
    rw [mainLoop_left e fun h => Nat.lt_irrefl _ h.2, outcome_bind_ok hend, afterHits, if_neg (Nat.lt_irrefl _), outcome_pure]
  · rw [mainLoop, outcome_bind_ok outcome_look, if_pos ⟨hopen, hlt⟩]
    rfl

theorem mainLoop_miss (e : Env N) (hlt : i < cacheBatchSize) (hopen : s.remReqI < windowSize) (hmiss : s.IsMiss i) :
    (mainLoop e i).outcome s = (issue e i >>= fun last => if last then pure (i + 1) else mainLoop e (i + 1)).outcome s := by
  have hhere : (cacheHitBookkeeping e i).outcome s = .ok (⟨i, le_rfl⟩, s) := by
    rw [cacheHitBookkeeping, outcome_bind_ok (outcome_isMiss _ s), if_pos (decide_eq_true hmiss), outcome_pure]
  rw [mainLoop_open e hlt.le hopen, outcome_bind_ok hhere, afterHits, if_pos hlt]

/-- The inner loop does one slot, then the main loop goes on. -/
theorem mainLoop_hit (e : Env N) (hlt : i < cacheBatchSize) (hopen : s.remReqI < windowSize) (hmiss : ¬ s.IsMiss i) :
    (mainLoop e i).outcome s = (hitRound e i >>= fun _ => mainLoop e (i + 1)).outcome s := by
  have hround : (cacheHitBookkeeping e i).outcome s = (hitRound e i >>= fun _ => cacheHitBookkeeping e (i + 1) >>= fun j =>
      (pure ⟨j, Nat.le_of_succ_le j.2⟩ : ScanM {j // i ≤ j})).outcome s := by
    rw [cacheHitBookkeeping, outcome_bind_ok (outcome_isMiss _ s), if_neg (by simpa using hmiss), if_pos hlt]
  rw [mainLoop_open e hlt.le hopen]
  cases hr : (hitRound e i).outcome s with
  | error f => rw [outcome_bind_error (hround.trans (outcome_bind_error hr)), outcome_bind_error hr]
  | ok p =>
    obtain ⟨⟨⟩, s₁⟩ := p
    have hopen₁ : s₁.remReqI < windowSize := ((atSlot_hitRound e i s).returned hr).remReqI ▸ hopen
    rw [outcome_bind_ok hr, mainLoop_open e hlt hopen₁]
    cases hrest : (cacheHitBookkeeping e (i + 1)).outcome s₁ with
    | error f =>
      rw [outcome_bind_error (hround.trans ((outcome_bind_ok hr).trans (outcome_bind_error hrest))), outcome_bind_error hrest]
    | ok p =>
      rw [outcome_bind_ok hrest, outcome_bind_ok (hround.trans ((outcome_bind_ok hr).trans (outcome_bind_ok hrest)))]

/-- The arrays hold these slots from index `i` on. -/
def Stored (i : ℕ) (xs : List (Slot N)) (s : Scan) : Prop := ∀ j x, xs[j]? = some x → s.slots (i + j) = entry x

theorem stored_cons {xs : List (Slot N)} : Stored i (x :: xs) s ↔ s.slots i = entry x ∧ Stored (i + 1) xs s := by
  constructor
  · intro h
    refine ⟨h 0 x rfl, fun j y hy => ?_⟩
    rw [Nat.add_assoc, Nat.add_comm 1 j]
    exact h (j + 1) y hy
  · rintro ⟨hx, hxs⟩ j y hy
    cases j with
    | zero =>
      cases hy
      exact hx
    | succ j =>
      rw [Nat.add_comm j 1, ← Nat.add_assoc]
      exact hxs j y hy

theorem Stored.congr {xs : List (Slot N)} (h : Stored i xs s) (hs : ∀ j, i ≤ j → s'.slots j = s.slots j) : Stored i xs s' :=
  fun j x hx => (hs _ (Nat.le_add_right i j)).trans (h j x hx)

/-- `m` does in memory what gives `r` for the slots from `i` on. -/
def FollowsAll (i : ℕ) (s : Scan) (m : ScanM Unit) : Except Fault (List (Slot N) × Cold N) → Prop
  | .error _ => ∃ f, m.outcome s = .error f
  | .ok (xs, c) => ∃ s', m.outcome s = .ok ((), s') ∧ Stored i xs s' ∧ (∀ j < i, s'.slots j = s.slots j) ∧ Mirrors c s'

theorem FollowsAll.congr {m m' : ScanM Unit} {r : Except Fault (List (Slot N) × Cold N)} (h : m.outcome s = m'.outcome s)
    (hm : FollowsAll i s m' r) : FollowsAll i s m r := by
  cases r with
  | error _ =>
    obtain ⟨f, hf⟩ := hm
    exact ⟨f, h.trans hf⟩
  | ok p =>
    obtain ⟨s', hs', hp⟩ := hm
    exact ⟨s', h.trans hs', hp⟩

/-- The first slot by `m`, then the others by `k`. -/
theorem FollowsAll.cons {α : Type} {v : α} {m : ScanM α} {k l : ScanM Unit} {r : Except Fault (Slot N × Cold N)}
    {g : Slot N → Cold N → Except Fault (List (Slot N) × Cold N)} (h : Follows v i s m r)
    (hfault : ∀ f, m.outcome s = .error f → l.outcome s = .error f)
    (hok : ∀ s₁, m.outcome s = .ok (v, s₁) → l.outcome s = k.outcome s₁)
    (hrest : ∀ y c₁ s₁, s₁.slots = update s.slots i (entry y) → Mirrors c₁ s₁ → FollowsAll (i + 1) s₁ k (g y c₁)) :
    FollowsAll i s l (r >>= fun p => (g p.1 p.2).map fun q => (p.1 :: q.1, q.2)) := by
  cases r with
  | error _ =>
    obtain ⟨f, hf⟩ := h
    exact ⟨f, hfault f hf⟩
  | ok p =>
    obtain ⟨y, c₁⟩ := p
    obtain ⟨s₁, hs₁, hslots, hc₁⟩ := h
    have hfollow := hrest y c₁ s₁ hslots hc₁
    change FollowsAll i s l ((g y c₁).map fun q => (y :: q.1, q.2))
    cases hr : g y c₁ with
    | error _ =>
      rw [hr] at hfollow
      obtain ⟨f, hf⟩ := hfollow
      exact ⟨f, (hok s₁ hs₁).trans hf⟩
    | ok q =>
      rw [hr] at hfollow
      obtain ⟨s₂, hs₂, hstored, hbefore, hc₂⟩ := hfollow
      refine ⟨s₂, (hok s₁ hs₁).trans hs₂, stored_cons.2 ⟨?_, hstored⟩, fun j hj => ?_, hc₂⟩
      · rw [hbefore i (Nat.lt_succ_self i), hslots, update_self]
      · rw [hbefore j (hj.trans (Nat.lt_succ_self i)), hslots, update_of_ne hj.ne]

theorem runThroughRestOfOps_follows (e : Env N) {xs : List (Slot N)} (hlen : i + xs.length = cacheBatchSize) (hxs : Stored i xs s)
    (hc : Mirrors c s) : FollowsAll i s (runThroughRestOfOps e i) (Client.runThroughRestOfOps e i xs c) := by
  induction xs generalizing i c s with
  | nil =>
    rw [runThroughRestOfOps, if_neg (by simp at hlen; omega)]
    exact ⟨s, rfl, hxs, fun _ _ => rfl, hc⟩
  | cons x xs ih =>
    obtain ⟨hx, hxs⟩ := stored_cons.1 hxs
    rw [List.length_cons] at hlen
    have hrun : (runThroughRestOfOps e i) = (restRound e i >>= fun _ => runThroughRestOfOps e (i + 1)) := by
      rw [runThroughRestOfOps, if_pos (by omega)]
    rw [hrun]
    refine FollowsAll.cons (g := fun _ c => Client.runThroughRestOfOps e (i + 1) xs c) (restRound_follows hx hc e)
      (fun f hf => outcome_bind_error hf) (fun s₁ hs₁ => outcome_bind_ok hs₁) fun y c₁ s₁ hslots hc₁ => ?_
    refine ih (by omega) (hxs.congr fun j hj => ?_) hc₁
    rw [hslots, update_of_ne (by omega)]

theorem handleColdRequests_issued {xs : List (Slot N)} (hopen : ¬ windowSize ≤ c.remReqI) (hmiss : x.isMiss = true) :
    Client.handleColdRequests e i (x :: xs) c = issued e i x c >>= fun p =>
      (if isLast x c then Client.runThroughRestOfOps e (i + 1) xs p.2 else Client.handleColdRequests e (i + 1) xs p.2).map
        fun q => (p.1 :: q.1, q.2) := by
  rw [Client.handleColdRequests, if_neg hopen, if_neg (by simp [hmiss]), issued, isLast]
  by_cases hlen : valLenOk e.cfg x.op = false
  · rw [if_pos hlen, if_pos hlen]
    rfl
  rw [if_neg hlen, if_neg hlen]
  by_cases hlocal : x.machine = e.machineId
  · rw [if_pos hlocal, if_pos hlocal]
    rfl
  rw [if_neg hlocal, if_neg hlocal]
  by_cases hfull : kvsBatch < c.perWorkerOutstanding x.machine + 1
  · rw [if_pos hfull, if_pos hfull, decide_eq_true hfull, Bool.true_and]
    cases c.copyOpToNextOp e i (e.request x) with
    | error f => rfl
    | ok c' =>
      by_cases hall : kvsBatch * N ≤ c.wrI
      · rw [decide_eq_true hall]
        change (if kvsBatch * N ≤ c.wrI then _ else _) = _
        rw [if_pos hall]
        rfl
      · rw [decide_eq_false hall]
        change (if kvsBatch * N ≤ c.wrI then _ else _) = _
        rw [if_neg hall]
        rfl
  · rw [if_neg hfull, if_neg hfull, decide_eq_false hfull, Bool.false_and]
    cases c.addRequest e (e.request x) with
    | error f => rfl
    | ok c' => rfl

theorem isMiss_iff (hx : s.slots i = entry x) : s.IsMiss i ↔ x.isMiss = true := by
  rw [IsMiss, hx, Slot.isMiss, Bool.or_eq_true, beq_iff_eq, beq_iff_eq]
  exact or_congr RespType.code_inj RespType.code_inj

/-- **The loops over memory compute what the recursion over the slots computes.** -/
theorem mainLoop_follows (hN : N ≤ 256) (e : Env N) {xs : List (Slot N)} (hlen : i + xs.length = cacheBatchSize) (hxs : Stored i xs s)
    (hc : Mirrors c s) : FollowsAll i s (mainLoop e i >>= runThroughRestOfOps e) (Client.handleColdRequests e i xs c) := by
  induction xs generalizing i c s with
  | nil =>
    have hleft := mainLoop_left (s := s) (i := i) e fun h => Nat.not_lt.2 hlen.ge h.2
    exact .congr (outcome_bind_ok hleft) (runThroughRestOfOps_follows e hlen hxs hc)
  | cons x xs ih =>
    obtain ⟨hx, htail⟩ := stored_cons.1 hxs
    have hlt : i < cacheBatchSize := by rw [List.length_cons] at hlen; omega
    have hlen' : i + 1 + xs.length = cacheBatchSize := by rw [List.length_cons] at hlen; omega
    have hkeep {y : Slot N} {s₁ : Scan} (hslots : s₁.slots = update s.slots i (entry y)) : Stored (i + 1) xs s₁ :=
      htail.congr fun j hj => by rw [hslots, update_of_ne (by omega)]
    by_cases hopen : windowSize ≤ c.remReqI
    · -- the window is full
      have hfull : windowSize ≤ s.remReqI := by rwa [hc.remReqI]
      have hleft := mainLoop_left (s := s) (i := i) e fun h => Nat.not_lt.2 hfull h.1
      rw [Client.handleColdRequests, if_pos hopen]
      exact .congr (outcome_bind_ok hleft) (runThroughRestOfOps_follows e hlen hxs hc)
    have hwindow : s.remReqI < windowSize := by rw [hc.remReqI]; omega
    by_cases hmiss : x.isMiss = true
    · have hloop := mainLoop_miss e hlt hwindow ((isMiss_iff hx).2 hmiss)
      rw [handleColdRequests_issued hopen hmiss]
      refine FollowsAll.cons (k := if isLast x c then runThroughRestOfOps e (i + 1) else mainLoop e (i + 1) >>= runThroughRestOfOps e)
        (g := fun _ c₁ => if isLast x c then Client.runThroughRestOfOps e (i + 1) xs c₁ else Client.handleColdRequests e (i + 1) xs c₁)
        (issue_follows hN hx hc e) (fun f hf => ?_) (fun s₁ hs₁ => ?_) fun y c₁ s₁ hslots hc₁ => ?_
      · exact outcome_bind_error (hloop.trans (outcome_bind_error hf))
      · have hnext := hloop.trans (outcome_bind_ok hs₁)
        cases hlast : isLast x c with
        | true =>
          rw [hlast] at hnext
          exact outcome_bind_ok hnext
        | false =>
          rw [hlast] at hnext
          exact outcome_bind_congr hnext
      · cases isLast x c with
        | true => exact runThroughRestOfOps_follows e hlen' (hkeep hslots) hc₁
        | false => exact ih hlen' (hkeep hslots) hc₁
    · have hloop := mainLoop_hit e hlt hwindow fun h => hmiss ((isMiss_iff hx).1 h)
      rw [Client.handleColdRequests, if_neg hopen, if_pos (by simpa using hmiss)]
      refine FollowsAll.cons (k := mainLoop e (i + 1) >>= runThroughRestOfOps e)
        (g := fun _ c => Client.handleColdRequests e (i + 1) xs c) (hitRound_follows hx hc e) (fun f hf => ?_) (fun s₁ hs₁ => ?_)
        fun y c₁ s₁ hslots hc₁ => ih hlen' (hkeep hslots) hc₁
      · exact outcome_bind_error (hloop.trans (outcome_bind_error hf))
      · exact outcome_bind_congr (hloop.trans (outcome_bind_ok hs₁))

/-- A call on memory that holds the batch returns what the recursion over the slots returns. -/
theorem handleColdRequests_returns (hN : N ≤ 256) {xs xs' : List (Slot N)} {c' : Cold N} (hlen : xs.length = cacheBatchSize)
    (hxs : Stored 0 xs s) (hc : Mirrors c s) (hwr : c.wrI = 0) (hok : Client.handleColdRequests e 0 xs c = .ok (xs', c')) :
    ∃ s', (handleColdRequests e).outcome s = .ok (c'.wrI, s') ∧ Stored 0 xs' s' ∧ Mirrors c' s' := by
  have hstart : (change fun s => { s with wrI := 0 } : ScanM Unit).outcome s = .ok ((), s) := by
    rw [outcome_change, ← hwr, ← hc.wrI]
  have hfollow := mainLoop_follows hN e (by rw [Nat.zero_add, hlen]) hxs hc
  rw [hok] at hfollow
  obtain ⟨s', hs', hstored, -, hc'⟩ := hfollow
  refine ⟨s', ?_, hstored, hc'⟩
  cases hloop : (mainLoop e 0).outcome s with
  | error f =>
    rw [outcome_bind_error hloop] at hs'
    cases hs'
  | ok p =>
    rw [outcome_bind_ok hloop] at hs'
    rw [handleColdRequests, outcome_bind_ok hstart, outcome_bind_ok hloop, outcome_bind_ok hs', outcome_look, hc'.wrI]

/-! ## The window of a client -/

/-- A machine is handed as many requests as it has room for, or all. -/
theorem count_fits (s : Scan) (rm : UInt8) (k : ℕ) :
    Nat.count (fun j => s.Fits j ∧ (s.slots j).machine = rm) k = min (s.waiting rm k) (room (s.perWorkerOutstanding rm)) := by
  induction k with
  | zero => simp [waiting]
  | succ k ih =>
    rw [Nat.count_succ, ih, waiting_succ]
    by_cases hrm : (s.slots k).machine = rm
    · subst hrm
      simp only [and_true, Fits]
      by_cases hmiss : s.IsMiss k
      · simp only [hmiss, true_and, if_true]
        split <;> omega
      · simp [hmiss]
    · simp [hrm]

theorem handed_le (s : Scan) {rms : Finset UInt8} {n k : ℕ} (hmem : ∀ j < k, s.IsMiss j → (s.slots j).machine ∈ rms)
    (hroom : ∀ rm ∈ rms, room (s.perWorkerOutstanding rm) ≤ n) : s.handed k ≤ n * rms.card := by
  rw [handed, Nat.count_eq_card_filter_range]
  have hmaps : ∀ j ∈ (Finset.range k).filter s.Fits, (s.slots j).machine ∈ rms := by
    intro j hj
    rw [Finset.mem_filter, Finset.mem_range] at hj
    exact hmem j hj.1 hj.2.1
  refine Finset.card_le_mul_card_image_of_maps_to hmaps n fun rm hrm => ?_
  rw [Finset.filter_filter, ← Nat.count_eq_card_filter_range, count_fits]
  exact (Nat.min_le_right _ _).trans (hroom rm hrm)

/-- With nothing outstanding and no request for the own machine, `KVS_BATCH` requests go to each of the others. -/
theorem handed_le_others {xs : List (Slot N)} (hxs : Stored 0 xs s) (hremote : ∀ x ∈ xs, x.machine ≠ e.machineId)
    (hzero : ∀ rm : Fin N, s.perWorkerOutstanding (.ofNat rm) = 0) {k : ℕ} (hk : k ≤ xs.length) : s.handed k ≤ kvsBatch * (N - 1) := by
  let others : Finset UInt8 := (Finset.univ.erase e.machineId).image fun rm : Fin N => UInt8.ofNat rm
  have hmem (j : ℕ) (hj : j < k) : (s.slots j).machine ∈ others := by
    have hget := List.getElem?_eq_getElem (hj.trans_le hk)
    have hslot := hxs j _ hget
    rw [Nat.zero_add] at hslot
    rw [hslot]
    exact Finset.mem_image_of_mem _ (Finset.mem_erase.2 ⟨hremote _ (List.mem_of_getElem? hget), Finset.mem_univ _⟩)
  have hroom : ∀ rm ∈ others, room (s.perWorkerOutstanding rm) ≤ kvsBatch := by
    intro rm hrm
    obtain ⟨rm', -, rfl⟩ := Finset.mem_image.1 hrm
    rw [hzero]
    decide
  calc s.handed k ≤ kvsBatch * others.card := handed_le s (fun j hj _ => hmem j hj) hroom
    _ ≤ kvsBatch * (N - 1) := by
      refine Nat.mul_le_mul_left _ (Finset.card_image_le.trans ?_)
      rw [Finset.card_erase_of_mem (Finset.mem_univ _), Finset.card_univ, Fintype.card_fin]

/-- What is kept for the machines, under their bytes. -/
def byMachine {α : Type} (g : Fin N → α) (z : α) (rm : UInt8) : α := if h : rm.toNat < N then g ⟨rm.toNat, h⟩ else z

theorem byMachine_ofNat {α : Type} (hN : N ≤ 256) (g : Fin N → α) (z : α) (rm : Fin N) : byMachine g z (.ofNat rm) = g rm := by
  have hlt : (UInt8.ofNat rm).toNat < N := (machine_toNat hN rm).trans_lt rm.2
  exact (dif_pos hlt).trans (congrArg g (Fin.ext (machine_toNat hN rm)))

/-- Memory for a batch, with zeros behind it. -/
def memory (xs : List (Slot N)) (c : Cold N) : Scan where
  slots j := (xs[j]?.map entry).getD ⟨fun _ => 0, 0, 0⟩
  nextSlots j := entry (c.nextOps j)
  nextOpI := c.nextOpI
  hottestKeysPointers := c.hottestKeysPointers
  cacheHits := c.cacheHits
  batch := byMachine c.batch []
  perWorkerOutstanding := byMachine (fun rm => .ofNat (c.perWorkerOutstanding rm)) 0
  wrI := c.wrI
  remReqI := c.remReqI

theorem memory_stored (xs : List (Slot N)) (c : Cold N) : Stored 0 xs (memory xs c) := by
  intro j x hx
  simp [memory, hx]

theorem memory_mirrors (hN : N ≤ 256) (xs : List (Slot N)) (hle : ∀ rm, c.perWorkerOutstanding rm ≤ kvsBatch) :
    Mirrors c (memory xs c) :=
  ⟨fun _ => rfl, rfl, rfl, rfl, byMachine_ofNat hN _ _, byMachine_ofNat hN (fun rm => UInt8.ofNat (c.perWorkerOutstanding rm)) 0, hle,
    rfl, rfl⟩

section

variable {t : Trace N} {cached : UInt64 → Bool} {inlining : Bool} {es : List (Iteration N)} {st st₀ : State N} {n : ℕ} {f : Fill N}
  {slots : List (Slot N)}

/-- **An iteration stays within the arrays just if its last slot is a request.** With up to six
machines the window does not fill up, in no state of no run. -/
theorem within_iff_of_run (hN : N ≤ 6) (hfit : Client.Fits e t) (hres : Resident t cached)
    (hrun : (client e t cached inlining).Run st₀ es st) (hprep : Prepared e t cached (st.swapOps inlining) n f slots) :
    (∃ s, Stored 0 slots s ∧ Mirrors ((st.swapOps inlining).cold f) s) ∧
    ∀ s, Stored 0 slots s → Mirrors ((st.swapOps inlining).cold f) s →
      (Within ((handleColdRequests e).log s) ↔ ∃ x, slots[cacheBatchSize - 1]? = some x ∧ x.isMiss = true) := by
  refine ⟨⟨_, memory_stored slots _, memory_mirrors (by omega) slots fun _ => Nat.zero_le _⟩, fun s hstored hc => ?_⟩
  have hadm := (ordered_of_run hres hrun).admissible_sent hres hfit (admissible_of_run hres hfit hrun) hprep
  obtain ⟨slots', fs, c', hok, -⟩ := handled_of_prepared hfit hres hrun hprep
  obtain ⟨s', hs', -⟩ := handleColdRequests_returns (by omega) hprep.length hstored hc rfl hok
  have hstays (k : ℕ) (hk : k < cacheBatchSize) : ¬ s.Leaves N k := by
    have hle : s.handed k ≤ kvsBatch * (N - 1) :=
      handed_le_others hstored (fun x hx => (hadm x hx).machine) hc.perWorkerOutstanding (by rw [hprep.length]; exact hk.le)
    have hpos := e.machineId.pos
    rw [Leaves, hc.remReqI]
    simp only [State.cold, windowSize, kvsBatch] at *
    omega
  have hlast : s.IsMiss (cacheBatchSize - 1) ↔ ∃ x, slots[cacheBatchSize - 1]? = some x ∧ x.isMiss = true := by
    have hget : slots[cacheBatchSize - 1]? = some _ := List.getElem?_eq_getElem (by rw [hprep.length]; decide)
    have hslot := hstored _ _ hget
    rw [Nat.zero_add] at hslot
    rw [isMiss_iff hslot, hget]
    simp
  rw [← hlast]
  obtain ⟨hw, hend⟩ | ⟨hp, hmiss, -⟩ := handleColdRequests_ends e s
  · refine iff_of_true hw ?_
    obtain ⟨-, -, -, hstop⟩ | hm | ⟨k, hk, hl⟩ := hend
    · exact absurd hstop (not_stops hs')
    · exact hm
    · exact absurd hl (hstays k hk)
  · exact iff_of_false hp.not_within hmiss

end

end Client.Scan

end CcKvs
