/-
A client over any number of iterations. `Ordered` is what holds at the top of
the loop; from it follow that the slots of every batch are handled once and
cold requests go out in the order of the trace, and what the pointers at
tracked reads are worth when the next batch is filled.
-/
import CcKvs.Client.Order

namespace CcKvs.Client

open Function Sc Bytes

section

variable {N : ℕ}

/-- The commands taken in these iterations. -/
def consumed (es : List (Iteration N)) : ℕ := (es.map Iteration.commands).sum

/-- What `add_erpc_request` was called with for machine `rm`. -/
def handed (rm : Fin N) (es : List (Iteration N)) : List Bytes := es.flatMap fun i => (i.batch rm).map Prod.fst

/-- The slots copied to the next batch. -/
def State.waiting (s : State N) : List (Slot N) := (List.range s.nextOpI).map s.nextOps

variable {e : Env N} {t : Trace N} {cached : UInt64 → Bool} {inlining : Bool} {es : List (Iteration N)} {s s' : State N}
  {it : Iteration N} {n m : ℕ} {f : Fill N} {slots slots' : List (Slot N)} {c : Cold N} {served : Fin N → List Bytes}

theorem consumed_append (es : List (Iteration N)) (it : Iteration N) : consumed (es ++ [it]) = consumed es + it.commands := by
  simp [consumed]

theorem handed_append (rm : Fin N) (es : List (Iteration N)) (it : Iteration N) :
    handed rm (es ++ [it]) = handed rm es ++ (it.batch rm).map Prod.fst := by
  simp [handed]

@[simp] theorem swapOps_ops (s : State N) : (s.swapOps inlining).ops = s.nextOps := by cases inlining <;> rfl
@[simp] theorem swapOps_traceIter (s : State N) : (s.swapOps inlining).traceIter = s.traceIter := by cases inlining <;> rfl
@[simp] theorem swapOps_nextOpI (s : State N) : (s.swapOps inlining).nextOpI = s.nextOpI := by cases inlining <;> rfl
@[simp] theorem swapOps_pointers (s : State N) : (s.swapOps inlining).hottestKeysPointers = s.hottestKeysPointers := by
  cases inlining <;> rfl

/-! ## Between two iterations -/

structure Ordered (e : Env N) (t : Trace N) (cached : UInt64 → Bool) (es : List (Iteration N)) (s : State N) : Prop where
  iter : s.traceIter = consumed es % t.cmds.length
  le : s.nextOpI ≤ cacheBatchSize
  left : ∀ x ∈ s.waiting, Left e.protocol x ∧ (x.type = .unservedMiss ↔ cached x.key = false)
  order : InOrder e t cached (fun rm => handed rm es) (consumed es) s.waiting
  tracked : e.protocol = .lin → ∀ k < hottestKeysToTrack, s.hottestKeysPointers k ≠ 0 → s.hottestKeysPointers k ≤ s.nextOpI ∧
    (s.nextOps (s.hottestKeysPointers k - 1)).type = .getStall ∧
    ReadOf t (consumed es) k (s.nextOps (s.hottestKeysPointers k - 1))

theorem mem_waiting {j : ℕ} (hj : j < s.nextOpI) : s.nextOps j ∈ s.waiting := List.mem_map.2 ⟨j, List.mem_range.2 hj, rfl⟩

theorem State.Init.ordered (h : s.Init) : Ordered e t cached [] s where
  iter := h.traceIter.trans (Nat.zero_mod _).symm
  le := h.nextOpI ▸ Nat.zero_le _
  left := by simp [State.waiting, h.nextOpI]
  order := by
    intro rm
    simp [State.waiting, h.nextOpI, handed, consumed, Trace.first, missing]
  tracked _ k _ h0 := absurd (h.hottestKeysPointers k) h0

/-- The loop that fills the batch starts with what was left. -/
theorem Ordered.filling (h : Ordered e t cached es s) : Filling e t cached (fun rm => handed rm es) (consumed es)
    (Fill.start e (s.swapOps inlining).traceIter (s.swapOps inlining).ops (s.swapOps inlining).nextOpI
      (s.swapOps inlining).hottestKeysPointers) := by
  simp only [swapOps_ops, swapOps_traceIter, swapOps_nextOpI, swapOps_pointers]
  refine ⟨?_, h.order, ?_⟩
  · intro j hj
    obtain ⟨hl, hcold⟩ := h.left _ (mem_waiting hj)
    exact ⟨.inl hl, fun _ => hcold⟩
  · intro hp k hk
    rw [show (Fill.start e s.traceIter s.nextOps s.nextOpI s.hottestKeysPointers).hottestKeysPointers =
      s.hottestKeysPointers by simp [Fill.start, hp]]
    intro h0
    obtain ⟨hle, htype, hread⟩ := h.tracked hp k hk h0
    refine ⟨hle, ?_, hread⟩
    have hcold := (h.left _ (mem_waiting (show s.hottestKeysPointers k - 1 < s.nextOpI by omega))).2
    rw [htype] at hcold
    have hne : cached (s.nextOps (s.hottestKeysPointers k - 1)).key ≠ false := fun hc => by simpa using hcold.2 hc
    exact Bool.eq_true_of_not_eq_false hne

/-- The loop ends after `n` commands and not earlier. -/
def FilledBy (e : Env N) (t : Trace N) (s : State N) (n : ℕ) (f : Fill N) : Prop :=
  ∃ tagged, batchFromTrace e tagged t n s.traceIter s.ops s.nextOpI s.hottestKeysPointers = .ok f ∧
    ∀ m < n, ∀ f', batchFromTrace e tagged t m s.traceIter s.ops s.nextOpI s.hottestKeysPointers = .ok f' → f'.i < cacheBatchSize

/-- What a round of the loop keeps holds of the batch it ends with. -/
theorem FilledBy.induct (h : FilledBy e t s n f) (P : ℕ → Fill N → Prop) (hiter : s.traceIter = m % t.cmds.length)
    (h0 : P m (Fill.start e s.traceIter s.ops s.nextOpI s.hottestKeysPointers))
    (hround : ∀ tagged m f f', P m f → f.round e tagged t (t.command m) = .ok f' → P (m + 1) f') :
    P (m + n) f ∧ f.traceIter = (m + n) % t.cmds.length := by
  obtain ⟨tagged, hok, hroom⟩ := h
  have hcheck : carriedOver s.ops s.nextOpI = true := by
    unfold batchFromTrace at hok
    split at hok
    · assumption
    · cases hok
  simp only [batchFromTrace, hcheck, if_true] at hok hroom
  exact Fill.loop_induct P hiter h0 (fun m f f' hP _ hr => hround tagged m f f' hP hr) hok hroom

theorem Prepared.becomes (h : Prepared e t cached s n f slots) : List.Forall₂ (Becomes e cached) f.slots slots := by
  obtain ⟨probed, hprobe, hsends⟩ := h.probe
  rw [Fill.slots, h.full]
  exact forall₂_comp hprobe hsends.sends

theorem Prepared.length (h : Prepared e t cached s n f slots) : slots.length = cacheBatchSize := by
  rw [← h.becomes.length_eq, Fill.slots, List.length_map, List.length_range, h.full]

/-- The batch when it is full. -/
theorem Ordered.filled (hres : Resident t cached) (h : Ordered e t cached es s)
    (hfill : FilledBy e t (s.swapOps inlining) n f) :
    Filling e t cached (fun rm => handed rm es) (consumed es + n) f ∧ f.traceIter = (consumed es + n) % t.cmds.length :=
  hfill.induct (Filling e t cached fun rm => handed rm es) (by rw [swapOps_traceIter]; exact h.iter) h.filling
    fun _ _ _ _ hf hr => hf.round hres hr

/-- The batch as `handle_cold_requests` finds it. -/
theorem Ordered.sent (hres : Resident t cached) (h : Ordered e t cached es s)
    (hprep : Prepared e t cached (s.swapOps inlining) n f slots) :
    Sent e t cached (fun rm => handed rm es) (consumed es + n) f.hottestKeysPointers slots ∧
      f.traceIter = (consumed es + n) % t.cmds.length := by
  have hfill := h.filled hres hprep.fill
  exact ⟨hfill.1.becomes hprep.becomes, hfill.2⟩

theorem cold_counted (s : State N) (f : Fill N) : (s.cold f).Counted := fun _ => ⟨Nat.le_refl _, Nat.zero_le _⟩

/-- What an iteration leaves. -/
theorem Sent.ordered {fs : List (Fate N)}
    (h : Sent e t cached (fun rm => handed rm es) (consumed es + n) f.hottestKeysPointers slots)
    (hiter : f.traceIter = (consumed es + n) % t.cmds.length) (hlen : slots.length = cacheBatchSize)
    (hh : Handled e true 0 slots ((s.swapOps inlining).cold f) slots' fs c) (ops thirdOps : ℕ → Slot N) :
    Ordered e t cached (es ++ [⟨n, slots, c.batch⟩])
      ⟨f.traceIter, ops, c.nextOps, thirdOps, c.nextOpI, c.hottestKeysPointers, c.cacheHits⟩ := by
  have hslots : c.slots = fs.filterMap Fate.next := slots_eq_next hh rfl
  have hbatch (rm : Fin N) : (c.batch rm).map Prod.fst = fs.filterMap (Fate.handedTo rm) := by
    rw [hh.batch rm]
    simp [State.cold, coldBatch, Function.comp_def]
  refine ⟨by rw [consumed_append]; exact hiter, ?_, ?_, ?_, ?_⟩
  · show c.nextOpI ≤ cacheBatchSize
    have hcount : c.nextOpI = (fs.filterMap Fate.next).length := by
      rw [← hslots, Cold.slots, List.length_map, List.length_range]
    rw [hcount, ← hlen, hh.meets.length_eq]
    exact List.length_filterMap_le _ _
  · intro x hx
    exact h.left hh (hslots ▸ hx)
  · have horder := h.inOrder hh
    rw [← hslots] at horder
    intro rm
    beta_reduce
    rw [consumed_append, handed_append, hbatch rm]
    exact horder rm
  · intro hp k hk h0
    rw [consumed_append]
    exact h.tracked_next hh hp rfl rfl hk h0

theorem Ordered.step (hres : Resident t cached) (h : Ordered e t cached es s) (hst : Step e t cached inlining s it s') :
    Ordered e t cached (es ++ [it]) s' := by
  obtain ⟨n, f, slots, slots', c, hprep, hok⟩ := hst
  obtain ⟨hsent, hiter⟩ := h.sent hres hprep
  obtain ⟨fs, hh⟩ := handled_of_ok (fun x hx => (hsent.answered x hx).ready) (cold_counted _ _) hok
  exact hsent.ordered hiter hprep.length hh _ _

theorem ordered_of_run (hres : Resident t cached) {s₀ : State N} (hrun : (client e t cached inlining).Run s₀ es s) :
    Ordered e t cached es s :=
  hrun.invariant (Ordered e t cached) State.Init.ordered fun _ h hst => h.step hres hst

/-- What the loop that fills the batch relies on. -/
theorem carriedOver_of_run (hres : Resident t cached) {s₀ : State N} (hrun : (client e t cached inlining).Run s₀ es s) :
    CarriedOver e.protocol (s.swapOps inlining).ops (s.swapOps inlining).nextOpI (s.swapOps inlining).hottestKeysPointers := by
  have h := ordered_of_run hres hrun
  simp only [swapOps_ops, swapOps_nextOpI, swapOps_pointers]
  refine ⟨h.le, fun j hj => (h.left _ (mem_waiting hj)).1, ?_⟩
  intro hp k hk h0
  obtain ⟨hle, htype, hread⟩ := h.tracked hp k hk h0
  exact ⟨hle, htype, hread.tracks.value0⟩

/-! ## Requests can be handed over -/

theorem Ordered.admissible_sent (hres : Resident t cached) (hfit : Fits e t) (h : Ordered e t cached es s)
    (ha : ∀ x ∈ s.waiting, Admissible e x) (hprep : Prepared e t cached (s.swapOps inlining) n f slots) :
    ∀ x ∈ slots, Admissible e x := by
  have hfill := FilledBy.induct hprep.fill
    (fun m f => Filling e t cached (fun rm => handed rm es) m f ∧ ∀ j < f.i, Admissible e (f.ops j))
    (by rw [swapOps_traceIter]; exact h.iter)
    ⟨h.filling, by
      simp only [swapOps_ops, swapOps_nextOpI]
      intro j hj
      exact ha _ (mem_waiting hj)⟩
    fun _ _ _ _ hf hr => ⟨hf.1.round hres hr, admissible_round hfit hf.2 hr⟩
  intro z hz
  obtain ⟨x, hx, y, hprobe, hs⟩ := Lts.exists_mem_of_forall₂ hprep.becomes.flip hz
  obtain ⟨j, hj, rfl⟩ := mem_slots hx
  exact (hfill.1.1.waiting j hj).admissible (hfill.1.2 j hj) hprobe hs

theorem admissible_of_run (hres : Resident t cached) (hfit : Fits e t) {s₀ : State N}
    (hrun : (client e t cached inlining).Run s₀ es s) : ∀ x ∈ s.waiting, Admissible e x := by
  refine hrun.invariant (fun _ s => ∀ x ∈ s.waiting, Admissible e x) ?_ ?_
  · intro h
    simp [State.waiting, h.nextOpI]
  · intro es s it s' hrun ha hst x hx
    obtain ⟨n, f, slots, slots', c, hprep, hok⟩ := hst
    have hordered := ordered_of_run hres hrun
    obtain ⟨hsent, -⟩ := hordered.sent hres hprep
    obtain ⟨fs, hh⟩ := handled_of_ok (fun x hx => (hsent.answered x hx).ready) (cold_counted _ _) hok
    have hx' : x ∈ fs.filterMap Fate.next := slots_eq_next hh rfl ▸ hx
    obtain ⟨z, hz, m, hcopy⟩ := copies_of_next hh.meets hx'
    exact hcopy.admissible (hordered.admissible_sent hres hfit ha hprep z hz)

/-- `handle_cold_requests` returns, in every iteration. -/
theorem handled_of_prepared (hfit : Fits e t) (hres : Resident t cached) {s₀ : State N}
    (hrun : (client e t cached inlining).Run s₀ es s) (hprep : Prepared e t cached (s.swapOps inlining) n f slots) :
    ∃ slots' fs c, handleColdRequests e 0 slots ((s.swapOps inlining).cold f) = .ok (slots', c) ∧
      Handled e true 0 slots ((s.swapOps inlining).cold f) slots' fs c := by
  have hordered := ordered_of_run hres hrun
  obtain ⟨hsent, -⟩ := hordered.sent hres hprep
  have hadm := hordered.admissible_sent hres hfit (admissible_of_run hres hfit hrun) hprep
  exact handleColdRequests_handled (fun x hx => (hsent.answered x hx).ready) hadm 0 (cold_counted (s.swapOps inlining) f)

/-! ## Batches that can be filled -/

section

variable {tagged : ℕ → Bool} {ops : ℕ → Slot N} {traceIter nextOpI : ℕ} {pointers : ℕ → ℕ}

/-- The batch is full after a command a slot at the earliest. -/
theorem batchFromTrace_room (hroom : nextOpI + n = cacheBatchSize) : ∀ m < n, ∀ f',
    batchFromTrace e tagged t m traceIter ops nextOpI pointers = .ok f' → f'.i < cacheBatchSize := by
  intro m hm f' hok
  unfold batchFromTrace at hok
  split at hok
  · have hle : f'.i ≤ nextOpI + m := Fill.loop_i_le hok
    omega
  · cases hok

/-- Commands on keys that are not tracked take a slot each. -/
theorem batchFromTrace_untracked (hcheck : carriedOver ops nextOpI = true) (hiter : traceIter = m % t.cmds.length)
    (hroom : nextOpI + n ≤ cacheBatchSize) (hu : ∀ j < n, hottestKeysToTrack ≤ (t.command (m + j)).keyId) :
    ∃ f, batchFromTrace e (fun _ => false) t n traceIter ops nextOpI pointers = .ok f ∧ f.i = nextOpI + n ∧
      f.traceIter = (m + n) % t.cmds.length ∧
      (∀ k < hottestKeysToTrack, f.hottestKeysPointers k = (Fill.start e traceIter ops nextOpI pointers).hottestKeysPointers k) ∧
      ∀ j < n, ∃ tag rand op, f.ops (nextOpI + j) =
        ⟨e.fillOp (t.command (m + j)) tag rand op, .empty, (t.command (m + j)).homeMachineId⟩ := by
  obtain ⟨f, hok, hi, hf, -, hptr, hslots⟩ : ∃ f, (Fill.start e traceIter ops nextOpI pointers).loop e (fun _ => false) t n = .ok f ∧
      _ := untracked_loop hiter hroom hu
  refine ⟨f, ?_, hi, hf, hptr, hslots⟩
  rw [batchFromTrace, if_pos hcheck]
  exact hok

/-- A full batch can be probed and broadcast, at moments when reads of cached keys stall. -/
theorem exists_prepared (hp : e.protocol = .lin) (hfill : FilledBy e t s n f) (hfull : f.i = cacheBatchSize)
    (hw : ∀ j < f.i, Waiting e cached (f.ops j)) :
    ∃ slots, Prepared e t cached s n f slots ∧ ∀ j < cacheBatchSize, (f.ops j).type ≠ .unservedMiss →
      cached (f.ops j).key = true → (f.ops j).opcode = .get → ∃ z, slots[j]? = some z ∧ z.type = .getStall := by
  have hprobe : ∀ x ∈ (List.range cacheBatchSize).map f.ops, ∃ y, Probed e cached x y ∧
      (x.type ≠ .unservedMiss → cached x.key = true → x.opcode = .get → y.type = .getStall) := by
    intro x hx
    obtain ⟨j, hj, rfl⟩ := List.mem_map.1 hx
    exact exists_probed hp (hw j (hfull ▸ List.mem_range.1 hj)).opcode
  choose! probe hprobed hstall using hprobe
  have hall : List.Forall₂ (Probed e cached) ((List.range cacheBatchSize).map f.ops)
      (((List.range cacheBatchSize).map f.ops).map probe) :=
    List.forall₂_map_right_iff.2 (List.forall₂_same.2 hprobed)
  have hsends := broadcastInvs_sends hp 0 (((List.range cacheBatchSize).map f.ops).map probe)
  refine ⟨_, ⟨hfill, hfull, _, hall, .lin 0 hp⟩, ?_⟩
  intro j hj hne hc hget
  obtain ⟨hlen, hslot⟩ := List.forall₂_iff_get.1 hsends
  have hin : j < (((List.range cacheBatchSize).map f.ops).map probe).length := by simpa using hj
  refine ⟨_, List.getElem?_eq_getElem (hlen ▸ hin), ?_⟩
  have hmem : f.ops j ∈ (List.range cacheBatchSize).map f.ops := List.mem_map_of_mem (List.mem_range.2 hj)
  refine (hslot j hin (hlen ▸ hin)).type.trans ?_
  simpa using hstall _ hmem hne hc hget

/-- In every run the client can go on as long as the commands are on keys that are not tracked. -/
theorem exists_prepared_of_untracked (hp : e.protocol = .lin) (hres : Resident t cached) {s₀ : State N}
    (hrun : (client e t cached inlining).Run s₀ es s)
    (hu : ∀ j < cacheBatchSize - s.nextOpI, hottestKeysToTrack ≤ (t.command (consumed es + j)).keyId) :
    ∃ n f slots, Prepared e t cached (s.swapOps inlining) n f slots ∧
      ∀ k < hottestKeysToTrack, f.hottestKeysPointers k = (s.swapOps inlining).hottestKeysPointers k := by
  have hordered := ordered_of_run hres hrun
  have hcarried := carriedOver_of_run hres hrun
  have hroom : (s.swapOps inlining).nextOpI + (cacheBatchSize - s.nextOpI) = cacheBatchSize := by
    rw [swapOps_nextOpI]
    exact Nat.add_sub_cancel' hordered.le
  obtain ⟨f, hok, hi, -, hptr, -⟩ : ∃ f, batchFromTrace e (fun _ => false) t (cacheBatchSize - s.nextOpI)
      (s.swapOps inlining).traceIter (s.swapOps inlining).ops (s.swapOps inlining).nextOpI
      (s.swapOps inlining).hottestKeysPointers = .ok f ∧ _ :=
    batchFromTrace_untracked hcarried.check (by rw [swapOps_traceIter]; exact hordered.iter) hroom.le hu
  have hfill : FilledBy e t (s.swapOps inlining) (cacheBatchSize - s.nextOpI) f := ⟨_, hok, batchFromTrace_room hroom⟩
  obtain ⟨slots, hprep, -⟩ := exists_prepared hp hfill (hi.trans hroom) (hordered.filled hres hfill).1.waiting
  refine ⟨_, f, slots, hprep, fun k hk => ?_⟩
  rw [hptr k hk, Fill.start, hp]

end

/-! ## Every operation once -/

/-- What an iteration does with its batch, slot by slot: `fates` says of each slot whether it was
retired, handed over, passed over or copied, and everything the call has written is what the fates
say. In front of a request that was passed over its machine has got `KVS_BATCH` requests; in front
of one that was copied as it was, the loop that hands requests over has ended. -/
structure Partition (e : Env N) (s : State N) (slots slots' : List (Slot N)) (c : Cold N) (fates : List (Fate N)) : Prop where
  length : slots.length = cacheBatchSize
  meets : List.Forall₂ e.Meets slots fates
  empty : List.Forall₂ (fun x f => x.type = .empty ↔ f.next = none) slots' fates
  hits : c.cacheHits = s.cacheHits + (fates.map Fate.hits).sum
  handed : ∀ rm, c.batch rm = coldBatch e.cfg (fates.filterMap (Fate.handedTo rm))
  passed : ∀ before y after, fates = before ++ .passed y :: after →
    (before.filterMap (Fate.handedTo y.machine)).length = kvsBatch
  left : ∀ before y after, fates = before ++ .copied y :: after → y.isMiss = true →
    (windowSize ≤ before.countP Fate.isHanded ∨ kvsBatch * N ≤ before.countP Fate.isHanded) ∧
      ∀ f ∈ after, f.isIssued = false
  copied : (List.range c.nextOpI).map c.nextOps = fates.filterMap Fate.next
  le : c.nextOpI ≤ cacheBatchSize

theorem partition_of_handled {fs : List (Fate N)} (hlen : slots.length = cacheBatchSize)
    (hh : Handled e true 0 slots (s.cold f) slots' fs c) : Partition e s slots slots' c fs where
  length := hlen
  meets := hh.meets
  empty := hh.marks
  hits := hh.cacheHits
  handed rm := by
    rw [hh.batch rm]
    rfl
  passed before y after hfs := by
    have hcount := hh.collected_of_passed (fun rm => (cold_counted s f rm).2) hfs
    rwa [show (s.cold f).perWorkerOutstanding y.machine = 0 from rfl, Nat.zero_add] at hcount
  left before y after hfs hy := by
    have hend := hh.ended_of_copied hfs hy
    rw [show (s.cold f).remReqI = 0 from rfl, show (s.cold f).wrI = 0 from rfl, Nat.zero_add] at hend
    exact ⟨hend.1.resolve_left (by simp), hend.2⟩
  copied := slots_eq_next hh rfl
  le := by
    have hcount : c.nextOpI = (fs.filterMap Fate.next).length := by
      rw [← slots_eq_next hh rfl, Cold.slots, List.length_map, List.length_range]
    rw [hcount, ← hlen, hh.meets.length_eq]
    exact List.length_filterMap_le _ _

/-- **Every operation is handled once and cold requests stay in order.** In every state of every
run, whatever the cache answers: `handle_cold_requests` returns and each slot of the batch is
retired, handed over or copied; and the requests handed over so far for a machine, followed by
those that wait for it, are the commands that missed, in the order of the trace. A copy is the
operation that was in the slot, but a request that was passed over, its machine having got
`KVS_BATCH` requests in this iteration, has the client's id for its version. -/
theorem operations_once_in_order (hfit : Fits e t) (hres : Resident t cached) {s₀ : State N}
    (hrun : (client e t cached inlining).Run s₀ es s) :
    (∀ n f slots, Prepared e t cached (s.swapOps inlining) n f slots → ∃ slots' c fates,
      handleColdRequests e 0 slots ((s.swapOps inlining).cold f) = .ok (slots', c) ∧
      Partition e (s.swapOps inlining) slots slots' c fates) ∧
    ∀ rm, List.Forall₂ (Carries e) (missing cached rm (t.first (consumed es)))
      ((handed rm es ++ s.waiting.filterMap (coldFor cached rm)).map .ofBytes) := by
  refine ⟨?_, (ordered_of_run hres hrun).order⟩
  intro n f slots hprep
  obtain ⟨slots', fs, c, hok, hh⟩ := handled_of_prepared hfit hres hrun hprep
  exact ⟨slots', c, fs, hok, partition_of_handled hprep.length hh⟩

/-! ## Pointers -/

/-- **The table of pointers is right when a batch is filled.** A pointer is 0 or leads to a read
of its key that stalled, carried over from earlier iterations, and the key was not written since.
During an iteration a pointer goes with its slot: to the slot's copy if there is one, and away if
there is none. -/
theorem pointers_of_run (hp : e.protocol = .lin) (hres : Resident t cached) {s₀ : State N}
    (hrun : (client e t cached inlining).Run s₀ es s) :
    (∀ k < hottestKeysToTrack, (s.swapOps inlining).hottestKeysPointers k = 0 ∨
      ∃ p < (s.swapOps inlining).nextOpI, (s.swapOps inlining).hottestKeysPointers k = p + 1 ∧
        ((s.swapOps inlining).ops p).type = .getStall ∧ ((s.swapOps inlining).ops p).opcode = .get ∧
        ((s.swapOps inlining).ops p).value0.toNat = k ∧
        ∃ m < consumed es, (t.command m).keyId = k ∧ (t.command m).opcode.isRead = true ∧
          ((s.swapOps inlining).ops p).key = (t.command m).key ∧
          ∀ j, m < j → j < consumed es → ¬ ((t.command j).keyId = k ∧ (t.command j).opcode.isWrite = true)) ∧
    ∀ n f slots slots' c, Prepared e t cached (s.swapOps inlining) n f slots →
      handleColdRequests e 0 slots ((s.swapOps inlining).cold f) = .ok (slots', c) → ∃ fates,
        Partition e (s.swapOps inlining) slots slots' c fates ∧
        ∀ k < hottestKeysToTrack, c.hottestKeysPointers k = follow fates (f.hottestKeysPointers k) := by
  have hordered := ordered_of_run hres hrun
  refine ⟨?_, ?_⟩
  · intro k hk
    simp only [swapOps_ops, swapOps_nextOpI, swapOps_pointers]
    by_cases h0 : s.hottestKeysPointers k = 0
    · exact .inl h0
    · obtain ⟨hle, htype, hread⟩ := hordered.tracked hp k hk h0
      obtain ⟨m, hm, hid, hisRead, hkey, hlater⟩ := hread.command
      refine .inr ⟨s.hottestKeysPointers k - 1, by omega, by omega, htype, hread.tracks.get, hread.tracks.value0, m, hm, hid,
        hisRead, hkey, ?_⟩
      rintro j hj hjn ⟨hk', hwrite⟩
      rw [TraceOpcode.isWrite_eq, hlater j hj hjn hk'] at hwrite
      cases hwrite
  · intro n f slots slots' c hprep hok
    obtain ⟨hsent, -⟩ := hordered.sent hres hprep
    obtain ⟨fs, hh⟩ := handled_of_ok (fun x hx => (hsent.answered x hx).ready) (cold_counted _ _) hok
    exact ⟨fs, partition_of_handled hprep.length hh, fun k hk => hsent.follow hh hp rfl rfl hk⟩

end

/-! ## A request that is passed over -/

/-- Client 1 of machine 0, which has nothing in its cache, and a trace of reads from machine 1. -/
def coldReader : Env 4 := { started with cltGid := 1 }

def coldReads : Trace 4 := onlyCommand .remoteRead 250000

def firstState : State 4 := ⟨0, cleared, cleared, cleared, 0, fun _ => 0, 0⟩

theorem firstState_init : firstState.Init := ⟨rfl, rfl, fun _ => rfl, rfl⟩

theorem coldReads_command (n : ℕ) : coldReads.command n = ⟨.remoteRead, 1, 250000, fun _ => 0⟩ := by
  simp [Trace.command, coldReads, onlyCommand, Nat.mod_one]

theorem coldReads_untracked (n : ℕ) : hottestKeysToTrack ≤ (coldReads.command n).keyId := by
  rw [coldReads_command]
  decide

/-- A slot with a read of the trace; its version is that of the key. -/
structure ColdRead (x : Slot 4) : Prop where
  machine : x.machine = 1
  opcode : x.opcode = .get
  version : (CacheOp.ofBytes x.op).keyMeta.version = 0

theorem fillOp_coldRead (tag : Bool) (rand : UInt32) (op : Bytes) (ty : RespType) :
    ColdRead ⟨coldReader.fillOp ⟨.remoteRead, 1, 250000, fun _ => 0⟩ tag rand op, ty, 1⟩ := by
  refine ⟨rfl, fillOp_opcode, ?_⟩
  have hversion : readLE 4 (Bytes.drop (coldReader.fillOp ⟨.remoteRead, 1, 250000, fun _ => 0⟩ tag rand op) 4) =
      readLE 4 fun _ => 0 :=
    readLE_congr fun i hi => Env.fillOp_key (j := 4 + i) (by omega) (by omega)
  exact congrArg UInt32.ofNat hversion

/-- The first batch: every slot holds a read of the trace. -/
theorem coldReads_fill : ∃ f, f.i = cacheBatchSize ∧
    FilledBy coldReader coldReads (firstState.swapOps true) cacheBatchSize f ∧
    ∀ j < f.i, (f.ops j).type = .empty ∧ ColdRead (f.ops j) := by
  obtain ⟨f, hok, hi, -, -, hslots⟩ := batchFromTrace_untracked (e := coldReader) (t := coldReads) (m := 0)
    cleared_carriedOver.check rfl (by decide : 0 + cacheBatchSize ≤ cacheBatchSize) fun j _ => coldReads_untracked (0 + j)
  refine ⟨f, hi.trans (Nat.zero_add _), ⟨_, hok, batchFromTrace_room (Nat.zero_add _)⟩, fun j hj => ?_⟩
  obtain ⟨tag, rand, op, hslot⟩ := hslots j (by omega)
  rw [Nat.zero_add, coldReads_command] at hslot
  rw [hslot]
  exact ⟨rfl, fillOp_coldRead tag rand op .empty⟩

/-- What an empty cache makes of a slot. -/
def missed (x : Slot 4) : Slot 4 := ⟨storeOp (.ofBytes x.op) x.op, .miss, x.machine⟩

theorem missed_probed {x : Slot 4} (ht : x.type = .empty) : Probed coldReader (fun _ => false) x (missed x) := by
  refine .mk (fun _ => none) (fun _ => none) ⟨x.type, 0, none⟩ ⟨.miss, 0, none⟩ (.ofBytes x.op) (fun _ => rfl) rfl ?_
  simp [Cache.serve, ht]

theorem ColdRead.missed {x : Slot 4} (h : ColdRead x) : ColdRead (missed x) where
  machine := h.machine
  opcode := (storeOp_opcode _ _).trans ((congrArg Opcode.ofByte (Opcode.toByte_ofByte _)).trans h.opcode)
  version := by
    have hmeta : (CacheOp.ofBytes (storeOp (.ofBytes x.op) x.op)).keyMeta = (CacheOp.ofBytes x.op).keyMeta := by
      refine (CacheMeta.ofBytes_congr fun i hi => ?_).trans (CacheMeta.From.ofBytes_toBytes (b := x.op) fun _ hc => hc)
      have hin : 0 ≤ i ∧ i < 0 + 8 := by omega
      exact (update_of_ne (by omega) _ _).trans ((if_pos hin).trans (by rw [Nat.sub_zero]))
    exact (congrArg CacheMeta.version hmeta).trans h.version

/-- The first batch when the broadcasts are done: 600 requests for machine 1. -/
theorem coldReads_prepared : ∃ f slots,
    Prepared coldReader coldReads (fun _ => false) (firstState.swapOps true) cacheBatchSize f slots ∧
    ∀ z ∈ slots, z.isMiss = true ∧ ColdRead z := by
  obtain ⟨f, hi, hfill, hslots⟩ := coldReads_fill
  have hread (x : Slot 4) (hx : x ∈ f.slots) : x.type = .empty ∧ ColdRead x := by
    obtain ⟨j, hj, rfl⟩ := mem_slots hx
    exact hslots j hj
  have hlength : f.slots.length = cacheBatchSize := by rw [Fill.slots, List.length_map, List.length_range, hi]
  have hprobed : List.Forall₂ (Probed coldReader fun _ => false) f.slots (f.slots.map missed) :=
    List.forall₂_map_right_iff.2 (List.forall₂_same.2 fun x hx => missed_probed (hread x hx).1)
  obtain ⟨ops, batch, hcast, -⟩ := performBroadcasts_ok coldReader.cfg ((f.slots.map missed).map (·.op)) ⟨[], 0⟩ (by
    refine (Nat.zero_add _).trans_le ((hotWrites_length_le _).trans ?_)
    rw [List.length_map, List.length_map, hlength])
  have hbroadcast : Broadcast coldReader (f.slots.map missed) _ := .sc 0 ops batch rfl hcast
  have heq : (List.range cacheBatchSize).map f.ops = f.slots := by rw [Fill.slots, hi]
  refine ⟨f, _, ⟨hfill, hi, _, by rw [heq]; exact hprobed, hbroadcast⟩, ?_⟩
  -- no slot is a broadcast, so all are as the probe left them
  intro z hz
  obtain ⟨y, hy, hs⟩ := Lts.exists_mem_of_forall₂ hbroadcast.sends.flip hz
  obtain ⟨x, hx, rfl⟩ := List.mem_map.1 hy
  have hy := (hread x hx).2.missed
  cases hs.eq_of_ne (by rw [hy.opcode]; decide)
  exact ⟨rfl, hy⟩

/-- The first iteration of a client whose keys are all on another machine. -/
theorem operations_once_in_order_coldReads : Fits coldReader coldReads ∧ Resident coldReads (fun _ => false) ∧
    ∃ n f slots slots' c fates, Prepared coldReader coldReads (fun _ => false) (firstState.swapOps true) n f slots ∧
      handleColdRequests coldReader 0 slots ((firstState.swapOps true).cold f) = .ok (slots', c) ∧
      Partition coldReader (firstState.swapOps true) slots slots' c fates := by
  have hfit : Fits coldReader coldReads := ⟨by simp [coldReads, onlyCommand, coldReader, started], by decide⟩
  have hres : Resident coldReads (fun _ => false) := by simp [Resident, coldReads, onlyCommand, hottestKeysToTrack]
  obtain ⟨f, slots, hprep, -⟩ := coldReads_prepared
  obtain ⟨slots', c, fates, hok, hpart⟩ :=
    (operations_once_in_order hfit hres (.nil (L := client coldReader coldReads (fun _ => false) true) firstState_init)).1 _ f slots hprep
  exact ⟨hfit, hres, _, f, slots, slots', c, fates, hprep, hok, hpart⟩

/-- **The metadata of a request do not outlast its being passed over.** In the first iteration
600 requests wait for one machine, which takes 100 of them. -/
theorem passedOver_version : ∃ s n f slots slots' c, (client coldReader coldReads (fun _ => false) true).Run firstState [] s ∧
    Prepared coldReader coldReads (fun _ => false) (s.swapOps true) n f slots ∧
    handleColdRequests coldReader 0 slots ((s.swapOps true).cold f) = .ok (slots', c) ∧
    ∃ y ∈ (List.range c.nextOpI).map c.nextOps, ∀ x ∈ slots,
      (CacheOp.ofBytes y.op).keyMeta ≠ (CacheOp.ofBytes x.op).keyMeta := by
  obtain ⟨f, slots, hprep, hsent⟩ := coldReads_prepared
  obtain ⟨slots', fs, c, hok, hh⟩ := handleColdRequests_handled (e := coldReader)
    (fun z hz => .miss (hsent z hz).1 (.inl (hsent z hz).2.opcode))
    (fun z hz => ⟨by
      have ho : Opcode.ofByte (z.op 16) = .get := (hsent z hz).2.opcode
      simp [valLenOk, ho], by rw [(hsent z hz).2.machine]; decide⟩)
    0 (cold_counted (firstState.swapOps true) f)
  obtain ⟨y, hy, hversion⟩ := hh.exists_passed (m := 1) (by decide) rfl (fun z hz => ⟨(hsent z hz).1, (hsent z hz).2.machine⟩)
    (Nat.zero_le _) (by rw [hprep.length]; exact (by decide : kvsBatch < 0 + cacheBatchSize)) rfl rfl
  refine ⟨firstState, _, f, slots, slots', c, .nil firstState_init, hprep, hok, y, ?_, ?_⟩
  · rw [← slots_eq_next hh rfl] at hy
    exact hy
  · intro x hx hmeta
    have hzero := (hsent x hx).2.version
    rw [← hmeta, hversion] at hzero
    exact absurd hzero (by decide)

/-! ## A read that is carried over -/

/-- Client 1 of machine 0 under linearizability, and a trace of requests for machine 1 and a read
of key 3, which is the only one in the cache. -/
def stallingReader : Env 4 := { started with protocol := .lin, cltGid := 1 }

def coldThenHot : Trace 4 :=
  ⟨List.replicate (cacheBatchSize - 1) { hotCommand .remoteRead with keyId := 250000, keyHash := fun _ => 0 } ++ [hotCommand .hotRead],
    List.append_ne_nil_of_right_ne_nil _ (List.cons_ne_nil _ _)⟩

def onlyHot (key : UInt64) : Bool := key != 0

theorem coldThenHot_length : coldThenHot.cmds.length = cacheBatchSize := by
  rw [coldThenHot, List.length_append, List.length_replicate]
  rfl

theorem coldThenHot_resident : Resident coldThenHot onlyHot := by
  intro c hc hk
  rcases List.mem_append.1 hc with hc | hc
  · rw [List.eq_of_mem_replicate hc] at hk
    exact absurd hk (by decide)
  · rw [List.mem_singleton.1 hc]
    rfl

theorem coldThenHot_fits : Fits stallingReader coldThenHot := by
  refine ⟨fun c hc => ?_, by decide⟩
  rcases List.mem_append.1 hc with hc | hc
  · rw [List.eq_of_mem_replicate hc]
    decide
  · rw [List.mem_singleton.1 hc]
    decide

theorem coldThenHot_cold {n : ℕ} (h : n % cacheBatchSize < cacheBatchSize - 1) :
    coldThenHot.command n = ⟨.remoteRead, 1, 250000, fun _ => 0⟩ := by
  have hmod : n % coldThenHot.cmds.length < (List.replicate (cacheBatchSize - 1)
      (⟨.remoteRead, 1, 250000, fun _ => 0⟩ : TraceCommand 4)).length := by
    rwa [coldThenHot_length, List.length_replicate]
  exact (List.getElem_append_left hmod).trans (List.getElem_replicate _)

theorem coldThenHot_hot : coldThenHot.command (cacheBatchSize - 1) = ⟨.hotRead, 1, 3, fun _ => 7⟩ := by
  have hmod : (cacheBatchSize - 1) % coldThenHot.cmds.length = (List.replicate (cacheBatchSize - 1)
      (⟨.remoteRead, 1, 250000, fun _ => 0⟩ : TraceCommand 4)).length := by
    rw [coldThenHot_length, List.length_replicate]
    rfl
  simp only [Trace.command, List.get_eq_getElem, hmod]
  exact List.getElem_concat_length rfl _

/-- The first batch: the read is in the last slot. -/
theorem coldThenHot_fill : ∃ f, f.i = cacheBatchSize ∧ f.hottestKeysPointers 3 = cacheBatchSize ∧
    FilledBy stallingReader coldThenHot (firstState.swapOps true) cacheBatchSize f ∧
    (f.ops (cacheBatchSize - 1)).type = .empty ∧ (f.ops (cacheBatchSize - 1)).opcode = .get ∧
    onlyHot (f.ops (cacheBatchSize - 1)).key = true := by
  obtain ⟨f, hok, hi, hiter, hptr, -⟩ : ∃ f, batchFromTrace stallingReader (fun _ => false) coldThenHot (cacheBatchSize - 1) 0
      cleared 0 (fun _ => 0) = .ok f ∧ _ :=
    batchFromTrace_untracked (m := 0) cleared_carriedOver.check (Nat.zero_mod _).symm (by decide) fun j hj => by
      rw [Nat.zero_add, coldThenHot_cold (by rwa [Nat.mod_eq_of_lt (by omega)])]
      decide
  rw [Nat.zero_add] at hi hiter
  obtain ⟨c, hc⟩ : ∃ c, c = coldThenHot.command (cacheBatchSize - 1) := ⟨_, rfl⟩
  have hhot := hc.trans coldThenHot_hot
  have hround : f.round stallingReader (fun _ => false) coldThenHot c =
      .ok ((f.prepared stallingReader c).taken stallingReader (fun _ => false) coldThenHot c) :=
    Fill.round_takes fun ht => (hptr _ ht.1).trans rfl
  refine ⟨(f.prepared stallingReader c).taken stallingReader (fun _ => false) coldThenHot c, ?_, ?_,
    ⟨fun _ => false, ?_, batchFromTrace_room (Nat.zero_add _)⟩, ?_⟩
  · exact congrArg (· + 1) ((Fill.prepared_i f).trans hi)
  · have hp : (f.prepared stallingReader c).hottestKeysPointers c.keyId = if c.opcode.isRead then f.i + 1 else 0 :=
      Fill.prepared_pointers (by rw [hhot]; decide)
    rw [if_pos (by rw [hhot]; rfl), hi, show c.keyId = 3 by rw [hhot]] at hp
    exact hp
  · change batchFromTrace stallingReader _ coldThenHot cacheBatchSize 0 cleared 0 (fun _ => 0) = _
    rw [batchFromTrace, if_pos cleared_carriedOver.check] at hok ⊢
    have hlast : f.loop stallingReader (fun _ => false) coldThenHot 1 =
        f.round stallingReader (fun _ => false) coldThenHot c >>= fun f => .ok f := by
      rw [Fill.loop, if_pos (by rw [hi]; decide), hiter, coldThenHot.getElem?_mod, hc]
      rfl
    rw [show cacheBatchSize = cacheBatchSize - 1 + 1 from rfl, Fill.loop_add_one, hok]
    exact hlast.trans (by rw [hround]; rfl)
  · obtain ⟨tag, rand, hself⟩ := taken_self stallingReader (fun _ => false) coldThenHot c f
    rw [hi] at hself
    rw [hself, hhot]
    exact ⟨rfl, fillOp_opcode, by rw [fillOp_slot_key]; rfl⟩

/-- The first iteration: the read stalls and is carried over. -/
theorem coldThenHot_first : ∃ it s, (client stallingReader coldThenHot onlyHot true).Run firstState [it] s ∧
    it.commands = cacheBatchSize ∧ s.hottestKeysPointers 3 ≠ 0 := by
  have hrun : (client stallingReader coldThenHot onlyHot true).Run firstState [] firstState := .nil firstState_init
  have hordered := ordered_of_run coldThenHot_resident hrun
  obtain ⟨f, hi, hp, hfill, ht, ho, hc⟩ := coldThenHot_fill
  obtain ⟨hfilling, -⟩ := hordered.filled coldThenHot_resident (show FilledBy _ _ (firstState.swapOps true) _ _ from hfill)
  obtain ⟨slots, hprep, hstall⟩ := exists_prepared (s := firstState.swapOps true) rfl hfill hi hfilling.waiting
  obtain ⟨z, hz, htype⟩ := hstall (cacheBatchSize - 1) (by decide) (by simp [ht]) hc ho
  obtain ⟨slots', fs, c, hok, hh⟩ := handled_of_prepared coldThenHot_fits coldThenHot_resident hrun hprep
  refine ⟨_, _, hrun.snoc (.iterate _ f slots slots' c hprep hok), rfl, ?_⟩
  obtain ⟨hsent, -⟩ := hordered.sent coldThenHot_resident hprep
  have hfollow := hsent.follow hh rfl rfl rfl (show 3 < hottestKeysToTrack by decide)
  rw [hp] at hfollow
  obtain ⟨hlen, hmeets⟩ := List.forall₂_iff_get.1 hh.meets
  obtain ⟨hin, hget⟩ := List.getElem?_eq_some_iff.1 hz
  have hin' := hlen ▸ hin
  have hmeet := hmeets _ hin hin'
  rw [List.get_eq_getElem, hget] at hmeet
  obtain ⟨y, hfate, -⟩ := hmeet.of_getStall (hsent.answered z (List.mem_of_getElem? hz)).ready htype
  have hcopied : fs[cacheBatchSize - 1]? = some (.copied y) := (List.getElem?_eq_getElem hin').trans (congrArg some hfate)
  change c.hottestKeysPointers 3 ≠ 0
  rw [hfollow, show cacheBatchSize = cacheBatchSize - 1 + 1 from rfl, follow, hcopied]
  exact Nat.succ_ne_zero _

/-- In the second iteration the table has a pointer to the read of the first one, and the pointer
goes with the read. -/
theorem pointers_of_run_carriedOver : Resident coldThenHot onlyHot ∧
    ∃ it s p n f slots slots' c fates, (client stallingReader coldThenHot onlyHot true).Run firstState [it] s ∧
      (s.swapOps true).hottestKeysPointers 3 = p + 1 ∧ ((s.swapOps true).ops p).type = .getStall ∧
      ((s.swapOps true).ops p).value0.toNat = 3 ∧ Prepared stallingReader coldThenHot onlyHot (s.swapOps true) n f slots ∧
      handleColdRequests stallingReader 0 slots ((s.swapOps true).cold f) = .ok (slots', c) ∧
      Partition stallingReader (s.swapOps true) slots slots' c fates ∧
      c.hottestKeysPointers 3 = follow fates (p + 1) := by
  obtain ⟨it, s, hrun, hn, hne⟩ := coldThenHot_first
  obtain ⟨htable, hmove⟩ := pointers_of_run rfl coldThenHot_resident hrun
  rcases htable 3 (by decide) with h0 | ⟨p, hp, hpointer, htype, -, hvalue, -⟩
  · exact absurd h0 hne
  have hconsumed : consumed [it] = cacheBatchSize := by simp [consumed, hn]
  rw [swapOps_nextOpI] at hp
  obtain ⟨n, f, slots, hprep, hptr⟩ := exists_prepared_of_untracked rfl coldThenHot_resident hrun fun j hj => by
    have hj' : j < cacheBatchSize - 1 := by omega
    rw [hconsumed, coldThenHot_cold (by rwa [Nat.add_mod_left, Nat.mod_eq_of_lt (by omega)])]
    decide
  obtain ⟨slots', -, c, hcold, -⟩ := handled_of_prepared coldThenHot_fits coldThenHot_resident hrun hprep
  obtain ⟨fates, hpart, hfollow⟩ := hmove _ f slots slots' c hprep hcold
  refine ⟨coldThenHot_resident, it, s, p, _, f, slots, slots', c, fates, hrun, hpointer, htype, hvalue, hprep, hcold, hpart, ?_⟩
  rw [hfollow 3 (by decide), hptr 3 (by decide), hpointer]

end CcKvs.Client
