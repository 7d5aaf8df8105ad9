/-
What becomes of the slots of a batch. `Handled` tells a call of
`handle_cold_requests` slot by slot; a call on slots as the cache and the
broadcasts leave them returns and follows it (`handleColdRequests_handled`), and
everything else is read off it: each slot has one fate, the copies stand in
the next batch in order and as they were, and of the requests for a machine
those handed over come before those left.
-/
import CcKvs.Client.Cold

namespace CcKvs.Client

open Function Sc Bytes Worker

/-! ## Copies and requests -/

/-- `d` is the operation `c` with metadata `m`; the value counts for writes only. -/
structure CopyOf (cfg : Config) (m : CacheMeta) (c d : CacheOp) : Prop where
  keyMeta : d.keyMeta = m
  key : d.key = c.key
  opcode : d.opcode = c.opcode
  valLen : d.valLen = c.valLen
  value : c.opcode ≠ .get → Agree cfg.herdValueSize d.value c.value

/-- `c` and `d` ask a worker for the same. -/
structure SameRequest (cfg : Config) (c d : CacheOp) : Prop where
  key : d.key = c.key
  opcode : d.opcode = c.opcode
  value : c.opcode = .put → d.valLen = c.valLen ∧ Agree cfg.herdValueSize d.value c.value

section

variable {cfg : Config} {c d d' : CacheOp} {m : CacheMeta} {op a b : Bytes} {size : ℕ}

theorem SameRequest.refl (cfg : Config) (c : CacheOp) : SameRequest cfg c c := ⟨rfl, rfl, fun _ => ⟨rfl, .refl _ _⟩⟩

theorem SameRequest.trans (h : SameRequest cfg c d) (h' : SameRequest cfg d d') : SameRequest cfg c d' where
  key := h'.key.trans h.key
  opcode := h'.opcode.trans h.opcode
  value hp := by
    obtain ⟨hl, hv⟩ := h.value hp
    obtain ⟨hl', hv'⟩ := h'.value (h.opcode.trans hp)
    exact ⟨hl'.trans hl, hv'.trans hv⟩

theorem CopyOf.sameRequest (h : CopyOf cfg m c d) : SameRequest cfg c d :=
  ⟨h.key, h.opcode, fun hp => ⟨h.valLen, h.value (by simp [hp])⟩⟩

theorem copySize_eq {o : Opcode} (h : copySize cfg o = some size) :
    o = .get ∧ size = 19 ∨ o ≠ .get ∧ size = cfg.herdPutReqSize := by
  cases o <;> simp [copySize, herdGetReqSize, keySize] at h ⊢ <;> exact h.symm

/-- Enough of an operation is copied. -/
theorem copyOf_of_copySize (dst : Bytes) (h : copySize cfg (CacheOp.ofBytes op).opcode = some size) :
    CopyOf cfg (CacheOp.ofBytes op).keyMeta (.ofBytes op) (.ofBytes (dst.memcpy op size)) := by
  have hagree := agree_memcpy dst op size
  rcases copySize_eq h with ⟨ho, rfl⟩ | ⟨-, rfl⟩
  · have hsame : CacheOp.Same 1 (.ofBytes (dst.memcpy op 19)) (.ofBytes op) := CacheOp.same_of_agree hagree
    exact ⟨hsame.keyMeta, hsame.key, hsame.opcode, hsame.valLen, fun hne => absurd ho hne⟩
  · have hsame : CacheOp.Same cfg.herdValueSize (.ofBytes (dst.memcpy op cfg.herdPutReqSize)) (.ofBytes op) :=
      CacheOp.same_of_agree hagree
    exact ⟨hsame.keyMeta, hsame.key, hsame.opcode, hsame.valLen, fun _ => hsame.value⟩

/-- The client's id is written over the version. -/
theorem ofBytes_setCltGid (cltGid : ℕ) (op : Bytes) : CacheOp.ofBytes (setCltGid cltGid op) =
    { CacheOp.ofBytes op with
      keyMeta := { (CacheOp.ofBytes op).keyMeta with version := .ofNat (Bytes.readLE 4 (Bytes.le cltGid)) } } := by
  have hafter (p : ℕ) (hp : 8 ≤ p) : (setCltGid cltGid op).drop p = op.drop p := drop_write_of_le hp
  have hbyte (i : ℕ) (hi : i < 4 ∨ 8 ≤ i) : setCltGid cltGid op i = op i := if_neg (by omega)
  have hversion : Bytes.readLE 4 ((setCltGid cltGid op).drop 4) = Bytes.readLE 4 (Bytes.le cltGid) :=
    readLE_congr (agree_drop_write op (Bytes.le cltGid) 4 4)
  simp only [CacheOp.ofBytes, CacheMeta.ofBytes, hafter 8 (by omega), hafter micaOpMetadata (by decide), hversion,
    hbyte 0 (by omega), hbyte 1 (by omega), hbyte 2 (by omega), hbyte 3 (by omega), hbyte 16 (by omega),
    hbyte 17 (by omega)]

/-- A request that is copied after the client's id was written into it. -/
theorem copyOf_setCltGid (cltGid : ℕ) (dst : Bytes) (h : copySize cfg (CacheOp.ofBytes op).opcode = some size) :
    CopyOf cfg { (CacheOp.ofBytes op).keyMeta with version := .ofNat (Bytes.readLE 4 (Bytes.le cltGid)) } (.ofBytes op)
      (.ofBytes (dst.memcpy (setCltGid cltGid op) size)) := by
  have hop := ofBytes_setCltGid cltGid op
  have hcopy : CopyOf cfg (CacheOp.ofBytes (setCltGid cltGid op)).keyMeta (.ofBytes (setCltGid cltGid op))
      (.ofBytes (dst.memcpy (setCltGid cltGid op) size)) := copyOf_of_copySize dst (by rw [hop]; exact h)
  rw [hop] at hcopy
  exact ⟨hcopy.keyMeta, hcopy.key, hcopy.opcode, hcopy.valLen, hcopy.value⟩

end

/-! ## Fates -/

/-- A request that is passed over is copied too, but not as it was. -/
inductive Fate (N : ℕ)
  | retired (hits : ℕ)
  | handed (rm : Fin N) (op : Bytes)
  | passed (y : Slot N)
  | copied (y : Slot N)

section

variable {N : ℕ}

def Fate.hits : Fate N → ℕ
  | retired n => n
  | _ => 0

/-- The request that was handed over for machine `rm`. -/
def Fate.handedTo (rm : Fin N) : Fate N → Option Bytes
  | handed rm' op => if rm' = rm then some op else none
  | _ => none

/-- The slot in the next batch. -/
def Fate.next : Fate N → Option (Slot N)
  | passed y => some y
  | copied y => some y
  | _ => none

def Fate.isHanded : Fate N → Bool
  | handed _ _ => true
  | _ => false

/-- The loop that hands requests over got to this one. -/
def Fate.isIssued : Fate N → Bool
  | handed _ _ => true
  | passed _ => true
  | _ => false

/-- The request in a slot that waits for machine `rm`. -/
def missFor (rm : Fin N) (x : Slot N) : Option Bytes := if x.isMiss = true ∧ x.machine = rm then some x.op else none

variable (e : Env N)

/-- `y` is the copy of slot `x`, with metadata `m`. -/
structure Env.Copies (m : CacheMeta) (x y : Slot N) : Prop where
  machine : y.machine = x.machine
  type : y.type = (unserved x).type
  op : CopyOf e.cfg m (.ofBytes x.op) (.ofBytes y.op)

/-- What each fate says of the slot. A copy has the metadata of its slot, but a request that was
passed over has the client's id for its version. -/
inductive Env.Meets (x : Slot N) : Fate N → Prop
  | retired : x.isMiss = false → e.retires x = true → Meets x (.retired (Client.hits x))
  | handed : x.isMiss = true → x.machine ≠ e.machineId → Meets x (.handed x.machine (setCltGid e.cltGid x.op))
  | passed (y : Slot N) : x.isMiss = true →
      e.Copies { (CacheOp.ofBytes x.op).keyMeta with version := .ofNat (Bytes.readLE 4 (Bytes.le e.cltGid)) } x y →
      Meets x (.passed y)
  | copied (y : Slot N) : e.Copies (CacheOp.ofBytes x.op).keyMeta x y → Meets x (.copied y)

/-- The slots that the cache and the broadcasts leave. -/
inductive Ready : Slot N → Prop
  | miss : x.isMiss = true → x.opcode = .get ∨ x.opcode = .put → Ready x
  | getSuccess : x.type = .getSuccess → x.opcode = .get → Ready x
  | upd : e.protocol = .sc → x.type = .putSuccess → x.opcode = .upd → Ready x
  | inv : e.protocol = .lin → x.type = .putSuccess → x.opcode = .inv → Ready x
  | putFail : e.protocol = .lin → x.type = .putFail → x.opcode = .put → Ready x
  | stays : x.isMiss = false → Left e.protocol x → Ready x

/-- A call of `handle_cold_requests`, slot by slot: its slots with their types afterwards, their
fates, and the state it ends in. The flag says whether requests are still handed over. -/
inductive Handled : Bool → ℕ → List (Slot N) → Cold N → List (Slot N) → List (Fate N) → Cold N → Prop
  | nil : Handled o opI [] s [] [] s
  | retired : x.isMiss = false → e.retires x = true → Handled o (opI + 1) xs (s.retire e opI x) xs' fs s' →
      Handled o opI (x :: xs) s ({ x with type := .empty } :: xs') (.retired (hits x) :: fs) s'
  | stays (x : Slot N) (size : ℕ) : x.isMiss = false → Left e.protocol x → copySize e.cfg x.opcode = some size →
      Handled o (opI + 1) xs (s.copied opI x size) xs' fs s' →
      Handled o opI (x :: xs) s (x :: xs') (.copied ((s.copied opI x size).nextOps s.nextOpI) :: fs) s'
  | passed (x : Slot N) (size : ℕ) : x.isMiss = true → x.opcode = .get ∨ x.opcode = .put →
      kvsBatch ≤ s.perWorkerOutstanding x.machine → copySize e.cfg x.opcode = some size →
      Handled true (opI + 1) xs (s.copied opI (e.request x) size) xs' fs s' →
      Handled true opI (x :: xs) s (e.request x :: xs')
        (.passed ((s.copied opI (e.request x) size).nextOps s.nextOpI) :: fs) s'
  | left (x : Slot N) (size : ℕ) : x.isMiss = true → x.opcode = .get ∨ x.opcode = .put → copySize e.cfg x.opcode = some size →
      Handled false (opI + 1) xs (s.copied opI (unserved x) size) xs' fs s' →
      Handled false opI (x :: xs) s (unserved x :: xs')
        (.copied ((s.copied opI (unserved x) size).nextOps s.nextOpI) :: fs) s'
  | handed (x : Slot N) (s s₁ : Cold N) : x.isMiss = true → x.machine ≠ e.machineId →
      s.perWorkerOutstanding x.machine < kvsBatch →
      s.addRequest e (e.request x) = .ok s₁ → Handled true (opI + 1) xs s₁ xs' fs s' →
      Handled true opI (x :: xs) s ({ e.request x with type := .empty } :: xs')
        (.handed x.machine (setCltGid e.cltGid x.op) :: fs) s'
  | close : windowSize ≤ s.remReqI ∨ kvsBatch * N ≤ s.wrI → Handled false opI xs s xs' fs s' → Handled true opI xs s xs' fs s'

/-! ## One slot -/

variable {e} {x : Slot N} {s : Cold N} {opI size : ℕ}

theorem Left.type_ne_empty {p : Protocol} (h : Left p x) : x.type ≠ .empty := by
  cases h <;> simp [*]

theorem Left.type_ne_getSuccess {p : Protocol} (h : Left p x) : x.type ≠ .getSuccess := by
  cases h <;> simp [*]

theorem Left.type_of_miss {p : Protocol} (h : Left p x) (hm : x.isMiss = true) : x.type = .unservedMiss := by
  cases h with
  | unserved ht => exact ht
  | getStall ht => simp [Slot.isMiss, ht] at hm
  | putStall ht => simp [Slot.isMiss, ht] at hm
  | brc ht => simp [Slot.isMiss, ht] at hm

theorem unserved_op (x : Slot N) : (unserved x).op = x.op := by
  unfold unserved
  split <;> rfl

theorem unserved_machine (x : Slot N) : (unserved x).machine = x.machine := by
  unfold unserved
  split <;> rfl

theorem unserved_opcode (x : Slot N) : (unserved x).opcode = x.opcode := by rw [Slot.opcode, Slot.opcode, unserved_op]

theorem unserved_isMiss (x : Slot N) : (unserved x).isMiss = x.isMiss := by
  unfold unserved
  split
  · next ht => simp [Slot.isMiss, ht]
  · rfl

theorem unserved_of_hit (h : x.isMiss = false) : unserved x = x := by
  refine if_neg fun ht => ?_
  simp [Slot.isMiss, ht] at h

theorem unserved_type (h : x.isMiss = true) : (unserved x).type = .unservedMiss := by
  simp only [Slot.isMiss, Bool.or_eq_true, beq_iff_eq] at h
  rcases h with h | h <;> simp [unserved, h]

theorem request_opcode (e : Env N) (x : Slot N) : (e.request x).opcode = x.opcode :=
  congrArg Opcode.ofByte (setCltGid_opcode e.cltGid x.op)

theorem exists_copySize (cfg : Config) {o : Opcode} (h : o = .get ∨ o = .put ∨ o = .brc) : ∃ size, copySize cfg o = some size := by
  rcases h with rfl | rfl | rfl <;> exact ⟨_, rfl⟩

theorem copyOpToNextOp_ok (hs : copySize e.cfg x.opcode = some size) (ht : e.protocol = .sc → x.type ≠ .getStall) :
    s.copyOpToNextOp e opI x = .ok (s.copied opI x size) := by
  have hptr : ¬ (e.protocol = .sc ∧ x.type = .getStall ∧ x.value0.toNat < hottestKeysToTrack) := fun h => ht h.1 h.2.1
  simp only [Cold.copyOpToNextOp, hs, if_neg hptr]

theorem settle_retires (h : e.retires x = true) : s.settle e opI x = .ok ({ x with type := .empty }, s.retire e opI x) :=
  if_pos h

theorem settle_copies (h : e.retires x = false) (hs : copySize e.cfg x.opcode = some size)
    (ht : e.protocol = .sc → x.type ≠ .getStall) : s.settle e opI x = .ok (x, s.copied opI x size) := by
  simp [Cold.settle, h, copyOpToNextOp_ok hs ht, bind, Except.bind]

/-- A request that is left is not one that retires. -/
theorem retires_unserved (hm : x.isMiss = true) (ho : x.opcode = .get ∨ x.opcode = .put) : e.retires (unserved x) = false := by
  have ht := unserved_type hm
  unfold Env.retires
  rw [unserved_opcode, ht]
  cases e.protocol <;> rcases ho with ho | ho <;> simp [ho]

/-- A hit is expected; it retires, or stays under `LINEARIZABILITY`. -/
theorem Ready.of_hit (h : Ready e x) (hm : x.isMiss = false) :
    e.expects x = true ∧ (e.retires x = true ∨
      e.retires x = false ∧ Left e.protocol x ∧ e.protocol = .lin ∧ ∃ size, copySize e.cfg x.opcode = some size) := by
  cases h with
  | miss hm' => simp [hm] at hm'
  | getSuccess ht ho => cases hp : e.protocol <;> simp [Env.expects, Env.retires, hp, ht]
  | upd hp ht ho => simp [Env.expects, Env.retires, hp, ht, ho]
  | inv hp ht ho => simp [Env.expects, Env.retires, hp, ht, ho]
  | putFail hp ht ho => simp [Env.expects, Env.retires, hp, ht]
  | stays _ hl =>
    cases hp : e.protocol with
    | sc =>
      rw [hp] at hl
      cases hl with
      | unserved ht => simp [Slot.isMiss, ht] at hm
    | lin =>
      rw [hp] at hl
      refine ⟨?_, .inr ⟨?_, hl, rfl, ?_⟩⟩
      · cases hl with
        | unserved ht => simp [Slot.isMiss, ht] at hm
        | getStall ht ho => simp [Env.expects, hp, ht]
        | putStall ht ho => simp [Env.expects, hp, ht]
        | brc ht ho => simp [Env.expects, hp, ht]
      · cases hl with
        | unserved ht => simp [Slot.isMiss, ht] at hm
        | getStall ht ho => simp [Env.retires, hp, ht, ho]
        | putStall ht ho => simp [Env.retires, hp, ht, ho]
        | brc ht ho => simp [Env.retires, hp, ht, ho]
      · cases hl with
        | unserved _ ho => exact exists_copySize _ (ho.imp_right .inl)
        | getStall _ ho => exact exists_copySize _ (.inl ho)
        | putStall _ ho => exact exists_copySize _ (.inr (.inl ho))
        | brc _ ho => exact exists_copySize _ (.inr (.inr ho))

theorem Ready.of_miss (h : Ready e x) (hm : x.isMiss = true) : x.opcode = .get ∨ x.opcode = .put := by
  cases h with
  | miss _ ho => exact ho
  | getSuccess ht => simp [Slot.isMiss, ht] at hm
  | upd _ ht => simp [Slot.isMiss, ht] at hm
  | inv _ ht => simp [Slot.isMiss, ht] at hm
  | putFail _ ht => simp [Slot.isMiss, ht] at hm
  | stays hm' => simp [hm] at hm'

/-! ## A call -/

theorem runThroughRestOfOps_handled {xs : List (Slot N)} (hr : ∀ x ∈ xs, Ready e x) (opI : ℕ) (s : Cold N) :
    ∃ xs' fs s', runThroughRestOfOps e opI xs s = .ok (xs', s') ∧ Handled e false opI xs s xs' fs s' := by
  induction xs generalizing opI s with
  | nil => exact ⟨[], [], s, rfl, .nil⟩
  | cons x xs ih =>
    have hx := hr x (by simp)
    have ih := ih fun y hy => hr y (by simp [hy])
    cases hm : x.isMiss with
    | true =>
      have ho := hx.of_miss hm
      obtain ⟨size, hs⟩ := exists_copySize e.cfg (ho.imp_right Or.inl)
      have hret := retires_unserved (e := e) hm ho
      have hempty : x.type ≠ .empty := fun ht => by simp [Slot.isMiss, ht] at hm
      have hround : s.runThrough e opI x = .ok (unserved x, s.copied opI (unserved x) size) := by
        rw [Cold.runThrough, if_neg fun h => hempty h.2.2]
        exact settle_copies hret (by rw [unserved_opcode]; exact hs) fun _ => by simp [unserved_type hm]
      obtain ⟨xs', fs, s', hrest, hh⟩ := ih (opI + 1) (s.copied opI (unserved x) size)
      exact ⟨_, _, s', by simp only [runThroughRestOfOps, hround, hrest, bind, Except.bind], .left x size hm ho hs hh⟩
    | false =>
      rcases (hx.of_hit hm).2 with hret | ⟨hret, hl, hp, size, hs⟩
      · have hround : s.runThrough e opI x = .ok ({ x with type := .empty }, s.retire e opI x) := by
          rw [Cold.runThrough, unserved_of_hit hm, if_neg fun h => by simp [hret] at h]
          exact settle_retires hret
        obtain ⟨xs', fs, s', hrest, hh⟩ := ih (opI + 1) (s.retire e opI x)
        exact ⟨_, _, s', by simp only [runThroughRestOfOps, hround, hrest, bind, Except.bind], .retired hm hret hh⟩
      · have hround : s.runThrough e opI x = .ok (x, s.copied opI x size) := by
          rw [Cold.runThrough, unserved_of_hit hm, if_neg fun h => by simp [hp] at h]
          exact settle_copies hret hs fun h => by simp [hp] at h
        obtain ⟨xs', fs, s', hrest, hh⟩ := ih (opI + 1) (s.copied opI x size)
        exact ⟨_, _, s', by simp only [runThroughRestOfOps, hround, hrest, bind, Except.bind], .stays x size hm hl hs hh⟩

/-- The requests collected so far in this iteration. -/
def Cold.Counted (s : Cold N) : Prop :=
  ∀ rm, (s.batch rm).length ≤ s.perWorkerOutstanding rm ∧ s.perWorkerOutstanding rm ≤ kvsBatch

/-- While a machine has room, `add_erpc_request` does. -/
theorem addRequest_ok (hc : s.Counted) (hlt : s.perWorkerOutstanding x.machine < kvsBatch) :
    ∃ s₁, s.addRequest e x = .ok s₁ ∧ s₁.Counted := by
  have hroom : (s.batch x.machine).length < windowSize := by
    have := (hc x.machine).1
    rw [windowSize]
    rw [kvsBatch] at hlt
    omega
  refine ⟨_, by simp only [Cold.addRequest, addErpcRequest, if_pos hroom, bind, Except.bind]; rfl, fun rm => ?_⟩
  by_cases hrm : rm = x.machine
  · subst hrm
    have := (hc x.machine).1
    simp only [update_self, List.length_append, List.length_singleton]
    omega
  · simpa only [update_of_ne hrm] using hc rm

/-- The two assertions on a request. -/
structure Admissible (e : Env N) (x : Slot N) : Prop where
  valLen : valLenOk e.cfg x.op = true
  machine : x.machine ≠ e.machineId

/-- **A call returns and gives each slot a fate**, unless an assertion on a request fails. -/
theorem handleColdRequests_cases {xs : List (Slot N)} (hr : ∀ x ∈ xs, Ready e x) (opI : ℕ) {s : Cold N} (hc : s.Counted) :
    (∃ xs' fs s', handleColdRequests e opI xs s = .ok (xs', s') ∧ Handled e true opI xs s xs' fs s') ∨
      ∃ f, handleColdRequests e opI xs s = .error f ∧ ∃ x ∈ xs, ¬ Admissible e x := by
  induction xs generalizing opI s with
  | nil => exact .inl ⟨[], [], s, rfl, .nil⟩
  | cons x xs ih =>
    have hx := hr x (by simp)
    have hr' : ∀ y ∈ xs, Ready e y := fun y hy => hr y (by simp [hy])
    have ih := @ih hr'
    have hlater {p : Slot N → Prop} (h : ∃ y ∈ xs, p y) : ∃ y ∈ x :: xs, p y :=
      h.imp fun y hy => ⟨List.mem_cons_of_mem x hy.1, hy.2⟩
    by_cases hwin : windowSize ≤ s.remReqI
    · obtain ⟨xs', fs, s', hrest, hh⟩ := runThroughRestOfOps_handled hr opI s
      exact .inl ⟨xs', fs, s', by rw [handleColdRequests, if_pos hwin, hrest], .close (.inl hwin) hh⟩
    cases hm : x.isMiss with
    | true =>
      have ho := hx.of_miss hm
      rw [handleColdRequests, if_neg hwin, if_neg (by simp [hm])]
      cases hlen : valLenOk e.cfg x.op with
      | false => exact .inr ⟨.valLen, if_pos rfl, x, by simp, fun ha => by simpa [hlen] using ha.valLen⟩
      | true =>
      rw [if_neg (by simp)]
      by_cases hne : x.machine = e.machineId
      · exact .inr ⟨.localKey, if_pos hne, x, by simp, fun ha => ha.machine hne⟩
      rw [if_neg hne]
      by_cases hfull : kvsBatch < s.perWorkerOutstanding x.machine + 1
      · obtain ⟨size, hs⟩ := exists_copySize e.cfg (ho.imp_right Or.inl)
        have hcopy : s.copyOpToNextOp e opI (e.request x) = .ok (s.copied opI (e.request x) size) :=
          copyOpToNextOp_ok (by rw [request_opcode]; exact hs) fun _ => by simp [Env.request]
        rw [if_pos hfull, hcopy]
        by_cases hall : kvsBatch * N ≤ s.wrI
        · obtain ⟨xs', fs, s', hrest, hh⟩ := runThroughRestOfOps_handled hr' (opI + 1) (s.copied opI (e.request x) size)
          exact .inl ⟨_, _, s', by simp only [if_pos hall, hrest, bind, Except.bind],
            .passed x size hm ho (by omega) hs (.close (.inr hall) hh)⟩
        · rcases ih (opI + 1) (s := s.copied opI (e.request x) size) hc with ⟨xs', fs, s', hrest, hh⟩ | ⟨f, hrest, hbad⟩
          · exact .inl ⟨_, _, s', by simp only [if_neg hall, hrest, bind, Except.bind],
              .passed x size hm ho (by omega) hs hh⟩
          · exact .inr ⟨f, by simp only [if_neg hall, hrest, bind, Except.bind], hlater hbad⟩
      · obtain ⟨s₁, hadd, hc₁⟩ := addRequest_ok (e := e) (x := e.request x) hc (show _ < _ by
          show s.perWorkerOutstanding x.machine < kvsBatch
          omega)
        rcases ih (opI + 1) hc₁ with ⟨xs', fs, s', hrest, hh⟩ | ⟨f, hrest, hbad⟩
        · exact .inl ⟨_, _, s', by simp only [if_neg hfull, hadd, hrest, bind, Except.bind],
            .handed x s s₁ hm hne (by omega) hadd hh⟩
        · exact .inr ⟨f, by simp only [if_neg hfull, hadd, hrest, bind, Except.bind], hlater hbad⟩
    | false =>
      obtain ⟨hexp, hret | ⟨hret, hl, hp, size, hs⟩⟩ := hx.of_hit hm
      · have hround : s.cacheHitBookkeeping e opI x = .ok ({ x with type := .empty }, s.retire e opI x) :=
          (if_pos hexp).trans (settle_retires hret)
        rcases ih (opI + 1) (s := s.retire e opI x) hc with ⟨xs', fs, s', hrest, hh⟩ | ⟨f, hrest, hbad⟩
        · exact .inl ⟨_, _, s', by simp only [handleColdRequests, if_neg hwin, hm, if_true, hround, hrest, bind, Except.bind],
            .retired hm hret hh⟩
        · exact .inr ⟨f, by simp only [handleColdRequests, if_neg hwin, hm, if_true, hround, hrest, bind, Except.bind],
            hlater hbad⟩
      · have hround : s.cacheHitBookkeeping e opI x = .ok (x, s.copied opI x size) :=
          (if_pos hexp).trans (settle_copies hret hs fun h => by simp [hp] at h)
        rcases ih (opI + 1) (s := s.copied opI x size) hc with ⟨xs', fs, s', hrest, hh⟩ | ⟨f, hrest, hbad⟩
        · exact .inl ⟨_, _, s', by simp only [handleColdRequests, if_neg hwin, hm, if_true, hround, hrest, bind, Except.bind],
            .stays x size hm hl hs hh⟩
        · exact .inr ⟨f, by simp only [handleColdRequests, if_neg hwin, hm, if_true, hround, hrest, bind, Except.bind],
            hlater hbad⟩

/-- A call that returns gives each slot a fate. -/
theorem handled_of_ok {xs xs' : List (Slot N)} {s' : Cold N} (hr : ∀ x ∈ xs, Ready e x) (hc : s.Counted)
    (hok : handleColdRequests e opI xs s = .ok (xs', s')) : ∃ fs, Handled e true opI xs s xs' fs s' := by
  rcases handleColdRequests_cases hr opI hc with ⟨_, fs, _, hok', hh⟩ | ⟨f, herr, -⟩
  · rw [hok] at hok'
    cases hok'
    exact ⟨fs, hh⟩
  · rw [hok] at herr
    cases herr

/-- Where all requests can be handed over, a call returns. -/
theorem handleColdRequests_handled {xs : List (Slot N)} (hr : ∀ x ∈ xs, Ready e x) (ha : ∀ x ∈ xs, Admissible e x) (opI : ℕ)
    {s : Cold N} (hc : s.Counted) :
    ∃ xs' fs s', handleColdRequests e opI xs s = .ok (xs', s') ∧ Handled e true opI xs s xs' fs s' := by
  rcases handleColdRequests_cases hr opI hc with hok | ⟨-, -, x, hx, hbad⟩
  · exact hok
  · exact absurd (ha x hx) hbad

/-! ## What a call does -/

variable {o : Bool} {xs xs' : List (Slot N)} {fs : List (Fate N)} {s' : Cold N} {rm : Fin N}

/-- The slots copied so far. -/
def Cold.slots (s : Cold N) : List (Slot N) := (List.range s.nextOpI).map s.nextOps

theorem copied_slot (s : Cold N) (opI : ℕ) (x : Slot N) (size : ℕ) : (s.copied opI x size).nextOps s.nextOpI =
    ⟨(s.nextOps s.nextOpI).op.memcpy x.op size, x.type, x.machine⟩ := update_self _ _ _

theorem copied_slots (s : Cold N) (opI : ℕ) (x : Slot N) (size : ℕ) :
    (s.copied opI x size).slots = s.slots ++ [(s.copied opI x size).nextOps s.nextOpI] := by
  have hbefore : (List.range s.nextOpI).map (s.copied opI x size).nextOps = s.slots :=
    List.map_congr_left fun j hj => update_of_ne (List.mem_range.1 hj).ne _ _
  show (List.range (s.nextOpI + 1)).map (s.copied opI x size).nextOps = _
  rw [List.range_succ, List.map_append, hbefore]
  rfl

/-- What `add_erpc_request` does, if it returns. -/
theorem addRequest_eq {s₁ : Cold N} (h : s.addRequest e x = .ok s₁) :
    s₁ = { s with
      batch := update s.batch x.machine (s.batch x.machine ++ [(x.op, sizeOfOp e.cfg x.op)])
      perWorkerOutstanding := update s.perWorkerOutstanding x.machine (s.perWorkerOutstanding x.machine + 1)
      wrI := s.wrI + 1
      remReqI := s.remReqI + 1 } := by
  obtain ⟨b, hb, he⟩ := bind_eq_ok.1 h
  cases he
  unfold addErpcRequest at hb
  split at hb
  · cases hb
    rfl
  · cases hb

theorem Handled.meets (h : Handled e o opI xs s xs' fs s') : List.Forall₂ e.Meets xs fs := by
  induction h with
  | nil => exact .nil
  | retired hm hret _ ih => exact .cons (.retired hm hret) ih
  | stays x size hm hl hs _ ih =>
    refine .cons (.copied _ ⟨by rw [copied_slot], ?_, ?_⟩) ih
    · rw [copied_slot, unserved_of_hit hm]
    · rw [copied_slot]
      exact copyOf_of_copySize _ hs
  | passed x size hm ho _ hs _ ih =>
    refine .cons (.passed _ hm ⟨by rw [copied_slot]; rfl, ?_, ?_⟩) ih
    · rw [copied_slot, unserved_type hm]
      rfl
    · rw [copied_slot]
      exact copyOf_setCltGid _ _ hs
  | left x size hm ho hs _ ih =>
    refine .cons (.copied _ ⟨by rw [copied_slot]; exact unserved_machine x, ?_, ?_⟩) ih
    · rw [copied_slot]
    · rw [copied_slot, unserved_op]
      exact copyOf_of_copySize _ hs
  | handed x s s₁ hm hne _ _ _ ih => exact .cons (.handed hm hne) ih
  | close _ _ ih => exact ih

theorem Left.congr {p : Protocol} {y : Slot N} (h : Left p x) (ht : y.type = x.type) (ho : y.opcode = x.opcode) : Left p y := by
  cases h with
  | unserved hx hxo => exact .unserved (ht.trans hx) (ho ▸ hxo)
  | getStall hx hxo => exact .getStall (ht.trans hx) (ho.trans hxo)
  | putStall hx hxo => exact .putStall (ht.trans hx) (ho.trans hxo)
  | brc hx hxo => exact .brc (ht.trans hx) (ho.trans hxo)

theorem copied_opcode (hs : copySize e.cfg x.opcode = some size) :
    ((s.copied opI x size).nextOps s.nextOpI).opcode = x.opcode := by
  rw [copied_slot]
  exact (copyOf_of_copySize _ hs).opcode

/-- What is copied is what the next iteration may find. -/
theorem Handled.left_of_next (h : Handled e o opI xs s xs' fs s') : ∀ y ∈ fs.filterMap Fate.next, Left e.protocol y := by
  induction h with
  | nil => simp
  | retired _ _ _ ih => simpa [Fate.next] using ih
  | stays x size _ hl hs _ ih =>
    simp only [List.filterMap_cons, Fate.next, List.mem_cons, forall_eq_or_imp]
    exact ⟨hl.congr (by rw [copied_slot]) (copied_opcode hs), ih⟩
  | passed x size _ ho _ hs _ ih =>
    simp only [List.filterMap_cons, Fate.next, List.mem_cons, forall_eq_or_imp]
    refine ⟨.unserved (by rw [copied_slot]; rfl) ?_, ih⟩
    rw [copied_opcode (by rw [request_opcode]; exact hs), request_opcode]
    exact ho
  | left x size hm ho hs _ ih =>
    simp only [List.filterMap_cons, Fate.next, List.mem_cons, forall_eq_or_imp]
    refine ⟨.unserved (by rw [copied_slot]; exact unserved_type hm) ?_, ih⟩
    rw [copied_opcode (by rw [unserved_opcode]; exact hs), unserved_opcode]
    exact ho
  | handed _ _ _ _ _ _ _ _ ih => simpa [Fate.next] using ih
  | close _ _ ih => exact ih

/-- Retired and handed over slots are marked empty, and no others. -/
theorem Handled.marks (h : Handled e o opI xs s xs' fs s') :
    List.Forall₂ (fun x f => x.type = .empty ↔ f.next = none) xs' fs := by
  induction h with
  | nil => exact .nil
  | retired _ _ _ ih => exact .cons (by simp [Fate.next]) ih
  | stays x size hm hl _ _ ih => exact .cons (by simp [Fate.next, hl.type_ne_empty]) ih
  | passed => exact .cons (by simp [Fate.next, Env.request]) ‹_›
  | left x size hm _ _ _ ih => exact .cons (by simp [Fate.next, unserved_type hm]) ih
  | handed => exact .cons (by simp [Fate.next]) ‹_›
  | close _ _ ih => exact ih

theorem Handled.cacheHits (h : Handled e o opI xs s xs' fs s') : s'.cacheHits = s.cacheHits + (fs.map Fate.hits).sum := by
  induction h with
  | nil => simp
  | retired _ _ _ ih =>
    rw [ih, List.map_cons, List.sum_cons, ← Nat.add_assoc]
    rfl
  | stays _ _ _ _ _ _ ih => simpa [Fate.hits, Cold.copied] using ih
  | passed _ _ _ _ _ _ _ ih => simpa [Fate.hits, Cold.copied] using ih
  | left _ _ _ _ _ _ ih => simpa [Fate.hits, Cold.copied] using ih
  | handed _ _ _ _ _ _ hadd _ ih =>
    rw [ih, addRequest_eq hadd]
    simp [Fate.hits]
  | close _ _ ih => exact ih

/-- The copies stand in the next batch, in order. -/
theorem Handled.slots (h : Handled e o opI xs s xs' fs s') : s'.slots = s.slots ++ fs.filterMap Fate.next := by
  induction h with
  | nil => simp
  | retired _ _ _ ih => exact ih
  | stays _ _ _ _ _ _ ih =>
    rw [ih, copied_slots, List.append_assoc]
    rfl
  | passed _ _ _ _ _ _ _ ih =>
    rw [ih, copied_slots, List.append_assoc]
    rfl
  | left _ _ _ _ _ _ ih =>
    rw [ih, copied_slots, List.append_assoc]
    rfl
  | handed _ _ _ _ _ _ hadd _ ih =>
    rw [ih, addRequest_eq hadd]
    rfl
  | close _ _ ih => exact ih

/-- `add_erpc_request` was called for the requests handed over, in order, with the size of each. -/
theorem Handled.batch (h : Handled e o opI xs s xs' fs s') (rm : Fin N) :
    s'.batch rm = s.batch rm ++ coldBatch e.cfg (fs.filterMap (Fate.handedTo rm)) := by
  induction h with
  | nil => simp [coldBatch]
  | retired _ _ _ ih => exact ih
  | stays _ _ _ _ _ _ ih => exact ih
  | passed _ _ _ _ _ _ _ ih => exact ih
  | left _ _ _ _ _ _ ih => exact ih
  | handed x s s₁ _ _ _ hadd _ ih =>
    rw [ih, addRequest_eq hadd]
    by_cases hrm : x.machine = rm
    · subst hrm
      show update s.batch x.machine (s.batch x.machine ++ [(setCltGid e.cltGid x.op, _)]) x.machine ++ _ = _
      rw [update_self, List.append_assoc]
      simp [Fate.handedTo, coldBatch, Env.request]
    · show update s.batch x.machine _ rm ++ _ = _
      rw [update_of_ne (Ne.symm hrm)]
      simp [Fate.handedTo, hrm]
  | close _ _ ih => exact ih

/-- Where more requests wait for one machine than it takes, one is passed over, and its copy has
the client's id for its version. -/
theorem Handled.exists_passed {m : Fin N} (hN : 1 < N) (h : Handled e o opI xs s xs' fs s') (ho : o = true)
    (hx : ∀ x ∈ xs, x.isMiss = true ∧ x.machine = m) (hle : s.perWorkerOutstanding m ≤ kvsBatch)
    (hmany : kvsBatch < s.perWorkerOutstanding m + xs.length) (hrem : s.remReqI = s.perWorkerOutstanding m)
    (hwr : s.wrI = s.perWorkerOutstanding m) :
    ∃ y ∈ fs.filterMap Fate.next, (CacheOp.ofBytes y.op).keyMeta.version = .ofNat (Bytes.readLE 4 (Bytes.le e.cltGid)) := by
  induction h with
  | nil =>
    rw [List.length_nil] at hmany
    omega
  | retired hm => simp [hm] at hx
  | stays _ _ hm => simp [hm] at hx
  | passed x size _ _ _ hs =>
    refine ⟨_, List.mem_filterMap.2 ⟨_, List.mem_cons_self .., rfl⟩, ?_⟩
    rw [copied_slot]
    exact congrArg CacheMeta.version (copyOf_setCltGid e.cltGid _ hs).keyMeta
  | left => cases ho
  | @handed opI xs xs' fs s' x s s₁ _ _ hlt hadd _ ih =>
    have hmachine : x.machine = m := (hx x (by simp)).2
    have hself : s₁.perWorkerOutstanding m = s.perWorkerOutstanding m + 1 := by
      rw [addRequest_eq hadd, ← hmachine]
      exact update_self _ _ _
    have hcounts : s₁.remReqI = s.remReqI + 1 ∧ s₁.wrI = s.wrI + 1 := by
      rw [addRequest_eq hadd]
      exact ⟨rfl, rfl⟩
    rw [hmachine] at hlt
    rw [List.length_cons] at hmany
    obtain ⟨y, hy, hversion⟩ := ih rfl (fun x hx' => hx x (by simp [hx'])) (by omega) (by omega) (by omega) (by omega)
    exact ⟨y, hy, hversion⟩
  | close hreason =>
    rw [windowSize, kvsBatch] at hreason
    rw [kvsBatch] at hle
    rcases hreason with hwin | hall
    · omega
    · omega

/-! ## Which requests are handed over -/

/-- A request that is handed over is counted for its machine. -/
theorem addRequest_outstanding {s₁ : Cold N} (h : s.addRequest e x = .ok s₁) (rm : Fin N) :
    s₁.perWorkerOutstanding rm = s.perWorkerOutstanding rm + if x.machine = rm then 1 else 0 := by
  rw [addRequest_eq h]
  by_cases hrm : x.machine = rm
  · subst hrm
    rw [if_pos rfl]
    exact update_self _ _ _
  · rw [if_neg hrm]
    exact update_of_ne (Ne.symm hrm) _ _

/-- **A request is passed over when its machine has enough**: in front of it `KVS_BATCH` requests
were handed over for its machine. -/
theorem Handled.collected_of_passed (h : Handled e o opI xs s xs' fs s') (hle : ∀ rm, s.perWorkerOutstanding rm ≤ kvsBatch)
    {before after : List (Fate N)} {y : Slot N} (hfs : fs = before ++ .passed y :: after) :
    s.perWorkerOutstanding y.machine + (before.filterMap (Fate.handedTo y.machine)).length = kvsBatch := by
  induction h generalizing before with
  | nil => simp at hfs
  | close _ _ ih => exact ih hle hfs
  | retired _ _ _ ih | stays _ _ _ _ _ _ ih | left _ _ _ _ _ _ ih =>
    rcases List.cons_eq_append_iff.1 hfs with ⟨-, hhead⟩ | ⟨before, rfl, htail⟩
    · cases hhead
    · have hrest := ih hle htail
      exact hrest
  | passed x size _ _ hfull _ _ ih =>
    rcases List.cons_eq_append_iff.1 hfs with ⟨rfl, hhead⟩ | ⟨before, rfl, htail⟩
    · cases hhead
      rw [copied_slot]
      exact le_antisymm (hle _) hfull
    · have hrest := ih hle htail
      exact hrest
  | handed x s s₁ _ _ hlt hadd _ ih =>
    rcases List.cons_eq_append_iff.1 hfs with ⟨-, hhead⟩ | ⟨before, rfl, htail⟩
    · cases hhead
    · have hcount := addRequest_outstanding hadd
      have hle₁ : ∀ rm, s₁.perWorkerOutstanding rm ≤ kvsBatch := by
        intro rm
        rw [hcount rm]
        split
        · next hrm => exact hrm ▸ hlt
        · exact hle rm
      have ih := ih hle₁ htail
      rw [hcount, show (e.request x).machine = x.machine from rfl] at ih
      rw [List.filterMap_cons, Fate.handedTo]
      by_cases hrm : x.machine = y.machine
      · rw [if_pos hrm] at ih
        rw [if_pos hrm, List.length_cons]
        omega
      · rw [if_neg hrm] at ih
        rw [if_neg hrm]
        exact ih

/-- Behind the end of the loop nothing is handed over or passed over. -/
theorem Handled.not_issued (h : Handled e o opI xs s xs' fs s') (ho : o = false) : ∀ f ∈ fs, f.isIssued = false := by
  induction h with
  | nil => simp
  | retired _ _ _ ih => simpa [Fate.isIssued] using ih ho
  | stays _ _ _ _ _ _ ih => simpa [Fate.isIssued] using ih ho
  | left _ _ _ _ _ _ ih => simpa [Fate.isIssued] using ih ho
  | passed => cases ho
  | handed => cases ho
  | close => cases ho

/-- **A request is left as it was when the loop has ended in front of it**: the window is full, or
every machine has its batch. -/
theorem Handled.ended_of_copied (h : Handled e o opI xs s xs' fs s') {before after : List (Fate N)} {y : Slot N}
    (hfs : fs = before ++ .copied y :: after) (hy : y.isMiss = true) :
    (o = false ∨ windowSize ≤ s.remReqI + before.countP Fate.isHanded ∨ kvsBatch * N ≤ s.wrI + before.countP Fate.isHanded) ∧
      ∀ f ∈ after, f.isIssued = false := by
  induction h generalizing before with
  | nil => simp at hfs
  | close hreason _ ih =>
    refine ⟨.inr (hreason.imp (fun h => ?_) fun h => ?_), (ih hfs).2⟩
    · exact Nat.le_add_right_of_le h
    · exact Nat.le_add_right_of_le h
  | retired _ _ _ ih =>
    rcases List.cons_eq_append_iff.1 hfs with ⟨-, hhead⟩ | ⟨before, rfl, htail⟩
    · cases hhead
    · have hrest := ih htail
      exact hrest
  | stays x size hm _ _ _ ih =>
    rcases List.cons_eq_append_iff.1 hfs with ⟨-, hhead⟩ | ⟨before, rfl, htail⟩
    · cases hhead
      rw [copied_slot] at hy
      exact absurd hy (by simpa [Slot.isMiss] using hm)
    · have hrest := ih htail
      exact hrest
  | left _ _ _ _ _ hrest ih =>
    rcases List.cons_eq_append_iff.1 hfs with ⟨-, hhead⟩ | ⟨before, rfl, htail⟩
    · cases hhead
      exact ⟨.inl rfl, hrest.not_issued rfl⟩
    · exact ⟨.inl rfl, (ih htail).2⟩
  | passed x size _ _ _ _ _ ih =>
    rcases List.cons_eq_append_iff.1 hfs with ⟨-, hhead⟩ | ⟨before, rfl, htail⟩
    · cases hhead
    · have hrest := ih htail
      exact hrest
  | handed x s s₁ _ _ _ hadd _ ih =>
    rcases List.cons_eq_append_iff.1 hfs with ⟨-, hhead⟩ | ⟨before, rfl, htail⟩
    · cases hhead
    · have ih := ih htail
      rw [addRequest_eq hadd] at ih
      refine ⟨ih.1.imp_right fun hend => ?_, ih.2⟩
      rw [List.countP_cons_of_pos rfl]
      dsimp only at hend
      omega

/-! ## Order -/

/-- Nothing is handed over for a machine whose batch is full. -/
theorem Handled.handed_eq_nil (h : Handled e o opI xs s xs' fs s')
    (hfull : o = false ∨ kvsBatch ≤ s.perWorkerOutstanding rm) : fs.filterMap (Fate.handedTo rm) = [] := by
  induction h with
  | nil => rfl
  | retired _ _ _ ih => exact ih hfull
  | stays _ _ _ _ _ _ ih => exact ih hfull
  | passed _ _ _ _ _ _ _ ih => exact ih hfull
  | left _ _ _ _ _ _ ih => exact ih hfull
  | handed x s s₁ _ _ hlt hadd _ ih =>
    have hfull : kvsBatch ≤ s.perWorkerOutstanding rm := hfull.resolve_left (by simp)
    have hne : x.machine ≠ rm := fun he => by
      rw [he] at hlt
      omega
    have ih := ih (.inr (by
      rw [addRequest_eq hadd]
      show kvsBatch ≤ update s.perWorkerOutstanding x.machine _ rm
      rw [update_of_ne hne.symm]
      exact hfull))
    simpa [Fate.handedTo, hne] using ih
  | close _ _ ih => exact ih (.inl rfl)

theorem missFor_of_hit (h : x.isMiss = false) : missFor rm x = none := by simp [missFor, h]

theorem missFor_copied_hit (hm : x.isMiss = false) : missFor rm ((s.copied opI x size).nextOps s.nextOpI) = none :=
  missFor_of_hit (by rw [copied_slot]; exact hm)

/-- A copy waits for the machine that its slot waited for. -/
theorem missFor_copied (hm : x.isMiss = true) : missFor rm ((s.copied opI x size).nextOps s.nextOpI) =
    if x.machine = rm then some ((s.copied opI x size).nextOps s.nextOpI).op else none := by
  have hmiss : ((s.copied opI x size).nextOps s.nextOpI).isMiss = true := by rw [copied_slot]; exact hm
  have hmachine : ((s.copied opI x size).nextOps s.nextOpI).machine = x.machine := by rw [copied_slot]
  simp [missFor, hmiss, hmachine]

/-- A request at the head of the queue of a machine that takes no more stays at the head. -/
theorem fifo_cons_left {f : Fate N} {y : Slot N} (hf : f.next = some y) (hnot : f.handedTo rm = none) (hx : x.isMiss = true)
    (hy : missFor rm y = if x.machine = rm then some y.op else none)
    (hsame : SameRequest e.cfg (.ofBytes x.op) (.ofBytes y.op))
    (hnil : x.machine = rm → fs.filterMap (Fate.handedTo rm) = [])
    (ih : List.Forall₂ (SameRequest e.cfg) ((xs.filterMap (missFor rm)).map .ofBytes)
      ((fs.filterMap (Fate.handedTo rm) ++ (fs.filterMap Fate.next).filterMap (missFor rm)).map .ofBytes)) :
    List.Forall₂ (SameRequest e.cfg) (((x :: xs).filterMap (missFor rm)).map .ofBytes)
      (((f :: fs).filterMap (Fate.handedTo rm) ++ ((f :: fs).filterMap Fate.next).filterMap (missFor rm)).map .ofBytes) := by
  by_cases hrm : x.machine = rm
  · rw [hnil hrm] at ih
    rw [if_pos hrm] at hy
    have hxs : missFor rm x = some x.op := by simp [missFor, hx, hrm]
    simp only [List.filterMap_cons, hxs, hnot, hf, hnil hrm, hy, List.nil_append, List.map_cons]
    exact .cons hsame ih
  · rw [if_neg hrm] at hy
    have hxs : missFor rm x = none := by simp [missFor, hrm]
    simpa only [List.filterMap_cons, hxs, hnot, hf, hy] using ih

/-- **Requests stay in order**: those for a machine that were handed over, followed by those left
for it, are the requests there were. -/
theorem Handled.fifo (h : Handled e o opI xs s xs' fs s') (rm : Fin N) :
    List.Forall₂ (SameRequest e.cfg) ((xs.filterMap (missFor rm)).map .ofBytes)
      ((fs.filterMap (Fate.handedTo rm) ++ (fs.filterMap Fate.next).filterMap (missFor rm)).map .ofBytes) := by
  induction h with
  | nil => exact .nil
  | retired hm _ _ ih => simpa only [List.filterMap_cons, missFor_of_hit hm, Fate.handedTo, Fate.next] using ih
  | stays x size hm _ _ _ ih =>
    simpa only [List.filterMap_cons, missFor_of_hit hm, Fate.handedTo, Fate.next, missFor_copied_hit hm] using ih
  | passed x size hm _ hfull hs hrest ih =>
    refine fifo_cons_left rfl rfl hm (missFor_copied rfl) ?_ (fun hrm => hrest.handed_eq_nil (.inr (hrm ▸ hfull))) ih
    rw [copied_slot]
    exact (copyOf_setCltGid _ _ hs).sameRequest
  | left x size hm ho hs hrest ih =>
    have hun : (unserved x).isMiss = true := (unserved_isMiss x).trans hm
    refine fifo_cons_left rfl rfl hm (by rw [missFor_copied hun, unserved_machine]) ?_ (fun _ => hrest.handed_eq_nil (.inl rfl)) ih
    rw [copied_slot, unserved_op]
    exact (copyOf_of_copySize _ hs).sameRequest
  | handed x s s₁ hm _ _ _ _ ih =>
    by_cases hrm : x.machine = rm
    · have hxs : missFor rm x = some x.op := by simp [missFor, hm, hrm]
      simp only [List.filterMap_cons, hxs, Fate.handedTo, Fate.next, if_pos hrm, List.cons_append, List.map_cons]
      refine .cons ?_ ih
      rw [ofBytes_setCltGid]
      exact ⟨rfl, rfl, fun _ => ⟨rfl, .refl _ _⟩⟩
    · have hxs : missFor rm x = none := by simp [missFor, hrm]
      simpa only [List.filterMap_cons, hxs, Fate.handedTo, Fate.next, if_neg hrm] using ih
  | close _ _ ih => exact ih

/-! ## Pointers -/

/-- Slot `x` holds the read of key `k` that is tracked. -/
structure Tracks (k : ℕ) (x : Slot N) : Prop where
  get : x.opcode = .get
  value0 : x.value0.toNat = k

/-- Between two slots: each pointer points at a read that was copied, or at one that is still to
come. -/
def Cold.Pointing (opI : ℕ) (xs : List (Slot N)) (s : Cold N) : Prop :=
  ∀ k < hottestKeysToTrack, s.hottestKeysPointers k ≠ 0 →
    (s.hottestKeysPointers k ≤ s.nextOpI ∧ (s.nextOps (s.hottestKeysPointers k - 1)).type = .getStall ∧
      Tracks k (s.nextOps (s.hottestKeysPointers k - 1))) ∨
    (opI < s.hottestKeysPointers k ∧ ∃ x, xs[s.hottestKeysPointers k - 1 - opI]? = some x ∧
      (x.type = .getSuccess ∨ x.type = .getStall) ∧ Tracks k x)

/-- The pointer at the slot that comes next. -/
theorem Cold.Pointing.head (h : s.Pointing opI (x :: xs)) (hle : s.nextOpI ≤ opI) {k : ℕ} (hk : k < hottestKeysToTrack)
    (hp : s.hottestKeysPointers k = opI + 1) : (x.type = .getSuccess ∨ x.type = .getStall) ∧ Tracks k x := by
  rcases h k hk (by omega) with ⟨hold, -⟩ | ⟨-, y, hy, hread⟩
  · omega
  · rw [hp, Nat.add_sub_cancel, Nat.sub_self] at hy
    cases hy
    exact hread

/-- What a round for slot `opI` does to the pointers: the one at the slot goes with its copy. -/
structure Cold.Moves (opI : ℕ) (copied : Bool) (s s₁ : Cold N) : Prop where
  nextOpI : s₁.nextOpI = s.nextOpI + copied.toNat
  ops : ∀ j < s.nextOpI, s₁.nextOps j = s.nextOps j
  self : ∀ k < hottestKeysToTrack, s.hottestKeysPointers k = opI + 1 →
    s₁.hottestKeysPointers k = if copied then s.nextOpI + 1 else 0
  other : ∀ k < hottestKeysToTrack, s.hottestKeysPointers k ≠ opI + 1 → s₁.hottestKeysPointers k = s.hottestKeysPointers k

theorem Cold.Pointing.next {copied : Bool} {s₁ : Cold N} (h : s.Pointing opI (x :: xs)) (hm : s.Moves opI copied s₁)
    (hnew : copied = true → ∀ k < hottestKeysToTrack, s.hottestKeysPointers k = opI + 1 →
      (s₁.nextOps s.nextOpI).type = .getStall ∧ Tracks k (s₁.nextOps s.nextOpI)) : s₁.Pointing (opI + 1) xs := by
  intro k hk h0
  by_cases hhead : s.hottestKeysPointers k = opI + 1
  · rw [hm.self k hk hhead] at h0 ⊢
    cases copied with
    | false => exact absurd rfl h0
    | true => exact .inl ⟨hm.nextOpI.ge, hnew rfl k hk hhead⟩
  · rw [hm.other k hk hhead] at h0 ⊢
    rcases h k hk h0 with ⟨hold, hread⟩ | ⟨hlt, y, hy, hread⟩
    · rw [hm.ops _ (by omega)]
      exact .inl ⟨by rw [hm.nextOpI]; omega, hread⟩
    · refine .inr ⟨by omega, y, ?_, hread⟩
      obtain ⟨i, hi⟩ : ∃ i, s.hottestKeysPointers k - 1 - opI = i + 1 :=
        ⟨s.hottestKeysPointers k - 1 - opI - 1, by omega⟩
      rw [hi, List.getElem?_cons_succ] at hy
      rwa [show s.hottestKeysPointers k - 1 - (opI + 1) = i by omega]

theorem repoint_apply (s : Cold N) (opI : ℕ) (x : Slot N) (p k : ℕ) : s.repoint opI x p k =
    if x.value0.toNat = k ∧ k < hottestKeysToTrack ∧ s.hottestKeysPointers k = opI + 1 then p else s.hottestKeysPointers k := by
  unfold Cold.repoint
  by_cases hk : x.value0.toNat = k
  · subst hk
    split
    · next hc => rw [update_self, if_pos ⟨rfl, hc⟩]
    · next hc => rw [if_neg fun h => hc h.2]
  · split
    · rw [update_of_ne (Ne.symm hk), if_neg fun h => hk h.1]
    · rw [if_neg fun h => hk h.1]

theorem repoint_of_ne {p k : ℕ} (h : s.hottestKeysPointers k ≠ opI + 1) : s.repoint opI x p k = s.hottestKeysPointers k := by
  rw [repoint_apply, if_neg fun hc => h hc.2.2]

/-- A read that is retired is not tracked any more. -/
theorem Cold.Pointing.retire (hp : e.protocol = .lin) (h : s.Pointing opI (x :: xs)) (hle : s.nextOpI ≤ opI)
    (hret : e.retires x = true) : s.Moves opI false (s.retire e opI x) := by
  have hptr (k : ℕ) : (s.retire e opI x).hottestKeysPointers k =
      if x.type = .getSuccess then s.repoint opI x 0 k else s.hottestKeysPointers k := by
    simp only [Cold.retire, hp, true_and]
    split <;> rfl
  refine ⟨rfl, fun _ _ => rfl, fun k hk hhead => ?_, fun k hk hhead => ?_⟩
  · obtain ⟨ht | ht, hread⟩ := h.head hle hk hhead
    · rw [hptr, if_pos ht, repoint_apply, if_pos ⟨hread.value0, hk, hhead⟩]
      rfl
    · simp [Env.retires, hp, ht, hread.get] at hret
  · rw [hptr, repoint_of_ne hhead, ite_self]

/-- A read that stalled is tracked at its new place. -/
theorem Cold.copied_moves (x : Slot N) (size : ℕ)
    (hx : ∀ k < hottestKeysToTrack, s.hottestKeysPointers k = opI + 1 → x.type = .getStall ∧ Tracks k x) :
    s.Moves opI true (s.copied opI x size) := by
  have hptr (k : ℕ) : (s.copied opI x size).hottestKeysPointers k =
      if x.type = .getStall then s.repoint opI x (s.nextOpI + 1) k else s.hottestKeysPointers k := by
    simp only [Cold.copied]
    split <;> rfl
  refine ⟨rfl, fun j hj => update_of_ne hj.ne _ _, fun k hk hhead => ?_, fun k hk hhead => ?_⟩
  · obtain ⟨ht, hread⟩ := hx k hk hhead
    rw [hptr, if_pos ht, repoint_apply, if_pos ⟨hread.value0, hk, hhead⟩]
    rfl
  · rw [hptr, repoint_of_ne hhead, ite_self]

theorem addRequest_moves {s₁ : Cold N} (h : s.addRequest e x = .ok s₁)
    (hnone : ∀ k < hottestKeysToTrack, s.hottestKeysPointers k ≠ opI + 1) : s.Moves opI false s₁ := by
  rw [addRequest_eq h]
  exact ⟨rfl, fun _ _ => rfl, fun k hk hhead => absurd hhead (hnone k hk), fun _ _ _ => rfl⟩

/-- Enough of a read is copied for it to be tracked. -/
theorem Tracks.copied {k : ℕ} (h : Tracks k x) (ht : x.type = .getStall) (hs : copySize e.cfg x.opcode = some size) :
    ((s.copied opI x size).nextOps s.nextOpI).type = .getStall ∧ Tracks k ((s.copied opI x size).nextOps s.nextOpI) := by
  have hsize : size = 19 := by
    rw [h.get] at hs
    exact (Option.some.inj hs).symm
  rw [copied_slot]
  refine ⟨ht, (congrArg Opcode.ofByte ?_).trans h.get, (congrArg UInt8.toNat ?_).trans h.value0⟩
  · exact memcpy_of_lt (by omega)
  · exact memcpy_of_lt (by omega)

/-- No pointer is at a request. -/
theorem Cold.Pointing.not_head_of_miss (h : s.Pointing opI (x :: xs)) (hle : s.nextOpI ≤ opI) (hm : x.isMiss = true) {k : ℕ}
    (hk : k < hottestKeysToTrack) : s.hottestKeysPointers k ≠ opI + 1 := by
  intro hhead
  rcases (h.head hle hk hhead).1 with ht | ht <;> simp [Slot.isMiss, ht] at hm

def Fate.isCopied (f : Fate N) : Bool := f.next.isSome

/-- Where a pointer leads after the call, from where it leads before: to the slot's copy, or
nowhere. -/
def follow (fs : List (Fate N)) : ℕ → ℕ
  | 0 => 0
  | i + 1 => if fs[i]?.any Fate.isCopied then ((fs.take i).filterMap Fate.next).length + 1 else 0

/-- A pointer that does not end leads to the copy of its slot. -/
theorem follow_eq_succ {i p : ℕ} (h : follow fs (i + 1) = p + 1) :
    ∃ f y, fs[i]? = some f ∧ f.next = some y ∧ (fs.filterMap Fate.next)[p]? = some y := by
  rw [follow] at h
  split at h
  · next hc =>
    cases hf : fs[i]? with
    | none => simp [hf] at hc
    | some f =>
      obtain ⟨hlt, hget⟩ := List.getElem?_eq_some_iff.1 hf
      have hsplit : fs = fs.take i ++ f :: fs.drop (i + 1) := by
        rw [← hget, ← List.drop_eq_getElem_cons hlt, List.take_append_drop]
      obtain ⟨y, hy⟩ : ∃ y, f.next = some y := Option.isSome_iff_exists.1 (by simpa [hf, Fate.isCopied] using hc)
      refine ⟨f, y, rfl, hy, ?_⟩
      rw [hsplit, List.filterMap_append, List.getElem?_append_right (by omega),
        show p - ((fs.take i).filterMap Fate.next).length = 0 by omega, List.filterMap_cons, hy]
      rfl
  · omega

/-- From slot `opI` on, the pointers go with their slots. -/
def Cold.Follows (opI : ℕ) (s : Cold N) (fs : List (Fate N)) (s' : Cold N) : Prop :=
  ∀ k < hottestKeysToTrack, (s.hottestKeysPointers k ≤ opI → s'.hottestKeysPointers k = s.hottestKeysPointers k) ∧
    ∀ i, s.hottestKeysPointers k = opI + i + 1 →
      s'.hottestKeysPointers k = if follow fs (i + 1) = 0 then 0 else s.nextOpI + follow fs (i + 1)

theorem follow_cons_one (f : Fate N) (fs : List (Fate N)) : follow (f :: fs) 1 = f.isCopied.toNat := by
  cases hf : f.isCopied <;> simp [follow, hf]

theorem follow_cons (f : Fate N) (fs : List (Fate N)) (i : ℕ) :
    follow (f :: fs) (i + 2) = if follow fs (i + 1) = 0 then 0 else f.isCopied.toNat + follow fs (i + 1) := by
  simp only [follow, List.getElem?_cons_succ, List.take_succ_cons]
  by_cases hc : fs[i]?.any Fate.isCopied = true
  · cases hf : f.next with
    | none => simp [hc, Fate.isCopied, hf]
    | some y =>
      simp [hc, Fate.isCopied, hf]
      omega
  · simp [hc]

/-- A pointer that was set to a copy is not met again: the copy does not stand behind its slot. -/
theorem Cold.Follows.cons {f : Fate N} {s₁ : Cold N} (hm : s.Moves opI f.isCopied s₁) (hle : s.nextOpI ≤ opI)
    (h : s₁.Follows (opI + 1) fs s') : s.Follows opI (f :: fs) s' := by
  intro k hk
  refine ⟨fun hold => ?_, fun i hi => ?_⟩
  · have hsame := hm.other k hk (by omega)
    rw [← hsame]
    exact (h k hk).1 (by omega)
  · cases i with
    | zero =>
      have hself := hm.self k hk hi
      have hdone : s₁.hottestKeysPointers k ≤ opI + 1 := by
        rw [hself]
        split <;> omega
      rw [(h k hk).1 hdone, hself, follow_cons_one]
      cases f.isCopied <;> rfl
    | succ i =>
      have hsame := hm.other k hk (by omega)
      rw [(h k hk).2 i (by omega), follow_cons, hm.nextOpI]
      split
      · rfl
      · rw [if_neg (by omega), Nat.add_assoc]

/-- What is done with a slot, then what the rest of the call does. -/
theorem Cold.Moves.follows {f : Fate N} {s₁ : Cold N} (hm : s.Moves opI f.isCopied s₁) (hle : s.nextOpI ≤ opI)
    (h : s'.Pointing (opI + 1 + xs.length) [] ∧ s₁.Follows (opI + 1) fs s') :
    s'.Pointing (opI + (x :: xs).length) [] ∧ s.Follows opI (f :: fs) s' :=
  ⟨by rw [List.length_cons, Nat.add_comm _ 1, ← Nat.add_assoc]; exact h.1, .cons hm hle h.2⟩

/-- **The pointers go with their slots**: after a call each one is at the copy of the slot it was
at before, which is a read of its key that stalled, and gone if there is none. -/
theorem Handled.pointers (hp : e.protocol = .lin) (h : Handled e o opI xs s xs' fs s') (hle : s.nextOpI ≤ opI)
    (hpt : s.Pointing opI xs) : s'.Pointing (opI + xs.length) [] ∧ s.Follows opI fs s' := by
  induction h with
  | nil =>
    refine ⟨hpt, fun k hk => ⟨fun _ => rfl, fun i hi => ?_⟩⟩
    rcases hpt k hk (by omega) with ⟨hold, -⟩ | ⟨-, y, hy, -⟩
    · omega
    · simp at hy
  | retired _ hret _ ih =>
    have hm := hpt.retire hp hle hret
    exact hm.follows hle (ih (hle.trans (Nat.le_succ _)) (hpt.next hm (by simp)))
  | stays x size _ hl hs _ ih =>
    have hstall {k : ℕ} (hk : k < hottestKeysToTrack) (hhead) : x.type = .getStall ∧ Tracks k x :=
      (hpt.head hle hk hhead).imp_left fun ht => ht.resolve_left hl.type_ne_getSuccess
    have hm := Cold.copied_moves x size fun k hk hhead => hstall hk hhead
    exact hm.follows hle (ih (Nat.succ_le_succ hle)
      (hpt.next hm fun _ k hk hhead => (hstall hk hhead).2.copied (hstall hk hhead).1 hs))
  | passed x size hm _ _ _ _ ih =>
    have hnone {k : ℕ} (hk : k < hottestKeysToTrack) := hpt.not_head_of_miss hle hm hk
    have hm := Cold.copied_moves (e.request x) size fun k hk hhead => absurd hhead (hnone hk)
    exact hm.follows hle (ih (Nat.succ_le_succ hle) (hpt.next hm fun _ k hk hhead => absurd hhead (hnone hk)))
  | left x size hm _ _ _ ih =>
    have hnone {k : ℕ} (hk : k < hottestKeysToTrack) := hpt.not_head_of_miss hle hm hk
    have hm := Cold.copied_moves (unserved x) size fun k hk hhead => absurd hhead (hnone hk)
    exact hm.follows hle (ih (Nat.succ_le_succ hle) (hpt.next hm fun _ k hk hhead => absurd hhead (hnone hk)))
  | handed x s s₁ hm _ _ hadd _ ih =>
    have hnone {k : ℕ} (hk : k < hottestKeysToTrack) := hpt.not_head_of_miss hle hm hk
    have hm := addRequest_moves hadd fun k hk => hnone hk
    exact hm.follows hle (ih (by rw [hm.nextOpI]; exact hle.trans (Nat.le_succ _)) (hpt.next hm (by simp)))
  | close _ _ ih => exact ih hle hpt

/-! ## Counters -/

/-- What the client's model of its buffers keeps of the state. -/
def Cold.counters (s : Cold N) : Sc.Cold N :=
  ⟨fun rm => (s.batch rm).length, s.wrI, s.remReqI, s.perWorkerOutstanding⟩

theorem copyOpToNextOp_counters (h : s.copyOpToNextOp e opI x = .ok s') : s'.counters = s.counters := by
  unfold Cold.copyOpToNextOp at h
  split at h
  · cases h
  · split at h
    · cases h
    · cases h
      rfl

theorem settle_counters {x' : Slot N} (h : s.settle e opI x = .ok (x', s')) : s'.counters = s.counters := by
  unfold Cold.settle at h
  split at h
  · cases h
    rfl
  · obtain ⟨s₁, hcopy, he⟩ := bind_eq_ok.1 h
    cases he
    exact copyOpToNextOp_counters hcopy

theorem runThroughRestOfOps_counters (h : runThroughRestOfOps e opI xs s = .ok (xs', s')) : s'.counters = s.counters := by
  induction xs generalizing opI s xs' with
  | nil =>
    cases h
    rfl
  | cons x xs ih =>
    obtain ⟨⟨x', s₁⟩, hround, h⟩ := bind_eq_ok.1 h
    obtain ⟨⟨xs₁, s₂⟩, hrest, he⟩ := bind_eq_ok.1 h
    cases he
    refine (ih hrest).trans ?_
    unfold Cold.runThrough at hround
    split at hround
    · cases hround
    · exact settle_counters hround

theorem addRequest_counters {s₁ : Cold N} (h : s.addRequest e x = .ok s₁) :
    s.counters.addErpcRequest x.machine = .ok s₁.counters := by
  obtain ⟨b, hb, he⟩ := bind_eq_ok.1 h
  unfold addErpcRequest at hb
  split at hb
  · next hlt =>
    cases hb
    cases he
    have hidx : (fun rm => (update s.batch x.machine (s.batch x.machine ++ [(x.op, sizeOfOp e.cfg x.op)]) rm).length) =
        update (fun rm => (s.batch rm).length) x.machine ((s.batch x.machine).length + 1) := by
      funext rm
      by_cases hrm : rm = x.machine
      · subst hrm
        simp
      · simp [hrm]
    simp only [Cold.counters, Sc.Cold.addErpcRequest, hidx]
    exact if_pos hlt
  · cases hb

/-- **The counters are those of the client whose buffers were modelled before.** -/
theorem handleColdRequests_counters (h : handleColdRequests e opI xs s = .ok (xs', s')) :
    Sc.handleColdRequests e.cfg e.machineId xs s.counters = .ok s'.counters := by
  induction xs generalizing opI s xs' with
  | nil =>
    cases h
    rfl
  | cons x xs ih =>
    rw [handleColdRequests] at h
    rw [Sc.handleColdRequests]
    split at h
    · next hwin => rw [if_pos (show windowSize ≤ s.counters.remReqI from hwin), runThroughRestOfOps_counters h]
    · next hwin =>
      rw [if_neg (show ¬ windowSize ≤ s.counters.remReqI from hwin)]
      split at h
      · next hm =>
        obtain ⟨⟨x', s₁⟩, hround, h⟩ := bind_eq_ok.1 h
        obtain ⟨⟨xs₁, s₂⟩, hrest, he⟩ := bind_eq_ok.1 h
        cases he
        unfold Cold.cacheHitBookkeeping at hround
        split at hround
        · rw [if_pos (by simp [hm]), ← settle_counters hround]
          exact ih hrest
        · cases hround
      · next hm =>
        rw [if_neg (by simpa using hm)]
        split at h
        · cases h
        · next hlen =>
          rw [if_neg (by simpa using hlen)]
          split at h
          · cases h
          · next hne =>
            rw [if_neg hne]
            split at h
            · next hfull =>
              rw [if_pos (show kvsBatch < s.counters.outstanding x.machine + 1 from hfull)]
              obtain ⟨s₁, hcopy, h⟩ := bind_eq_ok.1 h
              rw [← copyOpToNextOp_counters hcopy]
              split at h
              · next hall =>
                obtain ⟨⟨xs₁, s₂⟩, hrest, he⟩ := bind_eq_ok.1 h
                cases he
                rw [if_pos (show kvsBatch * N ≤ s₁.counters.wrI by rw [copyOpToNextOp_counters hcopy]; exact hall),
                  runThroughRestOfOps_counters hrest]
              · next hall =>
                obtain ⟨⟨xs₁, s₂⟩, hrest, he⟩ := bind_eq_ok.1 h
                cases he
                rw [if_neg (show ¬ kvsBatch * N ≤ s₁.counters.wrI by rw [copyOpToNextOp_counters hcopy]; exact hall)]
                exact ih hrest
            · next hroom =>
              rw [if_neg (show ¬ kvsBatch < s.counters.outstanding x.machine + 1 from hroom)]
              obtain ⟨s₁, hadd, h⟩ := bind_eq_ok.1 h
              obtain ⟨⟨xs₁, s₂⟩, hrest, he⟩ := bind_eq_ok.1 h
              cases he
              exact bind_eq_ok.2 ⟨_, addRequest_counters (x := e.request x) hadd, ih hrest⟩

end

end CcKvs.Client
