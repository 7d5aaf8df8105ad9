/-
What combining does to the order of operations (`batch_from_trace_to_cache`
under `SEQUENTIAL_CONSISTENCY`). A slot that counts reads stands for all of
them: written out, the slots of a batch give for every key the commands of that
key in the order of the trace.

The slots do not say which key of the trace they are for, only its hash, so the
invariant carries the list of the commands that took a slot.
-/
import CcKvs.Client.Order

namespace CcKvs.Client

open Function Sc Bytes

inductive KeyAccess
  | read
  | write
  deriving DecidableEq, Repr

section

variable {N : ℕ}

def TraceCommand.access (c : TraceCommand N) : KeyAccess := if c.opcode.isWrite then .write else .read

/-- The commands a slot stands for. -/
def expandSlot (x : Slot N) : List KeyAccess :=
  if x.opcode = .put then [.write] else List.replicate (x.valLen.toNat + 1) .read

/-- `n` commands from `trace_iter` on. -/
def Trace.segment (t : Trace N) (traceIter n : ℕ) : List (TraceCommand N) :=
  (List.range n).map fun m => t.command (traceIter + m)

/-- The accesses to key `k` in the slots from `nextOpI` on, which hold the commands `os`. -/
def expansion (k nextOpI : ℕ) (os : List (TraceCommand N)) (ops : ℕ → Slot N) : List KeyAccess :=
  (os.zipIdx nextOpI).flatMap fun p => if p.1.keyId = k then expandSlot (ops p.2) else []

/-- The number of commands in the slots from `a` up to `b`. -/
def weight (ops : ℕ → Slot N) (a b : ℕ) : ℕ := ∑ j ∈ Finset.Ico a b, (expandSlot (ops j)).length

/-- The slot holds command `c`. -/
structure Holds (e : Env N) (c : TraceCommand N) (x : Slot N) : Prop where
  machine : x.machine = c.homeMachineId
  carries : Carries e c (.ofBytes x.op)

variable {e : Env N} {t : Trace N} {k nextOpI traceIter n : ℕ} {os : List (TraceCommand N)} {ops ops' : ℕ → Slot N}
  {c : TraceCommand N} {x : Slot N} {κ : UInt64}

theorem segment_succ (t : Trace N) (traceIter n : ℕ) :
    t.segment traceIter (n + 1) = t.segment traceIter n ++ [t.command (traceIter + n)] := by
  rw [Trace.segment, List.range_succ, List.map_append]
  rfl

theorem expansion_append (l r : List (TraceCommand N)) :
    expansion k nextOpI (l ++ r) ops = expansion k nextOpI l ops ++ expansion k (nextOpI + l.length) r ops := by
  rw [expansion, List.zipIdx_append, List.flatMap_append]
  rfl

theorem expansion_cons (c : TraceCommand N) (r : List (TraceCommand N)) :
    expansion k nextOpI (c :: r) ops = (if c.keyId = k then expandSlot (ops nextOpI) else []) ++ expansion k (nextOpI + 1) r ops := by
  rw [expansion, List.zipIdx_cons, List.flatMap_cons]
  rfl

/-- Only slots of the key count. -/
theorem expansion_congr (h : ∀ i c, os[i]? = some c → c.keyId = k → ops' (nextOpI + i) = ops (nextOpI + i)) :
    expansion k nextOpI os ops' = expansion k nextOpI os ops := by
  induction os generalizing nextOpI with
  | nil => rfl
  | cons c os ih =>
    rw [expansion_cons, expansion_cons]
    congr 1
    · split
      · next hk => rw [show ops' nextOpI = ops nextOpI from h 0 c rfl hk]
      · rfl
    · refine ih fun i c' hi hk => ?_
      have hget := h (i + 1) c' hi hk
      rwa [show nextOpI + (i + 1) = nextOpI + 1 + i by omega] at hget

theorem expansion_eq_nil (h : ∀ c ∈ os, c.keyId ≠ k) : expansion k nextOpI os ops = [] := by
  induction os generalizing nextOpI with
  | nil => rfl
  | cons c os ih =>
    rw [expansion_cons, if_neg (h c (by simp)), ih fun c' hc' => h c' (by simp [hc'])]
    rfl

/-- A new slot stands for its command alone. -/
theorem Holds.expandSlot_eq (h : Holds e c x) (hlen : c.opcode.isWrite = false → x.valLen = 0) : expandSlot x = [c.access] := by
  have ho : x.opcode = if c.opcode.isWrite then .put else .get := h.carries.opcode
  cases hw : c.opcode.isWrite with
  | true =>
    rw [hw, if_pos rfl] at ho
    rw [expandSlot, if_pos ho, TraceCommand.access, hw]
    rfl
  | false =>
    rw [hw, if_neg Bool.false_ne_true] at ho
    rw [expandSlot, if_neg (by rw [ho]; decide), hlen hw, TraceCommand.access, hw]
    rfl

/-- A slot that counts one more read. -/
theorem expandSlot_counted (ho : x.opcode = .get) (hlt : x.valLen.toNat < 255) :
    expandSlot { x with op := update x.op 17 (x.valLen + 1) } = expandSlot x ++ [.read] := by
  have hop : ({ x with op := update x.op 17 (x.valLen + 1) } : Slot N).opcode = .get := ho
  have hlen : ({ x with op := update x.op 17 (x.valLen + 1) } : Slot N).valLen = x.valLen + 1 := by
    show update x.op 17 (x.valLen + 1) 17 = _
    rw [update_self]
  have hadd : (x.valLen + 1).toNat = x.valLen.toNat + 1 := by
    rw [UInt8.toNat_add]
    exact Nat.mod_eq_of_lt (by simp only [UInt8.reduceToNat]; omega)
  rw [expandSlot, if_neg (by rw [hop]; decide), expandSlot, if_neg (by rw [ho]; decide), hlen, hadd, List.replicate_succ']

/-! ## The loop -/

/-- The slots from `nextOpI` on after `n` commands; `os` are the commands that took a slot. -/
structure Combined (e : Env N) (t : Trace N) (traceIter nextOpI n : ℕ) (os : List (TraceCommand N)) (f : Fill N) : Prop where
  i : f.i = nextOpI + os.length
  sublist : os.Sublist (t.segment traceIter n)
  holds : ∀ j c, os[j]? = some c → Holds e c (f.ops (nextOpI + j))
  order : ∀ k, expansion k nextOpI os f.ops = ((t.segment traceIter n).filter fun c => c.keyId = k).map TraceCommand.access
  weight : weight f.ops nextOpI f.i = n
  /-- A pointer is at the last slot of its key. -/
  last : ∀ k < hottestKeysToTrack, f.hottestKeysPointers k ≠ 0 → ∃ l c r, os = l ++ c :: r ∧
    f.hottestKeysPointers k = nextOpI + l.length + 1 ∧ c.keyId = k ∧ ∀ c' ∈ r, c'.keyId ≠ k

variable {tagged : ℕ → Bool} {f f' : Fill N}

theorem Combined.take (h : Combined e t traceIter nextOpI n os f) : Combined e t traceIter nextOpI (n + 1)
    (os ++ [t.command (traceIter + n)])
    ((f.prepared e (t.command (traceIter + n))).taken e tagged t (t.command (traceIter + n))) := by
  set c := t.command (traceIter + n) with hcdef
  obtain ⟨tag, rand, hself⟩ := taken_self e tagged t c f
  have hi : ((f.prepared e c).taken e tagged t c).i = f.i + 1 := congrArg (· + 1) (Fill.prepared_i f)
  have hnew : Holds e c (((f.prepared e c).taken e tagged t c).ops f.i) := by
    rw [hself]
    exact ⟨rfl, fillOp_carries⟩
  have hexpand : expandSlot (((f.prepared e c).taken e tagged t c).ops f.i) = [c.access] := by
    refine hnew.expandSlot_eq ?_
    intro hw
    rw [hself]
    exact (Env.fillOp_read hw).2.1
  have hbefore (j : ℕ) (hj : j < f.i) : ((f.prepared e c).taken e tagged t c).ops j = f.ops j := taken_of_ne hj.ne
  have hlt {j : ℕ} {c' : TraceCommand N} (hj : os[j]? = some c') : nextOpI + j < f.i := by
    have := (List.getElem?_eq_some_iff.1 hj).1
    rw [h.i]
    omega
  refine ⟨?_, ?_, ?_, ?_, ?_, ?_⟩
  · rw [hi, h.i, List.length_append, List.length_singleton, Nat.add_assoc]
  · rw [segment_succ]
    exact h.sublist.append (List.Sublist.refl _)
  · intro j c' hj
    rcases Nat.lt_or_ge j os.length with hlen | hlen
    · rw [List.getElem?_append_left hlen] at hj
      rw [hbefore _ (hlt hj)]
      exact h.holds j c' hj
    · rw [List.getElem?_append_right hlen, List.getElem?_singleton] at hj
      split at hj
      · next h0 =>
        cases hj
        rw [show nextOpI + j = f.i by rw [h.i]; omega]
        exact hnew
      · cases hj
  · intro k
    have hold : expansion k nextOpI os ((f.prepared e c).taken e tagged t c).ops = expansion k nextOpI os f.ops :=
      expansion_congr fun j c' hj _ => hbefore _ (hlt hj)
    rw [expansion_append, hold, h.order k, expansion_cons, ← h.i, hexpand, segment_succ, ← hcdef, List.filter_append,
      List.map_append]
    congr 1
    by_cases hk : c.keyId = k
    · simp [hk, expansion]
    · simp [hk, expansion]
  · rw [hi, Client.weight, Finset.sum_Ico_succ_top (by rw [h.i]; omega), hexpand]
    refine congrArg (· + 1) (Eq.trans (Finset.sum_congr rfl ?_) h.weight)
    intro j hj
    rw [hbefore j (Finset.mem_Ico.1 hj).2]
  · intro k hk
    show (f.prepared e c).hottestKeysPointers k ≠ 0 → ∃ l c₀ r, _ ∧ (f.prepared e c).hottestKeysPointers k = _ ∧ _
    intro h0
    by_cases hkey : c.keyId = k
    · subst hkey
      rw [Fill.prepared_pointers hk] at h0 ⊢
      cases hread : c.opcode.isRead with
      | false => simp [hread] at h0
      | true =>
        rw [if_pos rfl]
        exact ⟨os, c, [], rfl, congrArg (· + 1) h.i, rfl, by simp⟩
    · rw [Fill.prepared_pointers_of_ne hkey] at h0 ⊢
      obtain ⟨l, c₀, r, hos, hp, hc, hr⟩ := h.last k hk h0
      refine ⟨l, c₀, r ++ [c], by simp [hos], hp, hc, ?_⟩
      intro c' hc'
      rcases List.mem_append.1 hc' with hm | hm
      · exact hr c' hm
      · rw [List.mem_singleton.1 hm]
        exact hkey

theorem Combined.count (h : Combined e t traceIter nextOpI n os f) (hc : (t.command (traceIter + n)).IsTracked)
    (h0 : f.hottestKeysPointers (t.command (traceIter + n)).keyId ≠ 0)
    (hget : (f.ops (f.hottestKeysPointers (t.command (traceIter + n)).keyId - 1)).opcode = .get)
    (hlt : (f.ops (f.hottestKeysPointers (t.command (traceIter + n)).keyId - 1)).valLen.toNat < 255) :
    Combined e t traceIter nextOpI (n + 1) os (f.counted t (f.hottestKeysPointers (t.command (traceIter + n)).keyId - 1)) := by
  set c := t.command (traceIter + n) with hcdef
  obtain ⟨l, c₀, r, hos, hp, hkey, hr⟩ := h.last _ hc.1 h0
  rw [hp, Nat.add_sub_cancel] at hget hlt ⊢
  have hcounts (j : ℕ) := counted_counts (t := t) hget j
  have hself : expandSlot ((f.counted t (nextOpI + l.length)).ops (nextOpI + l.length)) =
      expandSlot (f.ops (nextOpI + l.length)) ++ [.read] := by
    rw [← expandSlot_counted hget hlt]
    exact congrArg expandSlot (update_self _ _ _)
  have hother (j : ℕ) (hj : j ≠ nextOpI + l.length) : (f.counted t (nextOpI + l.length)).ops j = f.ops j :=
    update_of_ne hj _ _
  have haccess : c.access = .read := by
    rw [TraceCommand.access, TraceOpcode.isWrite_eq, hc.2]
    rfl
  have hin : nextOpI + l.length ∈ Finset.Ico nextOpI f.i := by
    rw [Finset.mem_Ico, h.i, hos, List.length_append, List.length_cons]
    omega
  refine ⟨h.i, ?_, ?_, ?_, ?_, h.last⟩
  · rw [segment_succ]
    exact h.sublist.trans (List.sublist_append_left _ _)
  · intro j c' hj
    have hx := h.holds j c' hj
    have hk := hcounts (nextOpI + j)
    refine ⟨hk.machine.trans hx.machine, hk.key.trans hx.carries.key, hk.opcode.trans hx.carries.opcode, ?_⟩
    intro hw
    have hne : (f.ops (nextOpI + j)).opcode ≠ .get := by
      rw [show (f.ops (nextOpI + j)).opcode = _ from hx.carries.opcode, if_pos hw]
      decide
    obtain ⟨hlen, hval⟩ := hx.carries.value hw
    refine ⟨(hk.valLen hne).trans hlen, ?_⟩
    intro i hi
    exact (hk.bytes (micaOpMetadata + i) (by rw [micaOpMetadata_eq]; omega)).trans (hval i hi)
  · intro k
    rw [segment_succ, ← hcdef, List.filter_append, List.map_append, ← h.order k]
    by_cases hk : c.keyId = k
    · -- the slot that counts is the last one of the key
      subst hk
      have hl : expansion c.keyId nextOpI l (f.counted t (nextOpI + l.length)).ops = expansion c.keyId nextOpI l f.ops := by
        refine expansion_congr fun j c' hj _ => hother _ ?_
        have := (List.getElem?_eq_some_iff.1 hj).1
        omega
      rw [hos, expansion_append, expansion_append, hl, expansion_cons, expansion_cons, if_pos hkey, if_pos hkey, hself,
        expansion_eq_nil hr, expansion_eq_nil hr]
      simp [haccess]
    · have hsame : expansion k nextOpI os (f.counted t (nextOpI + l.length)).ops = expansion k nextOpI os f.ops := by
        refine expansion_congr fun j c' hj hj' => hother _ ?_
        intro he
        rw [hos, show j = l.length by omega, List.getElem?_append_right (Nat.le_refl _), Nat.sub_self] at hj
        cases hj
        exact hk (hkey.symm.trans hj')
      rw [hsame]
      simp [hk]
  · have hlen (j : ℕ) : (expandSlot ((f.counted t (nextOpI + l.length)).ops j)).length =
        (expandSlot (f.ops j)).length + if j = nextOpI + l.length then 1 else 0 := by
      split
      · next he => rw [he, hself, List.length_append, List.length_singleton]
      · next hne => rw [hother j hne, Nat.add_zero]
    show ∑ j ∈ Finset.Ico nextOpI f.i, _ = _
    rw [Finset.sum_congr rfl fun j _ => hlen j, Finset.sum_add_distrib, Finset.sum_ite_eq', if_pos hin]
    exact congrArg (· + 1) h.weight

theorem Combined.round (h : Combined e t traceIter nextOpI n os f)
    (hok : f.round e tagged t (t.command (traceIter + n)) = .ok f') : ∃ os', Combined e t traceIter nextOpI (n + 1) os' f' := by
  rcases Fill.round_cases hok with ⟨-, rfl⟩ | ⟨hc, h0, hget, hlt, rfl⟩
  · exact ⟨_, h.take⟩
  · exact ⟨_, h.count hc h0 hget hlt⟩

theorem combined_start (hp : e.protocol = .sc) (ops : ℕ → Slot N) (pointers : ℕ → ℕ) :
    Combined e t traceIter nextOpI 0 [] (Fill.start e traceIter ops nextOpI pointers) where
  i := rfl
  sublist := List.nil_sublist _
  holds j c hj := by simp at hj
  order _ := rfl
  weight := by simp [Client.weight, Fill.start]
  last k _ h0 := by simp [Fill.start, hp] at h0

/-! ## What can be seen in the slots -/

/-- Where a key id has a key of its own, the slots of that key are those of its commands. -/
theorem filter_key_flatMap (h : ∀ j c, os[j]? = some c → ((ops (nextOpI + j)).key = κ ↔ c.keyId = k)) :
    (((List.range' nextOpI os.length).map ops).filter fun x => x.key = κ).flatMap expandSlot = expansion k nextOpI os ops := by
  induction os generalizing nextOpI with
  | nil => rfl
  | cons c os ih =>
    have hrest := @ih (nextOpI + 1) fun j c' hj => by
      have hj' := h (j + 1) c' hj
      rwa [show nextOpI + (j + 1) = nextOpI + 1 + j by omega] at hj'
    have hhead : (ops nextOpI).key = κ ↔ c.keyId = k := h 0 c rfl
    rw [List.length_cons, List.range'_succ, List.map_cons, List.filter_cons, expansion_cons, ← hrest]
    by_cases hk : c.keyId = k
    · rw [if_pos hk, if_pos (by simpa using hhead.2 hk), List.flatMap_cons]
    · rw [if_neg hk, if_neg (by simpa using fun hx => hk (hhead.1 hx)), List.nil_append]

theorem Combined.slots (h : Combined e t traceIter nextOpI n os f) (hk : ∀ c ∈ t.cmds, c.keyId = k ↔ c.key = κ) :
    ((f.slots.drop nextOpI).filter fun x => x.key = κ).flatMap expandSlot =
      ((t.segment traceIter n).filter fun c => c.key = κ).map TraceCommand.access := by
  have hmem : ∀ c ∈ t.segment traceIter n, c ∈ t.cmds := by
    intro c hc
    obtain ⟨m, -, rfl⟩ := List.mem_map.1 hc
    exact List.get_mem _ _
  have hslots : f.slots.drop nextOpI = (List.range' nextOpI os.length).map f.ops := by
    rw [Fill.slots, ← List.map_drop, List.range_eq_range', List.drop_range', h.i]
    simp
  have hfilter : ((t.segment traceIter n).filter fun c => c.key = κ) = (t.segment traceIter n).filter fun c => c.keyId = k :=
    List.filter_congr fun c hc => by simpa using (hk c (hmem c hc)).symm
  rw [hslots, hfilter, ← h.order k]
  refine filter_key_flatMap ?_
  intro j c hj
  have hkey : (f.ops (nextOpI + j)).key = c.key := (h.holds j c hj).carries.key
  rw [hkey]
  exact (hk c (hmem c (h.sublist.subset (List.mem_of_getElem? hj)))).symm

/-- However far the loop has come, its slots written out are for every key the commands taken
from the trace, in their order. -/
theorem combining_keeps_order (hp : e.protocol = .sc) (ht : traceIter < t.cmds.length) {rounds : ℕ} {pointers : ℕ → ℕ}
    (hok : batchFromTrace e tagged t rounds traceIter ops nextOpI pointers = .ok f) :
    ∃ n os, f.traceIter = (traceIter + n) % t.cmds.length ∧ weight f.ops nextOpI f.i = n ∧
      os.Sublist (t.segment traceIter n) ∧ f.i = nextOpI + os.length ∧
      (∀ j c, os[j]? = some c → Holds e c (f.ops (nextOpI + j))) ∧
      (∀ k, expansion k nextOpI os f.ops = ((t.segment traceIter n).filter fun c => c.keyId = k).map TraceCommand.access) ∧
      ∀ k κ, (∀ c ∈ t.cmds, c.keyId = k ↔ c.key = κ) →
        ((f.slots.drop nextOpI).filter fun x => x.key = κ).flatMap expandSlot =
          ((t.segment traceIter n).filter fun c => c.key = κ).map TraceCommand.access := by
  rw [batchFromTrace] at hok
  split at hok
  · obtain ⟨m, ⟨n, os, hm, h⟩, hiter⟩ := Fill.loop_consumes
      (fun m s => ∃ n os, m = traceIter + n ∧ Combined e t traceIter nextOpI n os s) (Nat.mod_eq_of_lt ht).symm
      ⟨0, [], rfl, combined_start hp ops pointers⟩
      (by
        rintro m s s' ⟨n, os, rfl, h⟩ hround
        obtain ⟨os', h'⟩ := h.round hround
        exact ⟨n + 1, os', rfl, h'⟩) hok
    cases Nat.add_left_cancel hm
    exact ⟨m, os, hiter, h.weight, h.sublist, h.i, h.holds, h.order, fun k κ hk => h.slots hk⟩
  · cases hok

end

/-! ### Two reads around a write -/

/-- Reads, a write and a read of one of the hottest keys. -/
def hotTrace : Trace 4 :=
  ⟨[hotCommand .hotRead, hotCommand .hotRead, hotCommand .hotWrite, hotCommand .hotRead], by simp⟩

theorem hotTrace_fills : ∃ f, batchFromTrace started (fun _ => false) hotTrace 4 0 cleared 0 (fun _ => 0) = .ok f ∧
    (f.i, weight f.ops 0 f.i) = (3, 4) := exists_ok_of_map (by decide +kernel)

theorem combining_keeps_order_hotTrace : ∃ f : Fill 4,
    batchFromTrace started (fun _ => false) hotTrace 4 0 cleared 0 (fun _ => 0) = .ok f ∧ f.i = 3 ∧
      (f.slots.filter fun x => x.key = 0x0707070707070707).flatMap expandSlot = [.read, .read, .write, .read] := by
  obtain ⟨f, hf, hv⟩ := hotTrace_fills
  obtain ⟨hi, hweight⟩ := Prod.mk.inj hv
  obtain ⟨n, os, -, hn, -, -, -, -, horder⟩ := combining_keeps_order rfl (by decide) hf
  cases hn.symm.trans hweight
  exact ⟨f, hf, hi, (horder 3 0x0707070707070707 (by decide +kernel)).trans (by decide +kernel)⟩

end CcKvs.Client
