/-
The store as a map. Single GETs and PUTs through `mica_batch_op_crcw`, from
`mica_init` on, refine the lossy map: inserts evict slots and the log comes
round over records, but what is found is what was last put.
-/
import CcKvs.Lib.LossyMap
import CcKvs.Mica.Batch

namespace CcKvs

open MicaKv

/-- A batch of one operation, and what its caller gets. -/
structure Call where
  op : Bytes
  answer : Answer

def Call.Puts (c : Call) (key : UInt64) : Prop :=
  (CacheOp.ofBytes c.op).opcode = .put ∧ (CacheOp.ofBytes c.op).key = key

/-- The last call that puts the key puts the value `v`. -/
def MostRecentPut (L : UInt8) (cs : List Call) (key : UInt64) (v : List UInt8) : Prop :=
  ∃ l c r, cs = l ++ c :: r ∧ c.Puts key ∧ (CacheOp.ofBytes c.op).value.toList L.toNat = v ∧ ∀ d ∈ r, ¬ d.Puts key

/-- A PUT that inserts does not write its record across the physical end of the log. -/
def InsideLog (L : UInt8) (kv : MicaKv) (op : Bytes) : Prop :=
  (CacheOp.ofBytes op).opcode = .put → kv.find (CacheOp.ofBytes op).key = none →
    (kv.logHead &&& kv.logMask) + recordLen L ≤ kv.logCap

/-- Calls with values of one length, from a fresh store with arbitrary memory. -/
def store (cfg : Config) (machineId L : UInt8) : Lts MicaKv Call where
  init kv := ∃ index log numBkts k, k ≤ 40 ∧ micaInit index log numBkts (2 ^ k) = .ok kv
  step kv c kv' := Request L c.op ∧ InsideLog L kv c.op ∧ (micaCrcw cfg machineId).run kv [c.op] = .ok (kv', [c.answer])

/-! ## Refinement of the lossy map -/

/-- A call as an event of the map. -/
def Call.event (L : UInt8) (c : Call) : LossyMap.Event UInt64 (List UInt8) :=
  if (CacheOp.ofBytes c.op).opcode = .put then
    .put (CacheOp.ofBytes c.op).key ((CacheOp.ofBytes c.op).value.toList L.toNat)
  else .get (CacheOp.ofBytes c.op).key c.answer.value

section

variable {cfg : Config} {machineId L : UInt8} {kv₀ kv kv' : MicaKv} {cs : List Call} {c : Call}

theorem Call.event_get (h : (CacheOp.ofBytes c.op).opcode = .get) :
    c.event L = .get (CacheOp.ofBytes c.op).key c.answer.value :=
  if_neg (by simp [h])

theorem Call.event_put (h : (CacheOp.ofBytes c.op).opcode = .put) :
    c.event L = .put (CacheOp.ofBytes c.op).key ((CacheOp.ofBytes c.op).value.toList L.toNat) := if_pos h

/-- A GET as its caller sees it. -/
theorem run_get {op : Bytes} (h : kv.Inv L) (hu : kv.Unlocked) (hop : (CacheOp.ofBytes op).opcode = .get) :
    ∃ a, (micaCrcw cfg machineId).run kv [op] = .ok (kv, [a]) ∧ a.value = kv.view L (CacheOp.ofBytes op).key ∧
      a.type = if (kv.view L (CacheOp.ofBytes op).key).isSome then .getSuccess else .getFail := by
  obtain ⟨r, hs, hv, ht⟩ := micaCrcw_get h hu hop
  exact ⟨_, Backend.run_single.2 ⟨_, _, hs, rfl⟩, hv, ht⟩

/-- One call is one step of the map. -/
theorem refines_step (h : kv.Inv L) (hu : kv.Unlocked) (hst : (store cfg machineId L).step kv c kv') :
    kv'.Inv L ∧ kv'.Unlocked ∧ LossyMap.Step (kv.view L) (c.event L) (kv'.view L) := by
  obtain ⟨hreq, -, hrun⟩ := hst
  rcases hreq with hg | ⟨hp, hL⟩
  · obtain ⟨a, ha, hv, -⟩ := run_get h hu hg
    obtain ⟨hkv, hans⟩ := Prod.mk.inj (Except.ok.inj (ha.symm.trans hrun))
    subst hkv
    rw [Call.event_get hg, ← (List.cons.inj hans).1, hv]
    exact ⟨h, hu, .get _⟩
  · obtain ⟨op', r, hs, -⟩ := Backend.run_single.1 hrun
    obtain ⟨h', hu', hf⟩ := micaCrcw_put h hu hp hL hs
    rw [Call.event_put hp]
    exact ⟨h', hu', .put _ _ _ hf⟩

/-- **The store refines the lossy map.** -/
theorem refines_lossyMap (hrun : (store cfg machineId L).Run kv₀ cs kv) :
    kv.Inv L ∧ kv.Unlocked ∧ LossyMap.system.Run (fun _ => none) (cs.map (·.event L)) (kv.view L) := by
  refine hrun.invariant (fun cs kv => kv.Inv L ∧ kv.Unlocked ∧
    LossyMap.system.Run (fun _ => none) (cs.map (·.event L)) (kv.view L)) ?_ ?_
  · rintro ⟨index, log, numBkts, k, hk, hok⟩
    have h := inv_init L rfl hk hok
    have hnone : ∀ x, ¬ kv₀.Reaches x := by
      intro x hx
      have hu := hx.1
      rw [micaInit_free hok x] at hu
      cases hu
    have hview : kv₀.view L = fun _ => none := by
      funext key
      cases hf : kv₀.find key with
      | none => simp [view, hf]
      | some p =>
        obtain ⟨x, hx, -⟩ := h.find_eq_some.1 hf
        exact absurd hx (hnone x)
    rw [hview]
    exact ⟨h, fun x hx => absurd hx (hnone x), Lts.Run.nil fun _ => rfl⟩
  · rintro cs kv c kv' - ⟨h, hu, hm⟩ hst
    obtain ⟨h', hu', hs⟩ := refines_step h hu hst
    rw [List.map_append]
    exact ⟨h', hu', hm.snoc hs⟩

/-- The most recent put of the events is the most recent PUT of the calls. -/
theorem mostRecentPut_of_events {key : UInt64} {v : List UInt8}
    (h : LossyMap.MostRecent (cs.map (·.event L)) key v) : MostRecentPut L cs key v := by
  obtain ⟨l, r, he, hr⟩ := h
  obtain ⟨l', cr, rfl, -, hcr⟩ := List.map_eq_append_iff.1 he
  obtain ⟨c, r', rfl, hc, rfl⟩ := List.map_eq_cons_iff.1 hcr
  have hno : ∀ d ∈ r', ¬ d.Puts key := by
    intro d hd hput
    have hev := Call.event_put (L := L) hput.1
    rw [hput.2] at hev
    exact hr _ (List.mem_map.2 ⟨d, hd, hev⟩)
  unfold Call.event at hc
  split at hc
  · next hput =>
    obtain ⟨hkey, hv⟩ := LossyMap.Event.put.inj hc
    exact ⟨l', c, r', rfl, ⟨hput, hkey⟩, hv, hno⟩
  · exact nomatch hc

/-- **The store is lossy but never stale**: after any calls a GET returns, and either fails or
has exactly the value of the most recent PUT of its key. -/
theorem never_stale (hrun : (store cfg machineId L).Run kv₀ cs kv) {op : Bytes}
    (hop : (CacheOp.ofBytes op).opcode = .get) :
    ∃ a, (micaCrcw cfg machineId).run kv [op] = .ok (kv, [a]) ∧
      (a.type = .getFail ∨
        a.type = .getSuccess ∧ ∃ v, a.value = some v ∧ MostRecentPut L cs (CacheOp.ofBytes op).key v) := by
  obtain ⟨h, hu, hm⟩ := refines_lossyMap hrun
  obtain ⟨a, ha, hv, ht⟩ := run_get h hu hop
  refine ⟨a, ha, ?_⟩
  cases hw : kv.view L (CacheOp.ofBytes op).key with
  | none =>
    rw [hw] at ht
    exact .inl ht
  | some v =>
    rw [hw] at hv ht
    exact .inr ⟨ht, v, hv, mostRecentPut_of_events (LossyMap.mostRecent_of_run hm _ _ hw)⟩

end

/-- A GET behind a PUT of its key. -/
theorem never_stale_put_get :
    ∃ cs, (store .shipped 0 32).Run (freshKv (2 ^ 30)) cs (storeAfter (2 ^ 30) [putRequest 0 1]) ∧
      ∃ a, (micaCrcw .shipped 0).run (storeAfter (2 ^ 30) [putRequest 0 1]) [getRequest 0] =
          .ok (storeAfter (2 ^ 30) [putRequest 0 1], [a]) ∧
        (a.type = .getFail ∨ a.type = .getSuccess ∧ ∃ v, a.value = some v ∧
          MostRecentPut 32 cs (CacheOp.ofBytes (getRequest 0)).key v) := by
  have hstep : (store .shipped 0 32).step (freshKv (2 ^ 30)) ⟨putRequest 0 1, ⟨.putSuccess, none⟩⟩
      (storeAfter (2 ^ 30) [putRequest 0 1]) :=
    ⟨by decide, fun _ _ => by decide, rfl⟩
  have hinit : (store .shipped 0 32).init (freshKv (2 ^ 30)) := ⟨_, _, _, 30, by omega, micaInit_freshKv (2 ^ 30)⟩
  have hrun := (Lts.Run.nil hinit).snoc hstep
  exact ⟨_, hrun, never_stale hrun (by decide)⟩

end CcKvs
