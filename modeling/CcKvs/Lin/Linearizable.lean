/-
The linearizable protocol is linearizable, key by key and in terms of stamps: a
read returns the last write completed before it on any machine. A write takes
effect at its last acknowledgement, which lies between the call that accepted
it and the moment its session goes on.
-/
import CcKvs.Lin.Coherence
import CcKvs.Lib.Completion
import Mathlib

namespace CcKvs.Lin

variable {N : ℕ} {valLen : UInt8} {s₀ s : Sys N} {es : List (Event N)}

/-- What an event does to the key as a register of stamps. -/
def Event.access : Event N → Option (Register.Op (Fin N) (ℕ ×ₗ ℕ) (ℕ ×ₗ ℕ))
  | .op m .getSuccess t => some ⟨.get, m, t, t⟩
  | .op m .lastAckSuccess t => some ⟨.put, m, t, t⟩
  | _ => none

theorem Stands.access {e : Event N} {l : Invalidation.Label (Fin N)} (h : Stands e l) :
    e.access = l.access.map (.map id val val) := by
  cases e with
  | bcast m =>
    cases h
    rfl
  | op m a t =>
    cases a with
    | getSuccess | lastAckSuccess | putSuccess =>
      obtain ⟨u, rfl, rfl⟩ := h
      rfl
    | _ =>
      cases h
      rfl

theorem filterMap_access {ls : List (Invalidation.Label (Fin N))} (h : List.Forall₂ Stands es ls) :
    es.filterMap Event.access = (ls.filterMap (·.access)).map (.map id val val) := by
  induction h with
  | nil => rfl
  | cons hst _ ih =>
    rw [List.filterMap_cons, List.filterMap_cons, hst.access]
    cases Invalidation.Label.access _ <;> simp [ih]

/-- The write that is done was put. -/
theorem exists_put_of_done {m : Fin N} {t : ℕ ×ₗ ℕ} (h2 : 2 ≤ N) (hN : N ≤ 256) {s' : Sys N}
    (h : (system N valLen).Run s₀ es s) (hst : (system N valLen).step s (.op m .lastAckSuccess t) s') :
    .op m .putSuccess t ∈ es := by
  obtain ⟨t₀, ls, u, hrun, hls, href⟩ := refines_of_run h2 hN h
  have := Fin.nontrivial_iff_two_le.2 h2
  obtain ⟨l, u', hst', hl, -⟩ := href.step (Invalidation.inv_of_run hrun) hN hst.1 hst.2
  obtain ⟨v, rfl, rfl⟩ := hl
  have hput : .put m v ∈ ls := Invalidation.put_before_done (hrun.snoc hst') (r := []) rfl
  obtain ⟨e, he, hstands⟩ := Lts.exists_mem_of_forall₂ hls.flip hput
  exact (Stands.put_iff hstands).1 rfl ▸ he

/-- **Linearizability.** The reads that succeed and the writes that complete, in the order in
which they happen on all machines together, are a history of a register: every read returns the
last write completed before it, or the initial stamp. Writes complete in the order of their stamps,
so none completes twice, and each after the PUT that issued it. -/
theorem reads_last_completed (h2 : 2 ≤ N) (hN : N ≤ 256) (h : (system N valLen).Run s₀ es s) :
    Register.Legal (stamp 0 0) (es.filterMap Event.access) ∧
    (es.Pairwise fun a b => ∀ m t m' t', a = .op m .lastAckSuccess t → b = .op m' .lastAckSuccess t' → t < t') ∧
    ∀ l m t r, es = l ++ .op m .lastAckSuccess t :: r → .op m .putSuccess t ∈ l := by
  obtain ⟨t₀, ls, u, hrun, hls, href⟩ := refines_of_run h2 hN h
  have := Fin.nontrivial_iff_two_le.2 h2
  have hc := Invalidation.completed_of_run hrun
  refine ⟨?_, ?_, fun l m t r hes => ?_⟩
  · rw [filterMap_access hls]
    exact hc.legal.map id val val
  · refine Lts.pairwise_of_forall₂ (fun {a b a' b'} ha hb hp m t m' t' hat hbt => ?_) hls hc.increasing
    subst hat hbt
    obtain ⟨v, rfl, rfl⟩ := ha
    obtain ⟨v', rfl, rfl⟩ := hb
    exact val_lt.2 (hp m v m' v' rfl rfl)
  · obtain ⟨s₁, s₂, hr, hst⟩ := h.split hes
    exact exists_put_of_done h2 hN hr hst

theorem reads_last_completed_two_machines : ∃ es s, (system 2 32).Run start es s ∧
    Register.Legal (stamp 0 0) (es.filterMap Event.access) ∧
    es.filterMap Event.access = [⟨.put, 0, toLex (2, 0), toLex (2, 0)⟩, ⟨.get, 1, toLex (2, 0), toLex (2, 0)⟩] := by
  obtain ⟨s, hs, -⟩ := run_write_read
  exact ⟨_, s, hs, (reads_last_completed (by decide) (by decide) hs).1, rfl⟩

end CcKvs.Lin
