/-
What the linearizable protocol guarantees, carried over from the abstract
protocol it refines: no copy that can be read is older than any other, reads
never go back, and when traffic drains every copy is readable and agrees on
the highest write.
-/
import CcKvs.Lin.Refine

namespace CcKvs.Lin

variable {N : ℕ} {valLen : UInt8} {s₀ s : Sys N} {es : List (Event N)}

open Function in
theorem Refines.step {t : Invalidation.St (Fin N)} {s' : Sys N} {e} (h : Refines s t) (hi : Invalidation.Inv t)
    (hN : N ≤ 256) (hst : Step valLen s e s') (hnw : NoWrap s e s') :
    ∃ l t', Invalidation.Step t l t' ∧ Stands e l ∧ Refines s' t' := by
  obtain ⟨c, hst, rfl⟩ := hst
  cases hst with
  | client m x x' hk hoc hok =>
    simp only [Call.event, update_self] at hnw ⊢
    rcases hoc with hoc | hoc <;> simp only [linNonStallingSessions, hoc] at hok
    · obtain ⟨l, h₁, h₂, hne, h₃⟩ := h.get hk hok
      rw [if_neg hne]
      exact ⟨l, t, h₁, h₂, h₃⟩
    · refine h.put hN hk hok fun hr => ?_
      have hv := hnw m _ (by rw [hr])
      simpa only [update_self, ← hk] using hv
  | bcast m op w hw =>
    obtain ⟨t', h₁, h₂⟩ := h.bcast hN hw
    exact ⟨.tau, t', h₁, rfl, h₂⟩
  | inv d x x' r hn hoc hk hok =>
    simp only [linNonStallingSessionsWithSmallCacheOp, hoc] at hok
    simp only [Call.event, update_self]
    obtain ⟨t', h₁, h₂, h₃⟩ := h.inv hN hn hoc hk hok
    exact ⟨.tau, t', h₁, h₂, h₃⟩
  | updOrAck d x x' r hn hoc hk hok =>
    simp only [Call.event, update_self]
    rcases hoc with hoc | hoc <;> simp only [linNonStallingSessionsWithCacheOp, hoc] at hok
    · obtain ⟨t', h₁, h₂, hne, h₃⟩ := h.upd hn hoc hk hok
      rw [if_neg hne]
      exact ⟨.tau, t', h₁, h₂, h₃⟩
    · exact h.ack hi hN hn hoc hk hok

/-- No step makes the version of a copy smaller. -/
theorem Refines.version_le {t t' : Invalidation.St (Fin N)} {s' : Sys N} {l} (h : Refines s t) (h' : Refines s' t')
    (hst : Invalidation.Step t l t') (m : Fin N) : (s.copy m).keyMeta.version ≤ (s'.copy m).keyMeta.version := by
  rw [UInt32.le_iff_toNat_le, h.version, h'.version]
  exact Invalidation.fst_le_of_le (hst.stamp_le m)

/-- **Refinement.** A run of the program is a run of the abstract protocol that starts
with every copy valid at stamp (0, 0). -/
theorem refines_of_run (h2 : 2 ≤ N) (hN : N ≤ 256) (h : (system N valLen).Run s₀ es s) :
    ∃ (t₀ : Invalidation.St (Fin N)) (ls : _) (t : _),
      (Invalidation.system (toLex (0, ⟨0, by omega⟩))).Run t₀ ls t ∧ List.Forall₂ Stands es ls ∧ Refines s t := by
  have := Fin.nontrivial_iff_two_le.2 h2
  refine ⟨⟨fun _ => .valid, fun _ => toLex (0, ⟨0, by omega⟩), 0, 0⟩, ?_⟩
  refine h.simulate Stands Refines (fun hi => ⟨rfl, ?_⟩) fun hr hrel hst =>
    hrel.step (Invalidation.inv_of_run hr) hN hst.1 hst.2
  refine ⟨fun m => ⟨hi.lock m, by rw [hi.version m]; rfl⟩, fun m => ?_, hi.valid, ?_, ?_⟩
  · simp [copyStamp, stamp, CacheMeta.owner, hi.valid m, CacheState.Writing, hi.version m, hi.cid m, val]
  · rw [hi.waiting]
    exact .zero
  · rw [hi.net]
    exact .zero

/-- The stamp an operation makes visible to its caller: a read's, or a write's when its last
acknowledgement arrives. -/
def Event.observed : Event N → Option (ℕ ×ₗ ℕ)
  | .op _ .getSuccess t => .some t
  | .op _ .lastAckSuccess t => .some t
  | _ => .none

theorem Stands.observed {e : Event N} {l : Invalidation.Label (Fin N)} (h : Stands e l) :
    e.observed = l.observed.map val := by
  cases e with
  | bcast m =>
    cases h
    rfl
  | op m a t =>
    cases a with
    | getSuccess =>
      obtain ⟨u, rfl, rfl⟩ := h
      rfl
    | lastAckSuccess =>
      obtain ⟨v, rfl, rfl⟩ := h
      rfl
    | putSuccess =>
      obtain ⟨v, rfl, rfl⟩ := h
      rfl
    | _ =>
      cases h
      rfl

/-- **Read safety.** A readable copy is never older than any other copy; two readable copies
hold the same stamp; and a read that succeeds returns a stamp at least that of every write
completed before it, and of every read that succeeded before it, on any machine. -/
theorem read_safety (h2 : 2 ≤ N) (hN : N ≤ 256) (h : (system N valLen).Run s₀ es s) :
    (∀ m, (s.copy m).keyMeta.state = .valid → ∀ x,
      stamp (s.copy m).keyMeta.version (s.copy m).keyMeta.cid.toNat ≤ copyStamp x (s.copy x)) ∧
    (∀ m x, (s.copy m).keyMeta.state = .valid → (s.copy x).keyMeta.state = .valid →
      (s.copy m).keyMeta.version = (s.copy x).keyMeta.version ∧
      (s.copy m).keyMeta.cid = (s.copy x).keyMeta.cid) ∧
    es.Pairwise fun a b => ∀ t m u, a.observed = .some t → b = .op m .getSuccess u → t ≤ u := by
  obtain ⟨t₀, ls, t, hrun, hls, href⟩ := refines_of_run h2 hN h
  have := Fin.nontrivial_iff_two_le.2 h2
  have hinv := Invalidation.inv_of_run hrun
  have hle : ∀ m, (s.copy m).keyMeta.state = .valid → ∀ x,
      stamp (s.copy m).keyMeta.version (s.copy m).keyMeta.cid.toNat ≤ copyStamp x (s.copy x) := by
    intro m hm x
    have hval := val_le.2 (hinv.valid ((href.phase m).valid_iff.2 hm) x)
    rw [← href.stamp, ← href.stamp, copyStamp, CacheMeta.owner_of_not_writing (by rw [hm]; decide)] at hval
    exact hval
  refine ⟨hle, fun m x hm hx => ?_, ?_⟩
  · have h₁ := hle m hm x
    have h₂ := hle x hx m
    rw [copyStamp, CacheMeta.owner_of_not_writing (by rw [hx]; decide)] at h₁
    rw [copyStamp, CacheMeta.owner_of_not_writing (by rw [hm]; decide)] at h₂
    obtain ⟨hv, hc⟩ := stamp_inj.1 (le_antisymm h₁ h₂)
    exact ⟨hv, UInt8.toNat_inj.1 hc⟩
  · refine Lts.pairwise_of_forall₂ (fun {a b a' b'} ha hb hp t m u hat hbu => ?_) hls
      (Invalidation.observed_mono hrun)
    subst hbu
    obtain ⟨u', rfl, rfl⟩ := hb
    rw [ha.observed, Option.map_eq_some_iff] at hat
    obtain ⟨t', ht', rfl⟩ := hat
    exact val_le.2 (hp t' m u' ht' rfl)

/-! A write by machine 0, acknowledged and validated by machine 1, and a read there. -/

def start : Sys 2 := ⟨fun _ => ⟨⟨.valid, 0, 0, 0, 0⟩, 7, .put, 32, fun _ => 0⟩, 0, 0⟩

def hit (kv op : CacheOp) : Hit := ⟨kv, op, ⟨.empty, 0, .none⟩⟩

theorem run_write_read : ∃ s, (system 2 32).Run start
    [.op 0 .putSuccess (toLex (2, 0)), .bcast 0, .op 1 .invSuccess (toLex (2, 0)),
      .op 0 .lastAckSuccess (toLex (2, 0)), .op 1 .updSuccess (toLex (2, 0)), .op 1 .getSuccess (toLex (2, 0))] s ∧
    s.waiting = 0 ∧ s.net = 0 ∧ (s.copy 1).keyMeta.state = .valid := by
  have h₀ : (system 2 32).Run start [] start :=
    .nil ⟨fun _ => rfl, fun _ => rfl, fun _ => rfl, fun _ => rfl, fun _ => rfl, rfl, rfl⟩
  have h₁ := h₀.snoc ⟨⟨_, .client 0 (hit _ ⟨⟨.valid, 0, 5, 0, 0⟩, 7, .put, 32, fun _ => 1⟩) _ rfl (.inr rfl) rfl, rfl⟩,
    fun m t he => by cases he; decide⟩
  have h₂ := h₁.snoc ⟨⟨_, .bcast 0 _ 0 rfl, rfl⟩, fun m t he => by cases he⟩
  have h₃ := h₂.snoc ⟨⟨_, .inv 1 (hit _ _) _ 0 rfl rfl rfl rfl, rfl⟩, fun m t he => by cases he⟩
  have h₄ := h₃.snoc ⟨⟨_, .updOrAck 0 (hit _ _) _ 0 rfl (.inr rfl) rfl rfl, rfl⟩, fun m t he => by cases he⟩
  have h₅ := h₄.snoc ⟨⟨_, .updOrAck 1 (hit _ _) _ 0 rfl (.inl rfl) rfl rfl, rfl⟩, fun m t he => by cases he⟩
  have h₆ := h₅.snoc ⟨⟨_, .client 1 (hit _ ⟨⟨.valid, 0, 0, 0, 0⟩, 7, .get, 32, fun _ => 0⟩) _ rfl (.inl rfl) rfl, rfl⟩,
    fun m t he => by cases he⟩
  exact ⟨_, h₆, rfl, rfl, rfl⟩

theorem read_safety_two_machines : ∃ es s, (system 2 32).Run start es s ∧ (s.copy 1).keyMeta.state = .valid ∧
    ∀ x, stamp (s.copy 1).keyMeta.version (s.copy 1).keyMeta.cid.toNat ≤ copyStamp x (s.copy x) := by
  obtain ⟨s, hs, -, -, hv⟩ := run_write_read
  exact ⟨_, s, hs, hv, (read_safety (by decide) (by decide) hs).1 1 hv⟩

theorem Stands.put_iff {e : Event N} {l : Invalidation.Label (Fin N)} (h : Stands e l) {m : Fin N} {v : ℕ} :
    l = .put m v ↔ e = .op m .putSuccess (toLex (v, (m : ℕ))) := by
  cases e with
  | bcast m =>
    cases h
    exact ⟨nofun, nofun⟩
  | op m' a t =>
    cases a with
    | putSuccess =>
      obtain ⟨w, rfl, rfl⟩ := h
      simp only [Invalidation.Label.put.injEq, Event.op.injEq, true_and, EmbeddingLike.apply_eq_iff_eq,
        Prod.mk.injEq, Fin.val_inj]
      exact ⟨fun hx => ⟨hx.1, hx.2, hx.1⟩, fun hx => ⟨hx.1, hx.2.1⟩⟩
    | getSuccess =>
      obtain ⟨u, rfl, -⟩ := h
      exact ⟨nofun, nofun⟩
    | lastAckSuccess =>
      obtain ⟨u, rfl, -⟩ := h
      exact ⟨nofun, nofun⟩
    | _ =>
      cases h
      exact ⟨nofun, nofun⟩

/-- Successful PUTs carry the writer's id, and are the puts of the abstract run. -/
theorem put_mem_iff {ls : List (Invalidation.Label (Fin N))} (h : List.Forall₂ Stands es ls) {t : ℕ ×ₗ ℕ} :
    (∃ m, .op m .putSuccess t ∈ es) ↔ ∃ (m : Fin N) (v : ℕ), .put m v ∈ ls ∧ t = toLex (v, (m : ℕ)) := by
  constructor
  · rintro ⟨m, hm⟩
    obtain ⟨l, hl, hst⟩ := Lts.exists_mem_of_forall₂ h hm
    obtain ⟨v, rfl, rfl⟩ := id hst
    exact ⟨m, v, hl, rfl⟩
  · rintro ⟨m, v, hm, rfl⟩
    obtain ⟨e, he, hst⟩ := Lts.exists_mem_of_forall₂ (List.Forall₂.flip h) hm
    exact ⟨m, (Stands.put_iff hst).1 rfl ▸ he⟩

/-- **Quiescent agreement.** When nothing is in flight or waiting to be broadcast, every copy
is valid and holds one stamp: the largest ever given to a successful PUT, or the initial one if
there was none. Every GET and every PUT is then served. -/
theorem quiescent_agreement (h2 : 2 ≤ N) (hN : N ≤ 256) (h : (system N valLen).Run s₀ es s) (hw : s.waiting = 0)
    (hn : s.net = 0) :
    ∃ version cid, (∀ m, (s.copy m).keyMeta.state = .valid ∧ (s.copy m).keyMeta.version = version ∧
        (s.copy m).keyMeta.cid = cid) ∧
      ((∀ m t, .op m .putSuccess t ∉ es) → version = 0 ∧ cid = 0) ∧
      ((∃ m t, .op m .putSuccess t ∈ es) →
        IsGreatest {t | ∃ m, .op m .putSuccess t ∈ es} (stamp version cid.toNat)) ∧
      ∀ m (x : Hit), x.kv = s.copy m →
        (x.op.opcode = .get → ∃ x', linNonStallingSessions N m x = .ok x' ∧ x'.resp.type = .getSuccess) ∧
        (x.op.opcode = .put → x.op.valLen = x.kv.valLen →
          ∃ x', linNonStallingSessions N m x = .ok x' ∧ x'.resp.type = .putSuccess) := by
  obtain ⟨t₀, ls, t, hrun, hls, href⟩ := refines_of_run h2 hN h
  have := Fin.nontrivial_iff_two_le.2 h2
  have htw : t.waiting = 0 := Multiset.rel_zero_left.1 (hw ▸ href.waiting)
  have htn : t.net = 0 := Multiset.rel_zero_left.1 (hn ▸ href.net)
  have hq := Invalidation.agree_of_quiet hrun htw htn
  have hvalid : ∀ m, (s.copy m).keyMeta.state = .valid := fun m => (href.phase m).valid_iff.1 (hq m).1
  have hst : ∀ m, stamp (s.copy m).keyMeta.version (s.copy m).keyMeta.cid.toNat = val (t.stamp m) := fun m => by
    rw [← href.stamp m, copyStamp, CacheMeta.owner_of_not_writing (by rw [hvalid m]; decide)]
  have hzero : 0 < N := by omega
  refine ⟨(s.copy ⟨0, hzero⟩).keyMeta.version, (s.copy ⟨0, hzero⟩).keyMeta.cid, fun m => ⟨hvalid m, ?_⟩, ?_, ?_, ?_⟩
  · have heq := hst m
    rw [(hq m).2, ← (hq ⟨0, hzero⟩).2, ← hst, stamp_inj, UInt8.toNat_inj] at heq
    exact heq
  · intro hno
    have hx := hst ⟨0, hzero⟩
    rw [(hq _).2, (Invalidation.highest_of_run hrun).1 fun m v hm => ?_] at hx
    · obtain ⟨hv, hc⟩ := stamp_inj.1 (hx.trans (rfl : _ = stamp 0 0))
      exact ⟨hv, UInt8.toNat_inj.1 hc⟩
    · obtain ⟨m', hm'⟩ := (put_mem_iff hls).2 ⟨m, v, hm, rfl⟩
      exact hno m' _ hm'
  · rintro ⟨m, u, hm⟩
    obtain ⟨m', v', hm', hu⟩ := (put_mem_iff hls).1 ⟨m, hm⟩
    rw [hst, (hq _).2]
    obtain ⟨m₁, v₁, hm₁, hh⟩ := (Invalidation.highest_of_run hrun).2 ⟨m', v', hm'⟩
    refine ⟨(put_mem_iff hls).2 ⟨m₁, v₁, hm₁, by rw [hh]; rfl⟩, fun w hw' => ?_⟩
    obtain ⟨m₂, v₂, hm₂, rfl⟩ := (put_mem_iff hls).1 hw'
    exact val_le.2 (Invalidation.highest_isGreatest.2 (.inr ⟨m₂, v₂, hm₂, rfl⟩))
  · intro m x hk
    have hi := href.idle m
    have hv := hvalid m
    rw [← hk] at hi hv
    refine ⟨fun hoc => ?_, fun hoc hl => ?_⟩
    · simpa only [linNonStallingSessions, hoc] using linGet_valid hi hv
    · simpa only [linNonStallingSessions, hoc] using linPut_valid hi hv hl

theorem quiescent_agreement_two_machines : ∃ es s, (system 2 32).Run start es s ∧ s.waiting = 0 ∧ s.net = 0 ∧
    ∃ version cid, (∀ m, (s.copy m).keyMeta.state = .valid ∧ (s.copy m).keyMeta.version = version ∧
      (s.copy m).keyMeta.cid = cid) := by
  obtain ⟨s, hs, hw, hn, -⟩ := run_write_read
  obtain ⟨v, c, hvc, -⟩ := quiescent_agreement (by decide) (by decide) hs hw hn
  exact ⟨_, s, hs, hw, hn, v, c, hvc⟩

end CcKvs.Lin
