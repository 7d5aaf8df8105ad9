/-
The metadata of a key under the linearizable protocol, over every run. A run
is recorded call by call here, with the operation each call was made with, so
that the `cid` of a record can be traced to the PUT it comes from and its
`pending_acks` to the machines that have acknowledged.

What the counter stands for comes from the abstract protocol: a writing copy
has a set of machines whose acknowledgement is in, no machine acknowledges a
write twice, and the set is never complete while the copy is writing.
-/
import CcKvs.Lin.Coherence

namespace CcKvs.Lin

section

variable {N : ℕ} {valLen : UInt8} {s s₀ s' : Sys N} {c : Call N} {cs : List (Call N)}

/-! ## The record of a run -/

/-- The session of a PUT that machine `m` accepts. -/
def Call.session (m : Fin N) : Call N → Option UInt8
  | client m' op answer => if m' = m ∧ op.opcode = .put ∧ answer = .putSuccess then some op.keyMeta.cid else none
  | _ => none

/-- The session of the last PUT that `m` has accepted. -/
def lastSession (m : Fin N) (cs : List (Call N)) : Option UInt8 := cs.foldl (fun last c => (c.session m).or last) none

/-- An ACK of machine `j`, for version `v`, is taken in by `m`. -/
def Call.IsAck (m j : Fin N) (v : UInt32) : Call N → Prop
  | deliver d op _ => d = m ∧ op.opcode = .ack ∧ op.keyMeta.version = v ∧ op.keyMeta.cid.toNat = j
  | _ => False

instance (m j : Fin N) (v : UInt32) (c : Call N) : Decidable (c.IsAck m j v) := by
  cases c with
  | deliver d op _ => exact inferInstanceAs (Decidable (_ ∧ _))
  | client _ _ _ => exact inferInstanceAs (Decidable False)
  | bcast _ => exact inferInstanceAs (Decidable False)

/-- The machines whose ACK for version `v` has been taken in by `m`. -/
def ackers (m : Fin N) (v : UInt32) (cs : List (Call N)) : Finset (Fin N) :=
  Finset.univ.filter fun j => ∃ c ∈ cs, c.IsAck m j v

theorem lastSession_snoc (m : Fin N) : lastSession m (cs ++ [c]) = (c.session m).or (lastSession m cs) := by
  simp [lastSession, List.foldl_append]

theorem mem_ackers {m j : Fin N} {v : UInt32} : j ∈ ackers m v cs ↔ ∃ c ∈ cs, c.IsAck m j v := by
  simp [ackers]

theorem mem_ackers_snoc {m j : Fin N} {v : UInt32} : j ∈ ackers m v (cs ++ [c]) ↔ j ∈ ackers m v cs ∨ c.IsAck m j v := by
  simp [mem_ackers, or_and_right, exists_or]

/-! ## What a call does to a copy -/

/-- The copy's stamp, session and counter are as before, and it writes only if it did. -/
structure Untouched (ol ol' : CacheMeta) : Prop where
  version : ol'.version = ol.version
  cid : ol'.cid = ol.cid
  pendingAcks : ol'.pendingAcks = ol.pendingAcks
  writing : ol'.state.Writing → ol.state.Writing

theorem Untouched.refl (ol : CacheMeta) : Untouched ol ol := ⟨rfl, rfl, rfl, id⟩

/-- What a call does to the copy of `m`. -/
inductive Touch (m : Fin N) (c : Call N) (ol ol' : CacheMeta) : Prop
  | none : Untouched ol ol' → c.session m = .none → (∀ j, ol.state.Writing → ¬ c.IsAck m j ol.version) → Touch m c ol ol'
  | released : ¬ ol'.state.Writing → Touch m c ol ol'
  | put : c.session m = some ol'.cid → (∀ j v, ¬ c.IsAck m j v) → ol'.pendingAcks = .ofNat (N - 1) →
      ol'.version = ol.version + 1 + 1 → Touch m c ol ol'
  | ack (op : CacheOp) : c = .deliver m op .ackSuccess → op.opcode = .ack → op.keyMeta.version = ol.version →
      ol'.version = ol.version → ol'.cid = ol.cid → Touch m c ol ol'

theorem CallStep.touch (hidle : ∀ m, (s.copy m).keyMeta.Idle) (heven : ∀ x ∈ s.net, x.2.keyMeta.version % 2 = 0)
    (h : CallStep valLen s c s') (m : Fin N) : Touch m c (s.copy m).keyMeta (s'.copy m).keyMeta := by
  cases h with
  | client m' x x' hk hoc hok =>
    by_cases hm : m = m'
    · subst hm
      have hi := hidle m
      rw [← hk] at hi ⊢
      simp only [Function.update_self]
      rcases hoc with hoc | hoc <;> simp only [linNonStallingSessions, hoc] at hok
      · have hun : Untouched x.kv.keyMeta x'.kv.keyMeta := by
          rcases linGet_idle hi hok with ⟨-, hkv, -⟩ | ⟨-, -, hkv⟩ <;> rw [hkv]
          · exact .refl _
          · exact ⟨rfl, rfl, rfl, CacheState.writing_of_replay⟩
        exact .none hun (by simp [Call.session, hoc]) fun j _ hc => hc
      · rcases linPut_idle hi hok with ⟨hr, hkv, -⟩ | ⟨-, hx⟩
        · rw [hkv]
          exact .put (by simp [Call.session, hoc, hr, CacheMeta.afterPut]) (fun j v hc => hc) rfl rfl
        · rcases hx with rfl | rfl
          all_goals exact .none (.refl _) (by simp [Call.session]) fun j _ hc => hc
    · have hs : Call.session m (.client m' x.op x'.resp.type) = .none := if_neg fun hc => hm hc.1.symm
      simp only [Function.update_of_ne hm]
      exact .none (.refl _) hs fun j _ hc => hc
  | bcast m' op w hw => exact .none (.refl _) rfl fun j _ hc => hc
  | inv d x x' r hn hoc hk hok =>
    have hno : ∀ j v, ¬ Call.IsAck m j v (.deliver d x.op x'.resp.type) := fun j v hc => by
      have he := hc.2.1
      rw [hoc] at he
      cases he
    by_cases hm : m = d
    · subst hm
      have hi := hidle m
      rw [← hk] at hi ⊢
      simp only [Function.update_self]
      simp only [linNonStallingSessionsWithSmallCacheOp, hoc] at hok
      obtain ⟨-, ⟨-, -, hkv⟩ | ⟨-, -, hkv⟩⟩ := linInv_idle hi (heven (m.val, x.op) (by simp [hn])) hok
      · refine .released ?_
        rw [hkv]
        show ¬ x.kv.keyMeta.state.invalidated.Writing
        cases x.kv.keyMeta.state <;> simp [CacheState.invalidated, CacheState.Writing]
      · rw [hkv]
        exact .none (.refl _) rfl fun j _ => hno j _
    · simp only [Function.update_of_ne hm]
      exact .none (.refl _) rfl fun j _ => hno j _
  | updOrAck d x x' r hn hoc hk hok =>
    by_cases hm : m = d
    · subst hm
      have hi := hidle m
      rw [← hk] at hi ⊢
      simp only [Function.update_self]
      rcases hoc with hoc | hoc <;> simp only [linNonStallingSessionsWithCacheOp, hoc] at hok
      · have hno : ∀ j v, ¬ Call.IsAck m j v (.deliver m x.op x'.resp.type) := fun j v hc => by
          have he := hc.2.1
          rw [hoc] at he
          cases he
        rcases linUpd_idle hi hok with ⟨-, -, -, rfl⟩ | ⟨-, rfl⟩
        · exact .released CacheState.valid_not_writing
        · exact .none (.refl _) rfl fun j _ => hno j _
      · rcases linAck_idle hi hok with ⟨-, hve, ⟨-, rfl⟩ | ⟨-, rfl⟩⟩ | ⟨hno, rfl⟩
        · exact .released CacheState.valid_not_writing
        · exact .ack x.op rfl hoc hve.symm rfl rfl
        · exact .none (.refl _) rfl fun j hw hc => hno ⟨hw, hc.2.2.1.symm⟩
    · have hno : ∀ j v, ¬ Call.IsAck m j v (.deliver d x.op x'.resp.type) := fun j v hc => hm hc.1.symm
      simp only [Function.update_of_ne hm]
      exact .none (.refl _) rfl fun j _ => hno j _

/-! ## The set behind the counter -/

variable {t t' : Invalidation.St (Fin N)} {m : Fin N} {A A' : Finset (Fin N)}

open Invalidation in
/-- Where the acknowledgements of a writing copy come from in one step. -/
theorem writing_of_step {l : Label (Fin N)} (hi : Invalidation.Inv t) (hst : Invalidation.Step t l t')
    (hA : t'.phase m = .writing A') :
    t.phase m = .writing A' ∨ A' = ∅ ∨ ∃ A, t.phase m = .writing A ∧ A'.card = A.card + 1 := by
  have hupd : ∀ {d : Fin N} {p : Phase (Fin N)}, Function.update t.phase d p m = .writing A' →
      t.phase m = .writing A' ∨ m = d ∧ p = .writing A' := by
    intro d p he
    by_cases hm : m = d
    · subst hm
      exact .inr ⟨rfl, by simpa using he⟩
    · exact .inl (by simpa [hm] using he)
  cases hst with
  | put m' v _ =>
    rcases hupd hA with h | ⟨-, h⟩
    · exact .inl h
    · cases h
      exact .inr (.inl rfl)
  | ackMore m' d v B r hn hacc _ =>
    rcases hupd hA with h | ⟨rfl, h⟩
    · exact .inl h
    · cases h
      obtain ⟨hd, -, -⟩ := hi.ack_fresh hacc (show ⟨.ack, m, d, v⟩ ∈ t.net by simp [hn])
      exact .inr (.inr ⟨B, hacc.1, Finset.card_insert_of_notMem hd⟩)
  | invOk d c v r _ _ =>
    rcases hupd hA with h | ⟨-, h⟩
    · exact .inl h
    · cases h
  | ackLast m' d v B r _ _ _ =>
    rcases hupd hA with h | ⟨-, h⟩
    · exact .inl h
    · cases h
  | updOk d c v r _ _ =>
    rcases hupd hA with h | ⟨-, h⟩
    · exact .inl h
    · cases h
  | _ => exact .inl hA

theorem Refines.writing (h : Refines s t) (hA : t.phase m = .writing A) :
    (s.copy m).keyMeta.state.Writing ∧ A.card + (s.copy m).keyMeta.pendingAcks.toNat = N - 1 := by
  have hp := h.phase m
  rw [hA] at hp
  exact hp

/-- A copy whose counter has not changed has the same acknowledgements. -/
theorem Refines.same_acked {l : Invalidation.Label (Fin N)} (h : Refines s t) (h' : Refines s' t')
    (hi : Invalidation.Inv t) (hst : Invalidation.Step t l t') (hA' : t'.phase m = .writing A')
    (hu : Untouched (s.copy m).keyMeta (s'.copy m).keyMeta) : t.phase m = .writing A' := by
  obtain ⟨hw', hcard'⟩ := h'.writing hA'
  obtain ⟨A, hA⟩ := (h.phase m).exists_writing_iff.2 (hu.writing hw')
  obtain ⟨-, hcard⟩ := h.writing hA
  rw [hu.pendingAcks] at hcard'
  rcases writing_of_step hi hst hA' with h₁ | rfl | ⟨B, hB, hc⟩
  · exact h₁
  · have hz : A.card = 0 := by
      rw [Finset.card_empty] at hcard'
      omega
    rw [hA, Finset.card_eq_zero.1 hz]
  · rw [hA] at hB
    cases hB
    omega

/-- The record of the run says who the acknowledgements are from and whose session is stored. -/
structure Recorded (cs : List (Call N)) (s : Sys N) (t : Invalidation.St (Fin N)) : Prop where
  acked : ∀ {m A}, t.phase m = .writing A → A = ackers m (s.copy m).keyMeta.version cs
  session : ∀ {m A}, t.phase m = .writing A → lastSession m cs = some (s.copy m).keyMeta.cid
  old : ∀ {m j v}, j ∈ ackers m v cs → v.toNat ≤ (s.copy m).keyMeta.version.toNat

/-- An ACK that is delivered is for a write the machine has made. -/
theorem CallStep.ack_old {j : Fin N} {v : UInt32} (h : Refines s t) (hi : Invalidation.Inv t)
    (hst : CallStep valLen s c s') (hc : c.IsAck m j v) : v.toNat ≤ (s.copy m).keyMeta.version.toNat := by
  have hmem : ∃ x ∈ s.net, x.1 = m.val ∧ x.2.opcode = .ack ∧ x.2.keyMeta.version = v := by
    cases hst with
    | client => exact hc.elim
    | bcast => exact hc.elim
    | inv d x x' r hn hoc =>
      obtain ⟨-, he, -⟩ := hc
      rw [hoc] at he
      cases he
    | updOrAck d x x' r hn =>
      obtain ⟨rfl, he, hv, -⟩ := hc
      exact ⟨(d.val, x.op), by simp [hn], rfl, he, hv⟩
  obtain ⟨x, hx, hdst, hoc, rfl⟩ := hmem
  obtain ⟨⟨k, d, src, w⟩, hy, hkind, hd, -, hver, -⟩ := Multiset.exists_mem_of_rel_of_mem h.net hx
  have hk : k = .ack := by
    cases k <;> simp_all [opcodeOf]
  have hdm : d = m := Fin.ext (hd.symm.trans hdst)
  subst hk hdm
  rw [h.version, hver]
  exact Invalidation.fst_le_of_le (hi.ack hy).1

/-- A call is matched by a step of the abstract protocol; one that counts an ACK, by the step
that joins its sender. -/
theorem Refines.callStep (h : Refines s t) (hi : Invalidation.Inv t) (hN : N ≤ 256) (hst : CallStep valLen s c s')
    (hnw : NoWrap s (c.event s') s') :
    ∃ l t', Invalidation.Step t l t' ∧ Refines s' t' ∧ ∀ m op, c = .deliver m op .ackSuccess → op.opcode = .ack →
      ∃ (j : Fin N) (A : _), op.keyMeta.cid.toNat = j ∧ t.phase m = .writing A ∧ t'.phase m = .writing (insert j A) := by
  obtain ⟨l, t', h₁, -, h₂⟩ := h.step hi hN ⟨c, hst, rfl⟩ hnw
  cases hst with
  | client m x x' hk hoc hok => exact ⟨l, t', h₁, h₂, fun _ _ hc => by cases hc⟩
  | bcast m op w hw => exact ⟨l, t', h₁, h₂, fun _ _ hc => by cases hc⟩
  | inv d x x' r hn hoc hk hok =>
    refine ⟨l, t', h₁, h₂, fun m op hc hack => ?_⟩
    obtain ⟨-, rfl, -⟩ := Call.deliver.inj hc
    rw [hoc] at hack
    cases hack
  | updOrAck d x x' r hn hoc hk hok =>
    rcases hoc with hoc | hoc
    · refine ⟨l, t', h₁, h₂, fun m op hc hack => ?_⟩
      obtain ⟨-, rfl, -⟩ := Call.deliver.inj hc
      rw [hoc] at hack
      cases hack
    · simp only [linNonStallingSessionsWithCacheOp, hoc] at hok
      obtain ⟨l, t', h₁, -, h₂, h₃⟩ := h.ack_counted hi hN hn hoc hk hok
      refine ⟨l, t', h₁, h₂, fun m op hc _ => ?_⟩
      obtain ⟨rfl, rfl, hr⟩ := Call.deliver.inj hc
      exact h₃ hr

theorem Recorded.step (hr : Recorded cs s t) (h : Refines s t) (hi : Invalidation.Inv t) (hN : N ≤ 256)
    (hst : CallStep valLen s c s') (hnw : NoWrap s (c.event s') s') :
    ∃ l t', Invalidation.Step t l t' ∧ Refines s' t' ∧ Recorded (cs ++ [c]) s' t' := by
  have heven : ∀ x ∈ s.net, x.2.keyMeta.version % 2 = 0 := fun x hx =>
    let ⟨_, _, hy⟩ := Multiset.exists_mem_of_rel_of_mem h.net hx
    hy.even
  obtain ⟨l, t', hst', h', hcount⟩ := h.callStep hi hN hst hnw
  have hgrow := h.version_le h' hst'
  refine ⟨l, t', hst', h', fun {m A'} hA' => ?_, fun {m A'} hA' => ?_, fun {m j v} hj => ?_⟩
  · rcases hst.touch h.idle heven m with ⟨hu, -, hno⟩ | hrel | ⟨-, hno, hpend, hver⟩ | ⟨op, rfl, hoc, hv, hver, -⟩
    · have hA := h.same_acked h' hi hst' hA' hu
      have hw := (h.writing hA).1
      rw [hu.version]
      ext j
      rw [mem_ackers_snoc, ← hr.acked hA]
      exact ⟨.inl, fun hj => hj.resolve_right (hno j hw)⟩
    · exact absurd (h'.writing hA').1 hrel
    · -- a write has no acknowledgements when it is made
      have hz : A'.card = 0 := by
        have hcard := (h'.writing hA').2
        rw [hpend, UInt8.toNat_ofNat'] at hcard
        omega
      rw [Finset.card_eq_zero.1 hz]
      ext j
      refine ⟨fun hj => absurd hj (Finset.notMem_empty j), fun hj => ?_⟩
      rcases mem_ackers_snoc.1 hj with hj | hj
      · have hold := hr.old hj
        have hle := hgrow m
        rw [hver] at hold hle
        have htwo := toNat_add_two_of_even (h.idle m).even hle
        omega
      · exact absurd hj (hno j _)
    · obtain ⟨j, A, hj, hA, hA₂⟩ := hcount m op rfl hoc
      rw [hA'] at hA₂
      cases hA₂
      rw [hver]
      ext i
      rw [mem_ackers_snoc, ← hr.acked hA, Finset.mem_insert]
      constructor
      · rintro (rfl | hi)
        · exact .inr ⟨rfl, hoc, hv, hj⟩
        · exact .inl hi
      · rintro (hi | ⟨-, -, -, hi⟩)
        · exact .inr hi
        · exact .inl (Fin.ext (hi.symm.trans hj))
  · rw [lastSession_snoc]
    rcases hst.touch h.idle heven m with ⟨hu, hs, -⟩ | hrel | ⟨hs, -⟩ | ⟨op, rfl, hoc, -, -, hcid⟩
    · rw [hs, hu.cid]
      exact hr.session (h.same_acked h' hi hst' hA' hu)
    · exact absurd (h'.writing hA').1 hrel
    · rw [hs]
      rfl
    · obtain ⟨j, A, -, hA, -⟩ := hcount m op rfl hoc
      rw [hcid]
      exact hr.session hA
  · have hle := UInt32.le_iff_toNat_le.1 (hgrow m)
    rcases mem_ackers_snoc.1 hj with hj | hj
    · exact (hr.old hj).trans hle
    · exact (hst.ack_old h hi hj).trans hle

theorem recorded_of_run (h2 : 2 ≤ N) (hN : N ≤ 256) (h : (calls N valLen).Run s₀ cs s) :
    ∃ t, Invalidation.Inv t ∧ Refines s t ∧ Recorded cs s t := by
  have := Fin.nontrivial_iff_two_le.2 h2
  refine h.invariant (fun cs s => ∃ t, Invalidation.Inv t ∧ Refines s t ∧ Recorded cs s t) (fun hi => ?_) fun _ ih hst => ?_
  · obtain ⟨t₀, ls, t, hr, -, href⟩ := refines_of_run h2 hN (.nil hi)
    have hno : ∀ {m A}, t.phase m ≠ .writing A := by
      intro m A hA
      rw [(href.phase m).valid_iff.2 (hi.valid m)] at hA
      cases hA
    exact ⟨t, Invalidation.inv_of_run hr, href, fun hA => absurd hA hno, fun hA => absurd hA hno,
      fun hj => by simp [ackers] at hj⟩
  · obtain ⟨t, hi, href, hrec⟩ := ih
    obtain ⟨l, t', hst', href', hrec'⟩ := hrec.step href hi hN hst.1 hst.2
    exact ⟨t', hi.step hst', href', hrec'⟩

theorem PhaseOf.known {ol : CacheMeta} {p : Invalidation.Phase (Fin N)} (h : PhaseOf ol p) : ol.state.Known := by
  cases p with
  | valid => exact .inl h
  | invalid => exact .inr (.inl h)
  | writing A => exact .inr (.inr h.1)

end

/-- **The metadata of a key**, in every state a run reaches: unlocked, even, in one of the five
states; the `cid` is a machine's, or the session of the last local PUT while that is pending;
and `pending_acks` counts the machines that have not acknowledged it. Messages have even versions
and the `cid` of a machine. So a call on any key, by a client or with any message in flight,
fails no assertion but the one on the value's length. -/
theorem key_metadata {N : ℕ} {valLen : UInt8} {s₀ s : Sys N} {cs : List (Call N)} (h2 : 2 ≤ N) (hN : N ≤ 256)
    (h : (calls N valLen).Run s₀ cs s) :
    (∀ m, (s.copy m).keyMeta.lock = 0 ∧ (s.copy m).keyMeta.version % 2 = 0 ∧ (s.copy m).keyMeta.state.Known) ∧
    (∀ m, ¬ (s.copy m).keyMeta.state.Writing → (s.copy m).keyMeta.cid.toNat < N) ∧
    (∀ m, (s.copy m).keyMeta.state.Writing →
      lastSession m cs = some (s.copy m).keyMeta.cid ∧
      1 ≤ (s.copy m).keyMeta.pendingAcks.toNat ∧ (s.copy m).keyMeta.pendingAcks.toNat ≤ N - 1 ∧
      N - 1 - (s.copy m).keyMeta.pendingAcks.toNat = (ackers m (s.copy m).keyMeta.version cs).card) ∧
    (∀ x ∈ s.net, x.2.keyMeta.version % 2 = 0 ∧ x.2.keyMeta.cid.toNat < N) ∧
    (∀ m (h : Hit), h.kv = s.copy m → h.op.opcode = .get ∨ h.op.opcode = .put → h.Safe (linNonStallingSessions N m h)) ∧
    (∀ (d : Fin N) (h : Hit), h.kv = s.copy d → (d.val, h.op) ∈ s.net →
      (h.op.opcode = .inv → h.Safe (linNonStallingSessionsWithSmallCacheOp d h)) ∧
      (h.op.opcode = .upd ∨ h.op.opcode = .ack → h.Safe (linNonStallingSessionsWithCacheOp d h))) := by
  obtain ⟨t, hi, href, hrec⟩ := recorded_of_run h2 hN h
  have hknown := fun m => (href.phase m).known
  have hmsg : ∀ x ∈ s.net, x.2.keyMeta.version % 2 = 0 ∧ x.2.keyMeta.cid.toNat < N := by
    intro x hx
    obtain ⟨y, -, hy⟩ := Multiset.exists_mem_of_rel_of_mem href.net hx
    exact ⟨hy.even, hy.src ▸ y.src.isLt⟩
  refine ⟨fun m => ⟨(href.idle m).free, (href.idle m).even, hknown m⟩, fun m hw => ?_, fun m hw => ?_, hmsg,
    fun m x hx hop => ?_, fun d x hx hmem => ⟨fun hoc => ?_, fun hop => ?_⟩⟩
  · have ho := href.owner m
    rw [CacheMeta.owner_of_not_writing hw] at ho
    exact ho ▸ Fin.isLt _
  · obtain ⟨A, hA⟩ := (href.phase m).exists_writing_iff.2 hw
    have hcard := (href.writing hA).2
    have hmA : m ∉ A := fun hm => (hi.acked hA hm).1 rfl
    have hlt : A.card ≠ N - 1 := fun he => hi.owing hA ((Invalidation.full_iff_card hmA).2 (by simpa using he))
    rw [← hrec.acked hA]
    exact ⟨hrec.session hA, by omega, by omega, by omega⟩
  · have hidle := href.idle m
    have hk := hknown m
    rw [← hx] at hidle hk
    rcases hop with hoc | hoc <;> simp only [linNonStallingSessions, hoc]
    · exact .inl (linGet_total hidle hk)
    · exact linPut_safe hidle hk
  · have hidle := href.idle d
    have hk := hknown d
    rw [← hx] at hidle hk
    simp only [linNonStallingSessionsWithSmallCacheOp, hoc]
    exact .inl (linInv_total hidle hk (hmsg _ hmem).1)
  · have hidle := href.idle d
    rw [← hx] at hidle
    rcases hop with hoc | hoc <;> simp only [linNonStallingSessionsWithCacheOp, hoc]
    · exact linUpd_safe hidle (hmsg _ hmem).1
    · exact .inl (linAck_total hidle)

/-- Session 5 of machine 0 writes, and its INV is on its way. -/
theorem key_metadata_one_put : ∃ cs s, (calls 2 32).Run start cs s ∧ (s.copy 0).keyMeta.state.Writing ∧
    lastSession 0 cs = some 5 ∧ (s.copy 0).keyMeta.pendingAcks = 1 ∧
    2 - 1 - (s.copy 0).keyMeta.pendingAcks.toNat = (ackers 0 (s.copy 0).keyMeta.version cs).card := by
  have h₀ : (calls 2 32).Run start [] start :=
    .nil ⟨fun _ => rfl, fun _ => rfl, fun _ => rfl, fun _ => rfl, fun _ => rfl, rfl, rfl⟩
  have h₁ := h₀.snoc ⟨.client 0 (hit _ ⟨⟨.valid, 0, 5, 0, 0⟩, 7, .put, 32, fun _ => 1⟩) _ rfl (.inr rfl) rfl,
    fun m t he => by cases he; decide⟩
  have h₂ := h₁.snoc ⟨.bcast 0 _ 0 rfl, fun m t he => by cases he⟩
  have hw := (key_metadata (by decide) (by decide) h₂).2.2.1 0 (.inl rfl)
  exact ⟨_, _, h₂, .inl rfl, hw.1, rfl, hw.2.2.2⟩

end CcKvs.Lin
