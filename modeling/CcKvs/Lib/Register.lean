/-
Histories of one shared register whose writes carry stamps. A history in which
every machine sees growing stamps, writes have stamps of their own and reads
return what was written under the stamp they see is sequentially consistent:
sorting it by stamps, keeping the order in time where stamps are equal, is a
legal order of all operations that keeps every machine's own order.
-/
import Mathlib

namespace Register

inductive Kind
  | get
  | put
  deriving DecidableEq, Repr

/-- An executed operation: a write with its stamp, or a read with the stamp it saw. -/
structure Op (ι κ α : Type*) where
  kind : Kind
  machine : ι
  stamp : κ
  value : α
  deriving DecidableEq

variable {ι κ α : Type*}

/-- Executed one after the other on a register that holds `v`, every read returns what the
last write before it wrote. -/
def Legal : α → List (Op ι κ α) → Prop
  | _, [] => True
  | v, o :: l =>
    match o.kind with
    | .put => Legal o.value l
    | .get => o.value = v ∧ Legal v l

/-- What machine `m` executed, in its program order. -/
def program [DecidableEq ι] (m : ι) (h : List (Op ι κ α)) : List (Op ι κ α) := h.filter (·.machine = m)

/-- The stamps machine `m` came across, in its program order. -/
def observed [DecidableEq ι] (m : ι) (h : List (Op ι κ α)) : List κ := (program m h).map (·.stamp)

/-- The stamps of the writes. -/
def putStamps (h : List (Op ι κ α)) : List κ := (h.filter (·.kind = .put)).map (·.stamp)

/-- Some order of all operations is legal and keeps every machine's program order. -/
def SeqConsistent [DecidableEq ι] (v₀ : α) (h : List (Op ι κ α)) : Prop :=
  ∃ order, order.Perm h ∧ (∀ m, program m order = program m h) ∧ Legal v₀ order

/-- How a history grows: stamps grow on each machine, a write has a stamp that no write had,
and a read returns the initial value or one written earlier under the stamp it sees. -/
inductive Stamped [LT κ] [LE κ] (t₀ : κ) (v₀ : α) : List (Op ι κ α) → Prop
  | nil : Stamped t₀ v₀ []
  | snoc (h : List (Op ι κ α)) (o : Op ι κ α) : Stamped t₀ v₀ h →
      (∀ a ∈ h, a.machine = o.machine → a.stamp ≤ o.stamp) →
      (o.kind = .put → t₀ < o.stamp ∧ ∀ a ∈ h, a.kind = .put → a.stamp ≠ o.stamp) →
      (o.kind = .get → (o.stamp, o.value) = (t₀, v₀) ∨
        ∃ w ∈ h, w.kind = .put ∧ (w.stamp, w.value) = (o.stamp, o.value)) →
      Stamped t₀ v₀ (h ++ [o])

variable [LinearOrder κ] {t₀ : κ} {v₀ : α} {h : List (Op ι κ α)}

namespace Stamped

theorem mono (hs : Stamped t₀ v₀ h) : h.Pairwise fun a b => a.machine = b.machine → a.stamp ≤ b.stamp := by
  induction hs with
  | nil => exact .nil
  | snoc h o _ hm _ _ ih => exact List.pairwise_append.2 ⟨ih, List.pairwise_singleton _ _, by simpa using hm⟩

theorem distinct (hs : Stamped t₀ v₀ h) :
    h.Pairwise fun a b => a.kind = .put → b.kind = .put → a.stamp ≠ b.stamp := by
  induction hs with
  | nil => exact .nil
  | snoc h o _ _ hp _ ih =>
    refine List.pairwise_append.2 ⟨ih, List.pairwise_singleton _ _, ?_⟩
    intro a ha b hb hka hkb
    rw [List.mem_singleton.1 hb] at hkb ⊢
    exact (hp hkb).2 a ha hka

theorem fresh (hs : Stamped t₀ v₀ h) : ∀ o ∈ h, o.kind = .put → t₀ < o.stamp := by
  induction hs with
  | nil => simp
  | snoc h o _ _ hp _ ih =>
    intro a ha hk
    rcases List.mem_append.1 ha with ha | ha
    · exact ih a ha hk
    · rw [List.mem_singleton.1 ha] at hk ⊢
      exact (hp hk).1

/-- A read has its write before it. -/
theorem source (hs : Stamped t₀ v₀ h) {l r : List (Op ι κ α)} {o : Op ι κ α} (hsplit : h = l ++ o :: r)
    (hk : o.kind = .get) :
    (o.stamp, o.value) = (t₀, v₀) ∨ ∃ w ∈ l, w.kind = .put ∧ (w.stamp, w.value) = (o.stamp, o.value) := by
  induction hs generalizing r with
  | nil => simp at hsplit
  | snoc h x _ _ _ hg ih =>
    rcases List.eq_nil_or_concat r with rfl | ⟨r', y, rfl⟩
    · obtain ⟨rfl, hx⟩ := List.append_inj' hsplit rfl
      cases hx
      exact hg hk
    · have hsplit' : h ++ [x] = (l ++ o :: r') ++ [y] := by simpa using hsplit
      exact ih (List.append_inj' hsplit' rfl).1

theorem put_unique (hs : Stamped t₀ v₀ h) {o o' : Op ι κ α} (ho : o ∈ h) (ho' : o' ∈ h) (hk : o.kind = .put)
    (hk' : o'.kind = .put) (he : o.stamp = o'.stamp) : o = o' := by
  have hsymm : Std.Symm fun a b : Op ι κ α => a.kind = .put → b.kind = .put → a.stamp ≠ b.stamp :=
    ⟨fun _ _ hab hb ha => (hab ha hb).symm⟩
  by_contra hne
  exact hs.distinct.forall ho ho' hne hk hk' he

theorem putStamps_nodup (hs : Stamped t₀ v₀ h) : (putStamps h).Nodup := by
  rw [putStamps, List.Nodup, List.pairwise_map]
  refine (hs.distinct.filter _).imp_of_mem fun {a b} ha hb hab => ?_
  simp only [List.mem_filter, decide_eq_true_eq] at ha hb
  exact hab ha.2 hb.2

end Stamped

/-! ## The order -/

/-- The operations by stamp, in time where stamps are equal. -/
def byStamp (h : List (Op ι κ α)) : List (Op ι κ α) := h.mergeSort fun a b => decide (a.stamp ≤ b.stamp)

theorem byStamp_perm (h : List (Op ι κ α)) : (byStamp h).Perm h := List.mergeSort_perm _ _

theorem byStamp_sorted (h : List (Op ι κ α)) : (byStamp h).Pairwise fun a b => a.stamp ≤ b.stamp := by
  have hp : (byStamp h).Pairwise fun a b => decide (a.stamp ≤ b.stamp) :=
    List.pairwise_mergeSort (by simpa using fun a b c => le_trans) (by simpa using fun a b => le_total _ _) h
  exact hp.imp (by simp)

/-- Operations that are in order already stay in their order. -/
theorem filter_byStamp (p : Op ι κ α → Bool) (hp : (h.filter p).Pairwise fun a b => a.stamp ≤ b.stamp) :
    (byStamp h).filter p = h.filter p := by
  have hsub : (h.filter p).Sublist (byStamp h) :=
    List.sublist_mergeSort (by simpa using fun a b c => le_trans) (by simpa using fun a b => le_total _ _)
      (hp.imp (by simp)) List.filter_sublist
  have hsub' : (h.filter p).Sublist ((byStamp h).filter p) := by simpa using hsub.filter p
  exact (hsub'.eq_of_length ((byStamp_perm h).filter p).length_eq.symm).symm

/-- Every read has its write before it also when operations are taken by stamp. -/
theorem Stamped.source_byStamp (hs : Stamped t₀ v₀ h) {l r : List (Op ι κ α)} {o : Op ι κ α}
    (hsplit : byStamp h = l ++ o :: r) (hk : o.kind = .get) :
    (o.stamp, o.value) = (t₀, v₀) ∨ ∃ w ∈ l, w.kind = .put ∧ (w.stamp, w.value) = (o.stamp, o.value) := by
  let p : Op ι κ α → Bool := fun a => decide (a.stamp = o.stamp)
  have hconst : (h.filter p).Pairwise fun a b => a.stamp ≤ b.stamp := by
    refine List.pairwise_of_forall_mem_list fun a ha b hb => ?_
    simp only [p, List.mem_filter, decide_eq_true_eq] at ha hb
    rw [ha.2, hb.2]
  have hf : h.filter p = l.filter p ++ o :: r.filter p := by
    rw [← filter_byStamp p hconst, hsplit, List.filter_append, List.filter_cons_of_pos (by simp [p])]
  -- the same read in the history itself
  obtain ⟨l₁, l₂, rfl, hl₁, hl₂⟩ := List.filter_eq_append_iff.1 hf
  obtain ⟨l₃, r₃, rfl, hl₃, _, _⟩ := List.filter_eq_cons_iff.1 hl₂
  rcases hs.source (l := l₁ ++ l₃) (r := r₃) (by simp) hk with h | ⟨w, hw, hwk, he⟩
  · exact .inl h
  · refine .inr ⟨w, ?_, hwk, he⟩
    have hwp : p w = true := by simpa [p] using congrArg Prod.fst he
    rcases List.mem_append.1 hw with hw | hw
    · have : w ∈ l.filter p := hl₁ ▸ List.mem_filter.2 ⟨hw, hwp⟩
      exact (List.mem_filter.1 this).1
    · exact absurd hwp (hl₃ w hw)

/-- Sorted operations are legal if every read has its write, or the value held, before it. -/
theorem legal_of_sorted {l : List (Op ι κ α)} {t : κ} {v : α} (hsort : l.Pairwise fun a b => a.stamp ≤ b.stamp)
    (hdist : l.Pairwise fun a b => a.kind = .put → b.kind = .put → a.stamp ≠ b.stamp)
    (hfresh : ∀ o ∈ l, o.kind = .put → t < o.stamp)
    (hsource : ∀ (l₁ : List (Op ι κ α)) (o : Op ι κ α) (l₂ : List (Op ι κ α)), l = l₁ ++ o :: l₂ → o.kind = .get →
      (o.stamp, o.value) = (t, v) ∨ ∃ w ∈ l₁, w.kind = .put ∧ (w.stamp, w.value) = (o.stamp, o.value)) :
    Legal v l := by
  induction l generalizing t v with
  | nil => trivial
  | cons x l ih =>
    obtain ⟨hx, hsort⟩ := List.pairwise_cons.1 hsort
    obtain ⟨hdx, hdist⟩ := List.pairwise_cons.1 hdist
    cases hk : x.kind with
    | put =>
      have htx := hfresh x (by simp) hk
      simp only [Legal, hk]
      refine ih (t := x.stamp) hsort hdist (fun o ho hko => lt_of_le_of_ne (hx o ho) (hdx o ho hk hko)) ?_
      intro l₁ o l₂ hl hko
      have hox := hx o (by simp [hl])
      rcases hsource (x :: l₁) o l₂ (by simp [hl]) hko with h | ⟨w, hw, hwk, he⟩
      · exact absurd (congrArg Prod.fst h) (ne_of_gt (lt_of_lt_of_le htx hox))
      · rcases List.mem_cons.1 hw with rfl | hw
        · exact .inl he.symm
        · exact .inr ⟨w, hw, hwk, he⟩
    | get =>
      have hv : (x.stamp, x.value) = (t, v) := by simpa using hsource [] x l rfl hk
      simp only [Legal, hk]
      refine ⟨congrArg Prod.snd hv, ih hsort hdist (fun o ho => hfresh o (by simp [ho])) ?_⟩
      intro l₁ o l₂ hl hko
      rcases hsource (x :: l₁) o l₂ (by simp [hl]) hko with h | ⟨w, hw, hwk, he⟩
      · exact .inl h
      · rcases List.mem_cons.1 hw with rfl | hw
        · cases hk.symm.trans hwk
        · exact .inr ⟨w, hw, hwk, he⟩

namespace Stamped

variable [DecidableEq ι]

theorem program_sorted (hs : Stamped t₀ v₀ h) (m : ι) : (program m h).Pairwise fun a b => a.stamp ≤ b.stamp := by
  unfold program
  refine (hs.mono.filter _).imp_of_mem fun {a b} ha hb hab => hab ?_
  simp only [List.mem_filter, decide_eq_true_eq] at ha hb
  rw [ha.2, hb.2]

theorem seqConsistent (hs : Stamped t₀ v₀ h) : SeqConsistent v₀ h := by
  refine ⟨byStamp h, byStamp_perm h, fun m => filter_byStamp _ (hs.program_sorted m), ?_⟩
  refine legal_of_sorted (t := t₀) (byStamp_sorted h) ?_ ?_ fun l₁ o l₂ => hs.source_byStamp
  · exact ((byStamp_perm h).pairwise_iff fun hab hb ha => (hab ha hb).symm).2 hs.distinct
  · intro o ho
    exact hs.fresh o ((byStamp_perm h).mem_iff.1 ho)

theorem observed_sorted (hs : Stamped t₀ v₀ h) (m : ι) : (observed m h).Pairwise (· ≤ ·) :=
  List.pairwise_map.2 (hs.program_sorted m)

/-- Two machines never come across two stamps in opposite orders. -/
theorem observed_same_order (hs : Stamped t₀ v₀ h) {m m' : ι} {t t' : κ} (hm : [t, t'].Sublist (observed m h))
    (hm' : [t', t].Sublist (observed m' h)) : t = t' := by
  have h₁ : t ≤ t' := by simpa using (hs.observed_sorted m).sublist hm
  have h₂ : t' ≤ t := by simpa using (hs.observed_sorted m').sublist hm'
  exact le_antisymm h₁ h₂

end Stamped

end Register
