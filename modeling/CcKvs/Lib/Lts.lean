/-
Labelled transition systems: finite runs from an initial state, the rule for
an invariant of the run so far, the restriction of a system to the steps that
meet a side condition, and forward simulation of one system by another.
-/
import Mathlib.Data.List.Forall2

/-- A system: which states it may start in, and its labelled steps. -/
structure Lts (σ ε : Type*) where
  init : σ → Prop
  step : σ → ε → σ → Prop

namespace Lts

variable {σ ε τ δ : Type*}

/-- `L.Run s₀ es s`: from the initial state `s₀` the steps labelled `es` lead to `s`. -/
inductive Run (L : Lts σ ε) (s₀ : σ) : List ε → σ → Prop
  | nil : L.init s₀ → Run L s₀ [] s₀
  | snoc : Run L s₀ es s → L.step s e s' → Run L s₀ (es ++ [e]) s'

/-- The system with only those steps that satisfy `P`. -/
def restrict (L : Lts σ ε) (P : σ → ε → σ → Prop) : Lts σ ε where
  init := L.init
  step s e s' := L.step s e s' ∧ P s e s'

/-- A run of the restricted system is one of the system. -/
theorem Run.of_restrict {L : Lts σ ε} {P : σ → ε → σ → Prop} {s₀ es s} (h : (L.restrict P).Run s₀ es s) : L.Run s₀ es s := by
  induction h with
  | nil h => exact .nil h
  | snoc _ hst ih => exact ih.snoc hst.1

/-- What holds of the empty run and is kept by every step holds of every run. -/
theorem Run.invariant {L : Lts σ ε} {s₀ : σ} {es s} (h : L.Run s₀ es s) (I : List ε → σ → Prop)
    (h₀ : L.init s₀ → I [] s₀) (hs : ∀ {es s e s'}, L.Run s₀ es s → I es s → L.step s e s' → I (es ++ [e]) s') :
    I es s := by
  induction h with
  | nil h => exact h₀ h
  | snoc hr hst ih => exact hs hr ih hst

/-- The system started in the state `s`. -/
def startAt (L : Lts σ ε) (s : σ) : Lts σ ε where
  init := (· = s)
  step := L.step

theorem Run.append {L : Lts σ ε} {s₀ s t : σ} {es ds} (h : L.Run s₀ es s) (h' : (L.startAt s).Run s ds t) :
    L.Run s₀ (es ++ ds) t := by
  induction h' with
  | nil => simpa using h
  | snoc _ hst ih =>
    rw [← List.append_assoc]
    exact ih.snoc hst

/-- The step a run makes at a place of its labels. -/
theorem Run.split {L : Lts σ ε} {s₀ s : σ} {es} (h : L.Run s₀ es s) {l r : List ε} {e : ε} (hes : es = l ++ e :: r) :
    ∃ s₁ s₂, L.Run s₀ l s₁ ∧ L.step s₁ e s₂ := by
  induction h generalizing r with
  | nil => simp at hes
  | @snoc ds t x t' hr hst ih =>
    rcases List.eq_nil_or_concat r with rfl | ⟨r, y, rfl⟩
    · obtain ⟨rfl, he⟩ := List.append_inj' hes rfl
      cases he
      exact ⟨t, t', hr, hst⟩
    · have hes' : ds ++ [x] = (l ++ e :: r) ++ [y] := by simpa using hes
      exact ih (List.append_inj' hes' rfl).1

/-- Forward simulation, matching labels by `F`. The simulated run is available when a
step is matched, so the invariants of the simulating system can be used there. -/
theorem Run.simulate {L : Lts σ ε} {K : Lts τ δ} {s₀ : σ} {t₀ : τ} {es s} (h : L.Run s₀ es s)
    (F : ε → δ → Prop) (R : σ → τ → Prop) (h₀ : L.init s₀ → K.init t₀ ∧ R s₀ t₀)
    (hs : ∀ {ds t s e s'}, K.Run t₀ ds t → R s t → L.step s e s' → ∃ d t', K.step t d t' ∧ F e d ∧ R s' t') :
    ∃ ds t, K.Run t₀ ds t ∧ List.Forall₂ F es ds ∧ R s t := by
  induction h with
  | nil h => exact ⟨[], t₀, .nil (h₀ h).1, .nil, (h₀ h).2⟩
  | snoc _ hst ih =>
    obtain ⟨ds, t, hk, hf, hr⟩ := ih
    obtain ⟨d, t', hst', hfd, hr'⟩ := hs hk hr hst
    exact ⟨ds ++ [d], t', hk.snoc hst', List.rel_append hf (.cons hfd .nil), hr'⟩

theorem exists_mem_of_forall₂ {F : ε → δ → Prop} {es : List ε} {ds : List δ} (h : List.Forall₂ F es ds) {e : ε}
    (he : e ∈ es) : ∃ d ∈ ds, F e d := by
  induction h with
  | nil => cases he
  | @cons a b l₁ l₂ hab _ ih =>
    rcases List.mem_cons.1 he with rfl | he
    · exact ⟨b, by simp, hab⟩
    · obtain ⟨d, hd, hF⟩ := ih he
      exact ⟨d, by simp [hd], hF⟩

/-- A relation between any two labels of a run carries over to the labels they are matched with. -/
theorem pairwise_of_forall₂ {F : ε → δ → Prop} {P : δ → δ → Prop} {Q : ε → ε → Prop}
    (hPQ : ∀ {a b a' b'}, F a a' → F b b' → P a' b' → Q a b) {es : List ε} {ds : List δ}
    (h : List.Forall₂ F es ds) (hp : ds.Pairwise P) : es.Pairwise Q := by
  induction h with
  | nil => exact .nil
  | cons ha hl ih =>
    obtain ⟨h1, h2⟩ := List.pairwise_cons.1 hp
    refine List.pairwise_cons.2 ⟨fun b hb => ?_, ih h2⟩
    obtain ⟨b', hb', hF⟩ := exists_mem_of_forall₂ hl hb
    exact hPQ ha hF (h1 b' hb')

end Lts
