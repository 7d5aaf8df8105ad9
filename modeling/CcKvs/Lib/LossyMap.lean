/-
The specification of a cache-like store: a map that may forget any key at any
time, but never answers with anything other than the most recent value. The
state holds the keys that have not been forgotten.
-/
import CcKvs.Lib.Lts
import Mathlib.Logic.Function.Basic

namespace LossyMap

variable {κ α : Type*} [DecidableEq κ]

inductive Event (κ α : Type*)
  | put (k : κ) (v : α)
  | get (k : κ) (r : Option α)

/-- `m'` holds only what `m` holds. -/
def Forgets (m m' : κ → Option α) : Prop := ∀ k v, m' k = some v → m k = some v

inductive Step (m : κ → Option α) : Event κ α → (κ → Option α) → Prop
  | get (k : κ) : Step m (.get k (m k)) m
  | put (k : κ) (v : α) (m' : κ → Option α) : Forgets (Function.update m k (some v)) m' → Step m (.put k v) m'

def system : Lts (κ → Option α) (Event κ α) where
  init m := ∀ k, m k = none
  step := Step

/-- The last put of `k` in `es` is one of `v`. -/
def MostRecent (es : List (Event κ α)) (k : κ) (v : α) : Prop :=
  ∃ l r, es = l ++ .put k v :: r ∧ ∀ w, .put k w ∉ r

omit [DecidableEq κ] in
theorem MostRecent.snoc {es : List (Event κ α)} {k : κ} {v : α} (h : MostRecent es k v) {e : Event κ α}
    (he : ∀ w, e ≠ .put k w) : MostRecent (es ++ [e]) k v := by
  obtain ⟨l, r, rfl, hr⟩ := h
  refine ⟨l, r ++ [e], by simp, fun w hw => ?_⟩
  rcases List.mem_append.1 hw with hw | hw
  · exact hr w hw
  · exact he w (List.mem_singleton.1 hw).symm

omit [DecidableEq κ] in
theorem mostRecent_snoc_put (es : List (Event κ α)) (k : κ) (v : α) : MostRecent (es ++ [.put k v]) k v :=
  ⟨es, [], rfl, by simp⟩

/-- **The map is never stale**: what it holds under a key is the value last put there. -/
theorem mostRecent_of_run {m₀ m : κ → Option α} {es : List (Event κ α)} (h : system.Run m₀ es m) :
    ∀ k v, m k = some v → MostRecent es k v := by
  refine h.invariant (fun es m => ∀ k v, m k = some v → MostRecent es k v) ?_ ?_
  · intro h₀ k v hk
    rw [h₀ k] at hk
    cases hk
  · intro es m e m' _ ih hst k v hk
    cases hst with
    | get j => exact (ih k v hk).snoc (by simp)
    | put j w _ hf =>
      have hu := hf k v hk
      by_cases hkj : k = j
      · subst hkj
        rw [Function.update_self] at hu
        cases hu
        exact mostRecent_snoc_put es k v
      · rw [Function.update_of_ne hkj] at hu
        refine (ih k v hu).snoc (fun w' he => ?_)
        cases he
        exact hkj rfl

end LossyMap
