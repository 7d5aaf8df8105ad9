/-
Places through which items are handed from one party to another. A place takes
one item at a time: what is put in is taken out once, before the next item is
put in. If items are put and taken in the same cyclic (or any other fixed) order
of places, they are taken in the order they were put.
-/
import Mathlib.Data.List.Induction

namespace Handoff

variable {κ α : Type*}

/-- An access to a place. -/
inductive Transfer (α : Type*)
  | put (x : α)
  | take (x : α)

/-- The accesses to one place: items are put and taken in turn, and what is taken is what was put.
With the item that is in the place afterwards. -/
inductive Alternates : List (Transfer α) → Option α → Prop
  | nil : Alternates [] none
  | put : Alternates l none → Alternates (l ++ [.put x]) (some x)
  | take : Alternates l (some x) → Alternates (l ++ [.take x]) none

theorem Alternates.getLast?_eq_put {l : List (Transfer α)} {o : Option α} (h : Alternates l o) (x : α) :
    l.getLast? = some (.put x) ↔ o = some x := by
  cases h <;> simp

/-- The items put, with their places. -/
def puts (tr : List (κ × Transfer α)) : List (κ × α) :=
  tr.filterMap fun | (k, .put x) => some (k, x) | (_, .take _) => none

/-- The items taken, with their places. -/
def takes (tr : List (κ × Transfer α)) : List (κ × α) :=
  tr.filterMap fun | (k, .take x) => some (k, x) | (_, .put _) => none

@[simp] theorem puts_append (tr tr' : List (κ × Transfer α)) : puts (tr ++ tr') = puts tr ++ puts tr' := List.filterMap_append

@[simp] theorem takes_append (tr tr' : List (κ × Transfer α)) : takes (tr ++ tr') = takes tr ++ takes tr' := List.filterMap_append

@[simp] theorem puts_put (k : κ) (x : α) : puts [(k, .put x)] = [(k, x)] := rfl

@[simp] theorem puts_take (k : κ) (x : α) : puts [(k, .take x)] = [] := rfl

@[simp] theorem takes_put (k : κ) (x : α) : takes [(k, .put x)] = [] := rfl

@[simp] theorem takes_take (k : κ) (x : α) : takes [(k, .take x)] = [(k, x)] := rfl

section

variable [DecidableEq κ]

/-- The accesses to place `k`. -/
def accesses (k : κ) (tr : List (κ × Transfer α)) : List (Transfer α) := (tr.filter (·.1 = k)).map Prod.snd

@[simp] theorem accesses_append (k : κ) (tr tr' : List (κ × Transfer α)) :
    accesses k (tr ++ tr') = accesses k tr ++ accesses k tr' := by
  simp [accesses]

@[simp] theorem accesses_self (k : κ) (a : Transfer α) : accesses k [(k, a)] = [a] := by
  simp [accesses]

theorem accesses_of_ne {k k' : κ} (h : k' ≠ k) (a : Transfer α) : accesses k [(k', a)] = [] := by
  simp [accesses, h]

theorem mem_takes {k : κ} {x : α} {tr : List (κ × Transfer α)} : (k, x) ∈ takes tr ↔ .take x ∈ accesses k tr := by
  induction tr with
  | nil => simp [takes, accesses]
  | cons a tr ih =>
    obtain ⟨k', a⟩ := a
    rw [← List.singleton_append, takes_append, accesses_append, List.mem_append, List.mem_append, ih]
    refine or_congr_left ?_
    by_cases hk : k' = k
    · cases a <;> simp [hk]
    · cases a <;> simp [accesses_of_ne hk, Ne.symm hk]

/-- What was put in a place is what was taken from it and what is still there. -/
theorem Alternates.puts_eq {k : κ} {tr : List (κ × Transfer α)} {o : Option α} (h : Alternates (accesses k tr) o) :
    (puts tr).filter (·.1 = k) = (takes tr).filter (·.1 = k) ++ o.toList.map (k, ·) := by
  generalize hl : accesses k tr = l at h
  induction tr using List.reverseRecOn generalizing l o with
  | nil =>
    subst hl
    generalize hn : accesses k ([] : List (κ × Transfer α)) = l at h
    cases h with
    | nil => rfl
    | put => simp [accesses] at hn
    | take => simp [accesses] at hn
  | append_singleton tr a ih =>
    obtain ⟨k', a⟩ := a
    rw [accesses_append] at hl
    by_cases hk : k' = k
    · subst hk
      rw [accesses_self] at hl
      cases h with
      | nil => simp at hl
      | put h =>
        obtain ⟨rfl, ha⟩ := List.append_inj' hl rfl
        cases ha
        simp [ih _ rfl h]
      | take h =>
        obtain ⟨rfl, ha⟩ := List.append_inj' hl rfl
        cases ha
        simp [ih _ rfl h]
    · rw [accesses_of_ne hk, List.append_nil] at hl
      have := ih l hl h
      cases a <;> simpa [hk] using this

/-- The `n`-th item is at place `turn n`. -/
def InTurn (turn : ℕ → κ) (l : List (κ × α)) : Prop := ∀ n x, l[n]? = some x → x.1 = turn n

omit [DecidableEq κ] in
theorem InTurn.nil (turn : ℕ → κ) : InTurn turn ([] : List (κ × α)) := by
  intro n x hx
  simp at hx

omit [DecidableEq κ] in
theorem InTurn.of_prefix {turn : ℕ → κ} {l l' : List (κ × α)} (h : InTurn turn l') (hl : l <+: l') : InTurn turn l := by
  obtain ⟨r, rfl⟩ := hl
  intro n x hx
  refine h n x ?_
  rw [List.getElem?_append_left (List.getElem?_eq_some_iff.1 hx).1]
  exact hx

omit [DecidableEq κ] in
theorem InTurn.snoc {turn : ℕ → κ} {l : List (κ × α)} (h : InTurn turn l) (x : α) :
    InTurn turn (l ++ [(turn l.length, x)]) := by
  intro n y hy
  rcases Nat.lt_trichotomy n l.length with hn | rfl | hn
  · rw [List.getElem?_append_left hn] at hy
    exact h n y hy
  · simp only [List.getElem?_concat_length, Option.some.injEq] at hy
    rw [← hy]
  · rw [List.getElem?_eq_none (by simp; omega)] at hy
    cases hy

omit [DecidableEq κ] in
theorem InTurn.last {turn : ℕ → κ} {l r : List (κ × α)} {x : κ × α} (h : InTurn turn (l ++ x :: r)) :
    x.1 = turn l.length := by
  refine h l.length x ?_
  simp

/-- If what is taken from each place is the first of what was put in it, and both go through the
places in the same order, then what is taken is the first of what was put. -/
theorem InTurn.takes_prefix {turn : ℕ → κ} {ps ts : List (κ × α)} (hp : InTurn turn ps) (ht : InTurn turn ts)
    (h : ∀ k, ts.filter (·.1 = k) <+: ps.filter (·.1 = k)) : ts <+: ps := by
  induction ts using List.reverseRecOn with
  | nil => exact List.nil_prefix
  | append_singleton ts x ih =>
    have hts : ts <+: ps := by
      refine ih (ht.of_prefix (List.prefix_append ts [x])) fun k => ?_
      refine List.IsPrefix.trans ?_ (h k)
      rw [List.filter_append]
      exact List.prefix_append _ _
    obtain ⟨r, rfl⟩ := hts
    -- The next item put is the first one, after those taken, at the place of `x`.
    have hx := h x.1
    rw [List.filter_append, List.filter_append, List.prefix_append_right_inj] at hx
    cases r with
    | nil => simp at hx
    | cons y r =>
      have hy : y.1 = x.1 := by rw [hp.last, ht.last]
      simp only [List.filter_cons, List.filter_nil, hy, decide_true, if_true, List.cons_prefix_cons] at hx
      rw [hx.1]
      exact ⟨r, by simp⟩

end

end Handoff
