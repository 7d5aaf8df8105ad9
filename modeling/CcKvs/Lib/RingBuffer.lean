/-
A ring of slots between a writer and a reader. The writer puts its `k`-th item
into slot `k % size`; the reader empties the slots in the same order. As long as
the writer is less than a round ahead, what lies in the slots is what was written
and not read yet, and the other slots are empty.
-/
import Mathlib

namespace RingBuffer

open Function

variable {α : Type*} {size : ℕ} {slots : ℕ → Option α} {items : List α} {taken : ℕ}

/-- The slots after `items` were written and the first `taken` of them read. -/
structure Holds (size : ℕ) (slots : ℕ → Option α) (items : List α) (taken : ℕ) : Prop where
  taken_le : taken ≤ items.length
  length_le : items.length ≤ taken + size
  slot : ∀ k, taken ≤ k → k < taken + size → slots (k % size) = items[k]?

theorem Holds.empty : Holds (α := α) size (fun _ => none) [] 0 := ⟨le_rfl, Nat.zero_le _, by simp⟩

/-- Slots that are less than a round apart are different. -/
theorem mod_ne {j k : ℕ} (hlt : j < k) (hround : k < j + size) : j % size ≠ k % size := by
  intro he
  have hdvd : size ∣ k - j := (Nat.modEq_iff_dvd' hlt.le).1 he
  have := Nat.le_of_dvd (by omega) hdvd
  omega

theorem Holds.write (h : Holds size slots items taken) (a : α) (hlt : items.length < taken + size) :
    Holds size (update slots (items.length % size) (some a)) (items ++ [a]) taken := by
  have hread := h.taken_le
  refine ⟨by rw [List.length_append]; omega, by rw [List.length_append, List.length_singleton]; omega, fun k hk hk' => ?_⟩
  rcases lt_trichotomy k items.length with hlt' | rfl | hgt
  · rw [update_of_ne (mod_ne hlt' (by omega)), h.slot k hk hk', List.getElem?_append_left hlt']
  · rw [update_self, List.getElem?_concat_length]
  · rw [update_of_ne (mod_ne hgt (by omega)).symm, h.slot k hk hk', List.getElem?_eq_none hgt.le,
      List.getElem?_eq_none (by rw [List.length_append]; exact hgt)]

/-- The next item to be read is in the slot of its number. -/
theorem Holds.head (h : Holds size slots items taken) (hpos : 0 < size) : slots (taken % size) = items[taken]? :=
  h.slot taken le_rfl (by omega)

theorem Holds.read (h : Holds size slots items taken) (hlt : taken < items.length) :
    Holds size (update slots (taken % size) none) items (taken + 1) := by
  have hlen := h.length_le
  refine ⟨hlt, by omega, fun k hk hk' => ?_⟩
  by_cases hround : k = taken + size
  · rw [hround, Nat.add_mod_right, update_self, List.getElem?_eq_none hlen]
  · rw [update_of_ne (mod_ne (by omega) (by omega)).symm, h.slot k (by omega) (by omega)]

/-- The slots of the items that are still to come are empty. -/
theorem Holds.free (h : Holds size slots items taken) {k : ℕ} (hk : items.length ≤ k) (hk' : k < taken + size) :
    slots (k % size) = none := by
  rw [h.slot k (h.taken_le.trans hk) hk', List.getElem?_eq_none hk]

end RingBuffer
