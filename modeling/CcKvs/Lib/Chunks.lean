/-
A message cut into chunks of `D` bytes, and put together again by copying each
chunk to its place.
-/
import CcKvs.Lib.Bytes
import Mathlib

namespace Chunks

variable {D : ℕ}

/-- How many chunks a message of `size` bytes takes; an empty message takes one. -/
def count (D size : ℕ) : ℕ := if size ≤ D then 1 else (size + D - 1) / D

theorem count_of_le {size : ℕ} (h : size ≤ D) : count D size = 1 := if_pos h

theorem two_le_count (hD : 0 < D) {size : ℕ} (h : D < size) : 2 ≤ count D size := by
  rw [count, if_neg (by omega), Nat.le_div_iff_mul_le hD]
  omega

theorem count_pos (hD : 0 < D) (size : ℕ) : 0 < count D size := by
  by_cases h : size ≤ D
  · rw [count_of_le h]
    exact Nat.one_pos
  · have := two_le_count hD (Nat.lt_of_not_le h)
    omega

/-- The chunks cover the message. -/
theorem le_count_mul (hD : 0 < D) (size : ℕ) : size ≤ count D size * D := by
  unfold count
  split
  · omega
  · have h := Nat.div_add_mod (size + D - 1) D
    have hm := Nat.mod_lt (size + D - 1) hD
    rw [Nat.mul_comm]
    omega

/-- The first `n` chunks of a message stand in a buffer. -/
def Filled (D n size : ℕ) (buf msg : Bytes) : Prop := Bytes.Agree (min (n * D) size) buf msg

theorem filled_zero (size : ℕ) (buf msg : Bytes) : Filled D 0 size buf msg := by
  intro i hi
  simp at hi

/-- The next chunk, copied to its place, extends what stands there. -/
theorem Filled.write {n size : ℕ} {buf msg : Bytes} (h : Filled D n size buf msg) :
    Filled D (n + 1) size (buf.write (n * D) (msg.drop (n * D)) (min D (size - n * D))) msg := by
  intro i hi
  rw [Nat.succ_mul] at hi
  by_cases hin : n * D ≤ i ∧ i < n * D + min D (size - n * D)
  · rw [Bytes.write, if_pos hin, Bytes.drop, Nat.add_sub_cancel' hin.1]
  · rw [Bytes.write, if_neg hin]
    exact h i (by omega)

/-- With all its chunks in place the message is there. -/
theorem Filled.all (hD : 0 < D) {size : ℕ} {buf msg : Bytes} (h : Filled D (count D size) size buf msg) :
    Bytes.Agree size buf msg := by
  have hle := le_count_mul hD size
  exact h.mono (by omega)

end Chunks
