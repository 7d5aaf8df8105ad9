/-
Memory as a function from addresses to bytes: the block copy of C, a buffer
filled piece by piece, and little-endian numbers.
-/
import Mathlib

/-- A block of memory, read from its own start. -/
abbrev Bytes := ℕ → UInt8

namespace Bytes

/-- `b + off` as a pointer. -/
def drop (b : Bytes) (off : ℕ) : Bytes := fun i => b (off + i)

/-- `memcpy(b + off, src, n)`. -/
def write (b : Bytes) (off : ℕ) (src : Bytes) (n : ℕ) : Bytes :=
  fun i => if off ≤ i ∧ i < off + n then src (i - off) else b i

/-- `memcpy(dst, src, n)`. -/
def memcpy (dst src : Bytes) (n : ℕ) : Bytes := fun i => if i < n then src i else dst i

theorem memcpy_of_lt {dst src : Bytes} {n i : ℕ} (h : i < n) : memcpy dst src n i = src i := if_pos h

theorem memcpy_of_le {dst src : Bytes} {n i : ℕ} (h : n ≤ i) : memcpy dst src n i = dst i := if_neg (by omega)

theorem drop_drop (b : Bytes) (i j : ℕ) : (b.drop i).drop j = b.drop (i + j) := by
  funext x
  simp only [drop, Nat.add_assoc]

theorem drop_zero (b : Bytes) : b.drop 0 = b := by
  funext i
  rw [drop, Nat.zero_add]

/-- Two blocks agree on their first `n` bytes. -/
def Agree (n : ℕ) (a b : Bytes) : Prop := ∀ i, i < n → a i = b i

theorem Agree.refl (n : ℕ) (a : Bytes) : Agree n a a := fun _ _ => rfl

theorem Agree.symm {n a b} (h : Agree n a b) : Agree n b a := fun i hi => (h i hi).symm

theorem Agree.trans {n a b c} (h : Agree n a b) (h' : Agree n b c) : Agree n a c := fun i hi =>
  (h i hi).trans (h' i hi)

theorem Agree.mono {n k a b} (h : Agree n a b) (hk : k ≤ n) : Agree k a b := fun i hi => h i (by omega)

/-- Blocks that agree do so from any later point on. -/
theorem Agree.drop {n k : ℕ} {a b} (h : Agree n a b) {off : ℕ} (hk : off + k ≤ n) :
    Agree k (a.drop off) (b.drop off) := fun i hi => h (off + i) (by omega)

theorem agree_memcpy (dst src : Bytes) (n : ℕ) : Agree n (memcpy dst src n) src := fun _ hi => memcpy_of_lt hi

theorem write_zero (b src : Bytes) (off : ℕ) : b.write off src 0 = b := by
  funext i
  exact if_neg (by omega)

theorem write_drop_self (b : Bytes) (off n : ℕ) : b.write off (b.drop off) n = b := by
  funext i
  unfold write
  split
  · next h => rw [drop, Nat.add_sub_cancel' h.1]
  · rfl

theorem drop_write_of_le {b src : Bytes} {off n p : ℕ} (h : off + n ≤ p) : (b.write off src n).drop p = b.drop p := by
  funext i
  exact if_neg (by omega)

/-- What was written can be read back. -/
theorem agree_drop_write (b src : Bytes) (off n : ℕ) : Agree n ((b.write off src n).drop off) src := by
  intro i hi
  have hin : off ≤ off + i ∧ off + i < off + n := by omega
  simp only [Bytes.drop, write, hin, and_self, ite_true, Nat.add_sub_cancel_left]

/-- A write leaves everything before and after it alone. -/
theorem drop_write_of_disjoint {b src : Bytes} {off n p k : ℕ} (h : p + k ≤ off ∨ off + n ≤ p) :
    Agree k ((b.write off src n).drop p) (b.drop p) := by
  intro i hi
  have hout : ¬ (off ≤ p + i ∧ p + i < off + n) := by omega
  simp only [Bytes.drop, write, hout, ite_false]

/-- The first `n` bytes. -/
def toList (n : ℕ) (b : Bytes) : List UInt8 := (List.range n).map b

theorem toList_congr {n : ℕ} {a b : Bytes} (h : Agree n a b) : toList n a = toList n b :=
  List.map_congr_left fun i hi => h i (List.mem_range.1 hi)

@[simp] theorem length_toList (n : ℕ) (b : Bytes) : (toList n b).length = n := by simp [toList]

theorem getElem?_toList {n i : ℕ} (b : Bytes) (h : i < n) : (toList n b)[i]? = some (b i) := by
  simp [toList, h]

theorem drop_toList (b : Bytes) (n off : ℕ) : (toList n b).drop off = toList (n - off) (b.drop off) := by
  apply List.ext_getElem
  · simp
  · intro i _ _
    simp [toList, drop]

theorem take_toList (b : Bytes) {n k : ℕ} (h : k ≤ n) : (toList n b).take k = toList k b := by
  apply List.ext_getElem
  · simp [h]
  · intro i _ _
    simp [toList]

/-! ## Filling a buffer -/

/-- Copy the pieces (source and length) one behind the other, from `off` on. -/
def gather (buf : Bytes) (off : ℕ) : List (Bytes × ℕ) → Bytes
  | [] => buf
  | (src, n) :: rest => gather (buf.write off src n) (off + n) rest

/-- The bytes a list of pieces takes. -/
def total (l : List (Bytes × ℕ)) : ℕ := (l.map (·.2)).sum

theorem gather_before {buf : Bytes} {off p k : ℕ} {l : List (Bytes × ℕ)} (h : p + k ≤ off) :
    Agree k ((gather buf off l).drop p) (buf.drop p) := by
  induction l generalizing buf off with
  | nil => exact .refl _ _
  | cons x l ih =>
    obtain ⟨src, n⟩ := x
    exact (ih (by omega)).trans (drop_write_of_disjoint (.inl h))

/-- Each piece stands at the sum of the lengths before it. -/
theorem agree_gather {buf : Bytes} {off n : ℕ} {src : Bytes} {l r : List (Bytes × ℕ)} :
    Agree n ((gather buf off (l ++ (src, n) :: r)).drop (off + total l)) src := by
  induction l generalizing buf off with
  | nil =>
    show Agree n ((gather (buf.write off src n) (off + n) r).drop off) src
    exact (gather_before (Nat.le_refl _)).trans (agree_drop_write _ _ _ _)
  | cons x l ih =>
    obtain ⟨src', n'⟩ := x
    have h : total ((src', n') :: l) = n' + total l := List.sum_cons
    rw [h, ← Nat.add_assoc]
    exact ih

/-! ## Little-endian numbers -/

def readLE : ℕ → Bytes → ℕ
  | 0, _ => 0
  | n + 1, b => (b 0).toNat + 256 * readLE n (b.drop 1)

/-- The bytes of `v`, least significant first. -/
def le (v : ℕ) : Bytes := fun i => .ofNat (v / 256 ^ i)

theorem readLE_congr {n : ℕ} {a b : Bytes} (h : Agree n a b) : readLE n a = readLE n b := by
  induction n generalizing a b with
  | zero => rfl
  | succ n ih => rw [readLE, readLE, h 0 (by omega), ih (h.drop (by omega))]

theorem drop_le (v : ℕ) : (le v).drop 1 = le (v / 256) := by
  funext i
  simp only [drop, le, Nat.div_div_eq_div_mul, Nat.pow_add, Nat.pow_one]

theorem readLE_le (n v : ℕ) : readLE n (le v) = v % 256 ^ n := by
  induction n generalizing v with
  | zero => simp [readLE, Nat.mod_one]
  | succ n ih =>
    rw [readLE, drop_le, ih, Nat.pow_succ, Nat.mul_comm _ 256, Nat.mod_mul]
    simp [le]

theorem readLE_lt (n : ℕ) (b : Bytes) : readLE n b < 256 ^ n := by
  induction n generalizing b with
  | zero => exact Nat.one_pos
  | succ n ih =>
    have hrest := ih (b.drop 1)
    have hbyte := (b 0).toNat_lt
    rw [readLE, Nat.pow_succ]
    omega

theorem le_readLE {n i : ℕ} {b : Bytes} (h : i < n) : le (readLE n b) i = b i := by
  induction n generalizing b i with
  | zero => omega
  | succ n ih =>
    have hbyte := (b 0).toNat_lt
    cases i with
    | zero =>
      rw [le, Nat.pow_zero, Nat.div_one, readLE]
      apply UInt8.toNat_inj.1
      rw [UInt8.toNat_ofNat']
      omega
    | succ i =>
      have hdiv : readLE (n + 1) b / 256 = readLE n (b.drop 1) := by
        rw [readLE]
        omega
      have hrest := ih (b := b.drop 1) (i := i) (by omega)
      rw [← hdiv, ← drop_le, drop, drop, Nat.add_comm 1 i] at hrest
      exact hrest

end Bytes
