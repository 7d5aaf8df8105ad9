/-
A circular log: records get ever-growing virtual offsets, and the record at
offset `a` stands at address `a % cap`. The writer goes on over old records
when it comes round; an offset the head is not a whole lap ahead of is live.
-/
import Mathlib

namespace CircularLog

variable {cap head head' a b m n : ℕ}

/-- The head has not come round to offset `a` again. -/
def Live (cap head a : ℕ) : Prop := head < a + cap

instance : Decidable (Live cap head a) := inferInstanceAs (Decidable (head < a + cap))

/-- What the head has lapped stays lapped. -/
theorem Live.of_le (h : Live cap head' a) (hle : head ≤ head') : Live cap head a := Nat.lt_of_le_of_lt hle h

/-- Two blocks of memory have no address in common. -/
def Apart (p m q n : ℕ) : Prop := p + m ≤ q ∨ q + n ≤ p

theorem Apart.symm {p q : ℕ} (h : Apart p m q n) : Apart q n p m := Or.symm h

/-- Records that follow each other below the head are apart in memory if the first is live. -/
theorem Live.apart (hl : Live cap head a) (hab : a + m ≤ b) (hb : b + n ≤ head) :
    Apart (a % cap) m (b % cap) n := by
  unfold Live at hl
  have hcap : 0 < cap := by omega
  have hr := Nat.mod_lt a hcap
  obtain ⟨d, rfl⟩ : ∃ d, b = a + d := ⟨b - a, by omega⟩
  have hmod : (a + d) % cap = (a % cap + d) % cap := by simp [Nat.add_mod]
  rw [hmod]
  -- the second record is on the same lap, or on the next one and then before the first
  by_cases hlap : a % cap + d < cap
  · left
    rw [Nat.mod_eq_of_lt hlap]
    omega
  · right
    rw [Nat.mod_eq_sub_mod (by omega), Nat.mod_eq_of_lt (by omega)]
    omega

/-! ## Laps -/

/-- Blocks of these lengths, laid behind each other from offset `start` on, end every lap they
complete with the end of a block. -/
def FillsLaps (cap start : ℕ) (ls : List ℕ) : Prop :=
  ∀ j, start ≤ j * cap → j * cap ≤ start + ls.sum → ∃ p, p <+: ls ∧ start + p.sum = j * cap

/-- No block reaches over the end of its lap. -/
def StaysInLaps (cap : ℕ) : ℕ → List ℕ → Prop
  | _, [] => True
  | start, n :: ns => start % cap + n ≤ cap ∧ StaysInLaps cap (start + n) ns

/-- A block that stays in its lap has no start of a lap inside. -/
theorem not_between {start j : ℕ} (hfit : start % cap + n ≤ cap) (hlt : start < j * cap) : start + n ≤ j * cap := by
  have hdiv := Nat.div_add_mod start cap
  have hlap : start / cap < j := by
    by_contra hle
    have hmul := Nat.mul_le_mul_right cap (Nat.le_of_not_lt hle)
    rw [Nat.mul_comm (start / cap)] at hmul
    omega
  have hmul := Nat.mul_le_mul_right cap (Nat.succ_le_of_lt hlap)
  rw [Nat.succ_mul, Nat.mul_comm (start / cap)] at hmul
  omega

theorem StaysInLaps.fillsLaps {start : ℕ} {ls : List ℕ} (h : StaysInLaps cap start ls) : FillsLaps cap start ls := by
  induction ls generalizing start with
  | nil =>
    intro j hs hj
    simp only [List.sum_nil] at hj
    exact ⟨[], List.prefix_refl _, by simp only [List.sum_nil]; omega⟩
  | cons n ns ih =>
    intro j hs hj
    simp only [StaysInLaps] at h
    simp only [List.sum_cons] at hj
    by_cases he : start = j * cap
    · exact ⟨[], List.nil_prefix, by simp [he]⟩
    · have hle := not_between h.1 (show start < j * cap by omega)
      obtain ⟨p, hp, hps⟩ := ih h.2 j hle (by omega)
      exact ⟨n :: p, by simpa using hp, by simp only [List.sum_cons]; omega⟩

theorem FillsLaps.staysInLaps (hcap : 0 < cap) {start : ℕ} {ls : List ℕ} (h : FillsLaps cap start ls) :
    StaysInLaps cap start ls := by
  induction ls generalizing start with
  | nil => simp [StaysInLaps]
  | cons n ns ih =>
    refine ⟨?_, ih fun j hs hj => ?_⟩
    · by_contra hover
      have hdiv := Nat.div_add_mod start cap
      have hmod := Nat.mod_lt start hcap
      have hend : (start / cap + 1) * cap = cap * (start / cap) + cap := by rw [Nat.succ_mul, Nat.mul_comm]
      obtain ⟨p, hp, hps⟩ := h (start / cap + 1) (by omega) (by simp only [List.sum_cons]; omega)
      -- no prefix ends at the end of the lap: the first block begins before it and ends behind it
      rcases List.prefix_cons_iff.1 hp with rfl | ⟨q, rfl, _⟩
      · simp only [List.sum_nil] at hps
        omega
      · simp only [List.sum_cons] at hps
        omega
    · obtain ⟨p, hp, hps⟩ := h j (by omega) (by simp only [List.sum_cons]; omega)
      rcases List.prefix_cons_iff.1 hp with rfl | ⟨q, rfl, hq⟩
      · simp only [List.sum_nil] at hps
        exact ⟨[], List.nil_prefix, by simp only [List.sum_nil]; omega⟩
      · simp only [List.sum_cons] at hps
        exact ⟨q, hq, by omega⟩

theorem staysInLaps_iff (hcap : 0 < cap) {start : ℕ} {ls : List ℕ} :
    StaysInLaps cap start ls ↔ FillsLaps cap start ls :=
  ⟨StaysInLaps.fillsLaps, FillsLaps.staysInLaps hcap⟩

/-- Only the place in the lap counts. -/
theorem staysInLaps_add (start : ℕ) (ls : List ℕ) : StaysInLaps cap (cap + start) ls ↔ StaysInLaps cap start ls := by
  induction ls generalizing start with
  | nil => simp [StaysInLaps]
  | cons n ns ih => simp only [StaysInLaps, Nat.add_mod_left, Nat.add_assoc, ih]

end CircularLog
