/-
Selective signalling. Requests are handed over in batches, and every `period`-th
of them is to report its completion. Before the next one is due the sender waits
for that report. It must not wait for a request that it has not handed over: the
period has to be longer than a batch.
-/
import Mathlib

namespace Signalling

variable {period n k : ℕ}

/-- How many of the first `n` requests report: those whose number is a multiple of the period. -/
def reports (period n : ℕ) : ℕ := (n + period - 1) / period

theorem reports_zero (period : ℕ) : reports period 0 = 0 := by
  rcases Nat.eq_zero_or_pos period with rfl | hpos
  · simp [reports]
  · rw [reports, Nat.zero_add, Nat.div_eq_of_lt (by omega)]

theorem reports_succ (hpos : 0 < period) (n : ℕ) :
    reports period (n + 1) = reports period n + if n % period = 0 then 1 else 0 := by
  rw [reports, reports, show n + 1 + period - 1 = n + period - 1 + 1 by omega, Nat.succ_div]
  have hdvd : (period ∣ n + period - 1 + 1) ↔ n % period = 0 := by
    rw [show n + period - 1 + 1 = n + period by omega, Nat.dvd_add_self_right, Nat.dvd_iff_mod_eq_zero]
  simp only [hdvd]

/-- The reports waited for after `n` requests: one at the end of each period. -/
theorem succ_div_eq (hpos : 0 < period) (n : ℕ) :
    (n + 1) / period = n / period + if n % period = period - 1 then 1 else 0 := by
  have hdvd : period ∣ n + 1 ↔ n % period = period - 1 := by
    have hlt := Nat.mod_lt n hpos
    rw [Nat.dvd_iff_mod_eq_zero, ← Nat.mod_add_mod]
    constructor
    · intro h
      by_contra hne
      rw [Nat.mod_eq_of_lt (by omega)] at h
      omega
    · intro h
      rw [h, Nat.sub_add_cancel hpos, Nat.mod_self]
  rw [Nat.succ_div]
  simp only [hdvd]

/-- A full period of requests after the last report that was waited for, less than a period minus
one ago, there is one more. -/
theorem div_lt_reports (hpos : 0 < period) (hn : n % period = period - 1) (hk : k + 1 < period) :
    n / period < reports period (n - k) := by
  rw [reports, Nat.lt_iff_add_one_le, Nat.le_div_iff_mul_le hpos]
  have hdiv := Nat.div_add_mod n period
  rw [Nat.add_mul, Nat.mul_comm]
  omega

theorem div_le_reports (hpos : 0 < period) (hk : k < period) : n / period ≤ reports period (n - k) := by
  rw [reports, Nat.le_div_iff_mul_le hpos]
  have hdiv := Nat.div_add_mod n period
  rw [Nat.mul_comm]
  omega

/-- The last requests, with a flag on those that report. -/
structure Flagged (period n : ℕ) (flags : List Bool) : Prop where
  le : flags.length ≤ n
  count : reports period n = reports period (n - flags.length) + flags.countP id

theorem Flagged.nil (period n : ℕ) : Flagged period n [] := ⟨Nat.zero_le _, rfl⟩

theorem Flagged.push {flags : List Bool} (hpos : 0 < period) (h : Flagged period n flags) :
    Flagged period (n + 1) (flags ++ [n % period == 0]) := by
  have hle := h.le
  refine ⟨by rw [List.length_append]; exact Nat.succ_le_succ hle, ?_⟩
  rw [reports_succ hpos, h.count, List.length_append, List.length_singleton, Nat.add_sub_add_right, List.countP_append,
    List.countP_singleton, Nat.add_assoc]
  simp only [id, beq_iff_eq]

/-- A report is due, and there was none in the last requests. -/
theorem reports_sub_of_mod (hpos : 0 < period) (hn : n % period = 0) (hk : k < period) :
    reports period n ≤ reports period (n - k) := by
  obtain ⟨q, rfl⟩ := Nat.dvd_of_mod_eq_zero hn
  rw [reports, reports, Nat.le_div_iff_mul_le hpos]
  have hq : (period * q + period - 1) / period = q := by
    rw [Nat.add_sub_assoc hpos, Nat.mul_add_div hpos, Nat.div_eq_of_lt (by omega), Nat.add_zero]
  rw [hq, Nat.mul_comm]
  omega

end Signalling
