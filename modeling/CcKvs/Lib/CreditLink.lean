/-
Flow control by credits on one link. The sender spends a credit on every
message. The receiver counts the messages whose room is free again and returns
the credits in batches: when it has seen `batch` of them it sends one credit
message and starts counting anew.
-/
import Mathlib

/-- A link, in numbers: the sender's credits; messages that still take room at the receiver, or
are on their way there; messages whose room is free and not returned yet; credit messages in
flight. -/
structure CreditLink where
  credits : ℕ
  unfreed : ℕ
  seen : ℕ
  inFlight : ℕ

namespace CreditLink

variable {batch total : ℕ} {l l' : CreditLink}

/-- A message is sent, `n` messages are freed and `e` credit messages sent for them and those
seen before, or a credit message arrives. Freeing none is to stand still. -/
inductive Step (batch : ℕ) (l l' : CreditLink) : Prop
  | send : l.credits = l'.credits + 1 → l'.unfreed = l.unfreed + 1 → l'.seen = l.seen → l'.inFlight = l.inFlight →
      Step batch l l'
  | free (n e : ℕ) : l'.credits = l.credits → l.unfreed = l'.unfreed + n → l'.seen + batch * e = l.seen + n →
      l'.seen < batch → l'.inFlight = l.inFlight + e → Step batch l l'
  | receive : l'.credits = l.credits + batch → l'.unfreed = l.unfreed → l'.seen = l.seen →
      l.inFlight = l'.inFlight + 1 → Step batch l l'

/-- No credit is lost and none is made: `total` of them are around. -/
structure Conserved (batch total : ℕ) (l : CreditLink) : Prop where
  sum : l.credits + l.unfreed + l.seen + batch * l.inFlight = total
  seen_lt : l.seen < batch

theorem Conserved.step (h : l.Conserved batch total) (hst : Step batch l l') : l'.Conserved batch total := by
  have hsum := h.sum
  have hlt := h.seen_lt
  cases hst with
  | send hc hu hs hi =>
    rw [hi.symm] at hsum
    exact ⟨by omega, by omega⟩
  | free n e hc hu hs hlt' hi =>
    refine ⟨?_, hlt'⟩
    rw [hi, Nat.mul_add]
    omega
  | receive hc hu hs hi =>
    rw [hi, Nat.mul_add, Nat.mul_one] at hsum
    exact ⟨by omega, by omega⟩

/-- The room a sender can take is bounded. -/
theorem Conserved.unfreed_le (h : l.Conserved batch total) : l.unfreed ≤ total := by
  have := h.sum
  omega

theorem Conserved.credits_le (h : l.Conserved batch total) : l.credits + batch * l.inFlight ≤ total := by
  have := h.sum
  omega

end CreditLink
