/-
The session as a whole: its slots hold what a slot should, and what they share
is accounted for. A credit is available or stands for a packet of some slot that
is sent and not answered; a slot is free or has a request in it; a slot in the
stall queue has sent nothing yet.
-/
import CcKvs.Erpc.Serve
import Mathlib

namespace CcKvs.Erpc

open Finset (range)

variable {D : ℕ} {G : Calls} {i : ℕ} {log : List Event} {p : Pkt} {c : Client} {s : Sys}

/-! ## The packets of a slot -/

/-- The packets of slot `i` among `l`. -/
def mine (i : ℕ) (l : List Pkt) : List Pkt := l.filter fun p => p.reqNum % sessionReqWindow = i

/-- The events of slot `i` among `l`. -/
def ofSlot (i : ℕ) (l : List Event) : List Event := l.filter fun e => e.reqNum % sessionReqWindow = i

def Sys.net (s : Sys) (i : ℕ) : Net := ⟨mine i s.up, mine i s.client.txBatch, mine i s.down, mine i s.server.txBatch⟩

theorem mem_mine {l : List Pkt} : p ∈ mine i l ↔ p ∈ l ∧ p.reqNum % sessionReqWindow = i := by simp [mine]

@[simp] theorem mine_nil : mine i [] = [] := rfl

@[simp] theorem mine_append (l l' : List Pkt) : mine i (l ++ l') = mine i l ++ mine i l' := List.filter_append ..

theorem mine_self {l : List Pkt} (h : ∀ p ∈ l, p.reqNum % sessionReqWindow = i) : mine i l = l :=
  List.filter_eq_self.2 fun p hp => decide_eq_true (h p hp)

theorem mine_other {j : ℕ} {l : List Pkt} (h : ∀ p ∈ l, p.reqNum % sessionReqWindow = i) (hj : j ≠ i) : mine j l = [] :=
  List.filter_eq_nil_iff.2 fun p hp => by
    rw [decide_eq_true_iff, h p hp]
    exact hj.symm

@[simp] theorem ofSlot_nil : ofSlot i [] = [] := rfl

@[simp] theorem ofSlot_append (l l' : List Event) : ofSlot i (l ++ l') = ofSlot i l ++ ofSlot i l' := List.filter_append ..

theorem ofSlot_self {l : List Event} (h : ∀ e ∈ l, e.reqNum % sessionReqWindow = i) : ofSlot i l = l :=
  List.filter_eq_self.2 fun e he => decide_eq_true (h e he)

theorem ofSlot_other {j : ℕ} {l : List Event} (h : ∀ e ∈ l, e.reqNum % sessionReqWindow = i) (hj : j ≠ i) : ofSlot j l = [] :=
  List.filter_eq_nil_iff.2 fun e he => by
    rw [decide_eq_true_iff, h e he]
    exact hj.symm

/-! ## What the slots share -/

/-- How many packets of a slot are sent and not answered. -/
def ClientSlot.unanswered (x : ClientSlot) : ℕ := x.numTx - x.numRx

def Client.unanswered (c : Client) : ℕ := ∑ i ∈ range sessionReqWindow, (c.slots i).unanswered

structure Shared (c : Client) : Prop where
  credits : c.credits + c.unanswered = sessionCredits
  freeNodup : c.freeVec.Nodup
  free : ∀ i, i ∈ c.freeVec ↔ i < sessionReqWindow ∧ (c.slots i).txMsgbuf = none
  stallNodup : c.stallq.Nodup
  stalled : ∀ i ∈ c.stallq, i < sessionReqWindow ∧ (c.slots i).txMsgbuf.isSome ∧ (c.slots i).numTx = 0 ∧ (c.slots i).numRx = 0

/-- What holds of a session whenever an end is not in the middle of a call. -/
structure Inv (D : ℕ) (s : Sys) (log : List Event) : Prop where
  shared : Shared s.client
  slots : ∀ i < sessionReqWindow, ∃ G, SlotInv D G (s.net i) i (s.client.slots i) (s.server.slots i) (ofSlot i log)

/-- A request waits in the backlog only while no slot is free. -/
structure Queued (c : Client) : Prop where
  full : c.backlog ≠ [] → c.freeVec = []
  valid : ∀ r ∈ c.backlog, r.reqType ≠ invalidReqType

theorem sum_update (f : ClientSlot → ℕ) (g : ℕ → ClientSlot) {n : ℕ} (hi : i < n) (x : ClientSlot) :
    (∑ j ∈ range n, f (Function.update g i x j)) + f (g i) = (∑ j ∈ range n, f (g j)) + f x := by
  have hm := Finset.mem_range.2 hi
  have hrest : ∀ j ∈ (range n).erase i, f (Function.update g i x j) = f (g j) := by
    intro j hj
    rw [Function.update_of_ne (Finset.ne_of_mem_erase hj)]
  rw [← Finset.add_sum_erase _ _ hm, ← Finset.add_sum_erase _ (fun j => f (g j)) hm, Finset.sum_congr rfl hrest,
    Function.update_self]
  omega

/-- A slot changes in step with the credits. -/
theorem Client.unanswered_update (hi : i < sessionReqWindow) (x : ClientSlot) :
    (c.setSlot i x).unanswered + (c.slots i).unanswered = c.unanswered + x.unanswered :=
  sum_update ClientSlot.unanswered c.slots hi x

theorem Shared.unanswered_le (h : Shared c) (hi : i < sessionReqWindow) : c.credits + (c.slots i).unanswered ≤ sessionCredits := by
  have hle : (c.slots i).unanswered ≤ c.unanswered :=
    Finset.single_le_sum (f := fun i => (c.slots i).unanswered) (fun _ _ => Nat.zero_le _) (Finset.mem_range.2 hi)
  have := h.credits
  omega

/-- What one slot sends and takes in is paid for, and paid back, with credits. -/
theorem Shared.setSlot (h : Shared c) (hi : i < sessionReqWindow) {x : ClientSlot} {cr : ℕ} {batch : List Pkt}
    (hcr : cr + x.unanswered = c.credits + (c.slots i).unanswered)
    (htx : x.txMsgbuf = none ↔ (c.slots i).txMsgbuf = none) (hstall : i ∉ c.stallq) :
    Shared { c.setSlot i x with credits := cr, txBatch := batch } where
  credits := by
    have hu := Client.unanswered_update (c := c) hi x
    have hc := h.credits
    have hgoal : cr + (c.setSlot i x).unanswered = sessionCredits := by omega
    exact hgoal
  freeNodup := h.freeNodup
  free := by
    intro j
    by_cases hj : j = i
    · subst hj
      simp only [Client.setSlot_slots, Function.update_self]
      rw [htx]
      exact h.free j
    · simp only [Client.setSlot_slots, Function.update_of_ne hj]
      exact h.free j
  stallNodup := h.stallNodup
  stalled := by
    intro j hj
    have hne : j ≠ i := by
      rintro rfl
      exact hstall hj
    simp only [Client.setSlot_slots, Function.update_of_ne hne]
    exact h.stalled j hj

/-- A free slot gets a request; it has sent nothing yet, or stands in the stall queue. -/
theorem Shared.accept (h : Shared c) {free : List ℕ} (hfree : c.freeVec = i :: free) {x : ClientSlot} (hx : x.txMsgbuf.isSome)
    (htx : x.numTx = 0) (hrx : x.numRx = 0) (hu : (c.slots i).unanswered = 0) {q : List ℕ}
    (hq : q = c.stallq ∨ q = c.stallq ++ [i]) :
    Shared { c.setSlot i x with freeVec := free, stallq := q } := by
  have hmem := (h.free i).1 (by rw [hfree]; exact List.mem_cons_self)
  have hnd := h.freeNodup
  rw [hfree, List.nodup_cons] at hnd
  have hnot : i ∉ c.stallq := by
    intro hin
    have := (h.stalled i hin).2.1
    rw [hmem.2] at this
    cases this
  refine ⟨?_, hnd.2, ?_, ?_, ?_⟩
  · have hup := Client.unanswered_update (c := c) hmem.1 x
    have hc := h.credits
    have hzero : x.unanswered = 0 := by rw [ClientSlot.unanswered, htx, hrx]
    have hgoal : c.credits + (c.setSlot i x).unanswered = sessionCredits := by omega
    exact hgoal
  · intro j
    have hj := h.free j
    rw [hfree, List.mem_cons] at hj
    by_cases hji : j = i
    · subst hji
      simp only [Client.setSlot_slots, Function.update_self]
      constructor
      · intro hin
        exact absurd hin hnd.1
      · rintro ⟨_, hnone⟩
        rw [hnone] at hx
        cases hx
    · simp only [Client.setSlot_slots, Function.update_of_ne hji]
      rw [← hj]
      exact ⟨.inr, fun h' => h'.resolve_left hji⟩
  · rcases hq with rfl | rfl
    · exact h.stallNodup
    · exact List.nodup_append.2 ⟨h.stallNodup, List.nodup_singleton _, by
        rintro a ha b hb rfl
        exact hnot (List.mem_singleton.1 hb ▸ ha)⟩
  · intro j hj
    have hcase : j ∈ c.stallq ∨ j = i := by
      rcases hq with rfl | rfl
      · exact .inl hj
      · simpa using hj
    by_cases hji : j = i
    · subst hji
      simp only [Client.setSlot_slots, Function.update_self]
      exact ⟨hmem.1, hx, htx, hrx⟩
    · simp only [Client.setSlot_slots, Function.update_of_ne hji]
      exact h.stalled j (hcase.resolve_right hji)

/-- A slot becomes free when its last packet is answered. -/
theorem Shared.release (h : Shared c) (hi : i < sessionReqWindow) {x : ClientSlot} (hx : x.txMsgbuf = none) {cr : ℕ}
    (hcr : cr + x.unanswered = c.credits + (c.slots i).unanswered) (htx : (c.slots i).txMsgbuf ≠ none) (hstall : i ∉ c.stallq) :
    Shared { c.setSlot i x with credits := cr, freeVec := i :: c.freeVec } where
  credits := by
    have hu := Client.unanswered_update (c := c) hi x
    have hc := h.credits
    have hgoal : cr + (c.setSlot i x).unanswered = sessionCredits := by omega
    exact hgoal
  freeNodup := List.nodup_cons.2 ⟨fun hm => htx ((h.free i).1 hm).2, h.freeNodup⟩
  free := by
    intro j
    by_cases hj : j = i
    · subst hj
      simp only [Client.setSlot_slots, Function.update_self, List.mem_cons_self, true_iff]
      exact ⟨hi, hx⟩
    · simp only [Client.setSlot_slots, Function.update_of_ne hj, List.mem_cons, hj, false_or]
      exact h.free j
  stallNodup := h.stallNodup
  stalled := by
    intro j hj
    have hne : j ≠ i := by
      rintro rfl
      exact hstall hj
    simp only [Client.setSlot_slots, Function.update_of_ne hne]
    exact h.stalled j hj

end CcKvs.Erpc
