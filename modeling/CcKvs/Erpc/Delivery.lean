/-
What an application can rely on: over a network that loses, delays, reorders
and repeats packets every slot of a session is a perfect channel, no assertion
of the library fails, no credit is lost or made up, and a packet that waits to
be posted is still in the buffer it was made from. The models of the client and
the worker (`Sc/Pool.lean`) take the first of these for granted: a request that
was sent is handled at most once, and a response is taken in after it was given.
-/
import CcKvs.Erpc.Loop
import Mathlib

namespace CcKvs.Erpc

variable {D : ℕ} {s₀ s : Sys} {es : List (List Event)}

/-! ## Packets and their buffers -/

/-- A request packet that waits at the client, in the batch or in the wheel, is a packet of the
request in its slot. -/
structure Client.Holds (D : ℕ) (c : Client) : Prop where
  batch : ∀ p ∈ c.txBatch, p.pktType = .req → ∃ b, (c.slots (p.reqNum % sessionReqWindow)).txMsgbuf = some b ∧
    ∃ n < b.numPkts D, p = b.pkt D n
  wheel : ∀ i < sessionReqWindow, ∀ n ∈ (c.slots i).wheel, ∃ b, (c.slots i).txMsgbuf = some b ∧ n < b.numPkts D

/-- A response packet that waits at the server is a packet of the response in its slot. -/
def Server.Holds (D : ℕ) (v : Server) : Prop :=
  ∀ p ∈ v.txBatch, p.pktType = .resp → ∃ b, (v.slots (p.reqNum % sessionReqWindow)).txMsgbuf = some b ∧
    ∃ n < b.numPkts D, p = b.pkt D n

section

variable {G : Calls} {net : Net} {i : ℕ} {x : ClientSlot} {v : ServerSlot} {log : List Event} {p : Pkt}

theorem SlotInv.holds_req (h : SlotInv D G net i x v log) (hp : p ∈ net.batch) (ht : p.pktType = .req) :
    ∃ b, x.txMsgbuf = some b ∧ ∃ n < b.numPkts D, p = b.pkt D n := by
  obtain ⟨hcur, htx, -, -⟩ := h.up.current p hp
  obtain ⟨r, hb⟩ := h.client.busy htx
  cases h.up.content p (.inr hp) with
  | req q r' n hr hn =>
    obtain rfl : q = x.curReqNum := hcur
    rw [hb.known] at hr
    cases hr
    exact ⟨_, hb.buf, n, hn, rfl⟩
  | rfr _ _ _ ht' =>
    rw [ht] at ht'
    cases ht'

theorem SlotInv.holds_resp (h : SlotInv D G net i x v log) (hi : i < sessionReqWindow) (hp : p ∈ net.replies)
    (ht : p.pktType = .resp) : ∃ b, v.txMsgbuf = some b ∧ ∃ n < b.numPkts D, p = b.pkt D n := by
  have hcur := h.down.current p hp ht
  cases h.down.content p (.inr hp) with
  | resp q r m n hr hm hn =>
    obtain rfl : q = v.curReqNum := hcur
    cases h.server with
    | fresh hv =>
      have := (h.numbers.called hr).2.1
      omega
    | storing r' _ hnone | handling r' _ hnone =>
      rw [hnone] at hm
      cases hm
    | answered r' m' hr' hm' htx =>
      rw [hr'] at hr
      cases hr
      rw [hm'] at hm
      cases hm
      exact ⟨_, htx, n, hn, rfl⟩
  | cr _ _ ht' =>
    rw [ht] at ht'
    cases ht'

end

/-! ## A session -/

/-- **Credits and slots are accounted for.** A credit is there, or a packet of some slot is sent and
not answered. A slot is free, once, or has a request. A request waits in the backlog only while all
slots have one, and a slot in the stall queue has sent nothing. -/
theorem session_accounts (hD : 0 < D) (h : (system D).Run s₀ es s) :
    s.client.credits + s.client.unanswered = sessionCredits ∧
      (∀ i < sessionReqWindow, (s.client.slots i).numRx ≤ (s.client.slots i).numTx) ∧
      s.client.freeVec.Nodup ∧ (∀ i, i ∈ s.client.freeVec ↔ i < sessionReqWindow ∧ (s.client.slots i).txMsgbuf = none) ∧
      (s.client.backlog ≠ [] → ∀ i < sessionReqWindow, (s.client.slots i).txMsgbuf.isSome) ∧
      s.client.stallq.Nodup ∧ ∀ i ∈ s.client.stallq, (s.client.slots i).txMsgbuf.isSome ∧ (s.client.slots i).numTx = 0 := by
  obtain ⟨hinv, hq⟩ := inv_of_run hD h
  refine ⟨hinv.shared.credits, fun i hi => ?_, hinv.shared.freeNodup, hinv.shared.free, fun hne i hi => ?_,
    hinv.shared.stallNodup, fun i hi => ?_⟩
  · obtain ⟨G, hG⟩ := hinv.slots i hi
    cases htx : (s.client.slots i).txMsgbuf with
    | none => exact Nat.le_of_eq (hG.client.idle htx).1.symm
    | some b =>
      obtain ⟨r, hb⟩ := hG.client.busy (by rw [htx]; rfl)
      exact hb.le
  · rw [Option.isSome_iff_ne_none]
    intro hnone
    have hmem := (hinv.shared.free i).2 ⟨hi, hnone⟩
    rw [hq.full hne] at hmem
    cases hmem
  · obtain ⟨-, htx, h0, -⟩ := hinv.shared.stalled i hi
    exact ⟨htx, h0⟩

/-- **A packet that waits is still in its buffer.** The batches and the wheel hold references to
buffers, which belong to the application again once the call is done. -/
theorem packets_held (hD : 0 < D) (h : (system D).Run s₀ es s) : s.client.Holds D ∧ s.server.Holds D := by
  obtain ⟨hinv, -⟩ := inv_of_run hD h
  refine ⟨⟨fun p hp ht => ?_, fun i hi n hn => ?_⟩, fun p hp ht => ?_⟩
  · obtain ⟨G, hG⟩ := hinv.slots _ (reqNum_mod_lt p)
    exact hG.holds_req (mem_mine.2 ⟨hp, rfl⟩) ht
  · obtain ⟨G, hG⟩ := hinv.slots i hi
    obtain ⟨r, hb⟩ := hG.client.busy_of_wheel hn
    exact ⟨_, hb.buf, (hb.wheel n hn).2.2⟩
  · obtain ⟨G, hG⟩ := hinv.slots _ (reqNum_mod_lt p)
    exact hG.holds_resp (reqNum_mod_lt p) (mem_mine.2 ⟨hp, rfl⟩) ht

/-! ## A call whose packets are repeated -/

def oneRequest : Request := ⟨1, ⟨1, fun _ => 7⟩, ⟨0, .resp, 0, 0, 0, fun _ => 0⟩, 5⟩

def oneResponse : Msg := ⟨2, fun _ => 9⟩

def connected : Sys := ⟨.initial oneRequest.respBuf, .initial oneRequest.respBuf, [], []⟩

/-- Whether the header fields of all packets fit, as a computation. -/
def Sys.fits (s : Sys) : Bool :=
  [s.up, s.client.txBatch, s.down, s.server.txBatch].all fun l =>
    l.all fun p => decide (p.msgSize < 2 ^ 24 ∧ p.reqNum < 2 ^ 44 ∧ p.pktNum < 2 ^ 14)

theorem Sys.fits_iff (s : Sys) : s.fits = true ↔ s.Fits := by
  simp [Sys.fits, Sys.Fits, Pkt.Fits]

/-- A step of the session whose packets fit. -/
theorem step_of {s s' : Sys} {e : List Event} (h : Step D s e s') (hf : s'.fits = true) : (system D).step s e s' :=
  ⟨h, (Sys.fits_iff s').1 hf⟩

/-- The request is received, and has not been answered. -/
theorem run_handled : ∃ s, (system 4).Run connected [[.call 8 oneRequest], [], [.handle 8 1 [7]]] s ∧
    s.up = [(oneRequest.buf 8).pkt 4 0] ∧ s.client.credits = 31 ∧ (s.client.slots 0).txMsgbuf = some (oneRequest.buf 8) ∧
    (s.server.slots 0).reqType = 1 := by
  have h0 : (system 4).Run connected [] _ := .nil ⟨_, _, rfl⟩
  have h1 := h0.snoc (step_of (.enqueue true oneRequest (by decide) rfl) rfl)
  have h2 := h1.snoc (step_of (.clientBurst 1) rfl)
  have h3 := h2.snoc (step_of (.serverRecv (fun _ => 0) (List.mem_singleton_self _) rfl) rfl)
  exact ⟨_, h3, rfl, rfl, rfl, rfl⟩

/-- The request's packet is not answered. -/
theorem session_accounts_handled : ∃ es s, (system 4).Run connected es s ∧ s.client.credits = 31 ∧ s.client.unanswered = 1 := by
  obtain ⟨s, hrun, -, hcr, -⟩ := run_handled
  have hsum := (session_accounts (by decide) hrun).1
  rw [hcr] at hsum
  refine ⟨_, s, hrun, hcr, ?_⟩
  change 31 + s.client.unanswered = 32 at hsum
  omega

/-- A response waits at the server, and the next request at the client. -/
theorem packets_held_both : ∃ es s, (system 4).Run connected es s ∧
    s.client.txBatch = [(oneRequest.buf 9).pkt 4 0] ∧ s.server.txBatch = [(oneResponse.respBuf 1 1 8).pkt 4 0] ∧
    s.client.Holds 4 ∧ s.server.Holds 4 := by
  have h0 : (system 4).Run connected [] _ := .nil ⟨_, _, rfl⟩
  have h1 := h0.snoc (step_of (.enqueue true oneRequest (by decide) rfl) rfl)
  have h2 := h1.snoc (step_of (.clientBurst 1) rfl)
  have h3 := h2.snoc (step_of (.serverRecv (fun _ => 0) (List.mem_singleton_self _) rfl) rfl)
  have h4 := h3.snoc (step_of (.respond 0 oneResponse (by decide) (by decide) rfl) rfl)
  have h5 := h4.snoc (step_of (.enqueue true oneRequest (by decide) rfl) rfl)
  exact ⟨_, _, h5, rfl, rfl, packets_held (by decide) h5⟩

end CcKvs.Erpc
