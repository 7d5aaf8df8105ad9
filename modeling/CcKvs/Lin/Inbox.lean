/-
Where coherence messages arrive (`inline_util.h`, `util.c`). A client posts a
receive for a slot of the ring `incoming_reqs`, the network card uses the
receives in the order they were posted, and `poll_coherence_LIN` looks at the
opcode in the slot after `pull_ptr`, copies a message from there and clears the
opcode. `post_coh_recvs` posts a receive for every slot; after that only
`send_credits` posts them, `CREDITS_IN_MESSAGE` for every credit message.

The rest of flow control is that of `Flow`. A message stays in `net` there until
it is polled. One that finds no receive is lost: it stays there for good.
-/
import CcKvs.Lin.Credits

namespace CcKvs.Lin

open Function

/-- `BROADCAST_CREDITS` -/
def broadcastCredits : ℕ := creditsForEachClient + creditsForEachClient + creditsForEachClient

/-- `MAX_CREDIT_WRS`, the size of `credit_wr`. -/
def maxCreditWrs (machineNum : ℕ) : ℕ := broadcastCredits / creditsInMessage * (machineNum - 1)

def maxCohMessages (machineNum : ℕ) : ℕ := (machineNum - 1) * broadcastCredits

/-- `LIN_MAX_COH_RECEIVES`, the size of `coh_recv_wr` and `coh_recv_sgl`. -/
def linMaxCohReceives (machineNum : ℕ) : ℕ := (machineNum - 1) * broadcastCredits

def linCltBufSlots (machineNum : ℕ) : ℕ := (machineNum - 1) * broadcastCredits

/-- `HRD_MOD_ADD` -/
def hrdModAdd (x : ℤ) (n : ℕ) : ℤ := if x + 1 = n then 0 else x + 1

structure Inbox where
  /-- Empty where the opcode is 0. -/
  incomingReqs : ℕ → Option CacheOp
  /-- The slots of the receives that are posted and not used, the oldest first. -/
  recvs : List ℕ
  pushPtr : ℤ
  pullPtr : ℤ

namespace Inbox

variable (machineNum : ℕ) (b : Inbox)

/-- A receive for the slot at `push_ptr`. -/
def postRecv : Inbox :=
  { b with recvs := b.recvs ++ [b.pushPtr.toNat], pushPtr := hrdModAdd b.pushPtr (linCltBufSlots machineNum) }

/-- `k` receives, one after the other. -/
def postRecvs : ℕ → Inbox
  | 0 => b
  | k + 1 => (postRecvs k).postRecv machineNum

/-- The buffer is cleared when it is allocated, and `post_coh_recvs` posts the receives. -/
def start : Inbox := postRecvs machineNum ⟨fun _ => none, [], 0, -1⟩ ((machineNum - 1) * broadcastCredits)

/-- A message arrives in a slot. -/
def arrive (op : CacheOp) (i : ℕ) (l : List ℕ) : Inbox := { b with incomingReqs := update b.incomingReqs i (some op), recvs := l }

/-- The slot that `poll_coherence_LIN` looks at. -/
def nextSlot : ℕ := ((b.pullPtr + 1) % linCltBufSlots machineNum).toNat

def next : Option CacheOp := b.incomingReqs (b.nextSlot machineNum)

/-- `pull_ptr` advances, and the opcode there is cleared. -/
def poll : Inbox :=
  { b with
    incomingReqs := update b.incomingReqs (hrdModAdd b.pullPtr (linCltBufSlots machineNum)).toNat none
    pullPtr := hrdModAdd b.pullPtr (linCltBufSlots machineNum) }

end Inbox

structure Receivers (N : ℕ) where
  flow : Flow N
  inbox : Fin N → Inbox

inductive RecvEvent (N : ℕ)
  | arrive (d : Fin N) (op : CacheOp)
  | poll (d : Fin N) (op : CacheOp)
  | credits (m : Fin N) (msgs : List (ℕ × ℕ))
  | tau

/-- A message that arrives has been sent and not been polled; whether it is there often enough is
seen when it is polled. A client polls at the beginning of an iteration, when it has cleared
`coh_message_count` and the bookkeeping is still to come. -/
inductive Receivers.Step {N : ℕ} (valLen : UInt8) : Receivers N → RecvEvent N → Receivers N → Prop
  | arrive (d : Fin N) (op : CacheOp) (i : ℕ) (l : List ℕ) : (d.val, op) ∈ s.flow.net → (s.inbox d).recvs = i :: l →
      Step valLen s (.arrive d op) { s with inbox := update s.inbox d ((s.inbox d).arrive op i l) }
  | poll (d : Fin N) (op : CacheOp) (vc : Vc) (f : Flow N) : (s.inbox d).next N = some op →
      (∀ vc j, (s.flow.node d).cohMessageCount vc j = 0) → s.flow.net = (d.val, op) ::ₘ f.net →
      Flow.Step valLen s.flow (.receive d vc op.keyMeta.cid.toNat) f →
      Step valLen s (.poll d op) ⟨f, update s.inbox d ((s.inbox d).poll N)⟩
  | credits (m : Fin N) (msgs : List (ℕ × ℕ)) (f : Flow N) : Flow.Step valLen s.flow (.credits m msgs) f →
      Step valLen s (.credits m msgs)
        ⟨f, update s.inbox m ((s.inbox m).postRecvs N (msgs.length * creditsInMessage))⟩
  | tau (f : Flow N) : Flow.Step valLen s.flow .tau f → Step valLen s .tau { s with flow := f }

structure Receivers.Init {N : ℕ} (s : Receivers N) : Prop where
  flow : s.flow.Init
  inbox : ∀ m, s.inbox m = .start N

def receivers (N : ℕ) (valLen : UInt8) : Lts (Receivers N) (RecvEvent N) := ⟨Receivers.Init, Receivers.Step valLen⟩

end CcKvs.Lin
