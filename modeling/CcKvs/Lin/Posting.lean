/-
What a client hands to its network card (`inline_util.h`): the loops of
`perform_broadcasts_LIN`, `send_acks` and `forge_credits_LIN` with
`send_credits`, as far as work requests, receives and completions go.

Broadcasts are handed over in batches of `MAX_BCAST_BATCH`, ACKs and credit
messages at the end of the call. Before that the client posts receives for the
credits that the messages will bring back. Every so often a request is signaled
and a later one waits for its completion; in a batch of broadcasts the flag is on
the first request, whichever broadcast it is for. Broadcasts and ACKs share a
completion queue.

The other machines free the messages sent to them in any order, and answer as
`forge_credits_LIN` does. Each access of the client to the card is a step.
-/
import CcKvs.Lin.Credits

namespace CcKvs.Lin

open Function

/-- The sizes that `main.h` defines. -/
structure PostConfig where
  inlining : Bool
  maxBcastBatch : ℕ
  bcastToCacheBatch : ℕ
  maxCreditWrs : ℕ
  broadcastSsBatch : ℕ
  ackSsBatch : ℕ
  creditSsBatch : ℕ

/-- The send queues: `BROADCAST_UD_QP_ID` and `FC_UD_QP_ID`. -/
inductive Qp
  | broadcast
  | fc
  deriving DecidableEq, Repr

/-- Where the client is. A batch of broadcasts may be the last one of the call. -/
inductive PostPc
  | idle
  | bcast
  | bcastRecvs (last : Bool)
  | bcastSend (last : Bool)
  | acks
  | acksSend
  | credits
  deriving DecidableEq, Repr

/-- The client: messages that were forged and not handed over, the counters, and what it has done
with the card. -/
structure Poster (N : ℕ) where
  pc : PostPc
  brTx : ℕ
  /-- The broadcasts of the batch; their number is `br_i`. -/
  bcasts : List Vc
  /-- `IBV_SEND_SIGNALED` in `coh_send_wr[0].send_flags` -/
  bcastSignaled : Bool
  creditRecvCounter : ℕ
  sentAckTx : ℕ
  /-- Where the ACKs go, and which are signaled; their number is `send_ack_count`. -/
  acks : List (Fin N × Bool)
  ackRecvCounter : ℕ
  creditTx : ℕ
  /-- Which credit messages are signaled; their number is `credit_wr_i`. -/
  creditWrs : List Bool
  /-- Receives posted for credits. -/
  recvs : ℕ
  /-- Messages handed over. -/
  sent : Fin N → Vc → ℕ
  signaled : Qp → ℕ
  /-- Completions that `hrd_poll_cq` was called for. -/
  completions : Qp → ℕ

namespace Poster

variable {N : ℕ} (cfg : PostConfig) (m : Fin N) (p : Poster N)

/-- `hrd_poll_cq` for one completion, if the condition holds. -/
def pollIf (cond : Prop) [Decidable cond] (qp : Qp) : Poster N :=
  if cond then { p with completions := update p.completions qp (p.completions qp + 1) } else p

/-- The signaled flag of the batch's first request. Without inlining the flags of a broadcast's
requests are written when it is forged. -/
def flagBcast : Bool :=
  (if cfg.inlining = false ∧ p.bcasts = [] then false else p.bcastSignaled) || p.brTx % cfg.broadcastSsBatch == 0

/-- `forge_bcast_wrs_LIN` waits for a completion when it has counted the broadcast. -/
def BcastPolls : Prop := (p.brTx + 1) % cfg.broadcastSsBatch = cfg.broadcastSsBatch - 1

instance : Decidable (p.BcastPolls cfg) := inferInstanceAs (Decidable (_ = _))

/-- `forge_bcast_wrs_LIN` for an INV or an UPD, and the rest of the round. -/
def forgeBcast (vc : Vc) : Poster N :=
  pollIf { p with
    pc := if p.bcasts.length + 1 = cfg.maxBcastBatch then .bcastRecvs false else .bcast
    bcastSignaled := p.flagBcast cfg
    brTx := p.brTx + 1
    bcasts := p.bcasts ++ [vc]
    creditRecvCounter := if (p.brTx + 1) % creditsInMessage = 0 then p.creditRecvCounter + 1 else p.creditRecvCounter }
    (p.BcastPolls cfg) .broadcast

/-- `post_credit_recvs_and_batch_bcasts_to_NIC`, first part. -/
def postCreditRecvs (last : Bool) : Poster N :=
  { p with pc := .bcastSend last, recvs := p.recvs + (N - 1) * p.creditRecvCounter, creditRecvCounter := 0 }

/-- A broadcast sends a message to every other machine. -/
def batchBcasts (last : Bool) : Poster N :=
  { p with
    pc := if last then .idle else .bcast
    bcasts := []
    bcastSignaled := if p.bcasts ≠ [] ∧ cfg.inlining then false else p.bcastSignaled
    sent := fun j vc => if j = m then p.sent j vc else p.sent j vc + p.bcasts.count vc
    signaled := if p.bcasts ≠ [] ∧ p.bcastSignaled then update p.signaled .broadcast (p.signaled .broadcast + 1) else p.signaled }

def AckPolls : Prop := p.sentAckTx % cfg.ackSsBatch = cfg.ackSsBatch - 1

instance : Decidable (p.AckPolls cfg) := inferInstanceAs (Decidable (_ = _))

/-- A round of `send_acks`. -/
def forgeAck (j : Fin N) : Poster N :=
  pollIf { p with
    acks := p.acks ++ [(j, p.sentAckTx % cfg.ackSsBatch == 0)]
    sentAckTx := p.sentAckTx + 1
    ackRecvCounter := if (p.sentAckTx + 1) % creditsInMessage = 0 then p.ackRecvCounter + 1 else p.ackRecvCounter }
    (p.AckPolls cfg) .broadcast

/-- `post_recvs_and_send`, first part. -/
def postAckRecvs : Poster N := { p with pc := .acksSend, recvs := p.recvs + p.ackRecvCounter, ackRecvCounter := 0 }

def sendAcks : Poster N :=
  { p with
    pc := .idle
    acks := []
    sent := fun j vc => if vc = .ack then p.sent j vc + p.acks.countP (·.1 = j) else p.sent j vc
    signaled := update p.signaled .broadcast (p.signaled .broadcast + p.acks.countP (·.2)) }

def CreditPolls : Prop := p.creditTx % cfg.creditSsBatch = cfg.creditSsBatch - 1

instance : Decidable (p.CreditPolls cfg) := inferInstanceAs (Decidable (_ = _))

/-- A credit message of `forge_credits_LIN`. -/
def forgeCredit : Poster N :=
  pollIf { p with creditWrs := p.creditWrs ++ [p.creditTx % cfg.creditSsBatch == 0], creditTx := p.creditTx + 1 }
    (p.CreditPolls cfg) .fc

/-- `send_credits` -/
def sendCredits : Poster N :=
  { p with pc := .idle, creditWrs := [], signaled := update p.signaled .fc (p.signaled .fc + p.creditWrs.countP id) }

end Poster

/-- A client with the other machines: how many of its messages each has freed, with its counters and
the credit messages it has sent. -/
structure Posting (N : ℕ) where
  client : Poster N
  freed : Fin N → Vc → ℕ
  peer : Fin N → Forged

inductive PostEvent
  /-- `hrd_poll_cq` was called for a send queue. -/
  | poll (qp : Qp)
  | tau
  deriving DecidableEq, Repr

def PostEvent.ofPoll (cond : Prop) [Decidable cond] (qp : Qp) : PostEvent := if cond then .poll qp else .tau

inductive Posting.Step {N : ℕ} (cfg : PostConfig) (m : Fin N) : Posting N → PostEvent → Posting N → Prop
  | beginBcasts : s.client.pc = .idle →
      Step cfg m s .tau { s with client := { s.client with pc := .bcast, bcasts := [], creditRecvCounter := 0 } }
  | forgeBcast (vc : Vc) : s.client.pc = .bcast → vc = .inv ∨ vc = .upd →
      Step cfg m s (.ofPoll (s.client.BcastPolls cfg) .broadcast) { s with client := s.client.forgeBcast cfg vc }
  | endBcasts : s.client.pc = .bcast → Step cfg m s .tau { s with client := { s.client with pc := .bcastRecvs true } }
  | postCreditRecvs (last : Bool) : s.client.pc = .bcastRecvs last →
      Step cfg m s .tau { s with client := s.client.postCreditRecvs last }
  | batchBcasts (last : Bool) : s.client.pc = .bcastSend last →
      Step cfg m s .tau { s with client := s.client.batchBcasts cfg m last }
  | beginAcks : s.client.pc = .idle → Step cfg m s .tau { s with client := { s.client with pc := .acks, acks := [] } }
  | forgeAck (j : Fin N) : s.client.pc = .acks → s.client.acks.length < cfg.bcastToCacheBatch →
      Step cfg m s (.ofPoll (s.client.AckPolls cfg) .broadcast) { s with client := s.client.forgeAck cfg j }
  | postAckRecvs : s.client.pc = .acks → Step cfg m s .tau { s with client := s.client.postAckRecvs }
  | sendAcks : s.client.pc = .acksSend → Step cfg m s .tau { s with client := s.client.sendAcks }
  | beginCredits : s.client.pc = .idle →
      Step cfg m s .tau { s with client := { s.client with pc := .credits, creditWrs := [] } }
  | forgeCredit : s.client.pc = .credits → s.client.creditWrs.length < cfg.maxCreditWrs →
      Step cfg m s (.ofPoll (s.client.CreditPolls cfg) .fc) { s with client := s.client.forgeCredit cfg }
  | sendCredits : s.client.pc = .credits → Step cfg m s .tau { s with client := s.client.sendCredits }
  /-- Another machine frees a message. -/
  | free (j : Fin N) (vc : Vc) : s.freed j vc < s.client.sent j vc →
      Step cfg m s .tau { s with
        freed := update s.freed j (update (s.freed j) vc (s.freed j vc + 1))
        peer := update s.peer j (forgeOne N j m (s.peer j) vc) }

/-- Nothing was forged or sent. Without inlining the flags are not set before they are used. -/
structure Posting.Init {N : ℕ} (cfg : PostConfig) (s : Posting N) : Prop where
  pc : s.client.pc = .idle
  brTx : s.client.brTx = 0
  bcasts : s.client.bcasts = []
  bcastSignaled : cfg.inlining → s.client.bcastSignaled = false
  creditRecvCounter : s.client.creditRecvCounter = 0
  sentAckTx : s.client.sentAckTx = 0
  acks : s.client.acks = []
  ackRecvCounter : s.client.ackRecvCounter = 0
  creditTx : s.client.creditTx = 0
  creditWrs : s.client.creditWrs = []
  recvs : s.client.recvs = 0
  sent : ∀ j vc, s.client.sent j vc = 0
  signaled : ∀ qp, s.client.signaled qp = 0
  completions : ∀ qp, s.client.completions qp = 0
  freed : ∀ j vc, s.freed j vc = 0
  peer : ∀ j, s.peer j = (fun _ _ => 0, [])

def posting {N : ℕ} (cfg : PostConfig) (m : Fin N) : Lts (Posting N) PostEvent := ⟨Posting.Init cfg, Posting.Step cfg m⟩

end CcKvs.Lin
