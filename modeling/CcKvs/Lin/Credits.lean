/-
Flow control of the linearizable protocol (`inline_util.h`), one client thread
on each machine. A machine has credits for every other machine on each of three
channels (ACK, INV, UPD) and spends one on every message. The receiver counts a
message's room as free in `coh_message_count`

  for an UPD when the cache has seen it, for an INV that failed likewise,
  for an INV that succeeded when its ACK is sent,
  for an ACK when it was not the last one, and else when the UPD is sent,

and `forge_credits_LIN` returns `CREDITS_IN_MESSAGE` credits at a time.

Each round of a loop is a step of its own, in any order and interleaved with
those of the other machines; so are the credit polls. What the cache answers is
the answer of the cache function for any content of the cache.
-/
import CcKvs.Lin.Client

namespace CcKvs.Lin

open Function

/-- `ACK_VC`, `INV_VC`, `UPD_VC` -/
inductive Vc
  | ack
  | inv
  | upd
  deriving DecidableEq, Repr

def creditsForEachClient : ℕ := 60

/-- `CREDITS_IN_MESSAGE`: `CREDITS_FOR_EACH_CLIENT / LIN_CREDIT_DIVIDER`. -/
def creditsInMessage : ℕ := creditsForEachClient / 2

/-- What a client has to do with flow control. Tables by channel and machine are functions. -/
structure Node where
  client : Client
  /-- INVs polled, and those the cache has answered: `inv_ops` with `inv_resp`. -/
  invOps : List CacheOp
  invServed : List (CacheOp × RespType)
  /-- INVs that succeeded, marked `CACHE_OP_BRC`, whose ACK is not sent yet. -/
  invToSendOps : ℕ → CacheOp
  invPushPtr : ℕ
  invSize : ℕ
  cohMessageCount : Vc → ℕ → ℕ
  credits : Vc → ℕ → UInt8
  /-- `acks_seen`, `invs_seen` and `upds_seen`. -/
  seen : Vc → ℕ → ℕ

/-- The entry for `vc` and machine `i`, plus one. -/
def bump (t : Vc → ℕ → ℕ) (vc : Vc) (i : ℕ) : Vc → ℕ → ℕ := update t vc (update (t vc) i (t vc i + 1))

namespace Node

variable (n : Node)

/-- The loop of `poll_coherence_LIN` goes on. -/
def CanPoll : Prop := n.invServed = [] ∧ n.client.served = 0 ∧ n.client.updateOpsI + n.invOps.length < bcastToCacheBatch

/-- One round of `updates_and_acks_bookkeeping`. -/
def updatesAndAcksBookkeeping (valLen : UInt8) : Except Fault Node := do
  let op := n.client.updateOps n.client.kept
  let c ← n.client.bookkeeping valLen
  .ok { n with
    client := c
    cohMessageCount :=
      if op.opcode = .upd then bump n.cohMessageCount .upd op.keyMeta.cid.toNat
      else if (n.client.updateResp n.client.kept).type = .lastAckSuccess then n.cohMessageCount
      else bump n.cohMessageCount .ack op.keyMeta.cid.toNat }

/-- The first slot from `inv_push_ptr` on that is not marked; with all of them marked the pointer
stays. -/
def invSlot : ℕ :=
  match (List.range bcastToCacheBatch).find? fun i => (n.invToSendOps ((n.invPushPtr + i) % bcastToCacheBatch)).opcode ≠ .brc with
  | some i => (n.invPushPtr + i) % bcastToCacheBatch
  | none => n.invPushPtr

/-- One round of `invs_bookkeeping`. -/
def invsBookkeeping (op : CacheOp) (type : RespType) : Node :=
  if type ≠ .invSuccess then { n with cohMessageCount := bump n.cohMessageCount .inv op.keyMeta.cid.toNat }
  else { n with
    invToSendOps := update n.invToSendOps n.invSlot { op with opcode := .brc }
    invPushPtr := n.invSlot
    invSize := n.invSize + 1 }

/-- `check_broadcast_credits` -/
def EnoughCredits {N : ℕ} (m : Fin N) (vc : Vc) : Prop := ∀ j : Fin N, j ≠ m → n.credits vc j ≠ 0

/-- A broadcast takes a credit for every machine, the own one too. -/
def spendAll (machineNum : ℕ) (vc : Vc) : Node :=
  { n with credits := update n.credits vc fun j => if j < machineNum then n.credits vc j - 1 else n.credits vc j }

/-- `forge_bcast_wrs_LIN` for an UPD: the room of the last ACK is free. -/
def forgeUpd {N : ℕ} (m : Fin N) : Node :=
  { n with
    client := n.client.forgeUpd m
    cohMessageCount := bump n.cohMessageCount .ack (n.client.ackBcastOps n.client.ackPopPtr).keyMeta.cid.toNat }

/-- One round of `send_acks`, for a slot that is marked. -/
def sendAck {N : ℕ} (m : Fin N) (i : ℕ) : Node :=
  let op := n.invToSendOps i
  let cid := op.keyMeta.cid.toNat
  { n with
    credits := update n.credits .ack (update (n.credits .ack) cid (n.credits .ack cid - 1))
    cohMessageCount := bump n.cohMessageCount .inv cid
    invToSendOps := update n.invToSendOps i (outgoing m .ack op)
    invSize := n.invSize - 1 }

end Node

/-! ## Credit messages -/

/-- `imm_data` of a credit message from machine `m`. -/
def immData (machineNum m : ℕ) : Vc → ℕ
  | .ack => m
  | .inv => m + machineNum
  | .upd => m + 2 * machineNum

/-- What `poll_credits_LIN` reads from `imm_data`: the channel and the machine the credits are for. -/
def ofImmData (machineNum imm : ℕ) : Vc × ℕ :=
  if imm ≥ 2 * machineNum then (.upd, imm - 2 * machineNum)
  else if imm ≥ machineNum then (.inv, imm - machineNum)
  else (.ack, imm)

/-- The counters of messages seen, and the credit messages forged: addressee and `imm_data`. -/
abbrev Forged := (Vc → ℕ → ℕ) × List (ℕ × ℕ)

/-- One message of `rm`'s on channel `vc` has been seen. -/
def forgeOne (machineNum m rm : ℕ) (x : Forged) (vc : Vc) : Forged :=
  let seen := bump x.1 vc rm
  if seen .ack rm = creditsInMessage ∨ seen .inv rm = creditsInMessage ∨ seen .upd rm = creditsInMessage then
    (update seen vc (update (seen vc) rm 0), x.2 ++ [(rm, immData machineNum m vc)])
  else (seen, x.2)

/-- The channel of the `i`-th message counted for a machine: ACKs come first, then INVs. -/
def channelOf (count : Vc → ℕ) (i : ℕ) : Vc :=
  if i < count .ack then .ack else if i < count .inv + count .ack then .inv else .upd

/-- The loops of `forge_credits_LIN`. -/
def forgeCredits (machineNum m : ℕ) (count : Vc → ℕ → ℕ) (seen : Vc → ℕ → ℕ) : Forged :=
  (List.range machineNum).foldl (fun x rm =>
    (List.range (count .ack rm + count .inv rm + count .upd rm)).foldl
      (fun x i => forgeOne machineNum m rm x (channelOf (count · rm) i)) x) (seen, [])

/-- The credits of a message that has arrived. -/
def Node.receiveCredits (machineNum : ℕ) (n : Node) (imm : ℕ) : Node :=
  let (vc, j) := ofImmData machineNum imm
  { n with credits := update n.credits vc (update (n.credits vc) j (n.credits vc j + .ofNat creditsInMessage)) }

/-- `coh_message_count` is cleared before it is used again. -/
def Node.sendCredits (n : Node) (x : Forged) : Node := { n with seen := x.1, cohMessageCount := fun _ _ => 0 }

/-! ## The machines -/

structure Flow (N : ℕ) where
  node : Fin N → Node
  /-- Messages in flight: the number of the machine addressed, and the operation carried. -/
  net : Multiset (ℕ × CacheOp)
  /-- Credit messages in flight: the machine addressed, and `imm_data`. -/
  creditNet : Multiset (ℕ × ℕ)

/-- A message is received, with its channel and the machine in its `cid`; credit messages are
sent; or anything else. -/
inductive FlowEvent (N : ℕ)
  | receive (d : Fin N) (vc : Vc) (s : ℕ)
  | credits (m : Fin N) (msgs : List (ℕ × ℕ))
  | tau

def Flow.setNode {N : ℕ} (f : Flow N) (m : Fin N) (n : Node) : Flow N := { f with node := update f.node m n }

/-- The channel of a message. -/
def Vc.ofOpcode : Opcode → Option Vc
  | .ack => some .ack
  | .inv => some .inv
  | .upd => some .upd
  | _ => none

inductive Flow.Step {N : ℕ} (valLen : UInt8) : Flow N → FlowEvent N → Flow N → Prop
  | bcastInv (m : Fin N) (op : CacheOp) : (f.node m).EnoughCredits m .inv →
      Step valLen f .tau { f.setNode m ((f.node m).spendAll N .inv) with net := toOthers m (outgoing m .inv op) + f.net }
  | bcastUpd (m : Fin N) : 0 < (f.node m).client.ackSize → (f.node m).EnoughCredits m .upd →
      Step valLen f .tau
        { f.setNode m (((f.node m).forgeUpd m).spendAll N .upd) with
          net := toOthers m ((f.node m).client.nextUpd m) + f.net }
  | pollUpdate (d : Fin N) (op : CacheOp) (vc : Vc) (r) : f.net = (d.val, op) ::ₘ r →
      op.opcode = .upd ∨ op.opcode = .ack → Vc.ofOpcode op.opcode = some vc → op.keyMeta.cid.toNat < N →
      (f.node d).CanPoll → (f.node d).client.CanPoll →
      Step valLen f (.receive d vc op.keyMeta.cid.toNat)
        { f.setNode d { f.node d with client := (f.node d).client.pollCoherence valLen op } with net := r }
  | pollInv (d : Fin N) (op : CacheOp) (r) : f.net = (d.val, op) ::ₘ r → op.opcode = .inv →
      op.keyMeta.cid.toNat < N → (f.node d).CanPoll → (f.node d).invSize + (f.node d).invOps.length ≠ bcastToCacheBatch →
      Step valLen f (.receive d .inv op.keyMeta.cid.toNat)
        { f.setNode d { f.node d with invOps := (f.node d).invOps ++ [op] } with net := r }
  | serveUpdate (m : Fin N) (cache cache' : Cache) (op' : CacheOp) (resp' : MicaResp) :
      (f.node m).client.served < (f.node m).client.updateOpsI →
      cache.serve (linNonStallingSessionsWithCacheOp m) ((f.node m).client.updateOps (f.node m).client.served)
        ((f.node m).client.updateResp (f.node m).client.served) = .ok (cache', op', resp') →
      Step valLen f .tau (f.setNode m { f.node m with client := (f.node m).client.serve op' resp' })
  | keepUpdate (m : Fin N) (n : Node) : (f.node m).client.served = (f.node m).client.updateOpsI →
      (f.node m).client.kept < (f.node m).client.served → (f.node m).updatesAndAcksBookkeeping valLen = .ok n →
      Step valLen f .tau (f.setNode m n)
  | nextUpdates (m : Fin N) : (f.node m).client.kept = (f.node m).client.updateOpsI →
      Step valLen f .tau (f.setNode m { f.node m with
        client := { (f.node m).client with updateOpsI := 0, served := 0, kept := 0, ackOpsI := 0 } })
  | serveInv (m : Fin N) (cache cache' : Cache) (op op' : CacheOp) (resp resp' : MicaResp) (l) :
      (f.node m).invOps = op :: l →
      cache.serve (linNonStallingSessionsWithSmallCacheOp m) op resp = .ok (cache', op', resp') →
      Step valLen f .tau (f.setNode m { f.node m with
        invOps := l, invServed := (f.node m).invServed ++ [(op', resp'.type)] })
  | keepInv (m : Fin N) (op : CacheOp) (type : RespType) (l) : (f.node m).invOps = [] →
      (f.node m).invServed = (op, type) :: l →
      Step valLen f .tau (f.setNode m (Node.invsBookkeeping { f.node m with invServed := l } op type))
  | sendAck (m : Fin N) (i : ℕ) : i < bcastToCacheBatch → ((f.node m).invToSendOps i).opcode = .brc →
      (f.node m).credits .ack ((f.node m).invToSendOps i).keyMeta.cid.toNat ≠ 0 →
      Step valLen f .tau
        { f.setNode m ((f.node m).sendAck m i) with
          net := (((f.node m).invToSendOps i).keyMeta.cid.toNat, outgoing m .ack ((f.node m).invToSendOps i)) ::ₘ f.net }
  | sendCredits (m : Fin N) (x : Forged) : forgeCredits N m (f.node m).cohMessageCount (f.node m).seen = x →
      Step valLen f (.credits m x.2) { f.setNode m ((f.node m).sendCredits x) with creditNet := ↑x.2 + f.creditNet }
  | receiveCredits (d : Fin N) (imm : ℕ) (r) : f.creditNet = (d.val, imm) ::ₘ r →
      Step valLen f .tau { f.setNode d ((f.node d).receiveCredits N imm) with creditNet := r }

/-- Nothing is under way and every machine has all its credits; the buffers hold whatever
`malloc` returned, but that `inv_to_send_ops` is cleared. -/
structure Flow.Init {N : ℕ} (f : Flow N) : Prop where
  client : ∀ m, (f.node m).client.updateOpsI = 0 ∧ (f.node m).client.served = 0 ∧ (f.node m).client.kept = 0 ∧
    (f.node m).client.ackOpsI = 0 ∧ (f.node m).client.ackPushPtr = 0 ∧ (f.node m).client.ackPopPtr = 0 ∧
    (f.node m).client.ackSize = 0
  invOps : ∀ m, (f.node m).invOps = [] ∧ (f.node m).invServed = []
  invToSend : ∀ m i, ((f.node m).invToSendOps i).opcode ≠ .brc
  invSize : ∀ m, (f.node m).invSize = 0
  cohMessageCount : ∀ m vc s, (f.node m).cohMessageCount vc s = 0
  credits : ∀ m vc s, s < N → (f.node m).credits vc s = .ofNat creditsForEachClient
  seen : ∀ m vc s, (f.node m).seen vc s = 0
  net : f.net = 0
  creditNet : f.creditNet = 0

def flow (N : ℕ) (valLen : UInt8) : Lts (Flow N) (FlowEvent N) := ⟨Flow.Init, Flow.Step valLen⟩

end CcKvs.Lin
