/-
The queues of a linearizable client, over its whole loop (`inline_util.h`,
`client-lin.c`). INVs that succeeded wait for their ACK in `inv_to_send_ops`, a
pool in which the opcode `CACHE_OP_BRC` marks the slots in use and a pointer
remembers where the search for a free one begins. Writes whose last ACK is in
wait for their UPD in the ring `ack_bcast_ops`. Credits may be missing for as
long as they like: `poll_coherence_LIN` takes no more messages than the queues
can still hold.

Each call of the loop is a step. What it finds in the receive buffers, what the
cache answers, and what credits a poll brings is left open.

The ring's slots are not initialised, but the bookkeeping asserts of the slot
it is about to fill that its opcode is not `CACHE_OP_ACK`.
-/
import CcKvs.Lin.Held

namespace CcKvs

/-- The write an acknowledgement or an update is about. -/
def CacheOp.subject (op : CacheOp) : UInt64 × UInt32 := (op.key, op.keyMeta.version)

/-- The machine an operation names, and the write it is about. -/
def CacheOp.origin (op : CacheOp) : ℕ × UInt64 × UInt32 := (op.keyMeta.cid.toNat, op.subject)

namespace Lin

open Function

namespace Node

/-- The counters are cleared at the start of an iteration. -/
def fresh (n : Node) : Node :=
  { n with
    client := { n.client with updateOpsI := 0, served := 0, kept := 0, ackOpsI := 0 }
    invOps := []
    cohMessageCount := fun _ _ => 0 }

/-- `poll_coherence_LIN`, with the messages that lie behind `pull_ptr`. -/
def pollCoherenceLin (valLen : UInt8) : ℕ → List CacheOp → Node → Node
  | _, [], n => n
  | polledMessages, req :: reqs, n =>
    if polledMessages < bcastToCacheBatch then
      if req.opcode = .inv then
        if n.invSize + n.invOps.length = bcastToCacheBatch then n
        else pollCoherenceLin valLen (polledMessages + 1) reqs { n with invOps := n.invOps ++ [req] }
      else if n.client.ackSize + n.client.ackOpsI = bcastToCacheBatch then n
      else pollCoherenceLin valLen (polledMessages + 1) reqs { n with client := n.client.pollCoherence valLen req }
    else n

/-- The cache answers `k` updates or acknowledgements, which it does not change. -/
def serveUpdates (resps : ℕ → MicaResp) : ℕ → Node → Node
  | 0, n => n
  | k + 1, n =>
    serveUpdates resps k
      { n with client := n.client.serve (n.client.updateOps n.client.served) (resps n.client.served) }

/-- The acknowledgement that the bookkeeping is at, if it is the last one of its write. -/
def completes (n : Node) : List CacheOp :=
  if (n.client.updateOps n.client.kept).opcode ≠ .upd ∧ (n.client.updateResp n.client.kept).type = .lastAckSuccess then
    [n.client.updateOps n.client.kept]
  else []

/-- The loop of `updates_and_acks_bookkeeping`, with the last acknowledgements it meets. -/
def keepUpdates (valLen : UInt8) : ℕ → Node → Except Fault (Node × List CacheOp)
  | 0, n => .ok (n, [])
  | k + 1, n => do
    let n' ← n.updatesAndAcksBookkeeping valLen
    let (n', l) ← keepUpdates valLen k n'
    .ok (n', n.completes ++ l)

/-- The cache call for updates and acknowledgements, and their bookkeeping. -/
def updates (valLen : UInt8) (resps : ℕ → MicaResp) (n : Node) : Except Fault (Node × List CacheOp) :=
  keepUpdates valLen n.client.updateOpsI (n.serveUpdates resps n.client.updateOpsI)

/-- `printf("Something is wrong with the invalidation back pressure\n")`: no slot is free. -/
def invBackPressureWrong (n : Node) : Bool :=
  ((List.range bcastToCacheBatch).find? fun i =>
    (n.invToSendOps ((n.invPushPtr + i) % bcastToCacheBatch)).opcode ≠ .brc).isNone

/-- The loop of `invs_bookkeeping`, with the number of times it complains. -/
def keepInvs : List (CacheOp × RespType) → Node → Node × ℕ
  | [], n => (n, 0)
  | (op, type) :: l, n =>
    let (n', complaints) := keepInvs l ({ n with invServed := l }.invsBookkeeping op type)
    (n', complaints + if type = .invSuccess ∧ n.invBackPressureWrong then 1 else 0)

/-- What the cache leaves of an INV: it becomes an ACK unless its key is not cached. -/
def answered (type : RespType) (op : CacheOp) : CacheOp := if type = .miss then op else { op with opcode := .ack }

/-- The INVs with the answers of the cache. -/
def invAnswers (types : ℕ → RespType) (n : Node) : List (CacheOp × RespType) := n.invOps.mapIdx fun i op => (op, types i)

/-- The cache call for invalidations, and their bookkeeping. -/
def invs (types : ℕ → RespType) (n : Node) : Node × ℕ :=
  let served := (n.invAnswers types).map fun x => (answered x.2 x.1, x.2)
  keepInvs served { n with invOps := [], invServed := served }

/-- The INVs that the cache takes. -/
def taken (types : ℕ → RespType) (n : Node) : List CacheOp :=
  (n.invAnswers types).filterMap fun x => if x.2 = .invSuccess then some x.1 else none

/-- The credits of a channel after a poll. -/
def withCredits (n : Node) (vc : Vc) (t : ℕ → UInt8) : Node := { n with credits := update n.credits vc t }

/-- `ack_bcast_ops[*ack_pop_ptr].opcode = CACHE_OP_UPD`, before the credits are looked at. -/
def markHead (n : Node) : Node :=
  { n with client := { n.client with
      ackBcastOps := update n.client.ackBcastOps n.client.ackPopPtr
        { n.client.ackBcastOps n.client.ackPopPtr with opcode := .upd } } }

instance {N : ℕ} (n : Node) (m : Fin N) (vc : Vc) : Decidable (n.EnoughCredits m vc) :=
  inferInstanceAs (Decidable (∀ _, _))

/-- `perform_broadcasts_LIN` from the first update on, with the updates it sends. The source
takes their number off `ack_size` at the end. -/
def broadcastUpds {N : ℕ} (m : Fin N) (polls : ℕ → ℕ → UInt8) : ℕ → Node → Node × List CacheOp
  | 0, n => (n, [])
  | k + 1, n =>
    let n := n.markHead.withCredits .upd (polls k)
    if n.EnoughCredits m .upd then
      let (n', l) := broadcastUpds m polls k ((n.forgeUpd m).spendAll N .upd)
      (n', n.client.nextUpd m :: l)
    else (n, [])

/-- `send_acks` for the slots `is`, with the machines the ACKs go to. -/
def sendAcks {N : ℕ} (m : Fin N) (polls : ℕ → ℕ → UInt8) : List ℕ → Node → Node × List (ℕ × CacheOp)
  | [], n => (n, [])
  | i :: is, n =>
    if (n.invToSendOps i).opcode ≠ .brc then sendAcks m polls is n
    else
      let n := n.withCredits .ack (polls i)
      let cid := (n.invToSendOps i).keyMeta.cid.toNat
      if n.credits .ack cid = 0 then sendAcks m polls is n
      else
        let (n', l) := sendAcks m polls is (n.sendAck m i)
        (n', (cid, outgoing m .ack (n.invToSendOps i)) :: l)

end Node

/-- Where the loop is. -/
inductive LoopPhase
  | poll
  | updates
  | invs
  | broadcasts
  | acks
  deriving DecidableEq, Repr

structure ClientLoop where
  phase : LoopPhase
  node : Node

/-- A call of the loop with what it is given, and what it does for the queues. -/
inductive QueueCall
  | poll (reqs : List CacheOp)
  | updates (resps : ℕ → MicaResp) (completed : List CacheOp)
  | invs (types : ℕ → RespType) (taken : List CacheOp) (complaints : ℕ)
  | broadcasts (polls : ℕ → ℕ → UInt8) (sent : List CacheOp)
  | acks (polls : ℕ → ℕ → UInt8) (sent : List (ℕ × CacheOp))

namespace QueueCall

/-- Acknowledgements that were the last ones of their writes, in the order of the bookkeeping. -/
def completed : QueueCall → List CacheOp
  | updates _ l => l
  | _ => []

/-- INVs that the cache took. -/
def taken : QueueCall → List CacheOp
  | invs _ l _ => l
  | _ => []

/-- Updates broadcast, in their order. -/
def updated : QueueCall → List CacheOp
  | broadcasts _ l => l
  | _ => []

/-- ACKs, with the machines they are sent to. -/
def acked : QueueCall → List (ℕ × CacheOp)
  | acks _ l => l
  | _ => []

/-- How often no slot of the pool was found. -/
def complaints : QueueCall → ℕ
  | invs _ _ k => k
  | _ => 0

end QueueCall

/-- A message that `poll_coherence_LIN` accepts. -/
structure CoherenceMessage (N : ℕ) (req : CacheOp) : Prop where
  opcode : req.opcode = .upd ∨ req.opcode = .ack ∨ req.opcode = .inv
  cid : req.keyMeta.cid.toNat < N

inductive ClientLoop.Step {N : ℕ} (m : Fin N) (valLen : UInt8) : ClientLoop → QueueCall → ClientLoop → Prop
  | poll (reqs : List CacheOp) : (∀ req ∈ reqs, CoherenceMessage N req) →
      Step m valLen ⟨.poll, n⟩ (.poll reqs) ⟨.updates, n.fresh.pollCoherenceLin valLen 0 reqs⟩
  | updates (resps : ℕ → MicaResp) (l : List CacheOp) : n.updates valLen resps = .ok (n', l) →
      Step m valLen ⟨.updates, n⟩ (.updates resps l) ⟨.invs, n'⟩
  | invs (types : ℕ → RespType) :
      Step m valLen ⟨.invs, n⟩ (.invs types (n.taken types) (n.invs types).2) ⟨.broadcasts, (n.invs types).1⟩
  | broadcasts (polls : ℕ → ℕ → UInt8) :
      Step m valLen ⟨.broadcasts, n⟩ (.broadcasts polls (n.broadcastUpds m polls n.client.ackSize).2)
        ⟨.acks, (n.broadcastUpds m polls n.client.ackSize).1⟩
  | acks (polls : ℕ → ℕ → UInt8) : 0 < n.invSize →
      Step m valLen ⟨.acks, n⟩ (.acks polls (n.sendAcks m polls (List.range bcastToCacheBatch)).2)
        ⟨.poll, (n.sendAcks m polls (List.range bcastToCacheBatch)).1⟩
  | noAcks (polls : ℕ → ℕ → UInt8) : n.invSize = 0 → Step m valLen ⟨.acks, n⟩ (.acks polls []) ⟨.poll, n⟩

/-- A client before its first iteration: `setup_coh_ops` clears the pool's opcodes, and leaves
the ring as `malloc` returned it. -/
structure ClientLoop.Init (s : ClientLoop) : Prop where
  phase : s.phase = .poll
  counters : s.node.client.updateOpsI = 0 ∧ s.node.client.served = 0 ∧ s.node.client.kept = 0 ∧ s.node.client.ackOpsI = 0
  ring : s.node.client.ackPushPtr = 0 ∧ s.node.client.ackPopPtr = 0 ∧ s.node.client.ackSize = 0
  invOps : s.node.invOps = [] ∧ s.node.invServed = []
  invToSendOps : ∀ i, (s.node.invToSendOps i).opcode ≠ .brc
  invSize : s.node.invSize = 0
  seen : ∀ vc i, s.node.seen vc i = 0

def clientLoop {N : ℕ} (m : Fin N) (valLen : UInt8) : Lts ClientLoop QueueCall := ⟨ClientLoop.Init, ClientLoop.Step m valLen⟩

end Lin

end CcKvs
