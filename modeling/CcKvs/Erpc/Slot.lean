/-
One slot of a session: what holds between its two ends and of its packets,
and that each thing an end can do to the slot keeps it.

A slot makes one call after the other. What the application sees of it should
be a perfect channel: each request is handled once and answered once, and the
bytes arrive as they were sent. The reason is in the numbers. A packet is
told from all others of its slot by its request number and its packet number,
each end takes in the packets of a request in the order of their numbers only,
and the client starts the next request when it has the whole response.
-/
import CcKvs.Erpc.Server
import Mathlib

namespace CcKvs.Erpc

/-! ## The perfect channel -/

/-- Where a call stands. -/
inductive Phase
  | idle
  | called (r : Request)
  | handled (r : Request)
  | answered (r : Request) (m : Msg)

/-- One call after the other, numbered in steps of the request window. -/
inductive Perfect : ℕ × Phase → Event → ℕ × Phase → Prop
  | call (q : ℕ) (r : Request) : Perfect (q, .idle) (.call (q + sessionReqWindow) r) (q + sessionReqWindow, .called r)
  | handle (q : ℕ) (r : Request) : Perfect (q, .called r) (.handle q r.reqType r.msg.bytes) (q, .handled r)
  | respond (q : ℕ) (r : Request) (m : Msg) : Perfect (q, .handled r) (.respond q m) (q, .answered r m)
  | done (q : ℕ) (r : Request) (m : Msg) : Perfect (q, .answered r m) (.done q r.tag m.bytes) (q, .idle)

/-- The channel that slot `i` should be. -/
def perfect (i : ℕ) : Lts (ℕ × Phase) Event where
  init := (· = (i, .idle))
  step := Perfect

/-! ## What holds of a slot -/

def Request.pkts (D : ℕ) (r : Request) : ℕ := dataSizeToNumPkts D r.msg.size

def Msg.pkts (D : ℕ) (m : Msg) : ℕ := dataSizeToNumPkts D m.size

/-- The requests and the responses of a slot so far, by request number. -/
structure Calls where
  req : ℕ → Option Request
  resp : ℕ → Option Msg

def Calls.call (G : Calls) (q : ℕ) (r : Request) : Calls := { G with req := Function.update G.req q (some r) }

def Calls.answer (G : Calls) (q : ℕ) (m : Msg) : Calls := { G with resp := Function.update G.resp q (some m) }

namespace Calls

variable (G : Calls) {q q' : ℕ} (r : Request) (m : Msg)

@[simp] theorem call_req_self : (G.call q r).req q = some r := Function.update_self ..
@[simp] theorem call_resp : (G.call q r).resp = G.resp := rfl
@[simp] theorem answer_resp_self : (G.answer q m).resp q = some m := Function.update_self ..
@[simp] theorem answer_req : (G.answer q m).req = G.req := rfl

theorem call_req_of_ne (h : q' ≠ q) : (G.call q r).req q' = G.req q' := Function.update_of_ne h ..

theorem answer_resp_of_ne (h : q' ≠ q) : (G.answer q m).resp q' = G.resp q' := Function.update_of_ne h ..

end Calls

/-- The packets of a slot: posted to the server and waiting at the client, posted to the client
and waiting at the server. -/
structure Net where
  up : List Pkt
  batch : List Pkt
  down : List Pkt
  replies : List Pkt

/-- A packet for the server is a packet of a request, or asks for a packet of its response. -/
inductive UpPkt (D : ℕ) (G : Calls) : Pkt → Prop
  | req (q : ℕ) (r : Request) (n : ℕ) : G.req q = some r → n < r.pkts D → UpPkt D G ((r.buf q).pkt D n)
  | rfr (p : Pkt) (r : Request) (m : Msg) : p.pktType = .rfr → G.req p.reqNum = some r → G.resp p.reqNum = some m →
      r.pkts D ≤ p.pktNum → p.pktNum + 1 < r.pkts D + m.pkts D → UpPkt D G p

/-- A packet for the client is a packet of a response, or returns a credit for a request packet
that is not the last. -/
inductive DownPkt (D : ℕ) (G : Calls) : Pkt → Prop
  | resp (q : ℕ) (r : Request) (m : Msg) (n : ℕ) : G.req q = some r → G.resp q = some m → n < m.pkts D →
      DownPkt D G ((m.respBuf r.reqType (r.pkts D) q).pkt D n)
  | cr (p : Pkt) (r : Request) : p.pktType = .explCr → G.req p.reqNum = some r → p.pktNum + 1 < r.pkts D → DownPkt D G p

/-- How the request numbers of the two ends are related. The server is at the client's request or
still at the one before, and then it has answered that one. -/
structure Numbers (G : Calls) (i cur : ℕ) (tx : Option MsgBuffer) (vcur : ℕ) (buried : Bool) : Prop where
  slot : cur % sessionReqWindow = i
  close : vcur = cur ∨ vcur + sessionReqWindow = cur ∧ tx.isSome
  settled : tx = none ∨ vcur + sessionReqWindow = cur → buried = true
  called : ∀ {q r}, G.req q = some r →
    q % sessionReqWindow = i ∧ sessionReqWindow ≤ q ∧ q ≤ cur ∧ r.reqType ≠ invalidReqType
  answered : ∀ {q m}, G.resp q = some m → q ≤ vcur ∧ (G.req q).isSome

/-- How far the current request has come at the client: packets of the request are on their
way, or the first packet of the response is there. -/
inductive Stage (D : ℕ) (G : Calls) (cur numTx numRx : ℕ) (resp : MsgBuffer) (r : Request) : Prop
  | sending : numRx < r.pkts D → numTx ≤ r.pkts D → Stage D G cur numTx numRx resp r
  | receiving (m : Msg) : G.resp cur = some m → r.pkts D ≤ numRx → numRx + 1 < r.pkts D + m.pkts D →
      numTx + 1 ≤ r.pkts D + m.pkts D → resp.size = m.size → resp.reqNum = cur →
      Chunks.Filled D (numRx + 1 - r.pkts D) m.size resp.data m.data → Stage D G cur numTx numRx resp r

/-- The response packets `n` of request `q` with `P n` have been posted to the client. -/
def Posted (down : List Pkt) (q : ℕ) (P : ℕ → Prop) : Prop :=
  ∀ n, P n → ∃ p ∈ down, p.pktType = .resp ∧ p.reqNum = q ∧ p.pktNum = n

/-- A client slot with a request in it. -/
structure Busy (D : ℕ) (G : Calls) (down : List Pkt) (x : ClientSlot) (r : Request) : Prop where
  known : G.req x.curReqNum = some r
  buf : x.txMsgbuf = some (r.buf x.curReqNum)
  tag : x.tag = r.tag
  le : x.numRx ≤ x.numTx
  window : x.numTx ≤ x.numRx + sessionCredits
  stage : Stage D G x.curReqNum x.numTx x.numRx x.respMsgbuf r
  receipts : Posted down x.curReqNum fun n => r.pkts D ≤ n + 1 ∧ n < x.numRx
  wheel : ∀ n ∈ x.wheel, x.numRx ≤ n ∧ n < x.numTx ∧ n < r.pkts D

structure ClientOk (D : ℕ) (G : Calls) (down : List Pkt) (x : ClientSlot) : Prop where
  nodup : x.wheel.Nodup
  count : x.wheelCount = x.wheel.length
  bits : ∀ j, x.inWheel j = true ↔ ∃ n ∈ x.wheel, n % sessionCredits = j
  idle : x.txMsgbuf = none → x.numTx = x.numRx ∧ x.wheel = []
  busy : x.txMsgbuf.isSome → ∃ r, Busy D G down x r
  finished : ∀ {q r}, G.req q = some r → q < x.curReqNum ∨ x.txMsgbuf = none →
    ∃ m, G.resp q = some m ∧ Posted down q fun n => r.pkts D ≤ n + 1 ∧ n + 1 < r.pkts D + m.pkts D

/-- Where the server stands with the last request it has seen. -/
inductive ServerOk (D : ℕ) (G : Calls) (i : ℕ) (v : ServerSlot) : Prop
  | fresh : v.curReqNum = i → v.txMsgbuf = none → v.reqBuried = true → v.reqType = invalidReqType → ServerOk D G i v
  | storing (r : Request) : G.req v.curReqNum = some r → G.resp v.curReqNum = none → v.txMsgbuf = none →
      v.reqBuried = false → v.reqType = invalidReqType → 0 < v.numRx → v.numRx < r.pkts D →
      v.reqMsgbuf.size = r.msg.size → Chunks.Filled D v.numRx r.msg.size v.reqMsgbuf.data r.msg.data → ServerOk D G i v
  | handling (r : Request) : G.req v.curReqNum = some r → G.resp v.curReqNum = none → v.txMsgbuf = none →
      v.reqBuried = false → v.reqType = r.reqType → v.numRx = r.pkts D → v.reqMsgbuf.size = r.msg.size → ServerOk D G i v
  | answered (r : Request) (m : Msg) : G.req v.curReqNum = some r → G.resp v.curReqNum = some m →
      v.txMsgbuf = some (m.respBuf r.reqType (r.pkts D) v.curReqNum) → v.reqBuried = true → v.reqType = invalidReqType →
      r.pkts D ≤ v.numRx → v.numRx + 1 ≤ r.pkts D + m.pkts D → v.savNumReqPkts = r.pkts D → ServerOk D G i v

/-- The packets for the server. What waits in the client's batch is of the current request and
was never posted before, so there is no answer to it yet. -/
structure UpOk (D : ℕ) (G : Calls) (cur : ℕ) (tx : Option MsgBuffer) (numTx numRx : ℕ) (wheel : List ℕ)
    (up batch : List Pkt) : Prop where
  content : ∀ p, p ∈ up ∨ p ∈ batch → UpPkt D G p
  below : ∀ p, p ∈ up ∨ p ∈ batch → p.reqNum = cur → p.pktNum < numTx
  current : ∀ p ∈ batch, p.reqNum = cur ∧ tx.isSome ∧ numRx ≤ p.pktNum ∧ p.pktNum ∉ wheel
  unposted : ∀ p ∈ batch, ∀ p' ∈ up, p'.reqNum = cur → p'.pktNum ≠ p.pktNum
  nodup : (batch.map Pkt.pktNum).Nodup

/-- The packets for the client: each answers a packet that was posted, and a response packet that
waits in the server's batch is of the response the slot holds and was never posted before. -/
structure DownOk (D : ℕ) (G : Calls) (vcur numRx : ℕ) (up down replies : List Pkt) : Prop where
  content : ∀ p, p ∈ down ∨ p ∈ replies → DownPkt D G p
  cause : ∀ p, p ∈ down ∨ p ∈ replies → ∃ p' ∈ up, p'.reqNum = p.reqNum ∧ p'.pktNum = p.pktNum
  heard : ∀ n < numRx, ∃ p' ∈ up, p'.reqNum = vcur ∧ p'.pktNum = n
  below : ∀ p, p ∈ down ∨ p ∈ replies → p.pktType = .resp → p.reqNum = vcur → p.pktNum < numRx
  current : ∀ p ∈ replies, p.pktType = .resp → p.reqNum = vcur
  unposted : ∀ p ∈ replies, p.pktType = .resp → ∀ p' ∈ down, p'.pktType = .resp → p'.reqNum = vcur →
    p'.pktNum ≠ p.pktNum
  distinct : replies.Pairwise fun p p' => p.pktType = .resp → p'.pktType = .resp → p.pktNum ≠ p'.pktNum

/-- The phase of the slot's current call. -/
inductive InPhase (G : Calls) (cur : ℕ) (tx : Option MsgBuffer) (vcur : ℕ) (reqType : UInt8) : Phase → Prop
  | idle : tx = none → InPhase G cur tx vcur reqType .idle
  | called (r : Request) : tx.isSome → G.req cur = some r → G.resp cur = none → (vcur = cur → reqType = invalidReqType) →
      InPhase G cur tx vcur reqType (.called r)
  | handled (r : Request) : tx.isSome → G.req cur = some r → G.resp cur = none → vcur = cur → reqType ≠ invalidReqType →
      InPhase G cur tx vcur reqType (.handled r)
  | answered (r : Request) (m : Msg) : tx.isSome → G.req cur = some r → G.resp cur = some m →
      InPhase G cur tx vcur reqType (.answered r m)

/-- The calls of a slot so far, as its application has seen them, are calls over the perfect
channel. -/
def Lived (G : Calls) (i cur : ℕ) (tx : Option MsgBuffer) (vcur : ℕ) (reqType : UInt8) (log : List Event) : Prop :=
  ∃ ph, InPhase G cur tx vcur reqType ph ∧ (perfect i).Run (i, .idle) log (cur, ph)

structure SlotInv (D : ℕ) (G : Calls) (net : Net) (i : ℕ) (x : ClientSlot) (v : ServerSlot) (log : List Event) : Prop where
  numbers : Numbers G i x.curReqNum x.txMsgbuf v.curReqNum v.reqBuried
  client : ClientOk D G net.down x
  server : ServerOk D G i v
  up : UpOk D G x.curReqNum x.txMsgbuf x.numTx x.numRx x.wheel net.up net.batch
  down : DownOk D G v.curReqNum v.numRx net.up net.down net.replies
  lived : Lived G i x.curReqNum x.txMsgbuf v.curReqNum v.reqType log

end CcKvs.Erpc
