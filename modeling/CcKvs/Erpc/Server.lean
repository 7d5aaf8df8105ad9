/-
The server end of an eRPC session, and the session as a whole: two ends and a
network that may lose a packet, deliver it late and deliver it again.

The network is the collection of all packets ever posted to it, in each
direction. A packet in it can be received at any time and any number of times,
or never.
-/
import CcKvs.Erpc.Client
import Mathlib

namespace CcKvs.Erpc

/-- `SSlot` at a server. `reqBuried` is `req_msgbuf.is_buried()`. -/
structure ServerSlot where
  txMsgbuf : Option MsgBuffer
  curReqNum : ℕ
  reqMsgbuf : MsgBuffer
  reqBuried : Bool
  reqType : UInt8
  numRx : ℕ
  savNumReqPkts : ℕ

structure Server where
  txBatch : List Pkt
  slots : ℕ → ServerSlot

namespace Server

def setSlot (s : Server) (i : ℕ) (v : ServerSlot) : Server := { s with slots := Function.update s.slots i v }

def post (s : Server) (pkt : Pkt) : Server := { s with txBatch := s.txBatch ++ [pkt] }

@[simp] theorem setSlot_slots (s : Server) (i : ℕ) (v : ServerSlot) : (s.setSlot i v).slots = Function.update s.slots i v := rfl
@[simp] theorem setSlot_txBatch (s : Server) (i : ℕ) (v : ServerSlot) : (s.setSlot i v).txBatch = s.txBatch := rfl
@[simp] theorem post_slots (s : Server) (pkt : Pkt) : (s.post pkt).slots = s.slots := rfl
@[simp] theorem post_txBatch (s : Server) (pkt : Pkt) : (s.post pkt).txBatch = s.txBatch ++ [pkt] := rfl

end Server

/-- What the server makes of a packet: its new state, whether it drains its TX batch at once,
and what the application sees. -/
structure Outcome where
  server : Server
  drain : Bool
  events : List Event

/-- The packet of `enqueue_cr_st`; it is a header only. -/
def crPkt (pkt : Pkt) : Pkt := ⟨pkt.reqType, 0, .explCr, pkt.pktNum, pkt.reqNum, fun _ => 0⟩

/-- The slot with the previous response buried and the first packet of a new request counted. -/
def ServerSlot.begin (v : ServerSlot) (pkt : Pkt) : ServerSlot :=
  { v with txMsgbuf := none, curReqNum := pkt.reqNum, numRx := 1 }

/-- The slot with one more packet of its request counted. -/
def ServerSlot.count (v : ServerSlot) : ServerSlot := { v with numRx := v.numRx + 1 }

/-- The request buffer a packet starts: for one packet the packet itself, else a new buffer
with the packet's header. -/
def Pkt.buffer (pkt : Pkt) (data : Bytes) : MsgBuffer :=
  ⟨pkt.reqType, pkt.pktType, pkt.pktNum, pkt.reqNum, pkt.msgSize, data⟩

/-- `process_small_req_st`. -/
def processSmallReq (D : ℕ) (i : ℕ) (pkt : Pkt) (s : Server) : Except Fault Outcome :=
  let v := s.slots i
  if pkt.reqNum ≤ v.curReqNum then
    if pkt.reqNum < v.curReqNum then .ok ⟨s, false, []⟩
    else
      match v.txMsgbuf with
      | some b => .ok ⟨s.post (b.pkt D 0), true, []⟩
      | none => .ok ⟨s, false, []⟩
  else if pkt.reqNum ≠ v.curReqNum + sessionReqWindow then .error .reqNumGap
  else if v.reqBuried = false then .error .reqNotBuried
  else if v.reqType ≠ invalidReqType then .error .respPending
  else
    let v' := { v.begin pkt with reqType := pkt.reqType, reqMsgbuf := pkt.buffer pkt.data, reqBuried := false }
    .ok ⟨s.setSlot i v', false, [.handle pkt.reqNum pkt.reqType (pkt.data.toList pkt.msgSize)]⟩

/-- `process_large_req_one_st` for a packet that is not the next one. -/
def reorderedLargeReq (D : ℕ) (i : ℕ) (pkt : Pkt) (s : Server) : Outcome :=
  let v := s.slots i
  if pkt.reqNum ≠ v.curReqNum ∨ v.numRx < pkt.pktNum then ⟨s, false, []⟩
  else if pkt.pktNum ≠ dataSizeToNumPkts D pkt.msgSize - 1 then ⟨s.post (crPkt pkt), false, []⟩
  else
    match v.txMsgbuf with
    | some b => ⟨s.post (b.pkt D 0), true, []⟩
    | none => ⟨s, false, []⟩

/-- `process_large_req_one_st` for the next packet, the slot being ready for its data. -/
def storeLargeReq (D : ℕ) (i : ℕ) (pkt : Pkt) (v : ServerSlot) (s : Server) : Except Fault Outcome :=
  let s' := if pkt.pktNum ≠ v.reqMsgbuf.numPkts D - 1 then s.post (crPkt pkt) else s
  let v' := { v with reqMsgbuf := copyDataToMsgbuf D v.reqMsgbuf pkt.pktNum pkt }
  if v.numRx ≠ v.reqMsgbuf.numPkts D then .ok ⟨s'.setSlot i v', false, []⟩
  else if v.reqType ≠ invalidReqType then .error .respPending
  else .ok ⟨s'.setSlot i { v' with reqType := pkt.reqType }, false, [.handle pkt.reqNum pkt.reqType v'.reqMsgbuf.bytes]⟩

/-- `process_large_req_one_st`. A new request buffer holds what the allocator left there. -/
def processLargeReqOne (D : ℕ) (fresh : Bytes) (i : ℕ) (pkt : Pkt) (s : Server) : Except Fault Outcome :=
  let v := s.slots i
  if pkt.reqNum = v.curReqNum ∧ pkt.pktNum = v.numRx ∨
      pkt.reqNum = v.curReqNum + sessionReqWindow ∧ pkt.pktNum = 0 then
    if pkt.pktNum = 0 then
      if v.reqBuried = false then .error .reqNotBuried
      else storeLargeReq D i pkt { v.begin pkt with reqMsgbuf := pkt.buffer fresh, reqBuried := false } s
    else storeLargeReq D i pkt v.count s
  else .ok (reorderedLargeReq D i pkt s)

/-- The response's buffer with the headers that `enqueue_response` fills in. -/
def Msg.respBuf (m : Msg) (reqType : UInt8) (numReqPkts reqNum : ℕ) : MsgBuffer :=
  ⟨reqType, .resp, numReqPkts - 1, reqNum, m.size, m.data⟩

/-- `enqueue_response`. -/
def enqueueResponse (D : ℕ) (i : ℕ) (m : Msg) (s : Server) : Except Fault Outcome :=
  let v := s.slots i
  if v.txMsgbuf.isSome then .error .respNotBuried
  else if v.reqType = invalidReqType then .error .noRespPending
  else
    let b := m.respBuf v.reqType (v.reqMsgbuf.numPkts D) v.curReqNum
    let v' := { v with
      savNumReqPkts := v.reqMsgbuf.numPkts D, reqBuried := true, txMsgbuf := some b, reqType := invalidReqType }
    .ok ⟨(s.setSlot i v').post (b.pkt D 0), false, [.respond v.curReqNum m]⟩

/-- `process_rfr_st`. -/
def processRfr (D : ℕ) (i : ℕ) (pkt : Pkt) (s : Server) : Except Fault Outcome :=
  let v := s.slots i
  if v.curReqNum < pkt.reqNum then .error .futureReqNum
  else if pkt.reqNum = v.curReqNum ∧ pkt.pktNum = v.numRx then
    match v.txMsgbuf with
    | none => .error .nullMsgbuf
    | some b =>
      .ok ⟨(s.setSlot i v.count).post (b.pkt D (respNtoi pkt.pktNum v.savNumReqPkts)), false, []⟩
  else if pkt.reqNum < v.curReqNum ∨ v.numRx < pkt.pktNum then .ok ⟨s, false, []⟩
  else
    match v.txMsgbuf with
    | none => .error .nullMsgbuf
    | some b => .ok ⟨s.post (b.pkt D (respNtoi pkt.pktNum v.savNumReqPkts)), true, []⟩

/-- `process_comps_st` at the server, for one packet. -/
def serverComp (D : ℕ) (fresh : Bytes) (pkt : Pkt) (s : Server) : Except Fault Outcome :=
  let i := pkt.reqNum % sessionReqWindow
  match pkt.pktType with
  | .req => if pkt.msgSize ≤ D then processSmallReq D i pkt s else processLargeReqOne D fresh i pkt s
  | .rfr => processRfr D i pkt s
  | .explCr => .error .wrongEnd
  | .resp => .error .wrongEnd

/-- `process_comps_st` at the client, for one packet. -/
def clientComp (D : ℕ) (u : Bool) (pkt : Pkt) (s : Client) : Except Fault (Client × List Event) :=
  let i := pkt.reqNum % sessionReqWindow
  match pkt.pktType with
  | .resp => processRespOne D u i pkt s
  | .explCr => (processExplCr D u i pkt s).map fun t => (t, [])
  | .req => .error .wrongEnd
  | .rfr => .error .wrongEnd

/-- A server end of a session just connected. -/
def Server.initial (buf : MsgBuffer) : Server where
  txBatch := []
  slots i := ⟨none, i, buf, true, invalidReqType, 0, 0⟩

/-- A session: its two ends, and the packets posted towards the server and towards the client. -/
structure Sys where
  client : Client
  server : Server
  up : List Pkt
  down : List Pkt

namespace Sys

/-- `do_tx_burst_st` at the client, after the call that left it in the state `c`. -/
def clientBurst (s : Sys) (c : Client) : Sys :=
  { s with client := { c with txBatch := [] }, up := s.up ++ c.txBatch }

/-- The server after it handled a packet or a response. -/
def serverDid (s : Sys) (o : Outcome) : Sys :=
  if o.drain then { s with server := { o.server with txBatch := [] }, down := s.down ++ o.server.txBatch }
  else { s with server := o.server }

end Sys

/-- One step of a session. The batch of an end is posted when it is full, at the end of an
iteration of the event loop, and at once after a retransmission; nothing else happens at the
client between reaping the wheel and posting what was reaped. -/
inductive Step (D : ℕ) : Sys → List Event → Sys → Prop
  | enqueue (u : Bool) (r : Request) : r.reqType ≠ invalidReqType → enqueueRequest D u r s.client = .ok (c, es) →
      Step D s es { s with client := c }
  | clientRecv (u : Bool) : pkt ∈ s.down → clientComp D u pkt s.client = .ok (c, es) →
      Step D s es { s with client := c }
  | stallQueue (u : Bool) : processCreditStallQueue D u s.client = .ok c → Step D s [] { s with client := c }
  | reap (i n : ℕ) : i < sessionReqWindow → n ∈ (s.client.slots i).wheel → reapOne D i n s.client = .ok c →
      Step D s [] (s.clientBurst c)
  | retransmit (u : Bool) (i : ℕ) : i < sessionReqWindow → (s.client.slots i).txMsgbuf.isSome →
      pktLossRetransmit D u i s.client = .ok c → Step D s [] (s.clientBurst c)
  | clientBurst (n : ℕ) :
      Step D s []
        { s with client := { s.client with txBatch := s.client.txBatch.drop n }, up := s.up ++ s.client.txBatch.take n }
  | serverRecv (fresh : Bytes) : pkt ∈ s.up → serverComp D fresh pkt s.server = .ok o → Step D s o.events (s.serverDid o)
  | respond (i : ℕ) (m : Msg) : i < sessionReqWindow → (s.server.slots i).reqType ≠ invalidReqType →
      enqueueResponse D i m s.server = .ok o → Step D s o.events (s.serverDid o)
  | serverBurst (n : ℕ) :
      Step D s []
        { s with server := { s.server with txBatch := s.server.txBatch.drop n }, down := s.down ++ s.server.txBatch.take n }

/-- The fields of a packet header are as wide as `pkthdr_t` makes them. -/
def Pkt.Fits (p : Pkt) : Prop := p.msgSize < 2 ^ 24 ∧ p.reqNum < 2 ^ 44 ∧ p.pktNum < 2 ^ 14

def Sys.Fits (s : Sys) : Prop :=
  (∀ p ∈ s.up, p.Fits) ∧ (∀ p ∈ s.client.txBatch, p.Fits) ∧ (∀ p ∈ s.down, p.Fits) ∧ ∀ p ∈ s.server.txBatch, p.Fits

/-- A session with packets of `D` bytes of data, over the steps in which no header field
overflows. -/
def system (D : ℕ) : Lts Sys (List Event) :=
  Lts.restrict
    { init := fun s => ∃ cbuf sbuf, s = ⟨.initial cbuf, .initial sbuf, [], []⟩
      step := Step D }
    fun _ _ s' => s'.Fits

end CcKvs.Erpc
