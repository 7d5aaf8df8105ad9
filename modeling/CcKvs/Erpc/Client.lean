/-
The client end of an eRPC session: the slots of the session, the credits they
share, and what each call of the library and each packet does to them.

Sizes, counters and packet numbers are natural numbers; the runs considered
(`CcKvs.Erpc.system`) are those in which the packet headers can hold them.
Left out are what does not decide where a packet goes: time stamps, the rate
computed by congestion control (it appears as the answer `u` to the question
whether the session is uncongested), statistics, session management and the
hand-over between threads.
-/
import CcKvs.Lib.Chunks
import CcKvs.Lib.Lts
import Mathlib

namespace CcKvs.Erpc

/-- `kSessionCredits`. -/
def sessionCredits : ℕ := 32

/-- `kSessionReqWindow`. -/
def sessionReqWindow : ℕ := 8

/-- `kInvalidReqType`. -/
def invalidReqType : UInt8 := 255

/-- `data_size_to_num_pkts`, where a packet holds `D` bytes of data. -/
def dataSizeToNumPkts (D dataSize : ℕ) : ℕ := Chunks.count D dataSize

inductive PktType
  | req
  | rfr
  | explCr
  | resp
  deriving DecidableEq

/-- `pkthdr_t`, with the data that follows it. -/
structure Pkt where
  reqType : UInt8
  msgSize : ℕ
  pktType : PktType
  pktNum : ℕ
  reqNum : ℕ
  data : Bytes

/-- A `MsgBuffer` with its packet headers, which differ in their packet numbers only:
header `n` has the number of header 0 plus `n`. -/
structure MsgBuffer where
  reqType : UInt8
  pktType : PktType
  pktNum : ℕ
  reqNum : ℕ
  size : ℕ
  data : Bytes

def MsgBuffer.numPkts (D : ℕ) (b : MsgBuffer) : ℕ := dataSizeToNumPkts D b.size

/-- The packet with index `n` of a buffer. -/
def MsgBuffer.pkt (D : ℕ) (b : MsgBuffer) (n : ℕ) : Pkt :=
  ⟨b.reqType, b.size, b.pktType, b.pktNum + n, b.reqNum, b.data.drop (n * D)⟩

def MsgBuffer.bytes (b : MsgBuffer) : List UInt8 := b.data.toList b.size

/-- A message of the application. -/
structure Msg where
  size : ℕ
  data : Bytes

def Msg.bytes (m : Msg) : List UInt8 := m.data.toList m.size

/-- `enq_req_args_t`: a request, the buffer for its response, and the tag of its continuation. -/
structure Request where
  reqType : UInt8
  msg : Msg
  respBuf : MsgBuffer
  tag : ℕ

/-- The request's buffer with the headers that `enqueue_request` fills in. -/
def Request.buf (r : Request) (reqNum : ℕ) : MsgBuffer :=
  ⟨r.reqType, .req, 0, reqNum, r.msg.size, r.msg.data⟩

/-- `resp_ntoi`. -/
def respNtoi (pktNum numReqPkts : ℕ) : ℕ := pktNum - (numReqPkts - 1)

/-- `wire_pkts`. -/
def wirePkts (D : ℕ) (req resp : MsgBuffer) : ℕ := req.numPkts D + resp.numPkts D - 1

/-- `copy_data_to_msgbuf`. -/
def copyDataToMsgbuf (D : ℕ) (b : MsgBuffer) (pktIdx : ℕ) (pkt : Pkt) : MsgBuffer :=
  { b with data := b.data.write (pktIdx * D) pkt.data (min D (pkt.msgSize - pktIdx * D)) }

/-- The assertions of the datapath and its uses of a null buffer. -/
inductive Fault
  | nullMsgbuf
  | noCredits
  | creditsFull
  | slotBusy
  | rfrTooEarly
  | rfrTooLate
  | futureReqNum
  | stillInWheel
  | moreFreeSlots
  | stalled
  | reqNumGap
  | reqNotBuried
  | respPending
  | noRespPending
  | respNotBuried
  | wrongEnd

/-- What an application sees of a call: it gets its request number; the handler runs; the
handler's response is handed over; the response is complete and the continuation due. -/
inductive Event
  | call (reqNum : ℕ) (r : Request)
  | handle (reqNum : ℕ) (reqType : UInt8) (bytes : List UInt8)
  | respond (reqNum : ℕ) (m : Msg)
  | done (reqNum tag : ℕ) (bytes : List UInt8)

def Event.reqNum : Event → ℕ
  | .call q _ => q
  | .handle q _ _ => q
  | .respond q _ => q
  | .done q _ _ => q

/-- `SSlot` at a client; `wheel` are the entries that the timing wheel has for this slot. -/
structure ClientSlot where
  txMsgbuf : Option MsgBuffer
  curReqNum : ℕ
  respMsgbuf : MsgBuffer
  tag : ℕ
  numTx : ℕ
  numRx : ℕ
  inWheel : ℕ → Bool
  wheelCount : ℕ
  wheel : List ℕ

/-- The client's part of a `Session`, with the queues of its `Rpc`. The head of `freeVec` is
the back of `sslot_free_vec`. -/
structure Client where
  credits : ℕ
  freeVec : List ℕ
  backlog : List Request
  stallq : List ℕ
  txBatch : List Pkt
  slots : ℕ → ClientSlot

namespace Client

def setSlot (s : Client) (i : ℕ) (x : ClientSlot) : Client := { s with slots := Function.update s.slots i x }

@[simp] theorem setSlot_slots (s : Client) (i : ℕ) (x : ClientSlot) : (s.setSlot i x).slots = Function.update s.slots i x := rfl
@[simp] theorem setSlot_credits (s : Client) (i : ℕ) (x : ClientSlot) : (s.setSlot i x).credits = s.credits := rfl
@[simp] theorem setSlot_freeVec (s : Client) (i : ℕ) (x : ClientSlot) : (s.setSlot i x).freeVec = s.freeVec := rfl
@[simp] theorem setSlot_backlog (s : Client) (i : ℕ) (x : ClientSlot) : (s.setSlot i x).backlog = s.backlog := rfl
@[simp] theorem setSlot_stallq (s : Client) (i : ℕ) (x : ClientSlot) : (s.setSlot i x).stallq = s.stallq := rfl
@[simp] theorem setSlot_txBatch (s : Client) (i : ℕ) (x : ClientSlot) : (s.setSlot i x).txBatch = s.txBatch := rfl

end Client

/-- `in_order_client`. -/
def ClientSlot.inOrder (x : ClientSlot) (pkt : Pkt) : Prop :=
  pkt.reqNum = x.curReqNum ∧ pkt.pktNum = x.numRx ∧ pkt.pktNum < x.numTx ∧ x.inWheel (pkt.pktNum % sessionCredits) = false

instance (x : ClientSlot) (pkt : Pkt) : Decidable (x.inOrder pkt) := inferInstanceAs (Decidable (_ ∧ _ ∧ _ ∧ _))

/-- The slot with `k` more packets sent. -/
def ClientSlot.sent (x : ClientSlot) (k : ℕ) : ClientSlot := { x with numTx := x.numTx + k }

/-- `enqueue_wheel_req_st` for each of `nums`. -/
def ClientSlot.enqueueWheelReq (x : ClientSlot) (nums : List ℕ) : ClientSlot :=
  { x with
    wheel := x.wheel ++ nums
    inWheel := fun j => x.inWheel j || nums.any (· % sessionCredits == j)
    wheelCount := x.wheelCount + nums.length }

/-- `kick_req_st`: as many request packets as there are credits for, into the TX batch or, when
`can_bypass_wheel` denies that, into the timing wheel. -/
def kickReq (D : ℕ) (u : Bool) (i : ℕ) (s : Client) : Except Fault Client :=
  let x := s.slots i
  match x.txMsgbuf with
  | none => .error .nullMsgbuf
  | some b =>
    if s.credits = 0 then .error .noCredits
    else
      let sending := min s.credits (b.numPkts D - x.numTx)
      let nums := List.range' x.numTx sending
      let s' := { s with credits := s.credits - sending }
      if x.wheelCount = 0 ∧ u = true then
        .ok { s'.setSlot i (x.sent sending) with txBatch := s.txBatch ++ nums.map (b.pkt D) }
      else .ok (s'.setSlot i ((x.sent sending).enqueueWheelReq nums))

/-- The packet of `enqueue_rfr_st`; it is a header only. -/
def rfrPkt (resp : MsgBuffer) (pktNum : ℕ) : Pkt := ⟨resp.reqType, 0, .rfr, pktNum, resp.reqNum, fun _ => 0⟩

/-- `kick_rfr_st`: as many requests for a response packet as there are credits for. -/
def kickRfr (D : ℕ) (i : ℕ) (s : Client) : Except Fault Client :=
  let x := s.slots i
  match x.txMsgbuf with
  | none => .error .nullMsgbuf
  | some b =>
    if s.credits = 0 then .error .noCredits
    else if x.numRx < b.numPkts D then .error .rfrTooEarly
    else if wirePkts D b x.respMsgbuf ≤ x.numRx then .error .rfrTooLate
    else
      let sending := min s.credits (wirePkts D b x.respMsgbuf - x.numTx)
      let nums := List.range' x.numTx sending
      let s' := { s with credits := s.credits - sending, txBatch := s.txBatch ++ nums.map (rfrPkt x.respMsgbuf) }
      .ok (s'.setSlot i (x.sent sending))

/-- The slot with a request in it, as `enqueue_request` leaves it before anything is sent. -/
def ClientSlot.accept (x : ClientSlot) (r : Request) : ClientSlot :=
  { x with
    txMsgbuf := some (r.buf (x.curReqNum + sessionReqWindow))
    curReqNum := x.curReqNum + sessionReqWindow
    respMsgbuf := r.respBuf
    tag := r.tag
    numTx := 0
    numRx := 0 }

/-- `enqueue_request`. -/
def enqueueRequest (D : ℕ) (u : Bool) (r : Request) (s : Client) : Except Fault (Client × List Event) :=
  match s.freeVec with
  | [] => .ok ({ s with backlog := s.backlog ++ [r] }, [])
  | i :: free =>
    let x := s.slots i
    if x.txMsgbuf.isSome then .error .slotBusy
    else
      let s' := { s.setSlot i (x.accept r) with freeVec := free }
      let call := Event.call (x.curReqNum + sessionReqWindow) r
      if 0 < s.credits then (kickReq D u i s').map fun t => (t, [call])
      else .ok ({ s' with stallq := s.stallq ++ [i] }, [call])

/-- The slot without a request: the response was received. -/
def ClientSlot.freed (x : ClientSlot) : ClientSlot := { x with txMsgbuf := none }

def Client.release (s : Client) (i : ℕ) : Client := { s.setSlot i (s.slots i).freed with freeVec := i :: s.freeVec }

/-- The end of `process_resp_one_st`, once the whole response is there. -/
def finishResp (D : ℕ) (u : Bool) (i : ℕ) (s : Client) : Except Fault (Client × List Event) :=
  let x := s.slots i
  if x.wheelCount ≠ 0 then .error .stillInWheel
  else
    let s' := s.release i
    let done := Event.done x.curReqNum x.tag x.respMsgbuf.bytes
    match s.backlog with
    | [] => .ok (s', [done])
    | r :: _ =>
      if s'.freeVec.length ≠ 1 then .error .moreFreeSlots
      else (enqueueRequest D u r s').map fun t => ({ t.1 with backlog := t.1.backlog.tail }, done :: t.2)

def ClientSlot.withResp (x : ClientSlot) (b : MsgBuffer) : ClientSlot := { x with respMsgbuf := b }

/-- A response buffer resized to a packet's message, with the packet's header copied to it. -/
def MsgBuffer.takeHeader (b : MsgBuffer) (pkt : Pkt) : MsgBuffer :=
  { b with reqType := pkt.reqType, pktType := pkt.pktType, pktNum := pkt.pktNum, reqNum := pkt.reqNum, size := pkt.msgSize }

/-- `process_resp_one_st` from where the data of a packet is copied, for the request in `b`. -/
def storeResp (D : ℕ) (u : Bool) (i : ℕ) (pkt : Pkt) (b : MsgBuffer) (s : Client) : Except Fault (Client × List Event) :=
  let x := s.slots i
  let s' := s.setSlot i (x.withResp (copyDataToMsgbuf D x.respMsgbuf (respNtoi pkt.pktNum (b.numPkts D)) pkt))
  if x.numRx ≠ wirePkts D b x.respMsgbuf then .ok (s', []) else finishResp D u i s'

/-- `process_resp_one_st` for a response of several packets, after the counters are updated. -/
def processLargeResp (D : ℕ) (u : Bool) (i : ℕ) (pkt : Pkt) (s : Client) : Except Fault (Client × List Event) :=
  let x := s.slots i
  match x.txMsgbuf with
  | none => .error .nullMsgbuf
  | some b =>
    let resp := if pkt.pktNum = b.numPkts D - 1 then x.respMsgbuf.takeHeader pkt else x.respMsgbuf
    let s' := s.setSlot i (x.withResp resp)
    (if x.numTx ≠ wirePkts D b resp then kickRfr D i s' else .ok s').bind (storeResp D u i pkt b)

/-- The slot with one more packet received. -/
def ClientSlot.received (x : ClientSlot) : ClientSlot := { x with numRx := x.numRx + 1 }

/-- `bump_credits` and the count of the packet. -/
def Client.takeIn (s : Client) (i : ℕ) : Client := { s with credits := s.credits + 1 }.setSlot i (s.slots i).received

/-- `process_resp_one_st`. -/
def processRespOne (D : ℕ) (u : Bool) (i : ℕ) (pkt : Pkt) (s : Client) : Except Fault (Client × List Event) :=
  let x := s.slots i
  if x.curReqNum < pkt.reqNum then .error .futureReqNum
  else if ¬ x.inOrder pkt then .ok (s, [])
  else if sessionCredits ≤ s.credits then .error .creditsFull
  else
    let t := s.takeIn i
    let y := t.slots i
    if pkt.msgSize ≤ D then
      let resp := y.respMsgbuf.takeHeader pkt
      finishResp D u i (t.setSlot i (y.withResp { resp with data := resp.data.write 0 pkt.data pkt.msgSize }))
    else processLargeResp D u i pkt t

/-- `process_expl_cr_st`. -/
def processExplCr (D : ℕ) (u : Bool) (i : ℕ) (pkt : Pkt) (s : Client) : Except Fault Client :=
  let x := s.slots i
  if x.curReqNum < pkt.reqNum then .error .futureReqNum
  else if ¬ x.inOrder pkt then .ok s
  else if sessionCredits ≤ s.credits then .error .creditsFull
  else
    let t := s.takeIn i
    match x.txMsgbuf with
    | none => .error .nullMsgbuf
    | some b => if x.numTx < b.numPkts D then kickReq D u i t else .ok t

/-- Send whatever comes next: request packets while some are pending, else requests for a
response packet. -/
def kick (D : ℕ) (u : Bool) (i : ℕ) (s : Client) : Except Fault Client :=
  match (s.slots i).txMsgbuf with
  | none => .error .nullMsgbuf
  | some b => if (s.slots i).numTx < b.numPkts D then kickReq D u i s else kickRfr D i s

/-- The slot as if what is not answered had not been sent. -/
def ClientSlot.rolledBack (x : ClientSlot) : ClientSlot := { x with numTx := x.numRx }

/-- `pkt_loss_retransmit_st`. -/
def pktLossRetransmit (D : ℕ) (u : Bool) (i : ℕ) (s : Client) : Except Fault Client :=
  let x := s.slots i
  if x.txMsgbuf.isNone then .error .nullMsgbuf
  else
    let delta := x.numTx - x.numRx
    if sessionCredits < s.credits + delta then .error .creditsFull
    else if delta = 0 then .ok s
    else if i ∈ s.stallq then .error .stalled
    else if 0 < x.wheelCount then .ok s
    else kick D u i ({ s with credits := s.credits + delta }.setSlot i x.rolledBack)

/-- `process_credit_stall_queue_st` over what is left of the queue. -/
def processStallq (D : ℕ) (u : Bool) : List ℕ → Client → Except Fault Client
  | [], s => .ok s
  | i :: is, s =>
    if 0 < s.credits then (kick D u i s).bind (processStallq D u is)
    else processStallq D u is { s with stallq := s.stallq ++ [i] }

/-- `process_credit_stall_queue_st`. -/
def processCreditStallQueue (D : ℕ) (u : Bool) (s : Client) : Except Fault Client :=
  processStallq D u s.stallq { s with stallq := [] }

/-- The slot without packet `n` in the wheel. -/
def ClientSlot.leaveWheel (x : ClientSlot) (n : ℕ) : ClientSlot :=
  { x with
    wheelCount := x.wheelCount - 1
    inWheel := Function.update x.inWheel (n % sessionCredits) false
    wheel := x.wheel.erase n }

/-- `process_wheel_st` for one entry: packet `n` of slot `i` has left the wheel. -/
def reapOne (D : ℕ) (i n : ℕ) (s : Client) : Except Fault Client :=
  let x := s.slots i
  match x.txMsgbuf with
  | none => .error .nullMsgbuf
  | some b =>
    let pkt := if n < b.numPkts D then b.pkt D n else rfrPkt x.respMsgbuf x.numTx
    .ok ({ s with txBatch := s.txBatch ++ [pkt] }.setSlot i (x.leaveWheel n))

/-- A client end of a session just connected. -/
def Client.initial (buf : MsgBuffer) : Client where
  credits := sessionCredits
  freeVec := List.range sessionReqWindow
  backlog := []
  stallq := []
  txBatch := []
  slots i := ⟨none, i, buf, 0, 0, 0, fun _ => false, 0, []⟩

end CcKvs.Erpc
