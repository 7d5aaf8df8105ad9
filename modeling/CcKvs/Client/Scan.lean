/-
`handle_cold_requests` once more, as it goes over memory. `ops`, `resp` and
`key_homes` are three arrays of bytes with `CACHE_BATCH_SIZE` entries and something
behind them; every access to one of them is noted with its index, also where the
call then ends at an assertion.

Three loops move one cursor: the main loop, in it `cache_hit_bookkeeping_SC` or
`_LIN`, and `run_through_rest_of_ops_SC` or `_LIN` after it. The second tests the
entry at the cursor before it compares the cursor with `CACHE_BATCH_SIZE`.
-/
import CcKvs.Client.Cold
import CcKvs.Lib.Traced

namespace CcKvs

def RespType.code : RespType → UInt8
  | empty => 120
  | getSuccess => 121
  | putSuccess => 122
  | updSuccess => 123
  | invSuccess => 124
  | ackSuccess => 125
  | lastAckSuccess => 126
  | retry => 127
  | miss => 130
  | getStall => 131
  | putStall => 132
  | updFail => 133
  | invFail => 134
  | ackFail => 135
  | getFail => 136
  | putFail => 137
  | unservedMiss => 140

def RespType.all : List RespType :=
  [empty, retry, getSuccess, putSuccess, updSuccess, invSuccess, ackSuccess, lastAckSuccess, miss, getStall, putStall, updFail,
    invFail, ackFail, putFail, getFail, unservedMiss]

/-- The codes that `code_to_str` has a text for. -/
def namedCodes : List UInt8 :=
  RespType.all.map RespType.code ++ [Opcode.get, .put, .upd, .inv, .ack, .brc].map Opcode.toByte ++
    [CacheState.valid, .invalid, .invalidReplay, .write, .writeReplay].map CacheState.toByte

namespace Client

open Function Sc Bytes Worker Traced

inductive Scan.Buffer
  | ops
  | resp
  | keyHomes
  deriving DecidableEq, Repr

structure Scan.Access where
  buffer : Buffer
  index : ℕ
  deriving DecidableEq, Repr

/-- What `ops`, `resp` and `key_homes` have at an index. -/
structure Scan.Entry where
  op : Bytes
  type : UInt8
  machine : UInt8

/-- The memory of `handle_cold_requests`: the arrays of this batch and of the next, also beyond
their ends, and the variables that outlive a slot. What the functions keep for a machine is taken
to have room for every byte that `key_homes` can give. -/
structure Scan where
  slots : ℕ → Scan.Entry
  nextSlots : ℕ → Scan.Entry
  nextOpI : ℕ
  hottestKeysPointers : ℕ → ℕ
  cacheHits : ℕ
  batch : UInt8 → ErpcBatch
  perWorkerOutstanding : UInt8 → UInt8
  wrI : ℕ
  remReqI : ℕ

abbrev ScanM := Traced Scan.Access Scan Fault

namespace Scan

/-! ## Accesses -/

def respType (i : ℕ) : ScanM UInt8 := reads ⟨.resp, i⟩ fun s => (s.slots i).type

def setRespType (i : ℕ) (t : RespType) : ScanM Unit :=
  writes ⟨.resp, i⟩ fun s => { s with slots := update s.slots i { s.slots i with type := t.code } }

def op (i : ℕ) : ScanM Bytes := reads ⟨.ops, i⟩ fun s => (s.slots i).op

def setOp (i : ℕ) (g : Bytes → Bytes) : ScanM Unit :=
  writes ⟨.ops, i⟩ fun s => { s with slots := update s.slots i { s.slots i with op := g (s.slots i).op } }

def machine (i : ℕ) : ScanM UInt8 := reads ⟨.keyHomes, i⟩ fun s => (s.slots i).machine

def respIs (i : ℕ) (t : RespType) : ScanM Bool := do return (← respType i) == t.code

def opcode (i : ℕ) : ScanM Opcode := do return .ofByte ((← op i) 16)

def opcodeIs (i : ℕ) (o : Opcode) : ScanM Bool := do return (← opcode i) == o

def valLen (i : ℕ) : ScanM UInt8 := do return (← op i) 17

def value0 (i : ℕ) : ScanM UInt8 := do return (← op i) 18

/-! ## A slot that stays with the client -/

variable {N : ℕ} (e : Env N)

def codeToStr (code : UInt8) : ScanM Unit := if code ∈ namedCodes then pure () else stop .wrongCode

/-- `if (hottest_keys_pointers[k] == op_i + 1) hottest_keys_pointers[k] = p` -/
def repoint (i : ℕ) (k : UInt8) (p : Scan → ℕ) : ScanM Unit :=
  change fun s =>
    if s.hottestKeysPointers k.toNat = i + 1 then { s with hottestKeysPointers := update s.hottestKeysPointers k.toNat (p s) } else s

/-- The message of `copy_op_to_next_op` for an operation that it does not expect. -/
def report (i : ℕ) : ScanM Unit := do
  if ← (respIs i .getStall <||> respIs i .putStall <||> respIs i .unservedMiss <||> opcodeIs i .brc) then pure ()
  else do
    codeToStr (← opcode i).toByte
    codeToStr (← respType i)

/-- `size_of_op` in `copy_op_to_next_op`. -/
def copiedSize (i : ℕ) : ScanM ℕ := do
  if ← (opcodeIs i .brc <||> opcodeIs i .put <||> opcodeIs i .inv <||> opcodeIs i .upd) then return e.cfg.herdPutReqSize
  else if ← opcodeIs i .get then return herdGetReqSize + 2
  else stop .badOpcode

/-- A stalled read that others are counted in stays the one they are counted in. `tracks` says
whether there is a pointer to `hottest_keys_pointers`. -/
def movePointer (tracks : Bool) (i : ℕ) : ScanM Unit := do
  if ← respIs i .getStall then
    let k ← value0 i
    if k.toNat < hottestKeysToTrack then
      if tracks then repoint i k fun s => s.nextOpI + 1 else stop .nullPointer
    else pure ()
  else pure ()

def copyOpToNextOp (tracks : Bool) (i : ℕ) : ScanM Unit := do
  report i
  let size ← copiedSize e i
  movePointer tracks i
  let op ← op i
  let type ← respType i
  let machine ← machine i
  change fun s =>
    { s with
      nextSlots := update s.nextSlots s.nextOpI ⟨(s.nextSlots s.nextOpI).op.memcpy op size, type, machine⟩
      nextOpI := s.nextOpI + 1 }

/-- Whether the slot is done with: the condition is the same in both loops of a protocol. -/
def retires (i : ℕ) : ScanM Bool :=
  match e.protocol with
  | .sc => respIs i .getSuccess <||> opcodeIs i .upd
  | .lin => respIs i .getSuccess <||> opcodeIs i .inv <||> respIs i .putFail

/-- `if (value[0] < HOTTEST_KEYS_TO_TRACK)`, a read that was served is no longer counted in. -/
def dropPointer (i : ℕ) : ScanM Unit := do
  let k ← value0 i
  if k.toNat < hottestKeysToTrack then repoint i k fun _ => 0 else pure ()

def addHits (n : ℕ) : ScanM Unit := change fun s => { s with cacheHits := s.cacheHits + n }

def countHits (i : ℕ) : ScanM Unit := do
  if ← respIs i .getSuccess then do
    addHits ((← valLen i).toNat + 1)
    if e.protocol = .lin then dropPointer i else pure ()
  else addHits 1

def retire (i : ℕ) : ScanM Unit := do
  countHits e i
  setRespType i .empty

/-- A slot is retired, or copied once `check` has passed. -/
def settle (check : ScanM Unit) (i : ℕ) : ScanM Unit := do
  if ← retires e i then retire e i
  else do
    check
    copyOpToNextOp e (e.protocol == .lin) i

/-- The first assertion of `cache_hit_bookkeeping_SC` or `_LIN`. -/
def expect (i : ℕ) : ScanM Unit :=
  match e.protocol with
  | .sc => do
    if ← (respIs i .getSuccess <||> respIs i .putSuccess <||> opcodeIs i .upd <||> opcodeIs i .brc) then pure ()
    else if e.localClientId = 0 then do
      let _ ← opcode i
      let _ ← respType i
      stop .unexpectedHit
    else pure ()
  | .lin => do
    if ← (respIs i .getSuccess <||> respIs i .putSuccess <||> respIs i .getStall <||> respIs i .putStall <||>
        respIs i .putFail <||> opcodeIs i .inv <||> opcodeIs i .brc) then pure ()
    else do
      codeToStr (← opcode i).toByte
      codeToStr (← respType i)
      stop .unexpectedHit

/-- The body of `cache_hit_bookkeeping_SC` or `_LIN`. -/
def hitRound (i : ℕ) : ScanM Unit := do
  expect e i
  settle e (pure ()) i

def isMiss (i : ℕ) : ScanM Bool := respIs i .miss <||> respIs i .unservedMiss

/-- `cache_hit_bookkeeping_SC` or `_LIN`; the cursor does not go back. -/
def cacheHitBookkeeping (opI : ℕ) : ScanM {j // opI ≤ j} := do
  -- the bound is the last of the three tests of the `while`
  if ← isMiss opI then return ⟨opI, le_rfl⟩
  else if opI < cacheBatchSize then do
    hitRound e opI
    let j ← cacheHitBookkeeping (opI + 1)
    return ⟨j, Nat.le_of_succ_le j.2⟩
  else return ⟨opI, le_rfl⟩
termination_by cacheBatchSize - opI

def markUnserved (i : ℕ) : ScanM Unit := do
  if ← respIs i .miss then setRespType i .unservedMiss else pure ()

/-- `assert(resp[op_i].type != CACHE_GET_SUCCESS && resp[op_i].type != EMPTY)`, in the sequentially
consistent protocol only. -/
def checkCarried (i : ℕ) : ScanM Unit := do
  if e.protocol = .sc then
    if ← (respIs i .getSuccess <||> respIs i .empty) then stop .carriedOver else pure ()
  else pure ()

/-- The body of `run_through_rest_of_ops_SC` or `_LIN`. -/
def restRound (i : ℕ) : ScanM Unit := do
  markUnserved i
  settle e (checkCarried e i) i

/-- `run_through_rest_of_ops_SC` or `_LIN` -/
def runThroughRestOfOps (opI : ℕ) : ScanM Unit := do
  if opI < cacheBatchSize then do
    restRound e opI
    runThroughRestOfOps (opI + 1)
  else pure ()
termination_by cacheBatchSize - opI

/-! ## A slot for another machine -/

/-- `if (ops[op_i].opcode == CACHE_OP_PUT) assert(ops[op_i].val_len == (HERD_VALUE_SIZE >> SHIFT_BITS))`,
and before it the message about a wrong opcode. -/
def checkValLen (i : ℕ) : ScanM Unit := do
  let _ ← (opcodeIs i .get <||> opcodeIs i .put)
  if ← opcodeIs i .put then do
    if (← valLen i).toNat = e.cfg.herdValueSize >>> e.cfg.shiftBits then pure () else stop .valLen
  else pure ()

/-- `add_erpc_request` keeps the address of the operation; its bytes are read when the batch is sent. -/
def addRequest (rm : UInt8) (i size : ℕ) : ScanM Unit := do
  let b ← look fun s => addErpcRequest (s.slots i).op size (s.batch rm)
  match b with
  | .error f => stop f
  | .ok b => change fun s => { s with batch := update s.batch rm b }

def setOutstanding (rm : UInt8) (g : UInt8 → UInt8) : ScanM Unit :=
  change fun s => { s with perWorkerOutstanding := update s.perWorkerOutstanding rm (g (s.perWorkerOutstanding rm)) }

/-- `handle_lack_of_credits_for_remotes`: whether the main loop is left. -/
def handleLackOfCredits (rm : UInt8) (i : ℕ) : ScanM Bool := do
  setOutstanding rm (· - 1)
  copyOpToNextOp e false i
  look fun s => decide (kvsBatch * N ≤ s.wrI)

/-- The request is added to the batch of its machine. -/
def handOver (rm : UInt8) (i size : ℕ) : ScanM Bool := do
  addRequest rm i size
  change fun s => { s with wrI := s.wrI + 1, remReqI := s.remReqI + 1 }
  setRespType i .empty
  return false

/-- A round of the main loop from where the home machine is known to be another. -/
def dispatch (rm : UInt8) (i : ℕ) : ScanM Bool := do
  let size := sizeOfOp e.cfg (← op i)
  setOp i (setCltGid e.cltGid)
  setOutstanding rm (· + 1)
  if kvsBatch < (← look fun s => s.perWorkerOutstanding rm).toNat then handleLackOfCredits e rm i else handOver rm i size

/-- A round of the main loop behind `cache_hit_bookkeeping`, and whether it is the last. -/
def issue (i : ℕ) : ScanM Bool := do
  checkValLen e i
  setRespType i .unservedMiss
  let rm ← machine i
  if rm.toNat = e.machineId then stop .localKey else dispatch e rm i

/-! ## The main loop -/

/-- The main loop from `op_i` on, and where it leaves the cursor. -/
def mainLoop (opI : ℕ) : ScanM ℕ := do
  if (← look fun s => s.remReqI) < windowSize ∧ opI < cacheBatchSize then do
    let j ← cacheHitBookkeeping e opI
    if j < cacheBatchSize then do
      if ← issue e j then return j + 1 else mainLoop (j + 1)
    else return j
  else return opI
termination_by cacheBatchSize - opI
decreasing_by
  have := j.2
  omega

def handleColdRequests : ScanM ℕ := do
  change fun s => { s with wrI := 0 }
  let opI ← mainLoop e 0
  runThroughRestOfOps e opI
  look fun s => s.wrI

end Scan

end Client

end CcKvs
