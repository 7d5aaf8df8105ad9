/-
The main loop of an SC client (`run_client` in `client-sc.c`), as far as its
message buffers go. An iteration prepares hot writes and cold requests, waits
for all outstanding responses if the iteration before had cold requests, sends
the broadcasts, sends the cold requests, and polls. A response is taken in by a
callback, and callbacks run only inside `run_event_loop_once`: while the client
waits, or when it polls. Which responses arrive in which call is left open.
-/
import CcKvs.Sc.Framing
import CcKvs.Lib.Lts

namespace CcKvs.Sc

def windowSize : ℕ := 512

def kvsBatch : ℕ := 100

/-- The two sets of buffers: `bufferused` for cold requests, `cache_bufferused` for broadcasts. -/
inductive Traffic
  | data
  | cache
  deriving DecidableEq, Repr

instance : Fintype Traffic := ⟨{.data, .cache}, fun k => by cases k <;> decide⟩

/-- A slot of the operation buffer after the cache was probed: `ops[i]`, `resp[i].type` and
`key_homes[i].machine`. -/
structure Slot (N : ℕ) where
  op : Bytes
  type : RespType
  machine : Fin N

def Slot.isMiss {N : ℕ} (x : Slot N) : Bool := x.type == .miss || x.type == .unservedMiss

/-- Where the loop stands. -/
inductive Pc
  | top
  | wait
  | bcast
  | send
  | poll
  deriving DecidableEq, Repr

structure Client (N : ℕ) where
  pc : Pc
  used : Traffic → Fin N → Bool
  batch : CacheBatch
  idx : Fin N → ℕ
  reqsInTransit : ℤ
  wrI : ℕ
  previousWrI : ℕ
  /-- Requests whose callback has not run yet. -/
  inFlight : Multiset (Traffic × Fin N)

section

variable {N : ℕ}

/-! ## Cold requests -/

/-- What `handle_cold_requests` counts. With `ENABLE_THREAD_PARTITIONING_C_TO_W` a client uses
one worker of each machine, so `per_worker_outstanding` is counted by machine. -/
structure Cold (N : ℕ) where
  idx : Fin N → ℕ
  wrI : ℕ
  remReqI : ℕ
  outstanding : Fin N → ℕ

/-- `assert(ops[op_i].val_len == (HERD_VALUE_SIZE >> SHIFT_BITS))` for a PUT. -/
def valLenOk (cfg : Config) (op : Bytes) : Bool :=
  Opcode.ofByte (op 16) != .put || (op 17).toNat == cfg.herdValueSize >>> cfg.shiftBits

/-- `add_erpc_request`, with the counters that go with it. -/
def Cold.addErpcRequest (c : Cold N) (rm : Fin N) : Except Fault (Cold N) :=
  if c.idx rm < windowSize then
    .ok { idx := Function.update c.idx rm (c.idx rm + 1)
          wrI := c.wrI + 1
          remReqI := c.remReqI + 1
          outstanding := Function.update c.outstanding rm (c.outstanding rm + 1) }
  else .error .windowFull

/-- The loop of `handle_cold_requests` over the slots: hits are passed over, a miss becomes a
request to its home machine unless that machine's batch is full. -/
def handleColdRequests (cfg : Config) (machineId : Fin N) : List (Slot N) → Cold N → Except Fault (Cold N)
  | [], c => .ok c
  | x :: xs, c =>
    if windowSize ≤ c.remReqI then .ok c
    else if !x.isMiss then handleColdRequests cfg machineId xs c
    else if !valLenOk cfg x.op then .error .valLen
    else if x.machine = machineId then .error .localKey
    else if kvsBatch < c.outstanding x.machine + 1 then
      if kvsBatch * N ≤ c.wrI then .ok c else handleColdRequests cfg machineId xs c
    else do
      let c ← c.addErpcRequest x.machine
      handleColdRequests cfg machineId xs c

/-! ## Buffers -/

/-- The buffer for `rm` is in use and its request handed to the transport. -/
def Client.filled (k : Traffic) (rm : Fin N) (s : Client N) : Client N :=
  { s with
    used := Function.update s.used k (Function.update (s.used k) rm true)
    inFlight := (k, rm) ::ₘ s.inFlight
    reqsInTransit := s.reqsInTransit + 1 }

def Client.fill (k : Traffic) (rm : Fin N) (s : Client N) : Except Fault (Client N) :=
  if s.used k rm then .error .bufferBusy else .ok (s.filled k rm)

def Client.fillAll (k : Traffic) : List (Fin N) → Client N → Except Fault (Client N)
  | [], s => .ok s
  | rm :: l, s => do
    let s ← s.fill k rm
    fillAll k l s

variable (machineId : Fin N)

/-- The machines `broadcast_cache_ops` sends to. -/
def remotes : List (Fin N) := (List.finRange N).filter (· ≠ machineId)

def Client.broadcastCacheOps (s : Client N) : Except Fault (Client N) :=
  if s.batch.cidx = 0 then .ok s
  else do
    let s ← s.fillAll .cache (remotes machineId)
    .ok { s with batch := { s.batch with cbatch := [] } }

/-- The machines `send_requests` has cold requests for. -/
def Client.due (s : Client N) : List (Fin N) := (remotes machineId).filter fun rm => 0 < s.idx rm

def Client.sendRequests (s : Client N) : Except Fault (Client N) := do
  let s' ← s.fillAll .data (s.due machineId)
  .ok { s' with idx := fun rm => if rm ∈ s.due machineId then 0 else s.idx rm }

/-- `receive_response` and `cache_response`. -/
def Client.response (k : Traffic) (rm : Fin N) (s : Client N) : Client N :=
  { s with
    used := Function.update s.used k (Function.update (s.used k) rm false)
    reqsInTransit := s.reqsInTransit - 1 }

/-! ## The loop -/

inductive Action (N : ℕ)
  | prepare (slots : Vector (Slot N) cacheBatchSize)
  | response (k : Traffic) (rm : Fin N)
  | waited
  | broadcast
  | send
  | next

/-- An iteration's hot writes are taken by `perform_broadcasts_SC` and its misses by
`handle_cold_requests`; whether it waits is decided by the cold requests of the one before. -/
inductive Client.Step (cfg : Config) : Client N → Action N → Client N → Prop
  | prepare (slots ops' batch' cold) : s.pc = .top →
      performBroadcasts cfg (slots.toList.map (·.op)) s.batch = .ok (ops', batch') →
      handleColdRequests cfg machineId slots.toList ⟨s.idx, 0, 0, fun _ => 0⟩ = .ok cold →
      Step cfg s (.prepare slots) { s with
        pc := if 0 < s.wrI then .wait else .bcast
        batch := batch'
        idx := cold.idx
        previousWrI := s.wrI
        wrI := cold.wrI }
  | response (k rm r) : s.pc = .wait ∨ s.pc = .poll → s.inFlight = (k, rm) ::ₘ r →
      Step cfg s (.response k rm) { s.response k rm with inFlight := r }
  | waited : s.pc = .wait → ¬ 0 < s.reqsInTransit → Step cfg s .waited { s with pc := .bcast }
  | broadcast : s.pc = .bcast → s.broadcastCacheOps machineId = .ok s' → Step cfg s .broadcast { s' with pc := .send }
  | send : s.pc = .send → s.sendRequests machineId = .ok s' → Step cfg s .send { s' with pc := .poll }
  | next : s.pc = .poll → Step cfg s .next { s with pc := .top }

/-- No buffer is in use and nothing is collected. `idx` and `cidx` are assumed to start at 0: they are
fields of `context`, a local variable of the thread, and `client-sc.c` never sets them. -/
structure Client.Init (s : Client N) : Prop where
  pc : s.pc = .top
  free : ∀ k rm, s.used k rm = false
  batch : s.batch.cidx = 0
  idx : ∀ rm, s.idx rm = 0
  reqsInTransit : s.reqsInTransit = 0
  wrI : s.wrI = 0
  inFlight : s.inFlight = 0

def client (cfg : Config) : Lts (Client N) (Action N) := ⟨Client.Init, Client.Step machineId cfg⟩

end

end CcKvs.Sc
