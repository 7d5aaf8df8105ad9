/-
What a client does with the slots of a batch after the cache was probed and the
broadcasts are prepared (`handle_cold_requests` in `inline_util.h` and the
functions under it). Each slot is retired, handed to `add_erpc_request` for its
home machine, or copied to the batch of the next iteration: a slot of another
kind does not come out of the cache.

A machine takes `KVS_BATCH` requests per iteration. A request beyond that is
passed over, but by then the client's id is in its metadata already.
-/
import CcKvs.Client.Fill
import CcKvs.Requests

namespace CcKvs.Client

open Function Sc Bytes Worker

/-- `tmp->clt_gid = clt_gid`: the second word of the metadata. -/
def setCltGid (cltGid : ℕ) (op : Bytes) : Bytes := op.write 4 (Bytes.le cltGid) 4

/-- The opcode is not part of the metadata. -/
theorem setCltGid_opcode (cltGid : ℕ) (op : Bytes) : setCltGid cltGid op 16 = op 16 := by
  rw [setCltGid, Bytes.write, if_neg (by omega)]

/-- How much of an operation `copy_op_to_next_op` copies; with tracking, a GET's `val_len` and
first byte of the value as well. -/
def copySize (cfg : Config) : Opcode → Option ℕ
  | .brc | .put | .inv | .upd => some cfg.herdPutReqSize
  | .get => some (herdGetReqSize + 2)
  | _ => none

/-- The variables of `handle_cold_requests` that outlive a slot. With
`ENABLE_THREAD_PARTITIONING_C_TO_W` a client has one worker on each machine. -/
structure Cold (N : ℕ) where
  nextOps : ℕ → Slot N
  nextOpI : ℕ
  hottestKeysPointers : ℕ → ℕ
  cacheHits : ℕ
  batch : Fin N → ErpcBatch
  perWorkerOutstanding : Fin N → ℕ
  wrI : ℕ
  remReqI : ℕ

section

variable {N : ℕ} (e : Env N) (opI : ℕ) (x : Slot N) (s : Cold N)

/-- The pointer at slot `op_i`, if `value[0]` names a key whose pointer that is, is set to `p`. -/
def Cold.repoint (p : ℕ) : ℕ → ℕ :=
  if x.value0.toNat < hottestKeysToTrack ∧ s.hottestKeysPointers x.value0.toNat = opI + 1 then
    update s.hottestKeysPointers x.value0.toNat p
  else s.hottestKeysPointers

/-- The state after `size` bytes of the operation were copied. -/
def Cold.copied (size : ℕ) : Cold N :=
  { s with
    nextOps := update s.nextOps s.nextOpI ⟨(s.nextOps s.nextOpI).op.memcpy x.op size, x.type, x.machine⟩
    nextOpI := s.nextOpI + 1
    hottestKeysPointers := if x.type = .getStall then s.repoint opI x (s.nextOpI + 1) else s.hottestKeysPointers }

/-- Under `SEQUENTIAL_CONSISTENCY` the callers pass `NULL` for `hottest_keys_pointers`. -/
def Cold.copyOpToNextOp : Except Fault (Cold N) :=
  match copySize e.cfg x.opcode with
  | none => .error .badOpcode
  | some size =>
    if e.protocol = .sc ∧ x.type = .getStall ∧ x.value0.toNat < hottestKeysToTrack then .error .nullPointer
    else .ok (s.copied opI x size)

/-- Reads that were served and writes that were sent or refused. -/
def Env.retires : Bool :=
  match e.protocol with
  | .sc => x.type == .getSuccess || x.opcode == .upd
  | .lin => x.type == .getSuccess || x.opcode == .inv || x.type == .putFail

/-- What a retired slot adds to `cache_hits_per_client`. -/
def hits : ℕ := if x.type = .getSuccess then x.valLen.toNat + 1 else 1

def Cold.retire : Cold N :=
  { s with
    cacheHits := s.cacheHits + hits x
    hottestKeysPointers :=
      if e.protocol = .lin ∧ x.type = .getSuccess then s.repoint opI x 0 else s.hottestKeysPointers }

/-- The end of a round of all four bookkeeping loops; the slot is given with its new `resp` type. -/
def Cold.settle : Except Fault (Slot N × Cold N) :=
  if e.retires x then .ok ({ x with type := .empty }, s.retire e opI x)
  else do
    let s ← s.copyOpToNextOp e opI x
    .ok (x, s)

/-- The kinds of hits that `cache_hit_bookkeeping_SC` (for client 0) and `_LIN` expect. -/
def Env.expects : Bool :=
  match e.protocol with
  | .sc => e.localClientId != 0 || x.type == .getSuccess || x.type == .putSuccess || x.opcode == .upd || x.opcode == .brc
  | .lin => x.type == .getSuccess || x.type == .putSuccess || x.type == .getStall || x.type == .putStall ||
      x.type == .putFail || x.opcode == .inv || x.opcode == .brc

/-- One round of `cache_hit_bookkeeping_SC` or `_LIN`. -/
def Cold.cacheHitBookkeeping : Except Fault (Slot N × Cold N) :=
  if e.expects x then s.settle e opI x else .error .unexpectedHit

/-- `if (resp[op_i].type == CACHE_MISS) resp[op_i].type = UNSERVED_CACHE_MISS` -/
def unserved : Slot N := if x.type = .miss then { x with type := .unservedMiss } else x

/-- One round of `run_through_rest_of_ops_SC` or `_LIN`; only the first has an assertion. -/
def Cold.runThrough : Except Fault (Slot N × Cold N) :=
  if e.protocol = .sc ∧ e.retires (unserved x) = false ∧ x.type = .empty then .error .carriedOver
  else s.settle e opI (unserved x)

def runThroughRestOfOps : ℕ → List (Slot N) → Cold N → Except Fault (List (Slot N) × Cold N)
  | _, [], s => .ok ([], s)
  | opI, x :: xs, s => do
    let (x, s) ← s.runThrough e opI x
    let (xs, s) ← runThroughRestOfOps (opI + 1) xs s
    .ok (x :: xs, s)

/-- A request as it is handed over or passed over. -/
def Env.request : Slot N := ⟨setCltGid e.cltGid x.op, .unservedMiss, x.machine⟩

/-- `add_erpc_request` for the request in a slot, with the counters that go with it. -/
def Cold.addRequest : Except Fault (Cold N) := do
  let b ← addErpcRequest x.op (sizeOfOp e.cfg x.op) (s.batch x.machine)
  .ok { s with
    batch := update s.batch x.machine b
    perWorkerOutstanding := update s.perWorkerOutstanding x.machine (s.perWorkerOutstanding x.machine + 1)
    wrI := s.wrI + 1
    remReqI := s.remReqI + 1 }

/-- `handle_cold_requests` from slot `op_i` on. The result has the slots with their new `resp` types. -/
def handleColdRequests : ℕ → List (Slot N) → Cold N → Except Fault (List (Slot N) × Cold N)
  | _, [], s => .ok ([], s)
  | opI, x :: xs, s =>
    if windowSize ≤ s.remReqI then runThroughRestOfOps e opI (x :: xs) s
    else if x.isMiss = false then do
      let (x, s) ← s.cacheHitBookkeeping e opI x
      let (xs, s) ← handleColdRequests (opI + 1) xs s
      .ok (x :: xs, s)
    else if valLenOk e.cfg x.op = false then .error .valLen
    else if x.machine = e.machineId then .error .localKey
    else if kvsBatch < s.perWorkerOutstanding x.machine + 1 then do
      -- `handle_lack_of_credits_for_remotes`
      let s' ← s.copyOpToNextOp e opI (e.request x)
      if kvsBatch * N ≤ s.wrI then do
        let (xs, s') ← runThroughRestOfOps e (opI + 1) xs s'
        .ok (e.request x :: xs, s')
      else do
        let (xs, s') ← handleColdRequests (opI + 1) xs s'
        .ok (e.request x :: xs, s')
    else do
      let s ← s.addRequest e (e.request x)
      let (xs, s) ← handleColdRequests (opI + 1) xs s
      .ok ({ e.request x with type := .empty } :: xs, s)

end

end CcKvs.Client
