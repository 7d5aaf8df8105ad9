/-
The clients of one machine under the linearizable protocol with `ENABLE_WAKE_UP`.
An operation that stalls is passed over by the cache functions from then on,
until `wake_up_stalled` marks it `RETRY`, which `updates_and_acks_bookkeeping`
calls after a client has given the updates and acknowledgements it polled to the
cache.

The clients are threads that share the cache. A step is one access of a client to
the cache, or what it does by itself until the next one; where a client is in its
loop (`run_client` in `client-lin.c`) is given by a program counter. The messages
that it polls are left open.
-/
import CcKvs.Cache.Batch
import CcKvs.Client.Iteration
import CcKvs.Lin.Client

namespace CcKvs.WakeUp

open Function Client
open Sc (Slot)

/-- What is fixed for the clients of a machine. -/
structure Setup (N C : ℕ) where
  cfg : Config
  inlining : Bool
  machineId : Fin N
  text : Bytes
  trace : Fin C → Client.Trace N

def Setup.env {N C : ℕ} (p : Setup N C) (t : Fin C) : Env N :=
  ⟨p.cfg, .lin, p.machineId, p.machineId * clientsPerMachine + t, p.text⟩

/-- `HERD_VALUE_SIZE >> SHIFT_BITS` -/
def Setup.valLen {N C : ℕ} (p : Setup N C) : UInt8 := .ofNat (p.cfg.herdValueSize >>> p.cfg.shiftBits)

section

variable {N C : ℕ}

/-- The operation in a slot is passed over when the cache is probed. -/
def Asleep (x : Slot N) : Prop := x.type = .getStall ∨ x.type = .putStall

instance (x : Slot N) : Decidable (Asleep x) := inferInstanceAs (Decidable (_ ∨ _))

/-- One round of a `cache_batch_op_lin_*` function. -/
def serve (machineId : Fin N) (f : CacheFun) (cache : Cache) (op : CacheOp) (resp : MicaResp) :
    Except Fault (Cache × CacheOp × MicaResp) :=
  if f.skips true resp.type then .ok (cache, op, resp) else cache.serve (f.body N machineId) op resp

/-- What `wake_up_stalled` does to a slot of `ops` and `resp`. -/
def wakeUpStalled (op : CacheOp) (answer : RespType) (x : Slot N) : Slot N :=
  if answer = .updSuccess ∧ op.key = x.key ∧ Asleep x then { x with type := .retry } else x

/-- Where a client is in its loop. -/
inductive Pc (N : ℕ)
  | top
  /-- In `poll_coherence_LIN`. -/
  | poll
  /-- In `cache_batch_op_lin_non_stalling_sessions_with_cache_op`. -/
  | updates
  /-- In `updates_and_acks_bookkeeping`. -/
  | bookkeeping
  /-- In `cache_batch_op_lin_non_stalling_sessions`, at slot `i` of the batch. -/
  | probe (f : Fill N) (i : ℕ)
  /-- The batch is probed; from here to the end of the iteration. -/
  | probed (f : Fill N)

structure Thread (N : ℕ) where
  coh : Lin.Client
  own : State N
  pc : Pc N

namespace Thread

variable (th : Thread N)

/-- The operations of a client that are not done: those carried over, and once the batch is filled
all its slots. -/
def buffer : List (Slot N) :=
  match th.pc with
  | .top => (List.range th.own.nextOpI).map th.own.nextOps
  | .poll | .updates | .bookkeeping => (List.range th.own.nextOpI).map th.own.ops
  | .probe f _ | .probed f => (List.range cacheBatchSize).map f.ops

/-- `swap_ops`, and the counters over `update_ops` start again. -/
def swap (inlining : Bool) : Thread N where
  coh := { th.coh with updateOpsI := 0, served := 0, kept := 0, ackOpsI := 0 }
  own := th.own.swapOps inlining
  pc := .poll

/-- The slots after `wake_up_stalled` was called for slot `u` of `update_ops`, if it was. -/
def wake (u : ℕ) : ℕ → Slot N := fun j =>
  if ((th.coh.updateOps u).opcode = .upd ∨ (th.coh.updateResp u).type = .lastAckSuccess) ∧ j < cacheBatchSize then
    wakeUpStalled (th.coh.updateOps u) (th.coh.updateResp u).type (th.own.ops j)
  else th.own.ops j

/-- A round of `updates_and_acks_bookkeeping`, which leaves `coh`. -/
def keep (coh : Lin.Client) : Thread N := { th with coh := coh, own := { th.own with ops := th.wake th.coh.kept } }

/-- The next slot after a round of the probe. -/
def probed (f : Fill N) (i : ℕ) (op : CacheOp) (answer : RespType) : Thread N :=
  { th with pc := .probe { f with ops := update f.ops i ⟨storeOp op (f.ops i).op, answer, (f.ops i).machine⟩ } (i + 1) }

/-- The slots as `handle_cold_requests` finds them. -/
def slots (e : Env N) (credits : ℕ) (f : Fill N) : List (Slot N) :=
  e.broadcastInvs credits ((List.range cacheBatchSize).map f.ops)

/-- The end of the iteration. -/
def next (f : Fill N) (slots : List (Slot N)) (c : Cold N) : Thread N :=
  { th with
    own :=
      { traceIter := f.traceIter
        ops := overwrite slots f.ops
        nextOps := c.nextOps
        thirdOps := th.own.thirdOps
        nextOpI := c.nextOpI
        hottestKeysPointers := c.hottestKeysPointers
        cacheHits := c.cacheHits }
    pc := .top }

end Thread

structure Machine (N C : ℕ) where
  cache : Cache
  client : Fin C → Thread N

/-- A round of the cache call for updates and acknowledgements, with the answer; or anything else. -/
inductive Event (C : ℕ)
  | serve (t : Fin C) (key : UInt64) (answer : RespType)
  | tau

namespace Machine

def set (s : Machine N C) (t : Fin C) (th : Thread N) : Machine N C := { s with client := update s.client t th }

def setPc (s : Machine N C) (t : Fin C) (pc : Pc N) : Machine N C := s.set t { s.client t with pc := pc }

inductive Step (p : Setup N C) : Machine N C → Event C → Machine N C → Prop
  | swap (t : Fin C) : (s.client t).pc = .top → Step p s .tau (s.set t ((s.client t).swap p.inlining))
  | poll (t : Fin C) (req : CacheOp) : (s.client t).pc = .poll → req.opcode = .upd ∨ req.opcode = .ack →
      (s.client t).coh.CanPoll → req.keyMeta.cid.toNat < N →
      Step p s .tau (s.set t { s.client t with coh := (s.client t).coh.pollCoherence p.valLen req })
  | updates (t : Fin C) : (s.client t).pc = .poll → Step p s .tau (s.setPc t .updates)
  | serve (t : Fin C) (op' : CacheOp) (resp' : MicaResp) (cache' : Cache) : (s.client t).pc = .updates →
      (s.client t).coh.served < (s.client t).coh.updateOpsI →
      serve p.machineId .linWithCacheOp s.cache ((s.client t).coh.updateOps (s.client t).coh.served)
        ((s.client t).coh.updateResp (s.client t).coh.served) = .ok (cache', op', resp') →
      Step p s (.serve t ((s.client t).coh.updateOps (s.client t).coh.served).key resp'.type)
        ({ s with cache := cache' }.set t { s.client t with coh := (s.client t).coh.serve op' resp' })
  | bookkeeping (t : Fin C) : (s.client t).pc = .updates → (s.client t).coh.served = (s.client t).coh.updateOpsI →
      Step p s .tau (s.setPc t .bookkeeping)
  | keep (t : Fin C) (coh : Lin.Client) : (s.client t).pc = .bookkeeping →
      (s.client t).coh.kept < (s.client t).coh.served → (s.client t).coh.bookkeeping p.valLen = .ok coh →
      Step p s .tau (s.set t ((s.client t).keep coh))
  | fill (t : Fin C) (tagged : ℕ → Bool) (n : ℕ) (f : Fill N) : (s.client t).pc = .bookkeeping →
      (s.client t).coh.kept = (s.client t).coh.served →
      batchFromTrace (p.env t) tagged (p.trace t) n (s.client t).own.traceIter (s.client t).own.ops
        (s.client t).own.nextOpI (s.client t).own.hottestKeysPointers = .ok f →
      f.i = cacheBatchSize → Step p s .tau (s.setPc t (.probe f 0))
  | pass (t : Fin C) (f : Fill N) (i : ℕ) : (s.client t).pc = .probe f i → i < cacheBatchSize →
      CacheFun.lin.skips true (f.ops i).type = true → Step p s .tau (s.setPc t (.probe f (i + 1)))
  | probe (t : Fin C) (f : Fill N) (i : ℕ) (resp resp' : MicaResp) (op' : CacheOp) (cache' : Cache) :
      (s.client t).pc = .probe f i → i < cacheBatchSize → CacheFun.lin.skips true (f.ops i).type = false →
      resp.type = (f.ops i).type →
      serve p.machineId .lin s.cache (.ofBytes (f.ops i).op) resp = .ok (cache', op', resp') →
      Step p s .tau ({ s with cache := cache' }.set t ((s.client t).probed f i op' resp'.type))
  | probed (t : Fin C) (f : Fill N) : (s.client t).pc = .probe f cacheBatchSize → Step p s .tau (s.setPc t (.probed f))
  | inv (t : Fin C) (f : Fill N) (op op' : CacheOp) (resp resp' : MicaResp) (cache' : Cache) :
      (s.client t).pc = .probed f → op.opcode = .inv →
      serve p.machineId .linWithSmallCacheOp s.cache op resp = .ok (cache', op', resp') →
      Step p s .tau { s with cache := cache' }
  | forgeUpd (t : Fin C) (f : Fill N) : (s.client t).pc = .probed f → 0 < (s.client t).coh.ackSize →
      Step p s .tau (s.set t { s.client t with coh := (s.client t).coh.forgeUpd p.machineId })
  | cold (t : Fin C) (f : Fill N) (credits : ℕ) (slots' : List (Slot N)) (c : Cold N) : (s.client t).pc = .probed f →
      handleColdRequests (p.env t) 0 (Thread.slots (p.env t) credits f) ((s.client t).own.cold f) = .ok (slots', c) →
      Step p s .tau (s.set t ((s.client t).next f slots' c))

/-- Every cached key is valid, and no client has begun. -/
structure Init (p : Setup N C) (s : Machine N C) : Prop where
  cache : ∀ k kv, s.cache k = some kv → kv.keyMeta.state = .valid ∧ kv.keyMeta.version = 0 ∧ kv.keyMeta.cid = 0 ∧
    kv.keyMeta.lock = 0 ∧ kv.valLen = p.valLen
  top : ∀ t, (s.client t).pc = .top
  own : ∀ t, (s.client t).own.Init
  coh : ∀ t, (s.client t).coh.updateOpsI = 0 ∧ (s.client t).coh.served = 0 ∧ (s.client t).coh.kept = 0 ∧
    (s.client t).coh.ackPushPtr = 0 ∧ (s.client t).coh.ackPopPtr = 0 ∧ (s.client t).coh.ackSize = 0

end Machine

def machine (p : Setup N C) : Lts (Machine N C) (Event C) where
  init := Machine.Init p
  step := Machine.Step p

end

end CcKvs.WakeUp
