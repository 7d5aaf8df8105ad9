/-
How a client of the linearizable protocol handles updates and acknowledgements
(`inline_util.h`), byte for byte. An incoming ACK is key and opcode only, and
that is all `poll_coherence_LIN` copies into the next slot of `update_ops`; the
`val_len` and value of the slot stay from whatever was there before. When the
ACK turns out to be the last one, `updates_and_acks_bookkeeping` copies the
whole slot into the ring `ack_bcast_ops`, and `forge_bcast_wrs_LIN` sends it
from there as the update.

Each call of the cache is a step of its own, so the clients of one machine
interleave freely. The order of `poll_coherence_LIN`, the cache call and the
bookkeeping within an iteration is kept by three counters over `update_ops`.
INVs wait nowhere but in the network: their two buffers only delay them.
-/
import CcKvs.Lin.System

namespace CcKvs.Lin

/-- `BCAST_TO_CACHE_BATCH` -/
def bcastToCacheBatch : ℕ := 500

structure Client where
  updateOps : ℕ → CacheOp
  updateResp : ℕ → MicaResp
  /-- Slots filled by polling, then served by the cache, then seen by the bookkeeping. -/
  updateOpsI : ℕ
  served : ℕ
  kept : ℕ
  ackOpsI : ℕ
  ackBcastOps : ℕ → CacheOp
  ackPushPtr : ℕ
  ackPopPtr : ℕ
  ackSize : ℕ

open Function

/-- `memcpy` of `HERD_PUT_REQ_SIZE` bytes for an update and `HERD_GET_REQ_SIZE` bytes for the rest. -/
def copyReq (valLen : UInt8) (slot req : CacheOp) : CacheOp :=
  if req.opcode = .upd then { req with value := slot.value.memcpy req.value valLen.toNat }
  else { slot with keyMeta := req.keyMeta, key := req.key, opcode := req.opcode }

/-- The loop of `poll_coherence_LIN` goes on: there is room, and no back pressure from queued updates. -/
def Client.CanPoll (c : Client) : Prop :=
  c.served = 0 ∧ c.updateOpsI < bcastToCacheBatch ∧ c.ackSize + c.ackOpsI ≠ bcastToCacheBatch

def Client.pollCoherence (c : Client) (valLen : UInt8) (req : CacheOp) : Client :=
  { c with
    updateOps := update c.updateOps c.updateOpsI (copyReq valLen (c.updateOps c.updateOpsI) req)
    updateOpsI := c.updateOpsI + 1
    ackOpsI := if req.opcode = .ack then c.ackOpsI + 1 else c.ackOpsI }

/-- The next slot after a round of the cache call. -/
def Client.serve (c : Client) (op : CacheOp) (resp : MicaResp) : Client :=
  { c with
    updateOps := update c.updateOps c.served op
    updateResp := update c.updateResp c.served resp
    served := c.served + 1 }

/-- One round of `updates_and_acks_bookkeeping`. -/
def Client.bookkeeping (c : Client) (valLen : UInt8) : Except Fault Client :=
  let op := c.updateOps c.kept
  if op.opcode = .upd then .ok { c with kept := c.kept + 1 }
  else if (c.updateResp c.kept).type = .lastAckSuccess then
    if (c.ackBcastOps c.ackPushPtr).opcode = .ack then .error .ackQueueFull
    else .ok { c with
      kept := c.kept + 1
      ackBcastOps := update c.ackBcastOps c.ackPushPtr { op with valLen := valLen }
      ackPushPtr := (c.ackPushPtr + 1) % bcastToCacheBatch
      ackSize := c.ackSize + 1 }
  else .ok { c with kept := c.kept + 1 }

/-- A round of the bookkeeping puts a last ACK into the ring, and does nothing else there. -/
theorem Client.bookkeeping_cases {c c' : Client} {valLen : UInt8} (hok : c.bookkeeping valLen = .ok c') :
    ((c.updateOps c.kept).opcode = .upd ∨ (c.updateResp c.kept).type ≠ .lastAckSuccess) ∧ c' = { c with kept := c.kept + 1 } ∨
    ((c.updateOps c.kept).opcode ≠ .upd ∧ (c.updateResp c.kept).type = .lastAckSuccess) ∧
      c' = { c with
        kept := c.kept + 1
        ackBcastOps := update c.ackBcastOps c.ackPushPtr { c.updateOps c.kept with valLen := valLen }
        ackPushPtr := (c.ackPushPtr + 1) % bcastToCacheBatch
        ackSize := c.ackSize + 1 } := by
  simp only [bookkeeping] at hok
  split at hok
  · next hu => exact .inl ⟨.inl hu, (Except.ok.inj hok).symm⟩
  · next hu =>
    split at hok
    · next hl =>
      split at hok
      · cases hok
      · exact .inr ⟨⟨hu, hl⟩, (Except.ok.inj hok).symm⟩
    · next hl => exact .inl ⟨.inr hl, (Except.ok.inj hok).symm⟩

/-- The update `forge_bcast_wrs_LIN` sends from the pop pointer. -/
def Client.nextUpd {N : ℕ} (c : Client) (m : Fin N) : CacheOp := outgoing m .upd (c.ackBcastOps c.ackPopPtr)

def Client.forgeUpd {N : ℕ} (c : Client) (m : Fin N) : Client :=
  { c with
    ackBcastOps := update c.ackBcastOps c.ackPopPtr (c.nextUpd m)
    ackPopPtr := (c.ackPopPtr + 1) % bcastToCacheBatch
    ackSize := c.ackSize - 1 }

/-- `N` machines with `C` clients each; client `t` of one machine talks to client `t` of another. -/
structure Cluster (N C : ℕ) where
  cache : Fin N → Cache
  client : Fin N → Fin C → Client
  waiting : Multiset (Fin N × Fin C × CacheOp)
  net : Multiset (ℕ × Fin C × CacheOp)

/-- A PUT that succeeded: its machine, key, version and bytes; a cache call for an update or an
acknowledgement; or anything else. -/
inductive Action (N C : ℕ)
  | put (m : Fin N) (key : UInt64) (version : UInt32) (value : Bytes)
  | serve (m : Fin N) (t : Fin C)
  | tau

def Cluster.setClient {N C : ℕ} (s : Cluster N C) (m : Fin N) (t : Fin C) (c : Client) : Cluster N C :=
  { s with client := update s.client m (update (s.client m) t c) }

def Cluster.setCache {N C : ℕ} (s : Cluster N C) (m : Fin N) (cache : Cache) : Cluster N C :=
  { s with cache := update s.cache m cache }

/-- `op` on its way to client `t` of every machine but `m`. -/
def toOtherClients {N C : ℕ} (m : Fin N) (t : Fin C) (op : CacheOp) : Multiset (ℕ × Fin C × CacheOp) :=
  (Finset.univ.erase m).val.map fun d => (d.val, t, op)

inductive Cluster.Step {N C : ℕ} (valLen : UInt8) : Cluster N C → Action N C → Cluster N C → Prop
  | client (m : Fin N) (t : Fin C) (op op' : CacheOp) (resp resp' : MicaResp) (cache' : Cache) :
      op.opcode = .get ∨ op.opcode = .put →
      (s.cache m).serve (linNonStallingSessions N m) op resp = .ok (cache', op', resp') →
      Step valLen s (if resp'.type = .putSuccess then .put m op.key op'.keyMeta.version op.value else .tau)
        { s.setCache m cache' with
          waiting := if resp'.type = .putSuccess then (m, t, op') ::ₘ s.waiting else s.waiting }
  | bcastInv (m : Fin N) (t : Fin C) (op : CacheOp) (w) : s.waiting = (m, t, op) ::ₘ w →
      Step valLen s .tau { s with waiting := w, net := toOtherClients m t (outgoing m .inv op) + s.net }
  | inv (d : Fin N) (t : Fin C) (op op' : CacheOp) (resp resp' : MicaResp) (cache' : Cache) (r) :
      s.net = (d.val, t, op) ::ₘ r → op.opcode = .inv →
      (s.cache d).serve (linNonStallingSessionsWithSmallCacheOp d) op resp = .ok (cache', op', resp') →
      Step valLen s .tau
        { s.setCache d cache' with
          net := if resp'.type = .invSuccess then (op'.keyMeta.cid.toNat, t, outgoing d .ack op') ::ₘ r else r }
  | poll (d : Fin N) (t : Fin C) (op : CacheOp) (r) : s.net = (d.val, t, op) ::ₘ r →
      op.opcode = .upd ∨ op.opcode = .ack → (s.client d t).CanPoll → op.keyMeta.cid.toNat < N →
      Step valLen s .tau { s.setClient d t ((s.client d t).pollCoherence valLen op) with net := r }
  | serve (m : Fin N) (t : Fin C) (op' : CacheOp) (resp' : MicaResp) (cache' : Cache) :
      (s.client m t).served < (s.client m t).updateOpsI →
      (s.cache m).serve (linNonStallingSessionsWithCacheOp m) ((s.client m t).updateOps (s.client m t).served)
        ((s.client m t).updateResp (s.client m t).served) = .ok (cache', op', resp') →
      Step valLen s (.serve m t) ((s.setCache m cache').setClient m t ((s.client m t).serve op' resp'))
  | keep (m : Fin N) (t : Fin C) (c : Client) : (s.client m t).served = (s.client m t).updateOpsI →
      (s.client m t).kept < (s.client m t).served → (s.client m t).bookkeeping valLen = .ok c →
      Step valLen s .tau (s.setClient m t c)
  | next (m : Fin N) (t : Fin C) : (s.client m t).kept = (s.client m t).updateOpsI →
      Step valLen s .tau
        (s.setClient m t { s.client m t with updateOpsI := 0, served := 0, kept := 0, ackOpsI := 0 })
  | bcastUpd (m : Fin N) (t : Fin C) : 0 < (s.client m t).ackSize →
      Step valLen s .tau
        { s.setClient m t ((s.client m t).forgeUpd m) with
          net := toOtherClients m t ((s.client m t).nextUpd m) + s.net }

/-- Every cached key starts valid with stamp (0, 0); the buffers hold whatever `malloc` returned. -/
structure Cluster.Init {N C : ℕ} (valLen : UInt8) (s : Cluster N C) : Prop where
  cache : ∀ m k kv, s.cache m k = .some kv → kv.keyMeta.state = .valid ∧ kv.keyMeta.version = 0 ∧
    kv.keyMeta.cid = 0 ∧ kv.keyMeta.lock = 0 ∧ kv.valLen = valLen
  client : ∀ m t, (s.client m t).updateOpsI = 0 ∧ (s.client m t).served = 0 ∧ (s.client m t).kept = 0 ∧
    (s.client m t).ackOpsI = 0 ∧ (s.client m t).ackPushPtr = 0 ∧ (s.client m t).ackPopPtr = 0 ∧
    (s.client m t).ackSize = 0
  waiting : s.waiting = 0
  net : s.net = 0

/-- No version wraps: a PUT that is accepted does not make the version of its record smaller, as a
number. -/
def Cluster.NoWrap {N C : ℕ} (s : Cluster N C) (e : Action N C) (s' : Cluster N C) : Prop :=
  ∀ m k v b, e = .put m k v b →
    ∀ kv kv', s.cache m k = .some kv → s'.cache m k = .some kv' → kv.keyMeta.version ≤ kv'.keyMeta.version

/-- The runs of the whole cluster in which no version wraps. -/
def cluster (N C : ℕ) (valLen : UInt8) : Lts (Cluster N C) (Action N C) :=
  Lts.restrict ⟨Cluster.Init valLen, Cluster.Step valLen⟩ Cluster.NoWrap

end CcKvs.Lin
