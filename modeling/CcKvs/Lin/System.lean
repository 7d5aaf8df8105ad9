/-
One key under the linearizable protocol: a copy on every machine, and the
invalidations, acknowledgements and updates between them. Every step is a call
of one of the `cache_batch_op_lin_*` functions with one operation, followed by
what the client sends because of the answer:

  a PUT that succeeds waits until its INVs are broadcast (`perform_broadcasts_LIN`),
  an INV that succeeds is acknowledged to the machine its `cid` names (`send_acks`),
  the last ACK makes the client broadcast the UPD (`forge_bcast_wrs_LIN`).

A message is delivered once, in any order, and never lost.
-/
import CcKvs.Cache.Lin
import CcKvs.Lib.Lts

namespace CcKvs.Lin

structure Sys (N : ℕ) where
  copy : Fin N → CacheOp
  /-- Successful PUTs, marked `CACHE_OP_BRC`, whose INVs are not sent yet. -/
  waiting : Multiset (Fin N × CacheOp)
  /-- Messages in flight: the number of the machine addressed, and the operation carried. -/
  net : Multiset (ℕ × CacheOp)

/-- The stamp of machine `m`'s copy; while `m` writes, its own id replaces the session id stored. -/
def copyStamp {N : ℕ} (m : Fin N) (kv : CacheOp) : ℕ ×ₗ ℕ := stamp kv.keyMeta.version (kv.keyMeta.owner m)

/-- An operation executed on a machine: its answer and the stamp of the copy it leaves; or a broadcast. -/
inductive Event (N : ℕ)
  | op (m : Fin N) (answer : RespType) (t : ℕ ×ₗ ℕ)
  | bcast (m : Fin N)

/-- `op` as machine `m` sends it, under its own id. -/
def outgoing {N : ℕ} (m : Fin N) (oc : Opcode) (op : CacheOp) : CacheOp :=
  { op.setMeta { op.keyMeta with cid := .ofNat m } with opcode := oc }

/-- `op` on its way to every machine but `m`. -/
def toOthers {N : ℕ} (m : Fin N) (op : CacheOp) : Multiset (ℕ × CacheOp) :=
  (Finset.univ.erase m).val.map fun d => (d.val, op)

/-- A call of one of the functions, with the operation it was made with and its answer; or a
broadcast. -/
inductive Call (N : ℕ)
  | client (m : Fin N) (op : CacheOp) (answer : RespType)
  | bcast (m : Fin N)
  | deliver (d : Fin N) (op : CacheOp) (answer : RespType)

open Function in
/-- `valLen` is `HERD_VALUE_SIZE >> SHIFT_BITS`, which the client sets on every update. -/
inductive CallStep {N : ℕ} (valLen : UInt8) : Sys N → Call N → Sys N → Prop
  | client (m : Fin N) (h h' : Hit) : h.kv = s.copy m → h.op.opcode = .get ∨ h.op.opcode = .put →
      linNonStallingSessions N m h = .ok h' →
      CallStep valLen s (.client m h.op h'.resp.type)
        { s with
          copy := update s.copy m h'.kv
          waiting := if h'.resp.type = .putSuccess then (m, h'.op) ::ₘ s.waiting else s.waiting }
  | bcast (m : Fin N) (op : CacheOp) (w) : s.waiting = (m, op) ::ₘ w →
      CallStep valLen s (.bcast m) { s with waiting := w, net := toOthers m (outgoing m .inv op) + s.net }
  | inv (d : Fin N) (h h' : Hit) (r) : s.net = (d.val, h.op) ::ₘ r → h.op.opcode = .inv → h.kv = s.copy d →
      linNonStallingSessionsWithSmallCacheOp d h = .ok h' →
      CallStep valLen s (.deliver d h.op h'.resp.type)
        { s with
          copy := update s.copy d h'.kv
          net := if h'.resp.type = .invSuccess then (h'.op.keyMeta.cid.toNat, outgoing d .ack h'.op) ::ₘ r else r }
  | updOrAck (d : Fin N) (h h' : Hit) (r) : s.net = (d.val, h.op) ::ₘ r → h.op.opcode = .upd ∨ h.op.opcode = .ack →
      h.kv = s.copy d → linNonStallingSessionsWithCacheOp d h = .ok h' →
      CallStep valLen s (.deliver d h.op h'.resp.type)
        { s with
          copy := update s.copy d h'.kv
          net := if h'.resp.type = .lastAckSuccess then
            toOthers d (outgoing d .upd { h'.op with valLen := valLen }) + r else r }

/-- What is seen of a call that has left `s'`. -/
def Call.event {N : ℕ} (c : Call N) (s' : Sys N) : Event N :=
  match c with
  | client m _ answer | deliver m _ answer => .op m answer (copyStamp m (s'.copy m))
  | bcast m => .bcast m

def Step {N : ℕ} (valLen : UInt8) (s : Sys N) (e : Event N) (s' : Sys N) : Prop := ∃ c, CallStep valLen s c s' ∧ c.event s' = e

/-- Every copy starts valid with stamp (0, 0), and nothing is under way. -/
structure Init {N : ℕ} (valLen : UInt8) (s : Sys N) : Prop where
  valid : ∀ m, (s.copy m).keyMeta.state = .valid
  version : ∀ m, (s.copy m).keyMeta.version = 0
  cid : ∀ m, (s.copy m).keyMeta.cid = 0
  lock : ∀ m, (s.copy m).keyMeta.lock = 0
  valLen : ∀ m, (s.copy m).valLen = valLen
  waiting : s.waiting = 0
  net : s.net = 0

/-- No version wraps: a PUT that is accepted does not make the version of the copy smaller, as a
number. -/
def NoWrap {N : ℕ} (s : Sys N) (e : Event N) (s' : Sys N) : Prop :=
  ∀ m t, e = .op m .putSuccess t → (s.copy m).keyMeta.version ≤ (s'.copy m).keyMeta.version

/-- The runs of the protocol on `N` machines in which no version wraps. -/
def system (N : ℕ) (valLen : UInt8) : Lts (Sys N) (Event N) :=
  Lts.restrict ⟨Init valLen, Step valLen⟩ NoWrap

/-- The same runs, recorded call by call. -/
def calls (N : ℕ) (valLen : UInt8) : Lts (Sys N) (Call N) :=
  Lts.restrict ⟨Init valLen, CallStep valLen⟩ fun s c s' => NoWrap s (c.event s') s'

end CcKvs.Lin
