/-
The caches of `N` machines under the sequentially consistent protocol. A step
is one round of `cache_batch_op_sc` for a client's GET or PUT, after which a
PUT that succeeded is broadcast as an update (`perform_broadcasts_SC`), or one
round of `cache_batch_op_sc_with_cache_op` for an update that arrives.
An update is delivered once to every other machine, in any order.
-/
import CcKvs.Cache.Sc
import CcKvs.Lib.Lww

namespace CcKvs.Sc

structure Sys (N : ℕ) where
  cache : Fin N → Cache
  /-- Updates in flight, with the machine they are for. -/
  net : Multiset (Fin N × CacheOp)

/-- What a client sees of a step: the operation and its key, the stamp it was given or has
seen, and the bytes it wrote or was given; nothing for a miss. -/
abbrev Event (N L : ℕ) := Lww.Label (Fin N) UInt64 (ℕ ×ₗ ℕ) (Fin L → UInt8)

def answered {N : ℕ} (L : ℕ) (m : Fin N) (cache : Cache) (op : CacheOp) (resp : MicaResp) : Event N L :=
  match resp.type, cache op.key with
  | .getSuccess, some kv => .op op.key ⟨.get, m, kv.timestamp, fun i => resp.val.getD (fun _ => 0) i⟩
  | .putSuccess, some _ => .op op.key ⟨.put, m, op.timestamp, op.bytes L⟩
  | _, _ => .silent

/-- `op` on its way to every machine but `m`, as an update. -/
def toOthers {N : ℕ} (m : Fin N) (op : CacheOp) : Multiset (Fin N × CacheOp) :=
  (Finset.univ.erase m).val.map fun d => (d, { op with opcode := .upd })

/-- One round for one operation: the caches before, the operation and response slot it is
called with, and what the call leaves. `L` is the number of value bytes. -/
inductive Step {N : ℕ} (L : ℕ) : Sys N → Event N L → Sys N → Prop
  | client (m : Fin N) (op op' : CacheOp) (resp resp' : MicaResp) (cache' : Cache) :
      op.opcode = .get ∨ op.opcode = .put → (s.cache m).serve (sc m) op resp = .ok (cache', op', resp') →
      Step L s (answered L m cache' op' resp')
        { cache := Function.update s.cache m cache'
          net := if resp'.type = .putSuccess then toOthers m op' + s.net else s.net }
  | update (d : Fin N) (op op' : CacheOp) (resp resp' : MicaResp) (cache' : Cache) (r) :
      s.net = (d, op) ::ₘ r → resp.type ≠ .unservedMiss →
      (s.cache d).serve scWithCacheOp op resp = .ok (cache', op', resp') →
      Step L s .silent { cache := Function.update s.cache d cache', net := r }

/-- `cache_populate_fixed_len` inserts the same keys with the same values on every machine,
under version 0 and `cid` 0. -/
structure Init {N : ℕ} (valLen : UInt8) (s : Sys N) : Prop where
  version : ∀ m k kv, s.cache m k = some kv → kv.keyMeta.version = 0
  cid : ∀ m k kv, s.cache m k = some kv → kv.keyMeta.cid = 0
  lock : ∀ m k kv, s.cache m k = some kv → kv.keyMeta.lock = 0
  len : ∀ m k kv, s.cache m k = some kv → kv.valLen = valLen
  same : ∀ m m' k, (s.cache m k).map (·.bytes valLen.toNat) = (s.cache m' k).map (·.bytes valLen.toNat)
  net : s.net = 0

/-- No version wraps: a PUT does not make the version of its record smaller, as a number. -/
def NoWrap {N L : ℕ} (s : Sys N) (e : Event N L) (s' : Sys N) : Prop :=
  ∀ m k t b, e = .op k ⟨.put, m, t, b⟩ →
    ∀ kv kv', s.cache m k = some kv → s'.cache m k = some kv' → kv.keyMeta.version ≤ kv'.keyMeta.version

/-- The runs of the protocol on `N` machines in which no version wraps. -/
def system (N : ℕ) (valLen : UInt8) : Lts (Sys N) (Event N valLen.toNat) :=
  Lts.restrict ⟨Init valLen, Step valLen.toNat⟩ NoWrap

end CcKvs.Sc
