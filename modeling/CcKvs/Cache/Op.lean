/-
Operations on the cache and their responses (`cache.h`), and the unit of work
of the third loop of every `cache_batch_op_*` function: a hit, that is, one
operation together with the record its key was found at.
-/
import CcKvs.Cache.Meta
import CcKvs.Lib.Bytes

namespace CcKvs

/-- `SEQUENTIAL_CONSISTENCY` and `LINEARIZABILITY`; the argument `isSC` is 1 for the second. -/
inductive Protocol
  | sc
  | lin
  deriving DecidableEq, Repr

inductive Opcode
  | get
  | put
  | upd
  | inv
  | ack
  | brc
  | other (code : UInt8)
  deriving DecidableEq, Repr

inductive RespType
  | empty
  | getSuccess
  | putSuccess
  | updSuccess
  | invSuccess
  | ackSuccess
  | lastAckSuccess
  | retry
  | miss
  | getStall
  | putStall
  | updFail
  | invFail
  | ackFail
  | getFail
  | putFail
  | unservedMiss
  deriving DecidableEq, Repr

/-- `cache_op`: records in the log and operations on them have the same layout. `key` is
the word with `bkt`, `server` and `tag`, the part of the key that is compared. -/
structure CacheOp where
  keyMeta : CacheMeta
  key : UInt64
  opcode : Opcode
  valLen : UInt8
  value : Bytes

/-- The stamp of a record or operation. -/
def CacheOp.timestamp (c : CacheOp) : ℕ ×ₗ ℕ := stamp c.keyMeta.version c.keyMeta.cid.toNat

/-- The first `L` bytes of the value. -/
def CacheOp.bytes (L : ℕ) (c : CacheOp) : Fin L → UInt8 := fun i => c.value i

/-- `mica_resp`. `val` is what `val_ptr` points at when the call returns, `none` for `NULL`. -/
structure MicaResp where
  type : RespType
  valLen : UInt8
  val : Option Bytes

/-- `kv_ptr[I]`, `op[I]` and `resp[I]` where the keys of record and operation agree. -/
structure Hit where
  kv : CacheOp
  op : CacheOp
  resp : MicaResp

/-- `assert((*op)[I].val_len == kv_ptr[I]->val_len)` -/
def Hit.assertValLen (h : Hit) : Except Fault Unit :=
  if h.op.valLen = h.kv.valLen then .ok () else .error .valLen

def Hit.respond (h : Hit) (t : RespType) : Hit := { h with resp := { h.resp with type := t } }

def CacheOp.setMeta (c : CacheOp) (m : CacheMeta) : CacheOp := { c with keyMeta := m }

/-- `memcpy(kv_ptr[I]->value, (*op)[I].value, kv_ptr[I]->val_len)` -/
def CacheOp.store (kv op : CacheOp) : CacheOp := { kv with value := kv.value.memcpy op.value kv.valLen.toNat }

/-- Unlock without a new version and answer `t`. -/
def Hit.release (h : Hit) (locked : CacheMeta) (t : RespType) : Except Fault Hit := do
  let ol ← optikUnlockDecrementVersion locked
  .ok ({ h with kv := h.kv.setMeta ol }.respond t)

/-- Point the response at the record's value. -/
def Hit.found (h : Hit) : Hit := { h with resp := ⟨.getSuccess, h.kv.valLen, .some h.kv.value⟩ }

/-- The exit test of the lock-free read, when nobody else touches the record meanwhile. -/
def Hit.readUnlocked (h h' : Hit) : Except Fault Hit :=
  if optikIsSameVersionAndValid h.kv.keyMeta h.kv.keyMeta then .ok h' else .error .oddRead

section

variable (c : CacheOp) (m : CacheMeta) (h : Hit) (t : RespType)

@[simp] theorem CacheOp.setMeta_keyMeta : (c.setMeta m).keyMeta = m := rfl
@[simp] theorem CacheOp.setMeta_value : (c.setMeta m).value = c.value := rfl
@[simp] theorem Hit.respond_kv : (h.respond t).kv = h.kv := rfl
@[simp] theorem Hit.respond_type : (h.respond t).resp.type = t := rfl

end

theorem Hit.release_mk {h : Hit} {st : CacheState} {pa cid l : UInt8} {v : UInt32} {t : RespType} (hv : v % 2 = 0) :
    h.release ⟨st, pa, cid, l, v + 1⟩ t = .ok ({ h with kv := h.kv.setMeta ⟨st, pa, cid, 0, v⟩ }.respond t) := by
  simp [release, optikUnlockDecrementVersion, hv, bind, Except.bind]

theorem Hit.readUnlocked_idle {h h' : Hit} (hi : h.kv.keyMeta.Idle) : h.readUnlocked h' = .ok h' := by
  simp [readUnlocked, optikIsSameVersionAndValid, hi.even]

theorem Hit.readUnlocked_eq {h g h' : Hit} (hok : h.readUnlocked g = .ok h') : h' = g := by
  unfold readUnlocked at hok
  split at hok
  · exact (Except.ok.inj hok).symm
  · cases hok

/-- The cache as the map from keys to records that its index and log realise. -/
abbrev Cache := UInt64 → Option CacheOp

/-- One round of a `cache_batch_op_*` function with loop body `body`: a slot marked
`UNSERVED_CACHE_MISS` is skipped, and a key that is not found is a `CACHE_MISS`. -/
def Cache.serve (cache : Cache) (body : Hit → Except Fault Hit) (op : CacheOp) (resp : MicaResp) :
    Except Fault (Cache × CacheOp × MicaResp) :=
  if resp.type = .unservedMiss then .ok (cache, op, resp) else
  match cache op.key with
  | .none => .ok (cache, op, ⟨.miss, 0, .none⟩)
  | .some kv => do
    let h ← body ⟨kv, op, resp⟩
    .ok (Function.update cache op.key (.some h.kv), h.op, h.resp)

/-- A call that returns has gone through each of its parts. -/
theorem bind_eq_ok {ε α β : Type} {x : Except ε α} {f : α → Except ε β} {b : β} :
    (x >>= f) = .ok b ↔ ∃ a, x = .ok a ∧ f a = .ok b := by
  cases x with
  | error e => simp [bind, Except.bind]
  | ok a => simp [bind, Except.bind]

/-- What is computed from the result of a call says that it returns. -/
theorem exists_ok_of_map {α β : Type} {x : Except Fault α} {f : α → β} {b : β} (h : x.toOption.map f = some b) :
    ∃ a, x = .ok a ∧ f a = b := by
  cases x with
  | error e => simp [Except.toOption] at h
  | ok a => exact ⟨a, rfl, by simpa [Except.toOption] using h⟩

/-- A round for a key that is cached runs the loop body on its record. -/
theorem Cache.serve_hit {cache cache' : Cache} {body op op' resp resp' kv} (hr : resp.type ≠ .unservedMiss)
    (hk : cache op.key = some kv) (hok : cache.serve body op resp = .ok (cache', op', resp')) :
    ∃ h, body ⟨kv, op, resp⟩ = .ok h ∧ cache' = Function.update cache op.key (some h.kv) ∧ op' = h.op ∧
      resp' = h.resp := by
  simp only [serve, if_neg hr, hk] at hok
  obtain ⟨h, hb, he⟩ := bind_eq_ok.1 hok
  cases he
  exact ⟨h, hb, rfl, rfl, rfl⟩

/-- A round either leaves the cache as it is, or is a hit that changes one record. -/
theorem Cache.serve_ok {cache cache' : Cache} {body op op' resp resp'}
    (hok : cache.serve body op resp = .ok (cache', op', resp')) :
    (cache' = cache ∧ op' = op ∧ (resp' = resp ∧ resp.type = .unservedMiss ∨ resp'.type = .miss)) ∨
    ∃ kv h, cache op.key = .some kv ∧ body ⟨kv, op, resp⟩ = .ok h ∧
      cache' = Function.update cache op.key (.some h.kv) ∧ op' = h.op ∧ resp' = h.resp := by
  unfold serve at hok
  split at hok
  · next hs =>
    cases hok
    exact .inl ⟨rfl, rfl, .inl ⟨rfl, hs⟩⟩
  · split at hok
    · cases hok
      exact .inl ⟨rfl, rfl, .inr rfl⟩
    · next kv hkv =>
      obtain ⟨h, hb, he⟩ := bind_eq_ok.1 hok
      cases he
      exact .inr ⟨kv, h, hkv, hb, rfl, rfl, rfl⟩

end CcKvs
