/-
The eight bytes of metadata in front of every cached record, and the OPTIK
operations on them (`optik_mod.h`). A version is even while nobody writes and
odd under the lock, so a comparison made under the lock sets an odd version
against the even one of a message; the lemmas at the end say that it orders
the stamps (version, cid) lexicographically all the same.

One operation on a record is one step: what another thread can do in between
is excluded by the lock. A loop that waits for such a thread is a fault here.
-/
import Mathlib.Data.Prod.Lex
import Mathlib.Tactic.Common

namespace CcKvs

/-- `key.meta.state`. A byte that names none of the five states is kept as it is. -/
inductive CacheState
  | valid
  | invalid
  | invalidReplay
  | write
  | writeReplay
  | other (code : UInt8)
  deriving DecidableEq, Repr

/-- `cache_meta`. The `cid` is a machine id, or a session id while a local write is pending. -/
structure CacheMeta where
  state : CacheState
  pendingAcks : UInt8
  cid : UInt8
  lock : UInt8
  version : UInt32
  deriving DecidableEq, Repr

/-- Why a call does not return. -/
inductive Fault
  /-- `optik_lock` waits for a lock that nobody will release. -/
  | lockHeld
  /-- A lock-free read repeats because the version is odd. -/
  | oddRead
  /-- `assert(version % 2 == 0)` when unlocking. -/
  | oddUnlock
  /-- `assert` that operation and record have the same `val_len`. -/
  | valLen
  /-- `default: assert(0)` of a switch on the state. -/
  | badState
  /-- `assert(0)` for an opcode the function does not serve. -/
  | badOpcode
  /-- `assert` that the slot at the push pointer of the update queue is free. -/
  | ackQueueFull
  /-- `assert(c->cidx < CACHE_BATCH_SIZE)`. -/
  | cacheBatchFull
  /-- `assert(id < WINDOW_SIZE)` when a cold request is added. -/
  | windowFull
  /-- `assert(DISABLE_LOCALS == 0 || rm_id != machine_id)`. -/
  | localKey
  /-- `assert(c->bufferused[rm_id] == 0)`, or the same for `cache_bufferused`. -/
  | bufferBusy
  /-- `assert(is_power_of_2(num_bkts) == 1 && num_bkts <= M_16)` -/
  | numBkts
  /-- `assert` that the virtual offsets of the log are not used up. -/
  | logFull
  /-- `assert(c->total_ops <= WORKER_MAX_BATCH)` -/
  | workerBatchFull
  /-- `assert` that a slot carried over is neither empty nor done with. -/
  | carriedOver
  /-- `assert(ops[op_i].opcode == CACHE_OP_GET)` for the slot a read is counted in. -/
  | notGet
  /-- `assert(ops[op_i].val_len < 255)` for the slot a read is counted in. -/
  | tooManyReads
  /-- `assert(ops[i].val_len > 0)` for a write. -/
  | emptyValue
  /-- `exit(0)` or `assert(0)` for a hit that the bookkeeping does not expect. -/
  | unexpectedHit
  /-- `hottest_keys_pointers` is read, but `NULL` was passed for it. -/
  | nullPointer
  /-- `default: assert(0)` of `code_to_str`. -/
  | wrongCode
  deriving DecidableEq, Repr

def optikLock (ol : CacheMeta) : Except Fault CacheMeta :=
  if ol.lock = 0 then .ok { ol with lock := 1, version := ol.version + 1 } else .error .lockHeld

def optikIsSameVersionPlusOne (v1 v2 : CacheMeta) : Bool :=
  v1.version == v2.version + 1 && v1.cid == v2.cid

def optikIsSameVersionAndValid (v1 v2 : CacheMeta) : Bool :=
  v1.version == v2.version && v1.cid == v2.cid && v1.version % 2 == 0

def optikIsGreaterVersion (curr receiv : CacheMeta) : Bool :=
  curr.version < receiv.version || (curr.version - 1 == receiv.version && curr.cid < receiv.cid)

/-- The comparison for records whose `cid` is a session id: the machine id stands in for it. -/
def optikIsGreaterVersionSession (curr receiv : CacheMeta) (machineId : ℕ) : Bool :=
  curr.version < receiv.version || (curr.version - 1 == receiv.version && machineId < receiv.cid.toNat)

/-- The new metadata, and the version reported to the caller. -/
def optikUnlockWrite (ol : CacheMeta) (cid : UInt8) : CacheMeta × UInt32 :=
  ({ ol with cid := cid, version := ol.version + 1, lock := 0 }, ol.version + 1)

def optikUnlockDecrementVersion (ol : CacheMeta) : Except Fault CacheMeta :=
  if (ol.version - 1) % 2 = 0 then .ok { ol with version := ol.version - 1, lock := 0 } else .error .oddUnlock

def optikUnlock (ol : CacheMeta) (cid : UInt8) (version : UInt32) : Except Fault CacheMeta :=
  if version % 2 = 0 then .ok { ol with cid := cid, version := version, lock := 0 } else .error .oddUnlock

/-- How metadata is left between operations. -/
structure CacheMeta.Idle (ol : CacheMeta) : Prop where
  free : ol.lock = 0
  even : ol.version % 2 = 0

instance (ol : CacheMeta) : Decidable ol.Idle :=
  decidable_of_iff (ol.lock = 0 ∧ ol.version % 2 = 0) ⟨fun h => ⟨h.1, h.2⟩, fun h => ⟨h.1, h.2⟩⟩

/-- A stamp as a pair of numbers, ordered by version first. -/
def stamp (version : UInt32) (cid : ℕ) : ℕ ×ₗ ℕ := toLex (version.toNat, cid)

theorem stamp_lt {v w : UInt32} {c d : ℕ} :
    stamp v c < stamp w d ↔ v.toNat < w.toNat ∨ v.toNat = w.toNat ∧ c < d := Prod.Lex.toLex_lt_toLex

theorem stamp_inj {v w : UInt32} {c d : ℕ} : stamp v c = stamp w d ↔ v = w ∧ c = d := by
  simp [stamp, UInt32.toNat_inj]

theorem even_toNat {v : UInt32} : v % 2 = 0 ↔ v.toNat % 2 = 0 := by
  rw [← UInt32.toNat_inj, UInt32.toNat_mod]
  rfl

/-- Locking an even version never wraps. -/
theorem toNat_add_one_of_even {v : UInt32} (h : v % 2 = 0) : (v + 1).toNat = v.toNat + 1 := by
  have h2 := even_toNat.1 h
  have hlt := v.toNat_lt
  rw [UInt32.toNat_add]
  simp only [UInt32.reduceToNat]
  omega

theorem add_one_lt_iff {v w : UInt32} (hv : v % 2 = 0) (hw : w % 2 = 0) : v + 1 < w ↔ v.toNat < w.toNat := by
  have h1 := even_toNat.1 hv
  have h2 := even_toNat.1 hw
  rw [UInt32.lt_iff_toNat_lt, toNat_add_one_of_even hv]
  omega

theorem even_add_two {v : UInt32} (h : v % 2 = 0) : (v + 1 + 1) % 2 = 0 := by
  have h1 := even_toNat.1 h
  rw [even_toNat, UInt32.toNat_add, toNat_add_one_of_even h]
  simp only [UInt32.reduceToNat]
  omega

/-- Unless it wraps, a write adds two to the version. -/
theorem toNat_add_two_of_even {v : UInt32} (h : v % 2 = 0) (hle : v ≤ v + 1 + 1) : (v + 1 + 1).toNat = v.toNat + 2 := by
  have h1 := toNat_add_one_of_even h
  have hlt := v.toNat_lt
  rw [UInt32.le_iff_toNat_le, UInt32.toNat_add, h1] at hle
  rw [UInt32.toNat_add, h1]
  simp only [UInt32.reduceToNat] at hle ⊢
  omega

/-- A machine id fits the byte it is stored in. -/
theorem toNat_ofNat_fin {N : ℕ} {m : Fin N} (hN : N ≤ 256) : (UInt8.ofNat m).toNat = m := by
  rw [UInt8.toNat_ofNat']
  exact Nat.mod_eq_of_lt (m.isLt.trans_le hN)

namespace CacheMeta.Idle

variable {ol : CacheMeta}

theorem lock (h : ol.Idle) : optikLock ol = .ok { ol with lock := 1, version := ol.version + 1 } := by
  simp [optikLock, h.free]

/-- Under the lock, `optik_is_greater_version_session` compares stamps. -/
theorem greater_session (h : ol.Idle) {l : UInt8} {receiv : CacheMeta} (hr : receiv.version % 2 = 0) {machineId : ℕ} :
    optikIsGreaterVersionSession { ol with lock := l, version := ol.version + 1 } receiv machineId = true ↔
      stamp ol.version machineId < stamp receiv.version receiv.cid.toNat := by
  simp [optikIsGreaterVersionSession, stamp_lt, add_one_lt_iff h.even hr, UInt32.toNat_inj]

/-- Under the lock, `optik_is_greater_version` compares stamps. -/
theorem greater (h : ol.Idle) {l : UInt8} {receiv : CacheMeta} (hr : receiv.version % 2 = 0) :
    optikIsGreaterVersion { ol with lock := l, version := ol.version + 1 } receiv = true ↔
      stamp ol.version ol.cid.toNat < stamp receiv.version receiv.cid.toNat := by
  simp [optikIsGreaterVersion, stamp_lt, add_one_lt_iff h.even hr, UInt32.toNat_inj,
    UInt8.lt_iff_toNat_lt]

end CacheMeta.Idle

end CcKvs
