/-
The threads of a machine on one record of the cache. The client threads share
the cache, so the loop bodies of the `cache_batch_op_*` functions run
concurrently on the records. Here a loop body is a program of single accesses
to the fields of the record, in the order of the source: metadata that is
copied or passed by value is read field by field, `memcpy` writes byte by byte,
and what the source reads twice is read twice. The memory is sequentially
consistent.

What a slot of the batch holds (`(*op)[I]`, `resp[I]`) belongs to the thread.
-/
import CcKvs.Cache.Memory
import CcKvs.Cache.Batch
import CcKvs.Lib.Locked
import Mathlib

namespace CcKvs.Threads

open Locked

/-- An access to a record. -/
inductive RecordAccess
  | loadState
  | loadPendingAcks
  | loadCid
  | loadLock
  | loadVersion
  | loadValLen
  | storeState (st : CacheState)
  | storePendingAcks (n : UInt8)
  | storeCid (cid : UInt8)
  | storeLock (l : UInt8)
  | storeVersion (v : UInt32)
  | storeByte (i : ℕ) (b : UInt8)
  /-- `CAS_U8(&ol->lock, old, new)` -/
  | casLock (old new : UInt8)

def RecordAccess.Result : RecordAccess → Type
  | loadState => CacheState
  | loadVersion => UInt32
  | loadPendingAcks | loadCid | loadLock | loadValLen | casLock _ _ => UInt8
  | storeState _ | storePendingAcks _ | storeCid _ | storeLock _ | storeVersion _ | storeByte _ _ => Unit

/-- What an access answers, and the record after it. -/
def RecordAccess.exec : (c : RecordAccess) → CacheOp → c.Result × CacheOp
  | loadState, s => (s.keyMeta.state, s)
  | loadPendingAcks, s => (s.keyMeta.pendingAcks, s)
  | loadCid, s => (s.keyMeta.cid, s)
  | loadLock, s => (s.keyMeta.lock, s)
  | loadVersion, s => (s.keyMeta.version, s)
  | loadValLen, s => (s.valLen, s)
  | storeState st, s => ((), s.setMeta { s.keyMeta with state := st })
  | storePendingAcks n, s => ((), s.setMeta { s.keyMeta with pendingAcks := n })
  | storeCid cid, s => ((), s.setMeta { s.keyMeta with cid := cid })
  | storeLock l, s => ((), s.setMeta { s.keyMeta with lock := l })
  | storeVersion v, s => ((), s.setMeta { s.keyMeta with version := v })
  | storeByte i b, s => ((), { s with value := Function.update s.value i b })
  | casLock old new, s => (s.keyMeta.lock, if s.keyMeta.lock = old then s.setMeta { s.keyMeta with lock := new } else s)

/-- The record as a memory, guarded by `key.meta.lock`. -/
def record : Memory CacheOp RecordAccess RecordAccess.Result where
  exec := RecordAccess.exec
  held s := s.keyMeta.lock ≠ 0

/-- What a thread has to do for one slot: the function it is in, and the slot. -/
structure Call where
  fn : CacheFun
  slot : Outcome

/-- Where the code of a loop body branches back to. -/
inductive Label
  /-- The slot has hit. -/
  | enter (c : Call)
  /-- The `do` of a lock-free read; the slot is as the rounds before have left it. -/
  | read (c : Call) (x : Outcome)
  /-- The outer loop of `optik_lock`. -/
  | lock (c : Call) (x : Outcome)

abbrev Prg (α : Type) := Prog RecordAccess RecordAccess.Result α

/-- A block of code: it jumps, fails an assertion, or is done with the slot. -/
abbrev Block := Prg (Label ⊕ Except Fault Outcome)

def jump (l : Label) : Block := .ret (.inl l)

def fail (f : Fault) : Block := .ret (.inr (.error f))

def finish (x : Outcome) : Block := .ret (.inr (.ok x))

def loadState : Prg CacheState := .lift RecordAccess.loadState
def loadPendingAcks : Prg UInt8 := .lift RecordAccess.loadPendingAcks
def loadCid : Prg UInt8 := .lift RecordAccess.loadCid
def loadLock : Prg UInt8 := .lift RecordAccess.loadLock
def loadVersion : Prg UInt32 := .lift RecordAccess.loadVersion
def loadValLen : Prg UInt8 := .lift RecordAccess.loadValLen
def casLock (old new : UInt8) : Prg UInt8 := .lift (RecordAccess.casLock old new)
def store (c : RecordAccess) : Prg c.Result := .lift c

/-- A copy of `kv_ptr[I]->key.meta`. -/
def loadMeta : Prg CacheMeta := do
  let state ← loadState
  let pendingAcks ← loadPendingAcks
  let cid ← loadCid
  let lock ← loadLock
  let version ← loadVersion
  return ⟨state, pendingAcks, cid, lock, version⟩

/-- `memcpy(kv_ptr[I]->value + i, src + i, n)` -/
def memcpyFrom (src : Bytes) : ℕ → ℕ → Prg Unit
  | _, 0 => return ()
  | i, n + 1 => do
    let _ ← store (.storeByte i (src i))
    memcpyFrom src (i + 1) n

/-- `memcpy(kv_ptr[I]->value, (*op)[I].value, kv_ptr[I]->val_len)` -/
def memcpy (src : Bytes) : Prg Unit := do
  let n ← loadValLen
  memcpyFrom src 0 n.toNat

/-- `optik_unlock_write`, which passes the new version on. -/
def optikUnlockWrite (cid : UInt8) (next : UInt32 → Block) : Block := do
  let _ ← store (.storeCid cid)
  let v ← loadVersion
  let _ ← store (.storeVersion (v + 1))
  let v' ← loadVersion
  let _ ← store (.storeLock 0)
  next v'

def optikUnlockDecrementVersion (next : Block) : Block := do
  let v ← loadVersion
  let _ ← store (.storeVersion (v - 1))
  let v' ← loadVersion
  let _ ← store (.storeVersion v')
  let v'' ← loadVersion
  if v'' % 2 = 0 then
    let _ ← store (.storeLock 0)
    next
  else fail .oddUnlock

def optikUnlock (cid : UInt8) (version : UInt32) (next : Block) : Block :=
  if version % 2 = 0 then do
    let _ ← store (.storeCid cid)
    let _ ← store (.storeVersion version)
    let _ ← store (.storeLock 0)
    next
  else fail .oddUnlock

/-- `optik_lock` and what is done after it; `again` is the start of its outer loop. -/
def optikLock (again : Label) (next : Block) : Block := do
  let old ← loadMeta
  if old.lock = 1 then jump again
  else
    let was ← casLock 0 1
    if was = 0 then
      let v ← loadVersion
      let _ ← store (.storeVersion (v + 1))
      next
    else jump again

/-- `assert((*op)[I].val_len == kv_ptr[I]->val_len)`, and on to `optik_lock`. -/
def checkLen (c : Call) : Block := do
  let n ← loadValLen
  if c.slot.op.valLen = n then jump (.lock c c.slot) else fail .valLen

/-! ## The sequentially consistent protocol -/

/-- One round of the lock-free read. -/
def scGet (c : Call) (x : Outcome) : Block := do
  let prev ← loadMeta
  let n ← loadValLen
  let cur ← loadMeta
  if optikIsSameVersionAndValid prev cur then finish ⟨x.op, .getSuccess, n⟩
  else jump (.read c { x with valLen := n })

def scPut (machineId : ℕ) (x : Outcome) : Block := do
  memcpy x.op.value
  optikUnlockWrite (.ofNat machineId) fun version =>
    finish ⟨{ x.op.setMeta { x.op.keyMeta with version := version, cid := .ofNat machineId } with opcode := .brc }, .putSuccess, 0⟩

def scUpd (x : Outcome) : Block := do
  let ol ← loadMeta
  if optikIsGreaterVersion ol x.op.keyMeta then
    memcpy x.op.value
    optikUnlock x.op.keyMeta.cid x.op.keyMeta.version (finish { x with type := .updSuccess })
  else optikUnlockDecrementVersion (finish { x with type := .updFail })

/-- What is done under the lock. -/
def scLocked (machineId : ℕ) (x : Outcome) : Block :=
  match x.op.opcode with
  | .put => scPut machineId x
  | .upd => scUpd x
  | _ => fail .badOpcode

def scBlock (machineId : ℕ) : Label → Block
  | .enter c =>
    match c.fn, c.slot.op.opcode with
    | .sc, .get => jump (.read c c.slot)
    | .sc, .put => checkLen c
    | .sc, .upd | .scWithCacheOp, .upd => checkLen c
    | .sc, .brc | .scWithCacheOp, .brc => finish c.slot
    | _, _ => fail .badOpcode
  | .read c x => scGet c x
  | .lock c x => optikLock (.lock c x) (scLocked machineId x)

/-! ## The linearizable protocol -/

/-- The end of a read: the state goes into the operation, for debugging. -/
def linGetDone (x : Outcome) : Block := do
  let st ← loadState
  finish { x with op := x.op.setMeta { x.op.keyMeta with state := st } }

/-- The condition of the loop after a round without the lock. -/
def linGetCheck (c : Call) (prev : CacheMeta) (x : Outcome) : Block := do
  let cur ← loadMeta
  if optikIsSameVersionAndValid prev cur then linGetDone x else jump (.read c x)

/-- One round of the read, up to the lock if it takes it. -/
def linGet (c : Call) (x : Outcome) : Block := do
  let prev ← loadMeta
  let st ← loadState
  match st with
  | .valid =>
    let n ← loadValLen
    linGetCheck c prev { x with type := .getSuccess, valLen := n }
  | .invalidReplay | .writeReplay => linGetCheck c prev { x with type := .getStall }
  | _ => jump (.lock c x)

/-- Give the lock back and leave the loop: `was_locked_read` overrides the rest of its condition. -/
def linGetUnlock (x : Outcome) : Block :=
  optikUnlockDecrementVersion do
    let _ ← loadMeta
    linGetDone x

/-- The read under the lock. -/
def linGetLocked (x : Outcome) : Block := do
  let st ← loadState
  match st with
  | .valid =>
    let n ← loadValLen
    linGetUnlock { x with type := .getSuccess, valLen := n }
  | .invalidReplay | .writeReplay => linGetUnlock { x with type := .getStall }
  | .invalid =>
    let _ ← store (.storeState .invalidReplay)
    linGetUnlock { x with type := .getStall }
  | .write =>
    let _ ← store (.storeState .writeReplay)
    linGetUnlock { x with type := .getStall }
  | .other _ => fail .badState

section

variable (machineNum machineId : ℕ)

/-- What the accepting cases of the PUT switch have in common. -/
def overlay (x : Outcome) : Block := do
  memcpy x.op.value
  let _ ← store (.storePendingAcks (.ofNat (machineNum - 1)))
  optikUnlockWrite x.op.keyMeta.cid fun version =>
    finish ⟨{ x.op.setMeta { x.op.keyMeta with version := version, cid := .ofNat machineId } with opcode := .brc }, .putSuccess, 0⟩

def linPut (x : Outcome) : Block := do
  let st ← loadState
  match st with
  | .valid | .invalid =>
    let _ ← store (.storeState .write)
    overlay machineNum machineId x
  | .write =>
    let cid ← loadCid
    if x.op.keyMeta.cid ≥ cid then overlay machineNum machineId x
    else optikUnlockDecrementVersion (finish { x with type := .putFail })
  | .invalidReplay => optikUnlockDecrementVersion (finish { x with type := .putStall })
  | .writeReplay =>
    let cid ← loadCid
    if x.op.keyMeta.cid > cid then overlay machineNum machineId x
    else
      let cid' ← loadCid
      if x.op.keyMeta.cid = cid' then optikUnlockDecrementVersion (finish { x with type := .putStall })
      else optikUnlockDecrementVersion (finish { x with type := .putFail })
  | .other _ => fail .badState

/-- `kv_ptr[I]->key.meta.state == a || kv_ptr[I]->key.meta.state == b` -/
def stateIn (a b : CacheState) : Prg Bool := do
  let st ← loadState
  if st = a then return true
  else
    let st' ← loadState
    return st' = b

def linUpdAccept (x : Outcome) : Block := do
  memcpy x.op.value
  let _ ← store (.storeState .valid)
  optikUnlock x.op.keyMeta.cid x.op.keyMeta.version (finish { x with type := .updSuccess })

def linUpd (x : Outcome) : Block := do
  let ol ← loadMeta
  if optikIsSameVersionPlusOne ol x.op.keyMeta then
    let awaited ← stateIn .invalid .invalidReplay
    if awaited then linUpdAccept x else optikUnlockDecrementVersion (finish { x with type := .updFail })
  else optikUnlockDecrementVersion (finish { x with type := .updFail })

/-- One case of the INV switch: the comparison it makes and the state it leaves. -/
def invalidate (x : Outcome) (greater : CacheMeta → Bool) (st : CacheState) : Block := do
  let ol ← loadMeta
  let x' : Outcome := { x with op := { x.op with opcode := .ack } }
  if greater ol then
    let _ ← store (.storeState st)
    optikUnlock x.op.keyMeta.cid x.op.keyMeta.version (finish { x' with type := .invSuccess })
  else optikUnlockDecrementVersion (finish { x' with type := .invFail })

def linInv (x : Outcome) : Block := do
  let st ← loadState
  match st with
  | .valid | .invalid => invalidate x (optikIsGreaterVersion · x.op.keyMeta) .invalid
  | .write => invalidate x (optikIsGreaterVersionSession · x.op.keyMeta machineId) .invalid
  | .invalidReplay => invalidate x (optikIsGreaterVersion · x.op.keyMeta) .invalidReplay
  | .writeReplay => invalidate x (optikIsGreaterVersionSession · x.op.keyMeta machineId) .invalidReplay
  | .other _ => fail .badState

def linAckAccept (x : Outcome) : Block := do
  let n ← loadPendingAcks
  if n = 1 then
    let _ ← store (.storeState .valid)
    let _ ← store (.storeCid (.ofNat machineId))
    let _ ← store (.storePendingAcks 0)
    optikUnlockDecrementVersion (finish { x with type := .lastAckSuccess })
  else
    let n' ← loadPendingAcks
    let _ ← store (.storePendingAcks (n' - 1))
    optikUnlockDecrementVersion (finish { x with type := .ackSuccess })

def linAck (x : Outcome) : Block := do
  let writing ← stateIn .write .writeReplay
  if writing then
    let version ← loadVersion
    if version = x.op.keyMeta.version + 1 then linAckAccept machineId x
    else optikUnlockDecrementVersion (finish { x with type := .ackFail })
  else optikUnlockDecrementVersion (finish { x with type := .ackFail })

/-- What is done under the lock. -/
def linLocked (x : Outcome) : Block :=
  match x.op.opcode with
  | .get => linGetLocked x
  | .put => linPut machineNum machineId x
  | .upd => linUpd x
  | .inv => linInv machineId x
  | .ack => linAck machineId x
  | _ => fail .badOpcode

def linBlock : Label → Block
  | .enter c =>
    match c.fn, c.slot.op.opcode with
    | .lin, .get => jump (.read c c.slot)
    | .lin, .put => checkLen c
    | .lin, .upd | .linWithCacheOp, .upd => checkLen c
    | .lin, .inv | .linWithSmallCacheOp, .inv => jump (.lock c c.slot)
    | .lin, .ack | .linWithCacheOp, .ack => jump (.lock c c.slot)
    | .lin, .brc | .linWithCacheOp, .brc => finish c.slot
    | _, _ => fail .badOpcode
  | .read c x => linGet c x
  | .lock c x => optikLock (.lock c x) (linLocked machineNum machineId x)

end

/-- The code of `cache_batch_op_sc` and `cache_batch_op_sc_with_cache_op`. -/
def scCode (machineId : ℕ) : Code RecordAccess RecordAccess.Result Call Label (Except Fault Outcome) := ⟨.enter, scBlock machineId⟩

/-- The code of `cache_batch_op_lin_non_stalling_sessions` and its two variants. -/
def linCode (machineNum machineId : ℕ) : Code RecordAccess RecordAccess.Result Call Label (Except Fault Outcome) :=
  ⟨.enter, linBlock machineNum machineId⟩

end CcKvs.Threads
