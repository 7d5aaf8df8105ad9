/-
The MICA store (`mica.h`, `mica.c`, and its concurrent variant in `cache.c`):
an index of buckets with eight slots each, and a circular log of records. A
slot keeps the virtual offset of its record, which stands at that offset
modulo the capacity. The workers run `mica_batch_op_crcw`.

`htLog` is the memory from the start of the log on. A record written across
the physical end of the log lands in the bytes that follow it. Operations are
the bytes of the request they were received in. `kv_lock` keeps the inserts of
several threads apart, and a call is one step here, so it does not appear.
-/
import CcKvs.Layout

namespace CcKvs

/-- `mica_slot`: a 23-bit tag and a 40-bit virtual offset. -/
structure MicaSlot where
  inUse : Bool
  tag : ℕ
  offset : ℕ
  deriving DecidableEq, Repr

/-- `mica_kv`. The buckets that exist are those up to `bktMask`. -/
structure MicaKv where
  htIndex : ℕ → Fin 8 → MicaSlot
  htLog : Bytes
  bktMask : ℕ
  logCap : ℕ
  logMask : ℕ
  logHead : ℕ
  numGetOp : ℕ
  numPutOp : ℕ
  numGetFail : ℕ
  numInsertOp : ℕ
  numIndexEvictions : ℕ

def isPowerOf2 (x : ℕ) : Bool := (List.range 31).any fun k => x == 2 ^ k

/-- `mica_init` on whatever the allocated memory holds: only the `in_use` bits are cleared. -/
def micaInit (index : ℕ → Fin 8 → MicaSlot) (log : Bytes) (numBkts logCap : ℕ) : Except Fault MicaKv :=
  if isPowerOf2 numBkts ∧ numBkts ≤ 2 ^ 24 then
    .ok
      { htIndex := fun b j => { index b j with inUse := false }
        htLog := log
        bktMask := numBkts - 1
        logCap := logCap
        logMask := logCap - 1
        logHead := 0
        numGetOp := 0
        numPutOp := 0
        numGetFail := 0
        numInsertOp := 0
        numIndexEvictions := 0 }
  else .error .numBkts

/-! ## Lookup -/

/-- `key.bkt`, the low half of the word that is compared. -/
def keyBkt (key : UInt64) : ℕ := key.toNat % 2 ^ 32

/-- `key.tag`, its upper sixteen bits. -/
def keyTag (key : UInt64) : ℕ := key.toNat / 2 ^ 48

/-- Subtraction of `uint64_t`. -/
def sub64 (a b : ℕ) : ℕ := (a + 2 ^ 64 - b) % 2 ^ 64

/-- `x & ~mask`. -/
def clearBits (x mask : ℕ) : ℕ := x - (x &&& mask)

namespace MicaKv

variable (kv : MicaKv)

def bkt (key : UInt64) : ℕ := keyBkt key &&& kv.bktMask

/-- The slots of the bucket a key belongs to. -/
def slots (key : UInt64) : Fin 8 → MicaSlot := kv.htIndex (kv.bkt key)

/-- The first slot in use with the key's tag. -/
def slotOf (key : UInt64) : Option (Fin 8) :=
  (List.finRange 8).find? fun j => (kv.slots key j).inUse && (kv.slots key j).tag == keyTag key

/-- `kv_ptr[I]`, as an address in the log: a slot the head has wrapped around is not found. -/
def lookup (key : UInt64) : Option ℕ :=
  match kv.slotOf key with
  | .none => .none
  | .some j =>
    let offset := (kv.slots key j).offset
    if kv.logCap ≤ sub64 kv.logHead offset then .none else .some (offset &&& kv.logMask)

/-- The record at address `p`. -/
def record (p : ℕ) : CacheOp := .ofBytes (kv.htLog.drop p)

/-- `key_in_store[I]`: where the lookup pointed, if the record there has the key. -/
def inStore (key : UInt64) (kvPtr : Option ℕ) : Option ℕ := kvPtr.filter fun p => (kv.record p).key == key

/-! ## Insert -/

/-- The last slot that has the tag or is free. -/
def slotToUse (slots : Fin 8 → MicaSlot) (tag : ℕ) : Option (Fin 8) :=
  (List.finRange 8).foldl (fun r i => if (slots i).tag = tag ∨ (slots i).inUse = false then some i else r) none

/-- The slot an insert takes: if there is none to use, `tag & 7` is evicted. -/
def chosenSlot (slots : Fin 8 → MicaSlot) (tag : ℕ) : Fin 8 := (slotToUse slots tag).getD (.ofNat 8 tag)

/-- `log_head` after a record of `len` bytes: aligned, and moved on to the next lap when the
first one is almost full. The subtraction wraps once the head is beyond `log_cap`. -/
def nextHead (cfg : Config) (len : ℕ) : ℕ :=
  let head := clearBits (kv.logHead + len + 7) 7
  if sub64 kv.logCap head ≤ cfg.micaMaxValue + 32 then clearBits (head + kv.logCap) kv.logMask else head

/-- What `mica_insert_one` and `mica_insert_one_crcw` share. -/
def insertOne (cfg : Config) (op : Bytes) (lenToCopy : ℕ) : Except Fault MicaKv :=
  let key := (CacheOp.ofBytes op).key
  let i := chosenSlot (kv.slots key) (keyTag key)
  if lenToCopy + 8 < sub64 (2 ^ 40) kv.logHead then
    .ok
      { kv with
        htIndex := Function.update kv.htIndex (kv.bkt key)
          (Function.update (kv.slots key) i ⟨true, keyTag key, kv.logHead % 2 ^ 40⟩)
        htLog := kv.htLog.write (kv.logHead &&& kv.logMask) op lenToCopy
        logHead := kv.nextHead cfg lenToCopy
        numInsertOp := kv.numInsertOp + 1
        numIndexEvictions :=
          if slotToUse (kv.slots key) (keyTag key) = none then kv.numIndexEvictions + 1 else kv.numIndexEvictions }
  else .error .logFull

end MicaKv

/-! ## Batches -/

inductive MicaRespType
  | getSuccess
  | putSuccess
  | getFail
  deriving DecidableEq, Repr

/-- `mica_resp` as the store fills it in. `val_ptr` is an address in the log. -/
structure KvResp where
  type : MicaRespType
  valLen : UInt8
  valPtr : Option ℕ
  deriving DecidableEq, Repr

/-- What a response points at. -/
def MicaKv.deref (kv : MicaKv) (r : KvResp) : Option (List UInt8) :=
  r.valPtr.map fun p => (kv.htLog.drop p).toList r.valLen.toNat

/-- Where `mica_batch_op` and `mica_batch_op_crcw` differ. Besides the store, a PUT changes
metadata of the operation itself. -/
structure Backend where
  /-- A GET of the record at `p`. -/
  get : MicaKv → ℕ → Except Fault MicaKv
  /-- A PUT to the record at `p`. -/
  put : MicaKv → Bytes → ℕ → Except Fault (MicaKv × Bytes)
  /-- A GET of an absent key. -/
  getFail : MicaKv → MicaKv
  /-- A PUT of an absent key. -/
  insert : MicaKv → Bytes → Except Fault (MicaKv × Bytes)

namespace Backend

variable (s : Backend)

/-- One round of the last loop, with what the lookup loop has found for the operation. -/
def serve (kv : MicaKv) (op : Bytes) (kvPtr : Option ℕ) : Except Fault (MicaKv × Bytes × KvResp) :=
  let o := CacheOp.ofBytes op
  match kv.inStore o.key kvPtr with
  | .some p =>
    match o.opcode with
    | .get => do
      let kv' ← s.get kv p
      .ok (kv', op, ⟨.getSuccess, (kv.record p).valLen, .some (p + micaOpMetadata)⟩)
    | .put =>
      if o.valLen = (kv.record p).valLen then do
        let x ← s.put kv op p
        .ok (x.1, x.2, ⟨.putSuccess, 0, .none⟩)
      else .error .valLen
    | _ => .error .badOpcode
  | .none =>
    if o.opcode = .get then .ok (s.getFail kv, op, ⟨.getFail, 0, .none⟩)
    else do
      let x ← s.insert kv op
      .ok (x.1, x.2, ⟨.putSuccess, 0, .none⟩)

/-- The last loop: each operation with its `kv_ptr`. -/
def serveAll (kv : MicaKv) : List (Bytes × Option ℕ) → Except Fault (MicaKv × List (Bytes × KvResp))
  | [] => .ok (kv, [])
  | x :: rest => do
    let a ← s.serve kv x.1 x.2
    let b ← serveAll a.1 rest
    .ok (b.1, a.2 :: b.2)

/-- A batch: all lookups come before the first operation. -/
def batch (kv : MicaKv) (ops : List Bytes) : Except Fault (MicaKv × List (Bytes × KvResp)) :=
  s.serveAll kv (ops.map fun op => (op, kv.lookup (CacheOp.ofBytes op).key))

end Backend

/-- `memcpy(kv_ptr[I]->value, op[I]->value, kv_ptr[I]->val_len)` -/
def MicaKv.copyValue (kv : MicaKv) (op : Bytes) (p : ℕ) : Bytes :=
  kv.htLog.write (p + micaOpMetadata) (op.drop micaOpMetadata) (kv.record p).valLen.toNat

def micaInsertOne (cfg : Config) (kv : MicaKv) (op : Bytes) : Except Fault (MicaKv × Bytes) := do
  let kv' ← kv.insertOne cfg op (micaOpMetadata + cfg.herdValueSize)
  .ok (kv', op)

/-- The metadata a record is inserted with. -/
def CacheMeta.fresh : CacheMeta := ⟨.valid, 0, 0, 0, 0⟩

def micaInsertOneCrcw (cfg : Config) (kv : MicaKv) (op : Bytes) : Except Fault (MicaKv × Bytes) := do
  let op' := op.write 0 CacheMeta.fresh.toBytes 8
  let kv' ← kv.insertOne cfg op' (micaOpMetadata + (CacheOp.ofBytes op).valLen.toNat)
  .ok (kv', op')

/-- The store of `mica.c`, for one thread. -/
def mica (cfg : Config) : Backend where
  get kv _ := .ok { kv with numGetOp := kv.numGetOp + 1 }
  put kv op p := .ok ({ kv with numPutOp := kv.numPutOp + 1, htLog := kv.copyValue op p }, op)
  getFail kv := { kv with numGetFail := kv.numGetFail + 1 }
  insert := micaInsertOne cfg

/-- The store of `cache.c`: values are read and written under the lock in the record. -/
def micaCrcw (cfg : Config) (machineId : UInt8) : Backend where
  get kv p :=
    if optikIsSameVersionAndValid (kv.record p).keyMeta (kv.record p).keyMeta then .ok kv else .error .oddRead
  put kv op p := do
    let ol ← optikLock (kv.record p).keyMeta
    let x := optikUnlockWrite ol machineId
    .ok ({ kv with htLog := (kv.copyValue op p).write p x.1.toBytes 8 }, op.write 4 (Bytes.le x.2.toNat) 4)
  getFail kv := kv
  insert := micaInsertOneCrcw cfg

def micaBatchOp (cfg : Config) : MicaKv → List Bytes → Except Fault (MicaKv × List (Bytes × KvResp)) :=
  (mica cfg).batch

def micaBatchOpCrcw (cfg : Config) (machineId : UInt8) :
    MicaKv → List Bytes → Except Fault (MicaKv × List (Bytes × KvResp)) :=
  (micaCrcw cfg machineId).batch

end CcKvs
