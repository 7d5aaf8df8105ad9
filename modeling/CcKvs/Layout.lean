/-
Sizes (`hrd.h`, `mica.h`) and the layout of a record or operation in memory
(`cache.h`): eight bytes of metadata, the eight bytes of the key that are
compared, opcode, `val_len`, value. `cache_op`, `extended_cache_op` (without
coalescing) and `mica_op` all have this layout and the same size.
-/
import CcKvs.Cache.Op

namespace CcKvs

/-- The compile-time choice between small values and values of several cache lines. -/
structure Config where
  useBigObjects : Bool
  extraCacheLines : ℕ
  deriving DecidableEq, Repr

/-- The values `hrd.h` is shipped with. -/
def Config.shipped : Config := ⟨false, 1⟩

def keySize : ℕ := 16

/-- `MICA_OP_METADATA`: key, opcode and length. -/
def micaOpMetadata : ℕ := keySize + 1 + 1

theorem micaOpMetadata_eq : micaOpMetadata = 18 := rfl

def herdGetReqSize : ℕ := keySize + 1

def baseValueSize : ℕ := 32

def cacheBatchSize : ℕ := 600

namespace Config

variable (cfg : Config)

def shiftBits : ℕ := if cfg.useBigObjects then 3 else 0

def herdValueSize : ℕ :=
  if cfg.useBigObjects then cfg.extraCacheLines * 64 + baseValueSize else baseValueSize

def herdPutReqSize : ℕ := keySize + 1 + 1 + cfg.herdValueSize

def micaMaxValue : ℕ := if cfg.useBigObjects then 46 + cfg.extraCacheLines * 64 else 46

/-- `sizeof(struct cache_op)`, which is `MICA_OP_SIZE`. -/
def sizeofCacheOp : ℕ := micaOpMetadata + cfg.micaMaxValue

/-- A record in memory is larger than a PUT request (`main.c` asserts that it is). -/
theorem sizeofCacheOp_eq : cfg.sizeofCacheOp = cfg.herdPutReqSize + 14 := by
  unfold sizeofCacheOp herdPutReqSize herdValueSize micaMaxValue micaOpMetadata baseValueSize
  split <;> omega

theorem herdPutReqSize_eq : cfg.herdPutReqSize = micaOpMetadata + cfg.herdValueSize := rfl

theorem herdValueSize_ge : 32 ≤ cfg.herdValueSize := by
  unfold herdValueSize baseValueSize
  split <;> omega

end Config

/-! ## Bytes of a record -/

def CacheState.ofByte (b : UInt8) : CacheState :=
  if b = 1 then .valid else if b = 2 then .invalid else if b = 3 then .invalidReplay
  else if b = 4 then .write else if b = 5 then .writeReplay else .other b

def CacheState.toByte : CacheState → UInt8
  | valid => 1
  | invalid => 2
  | invalidReplay => 3
  | write => 4
  | writeReplay => 5
  | other code => code

def Opcode.ofByte (b : UInt8) : Opcode :=
  if b = 111 then .get else if b = 112 then .put else if b = 113 then .upd
  else if b = 114 then .inv else if b = 115 then .ack else if b = 116 then .brc else .other b

def Opcode.toByte : Opcode → UInt8
  | get => 111
  | put => 112
  | upd => 113
  | inv => 114
  | ack => 115
  | brc => 116
  | other code => code

theorem Opcode.toByte_ofByte (b : UInt8) : (ofByte b).toByte = b := by
  unfold ofByte
  split_ifs <;> simp [toByte, *]

def CacheMeta.ofBytes (b : Bytes) : CacheMeta where
  state := .ofByte (b 0)
  pendingAcks := b 1
  cid := b 2
  lock := b 3
  version := .ofNat (Bytes.readLE 4 (b.drop 4))

def CacheMeta.toBytes (m : CacheMeta) : Bytes
  | 0 => m.state.toByte
  | 1 => m.pendingAcks
  | 2 => m.cid
  | 3 => m.lock
  | i + 4 => Bytes.le m.version.toNat i

/-- The operation or record at `b`. -/
def CacheOp.ofBytes (b : Bytes) : CacheOp where
  keyMeta := .ofBytes b
  key := .ofNat (Bytes.readLE 8 (b.drop 8))
  opcode := .ofByte (b 16)
  valLen := b 17
  value := b.drop micaOpMetadata

/-- Two operations are the same up to what follows the first `n` bytes of the value. -/
structure CacheOp.Same (n : ℕ) (c d : CacheOp) : Prop where
  keyMeta : c.keyMeta = d.keyMeta
  key : c.key = d.key
  opcode : c.opcode = d.opcode
  valLen : c.valLen = d.valLen
  value : Bytes.Agree n c.value d.value

theorem CacheMeta.ofBytes_congr {a b : Bytes} (h : Bytes.Agree 8 a b) : ofBytes a = ofBytes b := by
  have hv : Bytes.readLE 4 (a.drop 4) = Bytes.readLE 4 (b.drop 4) := Bytes.readLE_congr (h.drop (by omega))
  simp only [ofBytes, h 0 (by omega), h 1 (by omega), h 2 (by omega), h 3 (by omega), hv]

theorem CacheMeta.readLE_toBytes (m : CacheMeta) : UInt32.ofNat (Bytes.readLE 4 (m.toBytes.drop 4)) = m.version := by
  have hd : m.toBytes.drop 4 = Bytes.le m.version.toNat := by
    funext i
    rw [Bytes.drop, Nat.add_comm]
    rfl
  have hlt := m.version.toNat_lt
  rw [hd, Bytes.readLE_le, Nat.mod_eq_of_lt (by simpa using hlt), UInt32.ofNat_toNat]

/-- Lock and version are read back as they were written. -/
theorem CacheMeta.idle_ofBytes_toBytes {m : CacheMeta} (h : m.Idle) : (ofBytes m.toBytes).Idle :=
  ⟨h.free, (congrArg (· % 2) m.readLE_toBytes).trans h.even⟩

/-- Memory that agrees on header and value bytes holds the same operation. -/
theorem CacheOp.same_of_agree {n : ℕ} {a b : Bytes} (h : Bytes.Agree (micaOpMetadata + n) a b) :
    Same n (ofBytes a) (ofBytes b) where
  keyMeta := CacheMeta.ofBytes_congr (h.mono (by rw [micaOpMetadata_eq]; omega))
  key := congrArg UInt64.ofNat (Bytes.readLE_congr (h.drop (by rw [micaOpMetadata_eq]; omega)))
  opcode := congrArg Opcode.ofByte (h 16 (by rw [micaOpMetadata_eq]; omega))
  valLen := h 17 (by rw [micaOpMetadata_eq]; omega)
  value := h.drop (by omega)

end CcKvs
