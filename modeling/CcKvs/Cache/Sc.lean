/-
The sequentially consistent protocol's loop body (`cache_batch_op_sc` and
`cache_batch_op_sc_with_cache_op`): what each operation does to the record it
hits, and what that comes to on a record left unlocked and even.
-/
import CcKvs.Cache.Op

namespace CcKvs

def scGet (h : Hit) : Except Fault Hit := h.readUnlocked h.found

def scPut (machineId : ℕ) (h : Hit) : Except Fault Hit := do
  h.assertValLen
  let ol ← optikLock h.kv.keyMeta
  let (ol', version) := optikUnlockWrite ol (.ofNat machineId)
  .ok { kv := (h.kv.store h.op).setMeta ol'
        op := { h.op.setMeta { h.op.keyMeta with version := version, cid := .ofNat machineId } with opcode := .brc }
        resp := ⟨.putSuccess, 0, .none⟩ }

def scUpd (h : Hit) : Except Fault Hit := do
  h.assertValLen
  let ol ← optikLock h.kv.keyMeta
  if optikIsGreaterVersion ol h.op.keyMeta then
    let ol' ← optikUnlock ol h.op.keyMeta.cid h.op.keyMeta.version
    .ok ({ h with kv := (h.kv.store h.op).setMeta ol' }.respond .updSuccess)
  else h.release ol .updFail

/-- The loop body of `cache_batch_op_sc`. -/
def sc (machineId : ℕ) (h : Hit) : Except Fault Hit :=
  match h.op.opcode with
  | .get => scGet h
  | .put => scPut machineId h
  | .upd => scUpd h
  | .brc => .ok h
  | _ => .error .badOpcode

/-- The loop body of `cache_batch_op_sc_with_cache_op`. -/
def scWithCacheOp (h : Hit) : Except Fault Hit :=
  match h.op.opcode with
  | .upd => scUpd h
  | .brc => .ok h
  | _ => .error .badOpcode

/-! ## What a record goes through -/

/-- The metadata under another stamp. -/
def CacheMeta.restamp (ol : CacheMeta) (version : UInt32) (cid : UInt8) : CacheMeta :=
  { ol with version := version, cid := cid }

theorem CacheMeta.Idle.restamp {ol : CacheMeta} (h : ol.Idle) {version : UInt32} (he : version % 2 = 0)
    (cid : UInt8) : (ol.restamp version cid).Idle := ⟨h.free, he⟩

variable {machineId : ℕ} {h h' : Hit}

theorem scGet_idle (hi : h.kv.keyMeta.Idle) : scGet h = .ok h.found := Hit.readUnlocked_idle hi

theorem scPut_idle (hi : h.kv.keyMeta.Idle) (hok : scPut machineId h = .ok h') :
    h.op.valLen = h.kv.valLen ∧
    h'.kv = (h.kv.store h.op).setMeta (h.kv.keyMeta.restamp (h.kv.keyMeta.version + 1 + 1) (.ofNat machineId)) ∧
    h'.op = { h.op.setMeta (h.op.keyMeta.restamp (h.kv.keyMeta.version + 1 + 1) (.ofNat machineId)) with
      opcode := .brc } ∧
    h'.resp = ⟨.putSuccess, 0, .none⟩ := by
  simp only [scPut, bind_eq_ok, Hit.assertValLen] at hok
  obtain ⟨_, hlen, ol, hl, hok⟩ := hok
  rw [hi.lock] at hl
  cases hl
  cases hok
  refine ⟨?_, ?_, rfl, rfl⟩
  · split at hlen
    · assumption
    · cases hlen
  · simp only [optikUnlockWrite, CacheMeta.restamp, ← hi.free]

theorem scUpd_idle (hi : h.kv.keyMeta.Idle) (he : h.op.keyMeta.version % 2 = 0) (hok : scUpd h = .ok h') :
    (stamp h.kv.keyMeta.version h.kv.keyMeta.cid.toNat < stamp h.op.keyMeta.version h.op.keyMeta.cid.toNat ∧
      h'.kv = (h.kv.store h.op).setMeta (h.kv.keyMeta.restamp h.op.keyMeta.version h.op.keyMeta.cid)) ∨
    (¬ stamp h.kv.keyMeta.version h.kv.keyMeta.cid.toNat < stamp h.op.keyMeta.version h.op.keyMeta.cid.toNat ∧
      h'.kv = h.kv) := by
  simp only [scUpd, bind_eq_ok] at hok
  obtain ⟨_, _, ol, hl, hok⟩ := hok
  rw [hi.lock] at hl
  cases hl
  split at hok
  · next hc =>
    rw [hi.greater he] at hc
    simp only [optikUnlock, he, ite_true, bind_eq_ok, Except.ok.injEq, exists_eq_left'] at hok
    subst hok
    refine .inl ⟨hc, ?_⟩
    simp only [Hit.respond_kv, CacheMeta.restamp, ← hi.free]
  · next hc =>
    rw [hi.greater he] at hc
    obtain ⟨⟨⟨st, pa, cid, l, v⟩, key, oc, vl, val⟩, op, resp⟩ := h
    obtain ⟨rfl, hv⟩ := hi
    rw [Hit.release_mk hv] at hok
    cases hok
    exact .inr ⟨hc, rfl⟩

/-- A write is taken and becomes a broadcast. -/
theorem scPut_answer (hok : scPut machineId h = .ok h') : h'.op.opcode = .brc ∧ h'.resp.type = .putSuccess := by
  simp only [scPut, bind_eq_ok] at hok
  obtain ⟨_, -, ol, -, hok⟩ := hok
  cases hok
  exact ⟨rfl, rfl⟩

end CcKvs
