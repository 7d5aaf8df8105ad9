/-
One round of the last loop of `mica_batch_op` and `mica_batch_op_crcw`: what
both variants do to index and log, and the map the concurrent one implements
when each operation looks its key up itself.
-/
import CcKvs.Lib.LossyMap
import CcKvs.Mica.Insert

namespace CcKvs

open MicaKv

/-- A GET, or a PUT with values of the store's length. -/
def Request (L : UInt8) (op : Bytes) : Prop :=
  (CacheOp.ofBytes op).opcode = .get ∨ (CacheOp.ofBytes op).opcode = .put ∧ (CacheOp.ofBytes op).valLen = L

/-- What both variants of the store do to index and log. -/
structure Backend.Lawful (s : Backend) : Prop where
  get : ∀ {kv p kv'}, s.get kv p = .ok kv' → SameIndex kv kv' ∧ kv'.htLog = kv.htLog
  put : ∀ {kv op p x}, s.put kv op p = .ok x → Updated (kv.record p).valLen kv op p x.1
  getFail : ∀ kv, SameIndex kv (s.getFail kv) ∧ (s.getFail kv).htLog = kv.htLog
  insert : ∀ {kv op x}, s.insert kv op = .ok x →
    ∃ cfg op' n, (CacheOp.ofBytes op').key = (CacheOp.ofBytes op).key ∧ kv.insertOne cfg op' n = .ok x.1

theorem mica_lawful (cfg : Config) : (mica cfg).Lawful where
  get h := by
    cases h
    exact ⟨⟨rfl, rfl, rfl, rfl, rfl⟩, rfl⟩
  put {kv op p x} h := by
    cases h
    exact updated_of_writes (n := 0) ⟨rfl, rfl, rfl, rfl, rfl⟩ (by omega) (Bytes.write_zero _ op p).symm
  getFail _ := ⟨⟨rfl, rfl, rfl, rfl, rfl⟩, rfl⟩
  insert h := by
    obtain ⟨kv', hi, he⟩ := bind_eq_ok.1 h
    cases he
    exact ⟨_, _, _, rfl, hi⟩

/-- Setting the metadata of an operation leaves the rest of it. -/
theorem ofBytes_write_meta (op : Bytes) (m : CacheMeta) :
    CacheOp.ofBytes (op.write 0 m.toBytes 8) = { CacheOp.ofBytes op with keyMeta := .ofBytes m.toBytes } := by
  have hk := CacheMeta.ofBytes_congr (Bytes.agree_drop_write op m.toBytes 0 8)
  have hd : ∀ p, 8 ≤ p → (op.write 0 m.toBytes 8).drop p = op.drop p := fun p hp => Bytes.drop_write_of_le (by omega)
  have hb : ∀ p, 8 ≤ p → op.write 0 m.toBytes 8 p = op p := fun p hp => if_neg (by omega)
  rw [Bytes.drop_zero] at hk
  simp only [CacheOp.ofBytes, hk, hd 8 (by omega), hb 16 (by omega), hb 17 (by omega),
    hd micaOpMetadata (by rw [micaOpMetadata_eq]; omega)]

theorem micaCrcw_lawful (cfg : Config) (machineId : UInt8) : (micaCrcw cfg machineId).Lawful where
  get h := by
    simp only [micaCrcw] at h
    split at h
    · cases h
      exact ⟨⟨rfl, rfl, rfl, rfl, rfl⟩, rfl⟩
    · cases h
  put h := by
    obtain ⟨ol, _, he⟩ := bind_eq_ok.1 h
    cases he
    exact updated_of_writes ⟨rfl, rfl, rfl, rfl, rfl⟩ (Nat.le_refl 8) rfl
  getFail _ := ⟨⟨rfl, rfl, rfl, rfl, rfl⟩, rfl⟩
  insert h := by
    obtain ⟨kv', hi, he⟩ := bind_eq_ok.1 h
    cases he
    exact ⟨_, _, _, by rw [ofBytes_write_meta], hi⟩

section

variable {s : Backend} {kv kv' : MicaKv} {op op' : Bytes} {ptr : Option ℕ} {r : KvResp}

/-- The ways a round can end. -/
theorem Backend.serve_cases (hok : s.serve kv op ptr = .ok (kv', op', r)) :
    (∃ p, kv.inStore (CacheOp.ofBytes op).key ptr = some p ∧ (CacheOp.ofBytes op).opcode = .get ∧
      s.get kv p = .ok kv' ∧ r = ⟨.getSuccess, (kv.record p).valLen, some (p + micaOpMetadata)⟩) ∨
    (∃ p, kv.inStore (CacheOp.ofBytes op).key ptr = some p ∧ (CacheOp.ofBytes op).opcode = .put ∧
      (CacheOp.ofBytes op).valLen = (kv.record p).valLen ∧ s.put kv op p = .ok (kv', op') ∧
      r = ⟨.putSuccess, 0, none⟩) ∨
    (kv.inStore (CacheOp.ofBytes op).key ptr = none ∧ (CacheOp.ofBytes op).opcode = .get ∧ kv' = s.getFail kv ∧
      r = ⟨.getFail, 0, none⟩) ∨
    (kv.inStore (CacheOp.ofBytes op).key ptr = none ∧ (CacheOp.ofBytes op).opcode ≠ .get ∧
      s.insert kv op = .ok (kv', op') ∧ r = ⟨.putSuccess, 0, none⟩) := by
  simp only [serve] at hok
  split at hok
  · next p hp =>
    split at hok
    · next hop =>
      obtain ⟨kv₁, hg, he⟩ := bind_eq_ok.1 hok
      cases he
      exact .inl ⟨p, hp, hop, hg, rfl⟩
    · next hop =>
      split at hok
      · next hl =>
        obtain ⟨x, hx, he⟩ := bind_eq_ok.1 hok
        cases he
        exact .inr (.inl ⟨p, hp, hop, hl, hx, rfl⟩)
      · cases hok
    · cases hok
  · next hp =>
    split at hok
    · next hop =>
      cases hok
      exact .inr (.inr (.inl ⟨hp, hop, rfl, rfl⟩))
    · next hop =>
      obtain ⟨x, hx, he⟩ := bind_eq_ok.1 hok
      cases he
      exact .inr (.inr (.inr ⟨hp, hop, hx, rfl⟩))

end

/-! ## The concurrent variant -/

theorem MicaKv.deref_value (kv : MicaKv) (t : MicaRespType) (n : UInt8) (p : ℕ) :
    kv.deref ⟨t, n, some (p + micaOpMetadata)⟩ = some ((kv.record p).value.toList n.toNat) := by
  show some ((kv.htLog.drop (p + micaOpMetadata)).toList n.toNat) = _
  rw [← Bytes.drop_drop]
  rfl

/-- No record that can be found is locked or being written. -/
def MicaKv.Unlocked (kv : MicaKv) : Prop := ∀ x, kv.Reaches x → (kv.record (kv.addr x)).keyMeta.Idle

section

variable {cfg : Config} {machineId L : UInt8} {kv kv' : MicaKv} {op op' : Bytes} {p : ℕ} {r : KvResp} {x : ℕ × Fin 8}

theorem micaCrcw_get_idle (hi : (kv.record p).keyMeta.Idle) : (micaCrcw cfg machineId).get kv p = .ok kv :=
  if_pos (by simp [optikIsSameVersionAndValid, hi.even])

theorem micaCrcw_put_idle (hi : (kv.record p).keyMeta.Idle) (hok : (micaCrcw cfg machineId).put kv op p = .ok (kv', op')) :
    (kv'.record p).keyMeta.Idle := by
  obtain ⟨ol, hl, he⟩ := bind_eq_ok.1 hok
  rw [hi.lock] at hl
  cases hl
  cases he
  have hm := CacheMeta.ofBytes_congr (Bytes.agree_drop_write (kv.copyValue op p)
    (optikUnlockWrite { (kv.record p).keyMeta with lock := 1, version := (kv.record p).keyMeta.version + 1 }
      machineId).1.toBytes p 8)
  show (CacheMeta.ofBytes _).Idle
  rw [hm]
  exact CacheMeta.idle_ofBytes_toBytes ⟨rfl, even_add_two hi.even⟩

/-- What is inserted is the operation with fresh metadata. -/
theorem micaCrcw_insert (h : kv.Inv L) (hL : (CacheOp.ofBytes op).valLen = L)
    (hok : (micaCrcw cfg machineId).insert kv op = .ok (kv', op')) :
    Inserted L kv (op.write 0 CacheMeta.fresh.toBytes 8) kv' := by
  obtain ⟨kv₁, hi, he⟩ := bind_eq_ok.1 hok
  cases he
  exact h.insertOne (by rw [hL, recordLen]) hi

/-- A PUT to a record in place. -/
theorem MicaKv.Unlocked.updated (hu : kv.Unlocked) (h : kv.Inv L) (hx : kv.Reaches x) (u : Updated L kv op (kv.addr x) kv')
    (hi : (kv'.record (kv.addr x)).keyMeta.Idle) : kv'.Unlocked := by
  intro y hy
  have hr := u.reaches.1 hy
  rw [u.addr]
  by_cases hyx : y = x
  · rw [hyx]
    exact hi
  · rw [(u.same h hx hr hyx).keyMeta]
    exact hu y hr

/-- A PUT of an absent key. -/
theorem MicaKv.Unlocked.inserted (hu : kv.Unlocked) (h : kv.Inv L)
    (t : Inserted L kv (op.write 0 CacheMeta.fresh.toBytes 8) kv') : kv'.Unlocked := by
  intro y hy
  by_cases hyt : y = kv.target (CacheOp.ofBytes (op.write 0 CacheMeta.fresh.toBytes 8)).key
  · rw [hyt, t.same_self.keyMeta, ofBytes_write_meta]
    exact CacheMeta.idle_ofBytes_toBytes ⟨rfl, rfl⟩
  · rw [(t.same_ne h hyt hy).keyMeta]
    exact hu y (t.reaches_ne hyt hy)

/-- **A GET returns**, and answers with what the store holds under the key. -/
theorem micaCrcw_get (h : kv.Inv L) (hu : kv.Unlocked) (hop : (CacheOp.ofBytes op).opcode = .get) :
    ∃ r, (micaCrcw cfg machineId).serve kv op (kv.lookup (CacheOp.ofBytes op).key) = .ok (kv, op, r) ∧
      kv.deref r = kv.view L (CacheOp.ofBytes op).key ∧
      r.type = if (kv.view L (CacheOp.ofBytes op).key).isSome then .getSuccess else .getFail := by
  unfold view
  cases hf : kv.find (CacheOp.ofBytes op).key with
  | none =>
    refine ⟨⟨.getFail, 0, none⟩, ?_, rfl, rfl⟩
    unfold find at hf
    simp only [Backend.serve, hf, if_pos hop]
    rfl
  | some p =>
    obtain ⟨x, hx, hp, -⟩ := h.find_eq_some.1 hf
    have hi := hu x hx
    have hL := h.valLen x hx
    rw [hp] at hi hL
    refine ⟨⟨.getSuccess, (kv.record p).valLen, some (p + micaOpMetadata)⟩, ?_, ?_, rfl⟩
    · unfold find at hf
      simp only [Backend.serve, hf, hop, micaCrcw_get_idle hi]
      rfl
    · rw [deref_value, hL]
      rfl

/-- **A PUT that returns** has stored its value, or the store has forgotten the key at once;
other keys are as before or forgotten. -/
theorem micaCrcw_put (h : kv.Inv L) (hu : kv.Unlocked) (hop : (CacheOp.ofBytes op).opcode = .put)
    (hL : (CacheOp.ofBytes op).valLen = L)
    (hok : (micaCrcw cfg machineId).serve kv op (kv.lookup (CacheOp.ofBytes op).key) = .ok (kv', op', r)) :
    kv'.Inv L ∧ kv'.Unlocked ∧
    LossyMap.Forgets (Function.update (kv.view L) (CacheOp.ofBytes op).key
      (some ((CacheOp.ofBytes op).value.toList L.toNat))) (kv'.view L) := by
  rcases Backend.serve_cases hok with ⟨_, _, hg, _⟩ | ⟨p, hp, _, hl, hst, _⟩ | ⟨_, hg, _⟩ | ⟨_, _, hst, _⟩
  · rw [hop] at hg
    cases hg
  · have u := (micaCrcw_lawful cfg machineId).put hst
    rw [← hl, hL] at u
    obtain ⟨x, hx, rfl, hk⟩ := h.find_eq_some.1 hp
    refine ⟨u.inv h hx, hu.updated h hx u (micaCrcw_put_idle (hu x hx) hst), fun k v hv => ?_⟩
    rw [u.view_eq h hx, hk] at hv
    exact hv
  · rw [hop] at hg
    cases hg
  · have t := micaCrcw_insert h hL hst
    have he := ofBytes_write_meta op CacheMeta.fresh
    have hL' : (CacheOp.ofBytes (op.write 0 CacheMeta.fresh.toBytes 8)).valLen = L := by rw [he]; exact hL
    refine ⟨t.inv h hL', hu.inserted h t, fun k v hv => ?_⟩
    have hf := t.view_forgets h hL' hv
    rw [he] at hf
    exact hf

end

end CcKvs
