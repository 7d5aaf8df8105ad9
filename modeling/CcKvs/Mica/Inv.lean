/-
The invariant of index and log. Slots are taken from the upper end of a bucket
downwards, so an insert, which takes the last slot with the tag or free, takes
the one with the tag if there is one; tags of slots in use are distinct. In the
log the records of slots in use do not overlap, and a slot the head has not
lapped points at a record of its bucket and tag.

With it, the index is a search for a live slot whose record has the key
(`find_eq_some`), and a PUT in place changes that slot's record only.
-/
import CcKvs.Lib.CircularLog
import CcKvs.Mica.Kv

namespace CcKvs.MicaKv

open CircularLog

/-- The capacity is a power of two that virtual offsets can count (`HERD_LOG_CAP` is `M_1024`). -/
structure Shape (kv : MicaKv) : Prop where
  cap : ∃ k, k ≤ 40 ∧ kv.logCap = 2 ^ k
  mask : kv.logMask = kv.logCap - 1

/-- The slot at a bucket and position. -/
def slot (kv : MicaKv) (x : ℕ × Fin 8) : MicaSlot := kv.htIndex x.1 x.2

/-- The slot is in use and its record not lapped. -/
def Reaches (kv : MicaKv) (x : ℕ × Fin 8) : Prop :=
  (kv.slot x).inUse = true ∧ Live kv.logCap kv.logHead (kv.slot x).offset

/-- Where the slot's record stands. -/
def addr (kv : MicaKv) (x : ℕ × Fin 8) : ℕ := (kv.slot x).offset % kv.logCap

/-- The bytes of a record with values of `L` bytes. -/
def recordLen (L : UInt8) : ℕ := micaOpMetadata + L.toNat

structure Inv (L : UInt8) (kv : MicaKv) : Prop where
  shape : kv.Shape
  head_le : kv.logHead ≤ 2 ^ 40
  below : ∀ x, (kv.slot x).inUse = true → (kv.slot x).offset + recordLen L ≤ kv.logHead
  ordered : ∀ x y, x ≠ y → (kv.slot x).inUse = true → (kv.slot y).inUse = true →
    (kv.slot x).offset + recordLen L ≤ (kv.slot y).offset ∨ (kv.slot y).offset + recordLen L ≤ (kv.slot x).offset
  tags : ∀ b i j, (kv.htIndex b i).inUse = true → (kv.htIndex b j).inUse = true →
    (kv.htIndex b i).tag = (kv.htIndex b j).tag → i = j
  upper : ∀ b i j, i ≤ j → (kv.htIndex b i).inUse = true → (kv.htIndex b j).inUse = true
  key : ∀ x, kv.Reaches x → kv.bkt (kv.record (kv.addr x)).key = x.1 ∧
    keyTag (kv.record (kv.addr x)).key = (kv.slot x).tag
  valLen : ∀ x, kv.Reaches x → (kv.record (kv.addr x)).valLen = L

theorem micaInit_free {index : ℕ → Fin 8 → MicaSlot} {log : Bytes} {numBkts logCap : ℕ} {kv : MicaKv}
    (hok : micaInit index log numBkts logCap = .ok kv) (x : ℕ × Fin 8) : (kv.slot x).inUse = false := by
  unfold micaInit at hok
  split at hok
  · cases hok
    rfl
  · cases hok

/-- A fresh store has no slot in use. -/
theorem inv_init {index : ℕ → Fin 8 → MicaSlot} {log : Bytes} {numBkts logCap k : ℕ} {kv : MicaKv} (L : UInt8)
    (hcap : logCap = 2 ^ k) (hk : k ≤ 40) (hok : micaInit index log numBkts logCap = .ok kv) : kv.Inv L := by
  have hfree : ∀ x, (kv.slot x).inUse ≠ true := fun x => by simp [micaInit_free hok x]
  unfold micaInit at hok
  split at hok
  · cases hok
    exact
      { shape := ⟨⟨k, hk, hcap⟩, rfl⟩
        head_le := Nat.zero_le _
        below := fun x hx => absurd hx (hfree x)
        ordered := fun x _ _ hx => absurd hx (hfree x)
        tags := fun b i _ hi => absurd hi (hfree (b, i))
        upper := fun b i _ _ hi => absurd hi (hfree (b, i))
        key := fun x hx => absurd hx.1 (hfree x)
        valLen := fun x hx => absurd hx.1 (hfree x) }
  · cases hok

/-! ## Arithmetic of the log -/

theorem sub64_of_le {a b : ℕ} (h : b ≤ a) (ha : a < 2 ^ 64) : sub64 a b = a - b := by
  unfold sub64
  have : a + 2 ^ 64 - b = (a - b) + 2 ^ 64 := by omega
  rw [this, Nat.add_mod_right, Nat.mod_eq_of_lt (by omega)]

theorem Shape.cap_pos {kv : MicaKv} (h : kv.Shape) : 0 < kv.logCap := by
  obtain ⟨k, -, hk⟩ := h.cap
  rw [hk]
  exact Nat.two_pow_pos k

theorem Shape.and_mask {kv : MicaKv} (h : kv.Shape) (x : ℕ) : x &&& kv.logMask = x % kv.logCap := by
  obtain ⟨k, -, hk⟩ := h.cap
  rw [h.mask, hk, Nat.and_two_pow_sub_one_eq_mod]

/-! ## Lookup -/

/-- The record of a key, if it is in the store. -/
def find (kv : MicaKv) (key : UInt64) : Option ℕ := kv.inStore key (kv.lookup key)

section

variable {L : UInt8} {kv : MicaKv} {key : UInt64} {p : ℕ} {x y : ℕ × Fin 8}

theorem slotOf_spec {j : Fin 8} (h : kv.slotOf key = some j) :
    (kv.slots key j).inUse = true ∧ (kv.slots key j).tag = keyTag key := by
  simpa using List.find?_some h

/-- Tags are distinct, so the first slot with the tag is any slot with the tag. -/
theorem Inv.slotOf_eq (h : kv.Inv L) {j : Fin 8} (hu : (kv.slots key j).inUse = true)
    (ht : (kv.slots key j).tag = keyTag key) : kv.slotOf key = some j := by
  cases hf : kv.slotOf key with
  | none =>
    have hj := List.find?_eq_none.1 hf j (List.mem_finRange j)
    simp [hu, ht] at hj
  | some i =>
    obtain ⟨hi, hti⟩ := slotOf_spec hf
    rw [h.tags _ i j hi hu (hti.trans ht.symm)]

/-- The staleness test of the lookup, for a slot in use. -/
theorem Inv.live_iff (h : kv.Inv L) (hu : (kv.slot x).inUse = true) :
    kv.logCap ≤ sub64 kv.logHead (kv.slot x).offset ↔ ¬ Live kv.logCap kv.logHead (kv.slot x).offset := by
  have hb := h.below x hu
  have hh := h.head_le
  rw [sub64_of_le (by omega) (by omega), Live]
  omega

theorem Inv.lookup_eq_some (h : kv.Inv L) : kv.lookup key = some p ↔
    ∃ j, kv.Reaches (kv.bkt key, j) ∧ (kv.slots key j).tag = keyTag key ∧ kv.addr (kv.bkt key, j) = p := by
  constructor
  · intro hl
    unfold lookup at hl
    split at hl
    · cases hl
    · next j hj =>
      obtain ⟨hu, ht⟩ := slotOf_spec hj
      have hlive := h.live_iff (x := (kv.bkt key, j)) hu
      simp only [] at hl
      split at hl
      · cases hl
      · next hs =>
        cases hl
        exact ⟨j, ⟨hu, not_not.1 (mt hlive.2 hs)⟩, ht, (h.shape.and_mask _).symm⟩
  · intro ⟨j, hr, ht, hp⟩
    have hlive := h.live_iff (x := (kv.bkt key, j)) hr.1
    have hs : ¬ kv.logCap ≤ sub64 kv.logHead (kv.slots key j).offset := fun hs => hlive.1 hs hr.2
    simp only [lookup, h.slotOf_eq hr.1 ht, if_neg hs, h.shape.and_mask]
    exact congrArg some hp

/-- **What the index finds**: the live slot whose record has the key. -/
theorem Inv.find_eq_some (h : kv.Inv L) :
    kv.find key = some p ↔ ∃ x, kv.Reaches x ∧ kv.addr x = p ∧ (kv.record p).key = key := by
  unfold find inStore
  rw [Option.filter_eq_some_iff, h.lookup_eq_some]
  constructor
  · intro ⟨⟨j, hr, _, hp⟩, hk⟩
    exact ⟨_, hr, hp, by simpa using hk⟩
  · intro ⟨x, hr, hp, hk⟩
    obtain ⟨hb, ht⟩ := h.key x hr
    rw [hp, hk] at hb ht
    obtain ⟨b, j⟩ := x
    simp only [] at hb
    subst hb
    exact ⟨⟨j, hr, ht.symm, hp⟩, by simp [hk]⟩

/-- Records of different slots are apart in memory. -/
theorem Inv.apart (h : kv.Inv L) (hxy : x ≠ y) (hx : kv.Reaches x) (hy : kv.Reaches y) :
    Apart (kv.addr x) (recordLen L) (kv.addr y) (recordLen L) := by
  rcases h.ordered x y hxy hx.1 hy.1 with ho | ho
  · exact hx.2.apart ho (h.below y hy.1)
  · exact (hy.2.apart ho (h.below x hx.1)).symm

end

/-! ## A value written in place -/

/-- Index, head and capacity are as before. -/
structure SameIndex (kv kv' : MicaKv) : Prop where
  index : kv'.htIndex = kv.htIndex
  bktMask : kv'.bktMask = kv.bktMask
  cap : kv'.logCap = kv.logCap
  mask : kv'.logMask = kv.logMask
  head : kv'.logHead = kv.logHead

/-- The record at `p` has the operation's value, and its key and length as before; records
elsewhere are untouched. -/
structure Updated (L : UInt8) (kv : MicaKv) (op : Bytes) (p : ℕ) (kv' : MicaKv) : Prop extends SameIndex kv kv' where
  value : Bytes.Agree L.toNat (kv'.record p).value (op.drop micaOpMetadata)
  key : (kv'.record p).key = (kv.record p).key
  valLen : (kv'.record p).valLen = (kv.record p).valLen
  frame : ∀ q, Apart q (recordLen L) p (recordLen L) →
    Bytes.Agree (recordLen L) (kv'.htLog.drop q) (kv.htLog.drop q)

/-- The store as a map to values of `L` bytes. -/
def view (kv : MicaKv) (L : UInt8) (key : UInt64) : Option (List UInt8) :=
  (kv.find key).map fun p => (kv.record p).value.toList L.toNat

theorem Shape.congr {kv kv' : MicaKv} (h : kv.Shape) (hc : kv'.logCap = kv.logCap) (hm : kv'.logMask = kv.logMask) :
    kv'.Shape := by
  constructor
  · rw [hc]
    exact h.cap
  · rw [hm, hc]
    exact h.mask

namespace SameIndex

variable {kv kv' : MicaKv}

theorem trans {kv₂ : MicaKv} (h : SameIndex kv kv') (h' : SameIndex kv' kv₂) : SameIndex kv kv₂ :=
  ⟨h'.index.trans h.index, h'.bktMask.trans h.bktMask, h'.cap.trans h.cap, h'.mask.trans h.mask, h'.head.trans h.head⟩

theorem slot (h : SameIndex kv kv') (x : ℕ × Fin 8) : kv'.slot x = kv.slot x := by
  unfold MicaKv.slot
  rw [h.index]

theorem addr (h : SameIndex kv kv') (x : ℕ × Fin 8) : kv'.addr x = kv.addr x := by
  unfold MicaKv.addr
  rw [h.slot, h.cap]

theorem reaches (h : SameIndex kv kv') {x : ℕ × Fin 8} : kv'.Reaches x ↔ kv.Reaches x := by
  unfold Reaches
  rw [h.slot, h.cap, h.head]

theorem bkt (h : SameIndex kv kv') (key : UInt64) : kv'.bkt key = kv.bkt key := by
  unfold MicaKv.bkt
  rw [h.bktMask]

theorem lookup (h : SameIndex kv kv') (key : UInt64) : kv'.lookup key = kv.lookup key := by
  simp only [MicaKv.lookup, slotOf, slots, h.bkt, h.index, h.cap, h.mask, h.head]
  rfl

theorem find (h : SameIndex kv kv') (hlog : kv'.htLog = kv.htLog) (key : UInt64) : kv'.find key = kv.find key := by
  simp only [MicaKv.find, inStore, record, h.lookup, hlog]

/-- The invariant is about the index and about keys and lengths of records. -/
theorem inv {L : UInt8} (h : SameIndex kv kv') (hi : kv.Inv L)
    (hk : ∀ x, kv.Reaches x → (kv'.record (kv.addr x)).key = (kv.record (kv.addr x)).key)
    (hl : ∀ x, kv.Reaches x → (kv'.record (kv.addr x)).valLen = (kv.record (kv.addr x)).valLen) : kv'.Inv L where
  shape := hi.shape.congr h.cap h.mask
  head_le := h.head ▸ hi.head_le
  below x hx := by
    rw [h.slot] at hx ⊢
    rw [h.head]
    exact hi.below x hx
  ordered x y hxy hx hy := by
    rw [h.slot] at hx hy ⊢
    rw [h.slot]
    exact hi.ordered x y hxy hx hy
  tags := by
    rw [h.index]
    exact hi.tags
  upper := by
    rw [h.index]
    exact hi.upper
  key x hx := by
    have hr := h.reaches.1 hx
    rw [h.addr, hk x hr, h.bkt, h.slot]
    exact hi.key x hr
  valLen x hx := by
    have hr := h.reaches.1 hx
    rw [h.addr, hl x hr]
    exact hi.valLen x hr

theorem inv_of_log_eq {L : UInt8} (h : SameIndex kv kv') (hlog : kv'.htLog = kv.htLog) (hi : kv.Inv L) : kv'.Inv L := by
  have hr : ∀ p, kv'.record p = kv.record p := fun p => by rw [record, hlog, ← record]
  exact h.inv hi (fun x _ => by rw [hr]) (fun x _ => by rw [hr])

end SameIndex

namespace Updated

variable {L : UInt8} {kv kv' : MicaKv} {op : Bytes} {x y : ℕ × Fin 8}

/-- Another slot's record is the same as before. -/
theorem same (u : Updated L kv op (kv.addr x) kv') (h : kv.Inv L) (hx : kv.Reaches x) (hy : kv.Reaches y)
    (hxy : y ≠ x) : CacheOp.Same L.toNat (kv'.record (kv.addr y)) (kv.record (kv.addr y)) :=
  CacheOp.same_of_agree (u.frame _ (h.apart hxy hy hx))

theorem key_eq (u : Updated L kv op (kv.addr x) kv') (h : kv.Inv L) (hx : kv.Reaches x) (hy : kv.Reaches y) :
    (kv'.record (kv.addr y)).key = (kv.record (kv.addr y)).key := by
  by_cases hxy : y = x
  · rw [hxy]
    exact u.key
  · exact (u.same h hx hy hxy).key

theorem inv (u : Updated L kv op (kv.addr x) kv') (h : kv.Inv L) (hx : kv.Reaches x) : kv'.Inv L := by
  refine u.toSameIndex.inv h (fun y hy => u.key_eq h hx hy) (fun y hy => ?_)
  by_cases hxy : y = x
  · rw [hxy]
    exact u.valLen
  · exact (u.same h hx hy hxy).valLen

theorem find_eq (u : Updated L kv op (kv.addr x) kv') (h : kv.Inv L) (hx : kv.Reaches x) (k : UInt64) :
    kv'.find k = kv.find k := by
  apply Option.ext
  intro p
  rw [(u.inv h hx).find_eq_some, h.find_eq_some]
  constructor
  · intro ⟨y, hy, hp, hk⟩
    have hr := u.reaches.1 hy
    rw [u.addr] at hp
    subst hp
    exact ⟨y, hr, rfl, (u.key_eq h hx hr).symm.trans hk⟩
  · intro ⟨y, hy, hp, hk⟩
    subst hp
    exact ⟨y, u.reaches.2 hy, u.addr y, (u.key_eq h hx hy).trans hk⟩

/-- As a map, the store has changed at the record's key only. -/
theorem view_eq (u : Updated L kv op (kv.addr x) kv') (h : kv.Inv L) (hx : kv.Reaches x) :
    kv'.view L = Function.update (kv.view L) (kv.record (kv.addr x)).key
      (some ((op.drop micaOpMetadata).toList L.toNat)) := by
  funext k
  unfold view
  rw [u.find_eq h hx]
  by_cases hk : k = (kv.record (kv.addr x)).key
  · have hf : kv.find k = some (kv.addr x) := h.find_eq_some.2 ⟨x, hx, rfl, hk.symm⟩
    rw [hf, hk, Function.update_self]
    exact congrArg some (Bytes.toList_congr u.value)
  · rw [Function.update_of_ne hk]
    cases hf : kv.find k with
    | none => rfl
    | some p =>
      obtain ⟨y, hy, hp, hky⟩ := h.find_eq_some.1 hf
      have hyx : y ≠ x := by
        intro he
        subst he
        rw [hp] at hk
        exact hk hky.symm
      subst hp
      exact congrArg some (Bytes.toList_congr (u.same h hx hy hyx).value)

end Updated

/-- Copying the value, and writing at most the metadata besides, is an update. -/
theorem updated_of_writes {kv kv' : MicaKv} {op m : Bytes} {p n : ℕ} (hs : SameIndex kv kv') (hn : n ≤ 8)
    (hlog : kv'.htLog = (kv.copyValue op p).write p m n) : Updated (kv.record p).valLen kv op p kv' := by
  have hmeta := micaOpMetadata_eq
  have hhead : Bytes.Agree 10 (kv'.htLog.drop (p + 8)) (kv.htLog.drop (p + 8)) := by
    rw [hlog]
    exact (Bytes.drop_write_of_disjoint (.inr (by omega))).trans
      (Bytes.drop_write_of_disjoint (.inl (by omega)))
  refine { toSameIndex := hs, value := ?_, key := ?_, valLen := hhead 9 (by omega), frame := fun q hq => ?_ }
  · show Bytes.Agree _ ((kv'.htLog.drop p).drop micaOpMetadata) _
    rw [Bytes.drop_drop, hlog]
    exact (Bytes.drop_write_of_disjoint (.inr (by omega))).trans
      (Bytes.agree_drop_write _ _ _ _)
  · refine congrArg UInt64.ofNat (Bytes.readLE_congr ?_)
    rw [Bytes.drop_drop, Bytes.drop_drop]
    exact hhead.mono (by omega)
  · unfold Apart recordLen at hq
    unfold recordLen
    rw [hlog]
    exact (Bytes.drop_write_of_disjoint (by omega)).trans
      (Bytes.drop_write_of_disjoint (by omega))

end CcKvs.MicaKv
