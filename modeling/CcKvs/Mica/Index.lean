/-
The index over runs of inserts and batches. In every bucket the slots in use
are the upper ones and their tags differ, so the last slot an insert matches is
the first one a lookup does; a slot that is not lapped points at a record of its
bucket and tag.

A batch keeps the addresses it has looked up at its beginning. A PUT whose
record the batch's own inserts have lapped by the time it is executed writes
wherever that address lies now, which may be in the middle of another record.
`FreshPuts` excludes these PUTs; everything else keeps the invariant.
-/
import CcKvs.Mica.Log

namespace CcKvs

open MicaKv CircularLog

/-- Which of the two batch functions is called. -/
inductive Variant
  | mica
  | crcw
  deriving DecidableEq, Repr

section

variable (cfg : Config) (machineId : UInt8)

def Variant.backend : Variant → Backend
  | mica => CcKvs.mica cfg
  | crcw => micaCrcw cfg machineId

/-- The insert that a PUT of an absent key becomes. -/
def Variant.insertOf : Variant → Bytes → Insert
  | mica => .one
  | crcw => .crcw

end

/-! ## Inserts of a run -/

/-- An insert as it is made: the key, the virtual offset of its record, and whether the slot it
takes was in use for another tag. -/
structure Insertion where
  key : UInt64
  offset : ℕ
  displaced : Bool
  deriving DecidableEq, Repr

def MicaKv.insertion (kv : MicaKv) (key : UInt64) : Insertion where
  key := key
  offset := kv.logHead
  displaced := (kv.slot (kv.target key)).inUse && (kv.slot (kv.target key)).tag != keyTag key

/-- The turns of a batch that began in `kv₀`: each operation with the store it finds. -/
def Backend.turns (s : Backend) (kv₀ : MicaKv) : MicaKv → List Bytes → List (MicaKv × Bytes)
  | _, [] => []
  | kv, op :: ops =>
    (kv, op) ::
      match s.serve kv op (kv₀.lookup (CacheOp.ofBytes op).key) with
      | .ok x => turns s kv₀ x.1 ops
      | .error _ => []

/-- The operation inserts when its turn comes. -/
def MicaKv.Inserts (kv₀ kv : MicaKv) (op : Bytes) : Prop :=
  (CacheOp.ofBytes op).opcode ≠ .get ∧
    kv.inStore (CacheOp.ofBytes op).key (kv₀.lookup (CacheOp.ofBytes op).key) = none

instance (kv₀ kv : MicaKv) (op : Bytes) : Decidable (kv₀.Inserts kv op) := inferInstanceAs (Decidable (_ ∧ _))

/-- The inserts some turns make. -/
def insertionsOf (kv₀ : MicaKv) (turns : List (MicaKv × Bytes)) : List Insertion :=
  turns.filterMap fun t => if kv₀.Inserts t.1 t.2 then some (t.1.insertion (CacheOp.ofBytes t.2).key) else none

inductive KvCall
  | insert (i : Insert)
  | batch (v : Variant) (ops : List Bytes)

section

variable (cfg : Config) (machineId L : UInt8)

/-- The store after a call, and the inserts it has made. -/
def KvCall.run (kv : MicaKv) : KvCall → Except Fault (MicaKv × List Insertion)
  | .insert i => do
    let kv' ← i.apply cfg kv
    .ok (kv', [kv.insertion (CacheOp.ofBytes i.op).key])
  | .batch v ops => do
    let x ← (v.backend cfg machineId).batch kv ops
    .ok (x.1, insertionsOf kv ((v.backend cfg machineId).turns kv kv ops))

/-- Operations have values of `L` bytes, and no record is written across the end of the log. -/
def KvCall.WellFormed (kv : MicaKv) : KvCall → Prop
  | .insert i => (CacheOp.ofBytes i.op).valLen = L ∧ kv.Fits (i.lenToCopy cfg)
  | .batch v ops => (∀ op ∈ ops, Request L op) ∧
      ∀ t ∈ (v.backend cfg machineId).turns kv kv ops, kv.Inserts t.1 t.2 → t.1.Fits ((v.insertOf t.2).lenToCopy cfg)

/-- No PUT of the batch is executed after the head has come round to the record it was
looked up at. -/
def KvCall.FreshPuts (kv : MicaKv) : KvCall → Prop
  | .insert _ => True
  | .batch v ops => ∀ t ∈ (v.backend cfg machineId).turns kv kv ops, (CacheOp.ofBytes t.2).opcode = .put →
      kv.Keeps t.1 (CacheOp.ofBytes t.2).key

/-- Calls from a fresh store, each with the inserts it makes. -/
def kvs : Lts MicaKv (KvCall × List Insertion) where
  init kv := ∃ index log numBkts k, k ≤ 40 ∧ micaInit index log numBkts (2 ^ k) = .ok kv
  step kv e kv' := e.1.WellFormed cfg machineId L kv ∧ e.1.run cfg machineId kv = .ok (kv', e.2)

/-- The runs in which every batch has fresh PUTs. -/
def kvsFresh : Lts MicaKv (KvCall × List Insertion) :=
  Lts.restrict (kvs cfg machineId L) fun kv e _ => e.1.FreshPuts cfg machineId kv

end

/-! ## One insert -/

section

variable {cfg : Config} {machineId L : UInt8} {kv₀ kv kv' : MicaKv} {i : Insert} {op op' : Bytes} {r : KvResp}
  {key : UInt64} {x : ℕ × Fin 8}

theorem Insert.ofBytes_stored (i : Insert) : (CacheOp.ofBytes i.stored).key = (CacheOp.ofBytes i.op).key ∧
    (CacheOp.ofBytes i.stored).valLen = (CacheOp.ofBytes i.op).valLen := by
  cases i with
  | one op => exact ⟨rfl, rfl⟩
  | crcw op =>
    have he := ofBytes_write_meta op CacheMeta.fresh
    exact ⟨by simp only [stored, he]; rfl, by simp only [stored, he]; rfl⟩

/-- Either function copies at least the record. -/
theorem Insert.recordLen_le (hL : L.toNat ≤ cfg.herdValueSize) (hv : (CacheOp.ofBytes i.op).valLen = L) :
    recordLen L ≤ i.lenToCopy cfg := by
  cases i with
  | one op =>
    simp only [recordLen, lenToCopy]
    omega
  | crcw o =>
    rw [← hv]
    exact Nat.le_refl _

theorem Insert.inserted (h : kv.Inv L) (hL : L.toNat ≤ cfg.herdValueSize) (hv : (CacheOp.ofBytes i.op).valLen = L)
    (hok : i.apply cfg kv = .ok kv') : Inserted L kv i.stored kv' :=
  h.insertOne (recordLen_le hL hv) (insertOne_of_apply hok)

/-- An insert evicts if the slot it takes was in use for another tag. -/
theorem slotToUse_eq_none_iff (slots : Fin 8 → MicaSlot) (tag : ℕ) : slotToUse slots tag = none ↔
    (slots (chosenSlot slots tag)).inUse = true ∧ (slots (chosenSlot slots tag)).tag ≠ tag := by
  rcases slotToUse_spec slots tag with ⟨hn, hall⟩ | ⟨i, hs, hi, -⟩
  · have hc := hall (chosenSlot slots tag)
    rw [not_or, Bool.not_eq_false] at hc
    exact ⟨fun _ => ⟨hc.2, hc.1⟩, fun _ => hn⟩
  · simp only [chosenSlot, hs, Option.getD_some, reduceCtorEq, false_iff, not_and, not_not]
    intro hu
    rcases hi with hi | hi
    · exact hi
    · rw [hu] at hi
      cases hi

theorem Insert.evictions (hok : i.apply cfg kv = .ok kv') :
    kv'.numIndexEvictions = kv.numIndexEvictions + if (kv.insertion (CacheOp.ofBytes i.op).key).displaced then 1 else 0 := by
  have hins := insertOne_of_apply hok
  simp only [insertOne, i.ofBytes_stored.1] at hins
  split at hins
  · cases hins
    have hiff := slotToUse_eq_none_iff (kv.slots (CacheOp.ofBytes i.op).key) (keyTag (CacheOp.ofBytes i.op).key)
    have hdisp : (kv.insertion (CacheOp.ofBytes i.op).key).displaced = true ↔
        slotToUse (kv.slots (CacheOp.ofBytes i.op).key) (keyTag (CacheOp.ofBytes i.op).key) = none := by
      rw [hiff]
      simp [insertion, slot, target, slots]
    by_cases hn : slotToUse (kv.slots (CacheOp.ofBytes i.op).key) (keyTag (CacheOp.ofBytes i.op).key) = none
    · simp only [hn, if_true, if_pos (hdisp.2 hn)]
    · simp only [hn, if_false, if_neg (mt hdisp.1 hn), Nat.add_zero]
  · cases hins

/-! ## The invariant of a run -/

/-- The keys that have been inserted into bucket `b`. -/
def MicaKv.keysIn (kv : MicaKv) (ins : List Insertion) (b : ℕ) : Finset UInt64 :=
  ((ins.map (·.key)).filter fun k => kv.bkt k = b).toFinset

/-- At most eight keys, with pairwise distinct tags. -/
structure MicaKv.FewKeys (kv : MicaKv) (ins : List Insertion) (b : ℕ) : Prop where
  card : (kv.keysIn ins b).card ≤ 8
  tags : ∀ k ∈ kv.keysIn ins b, ∀ k' ∈ kv.keysIn ins b, keyTag k = keyTag k' → k = k'

theorem MicaKv.mem_keysIn {ins : List Insertion} {b : ℕ} {k : UInt64} :
    k ∈ kv.keysIn ins b ↔ (∃ i ∈ ins, i.key = k) ∧ kv.bkt k = b := by
  simp [keysIn]

theorem MicaKv.FewKeys.of_append {ins js : List Insertion} {b : ℕ} (h : kv.FewKeys (ins ++ js) b) : kv.FewKeys ins b := by
  have hsub : kv.keysIn ins b ⊆ kv.keysIn (ins ++ js) b := by
    intro k hk
    obtain ⟨⟨i, hi, he⟩, hb⟩ := mem_keysIn.1 hk
    exact mem_keysIn.2 ⟨⟨i, List.mem_append_left _ hi, he⟩, hb⟩
  exact ⟨(Finset.card_le_card hsub).trans h.card, fun k hk k' hk' => h.tags k (hsub hk) k' (hsub hk')⟩

/-- What holds of the store after the inserts `ins`. -/
structure Indexed (L : UInt8) (ins : List Insertion) (kv : MicaKv) : Prop where
  inv : kv.Inv L
  evictions : kv.numIndexEvictions = ins.countP (·.displaced)
  source : ∀ x, kv.Reaches x → ∃ i ∈ ins, i.key = (kv.record (kv.addr x)).key
  tag : ∀ x, (kv.slot x).inUse = true → ∃ i ∈ ins, kv.bkt i.key = x.1 ∧ keyTag i.key = (kv.slot x).tag
  old : ∀ i ∈ ins, i.offset ≤ kv.logHead
  kept : ∀ b, kv.FewKeys ins b → ∀ i ∈ ins, kv.bkt i.key = b →
    ∃ j, (kv.slot (b, j)).inUse = true ∧ (kv.slot (b, j)).tag = keyTag i.key ∧ i.offset ≤ (kv.slot (b, j)).offset

/-- While few keys have been inserted, the next one finds a slot. -/
theorem Indexed.no_eviction {ins : List Insertion} (h : Indexed L ins kv)
    (hf : kv.FewKeys (ins ++ [kv.insertion key]) (kv.bkt key)) : slotToUse (kv.slots key) (keyTag key) ≠ none := by
  intro hn
  have hall : ∀ j, (kv.slot (kv.bkt key, j)).inUse = true ∧ (kv.slot (kv.bkt key, j)).tag ≠ keyTag key := by
    intro j
    rcases slotToUse_spec (kv.slots key) (keyTag key) with ⟨-, hall⟩ | ⟨i, hs, -⟩
    · have hj := hall j
      rw [not_or, Bool.not_eq_false] at hj
      exact ⟨hj.2, hj.1⟩
    · rw [hn] at hs
      cases hs
  -- eight slots with eight tags of inserted keys, and the key itself
  choose i hi hb ht using fun j => h.tag _ (hall j).1
  let f : Option (Fin 8) → UInt64 := fun o => o.elim key fun j => (i j).key
  have hmem : ∀ o, f o ∈ kv.keysIn (ins ++ [kv.insertion key]) (kv.bkt key) := by
    intro o
    cases o with
    | none => exact mem_keysIn.2 ⟨⟨kv.insertion key, by simp, rfl⟩, rfl⟩
    | some j => exact mem_keysIn.2 ⟨⟨i j, List.mem_append_left _ (hi j), rfl⟩, hb j⟩
  have hinj : Function.Injective f := by
    intro o o' ho
    have htag := congrArg keyTag ho
    cases o with
    | none =>
      cases o' with
      | none => rfl
      | some j => exact absurd ((ht j).symm.trans htag.symm) (hall j).2
    | some j =>
      cases o' with
      | none => exact absurd ((ht j).symm.trans htag) (hall j).2
      | some j' =>
        have he := (ht j).symm.trans (htag.trans (ht j'))
        rw [h.inv.tags _ j j' (hall j).1 (hall j').1 he]
  have hcard := Finset.card_le_card_of_injOn f (fun o _ => hmem o) (hinj.injOn (s := (Finset.univ : Finset (Option (Fin 8)))))
  have hle := hf.card
  simp only [Finset.card_univ, Fintype.card_option, Fintype.card_fin] at hcard
  omega

theorem Indexed.kept_inserted {ins : List Insertion} (h : Indexed L ins kv) (t : Inserted L kv op kv')
    (hk : (CacheOp.ofBytes op).key = key) {b : ℕ} (hf : kv.FewKeys (ins ++ [kv.insertion key]) b) {i : Insertion}
    (hi : i ∈ ins ++ [kv.insertion key]) (hb : kv.bkt i.key = b) :
    ∃ j, (kv'.slot (b, j)).inUse = true ∧ (kv'.slot (b, j)).tag = keyTag i.key ∧ i.offset ≤ (kv'.slot (b, j)).offset := by
  have hself := t.slot_self
  rw [hk] at hself
  rcases List.mem_append.1 hi with hi | hi
  · obtain ⟨j, hu, ht, ho⟩ := h.kept b hf.of_append i hi hb
    by_cases hj : (b, j) = kv.target key
    · -- the slot is taken because it has the tag
      obtain ⟨hb', hj'⟩ := Prod.mk.inj hj
      rw [hb'] at hf
      have htag : (kv.slot (b, j)).tag = keyTag key := by
        by_contra hne
        refine h.no_eviction hf ((slotToUse_eq_none_iff _ _).2 ?_)
        rw [hb', hj'] at hu hne
        exact ⟨hu, hne⟩
      refine ⟨j, ?_⟩
      rw [hj, hself]
      exact ⟨rfl, htag.symm.trans ht, h.old i hi⟩
    · refine ⟨j, ?_⟩
      rw [t.slot_ne _ (hk.symm ▸ hj)]
      exact ⟨hu, ht, ho⟩
  · rw [List.mem_singleton] at hi
    subst hi
    refine ⟨(kv.target key).2, ?_⟩
    have he : (b, (kv.target key).2) = kv.target key := Prod.ext hb.symm rfl
    rw [he, hself]
    exact ⟨rfl, rfl, Nat.le_refl _⟩

theorem Indexed.insert {ins : List Insertion} (h : Indexed L ins kv) (hL : L.toNat ≤ cfg.herdValueSize)
    (hv : (CacheOp.ofBytes i.op).valLen = L) (hok : i.apply cfg kv = .ok kv') :
    Indexed L (ins ++ [kv.insertion (CacheOp.ofBytes i.op).key]) kv' := by
  have t := i.inserted h.inv hL hv hok
  have hk := i.ofBytes_stored.1
  refine ⟨t.inv h.inv (i.ofBytes_stored.2.trans hv), ?_, ?_, ?_, ?_, ?_⟩
  · rw [Insert.evictions hok, h.evictions, List.countP_append, List.countP_singleton]
  · intro x hx
    by_cases he : x = kv.target (CacheOp.ofBytes i.stored).key
    · subst he
      exact ⟨_, List.mem_append_right _ (List.mem_singleton_self _), hk.symm.trans t.same_self.key.symm⟩
    · have hr := t.reaches_ne he hx
      obtain ⟨j, hj, hjk⟩ := h.source x hr
      exact ⟨j, List.mem_append_left _ hj, hjk.trans (t.same_ne h.inv he hx).key.symm⟩
  · intro x hx
    by_cases he : x = kv.target (CacheOp.ofBytes i.stored).key
    · subst he
      refine ⟨_, List.mem_append_right _ (List.mem_singleton_self _), ?_⟩
      rw [t.slot_self, t.bkt, hk]
      exact ⟨rfl, rfl⟩
    · rw [t.slot_ne x he] at hx ⊢
      obtain ⟨j, hj, hjx⟩ := h.tag x hx
      exact ⟨j, List.mem_append_left _ hj, (t.bkt _).trans hjx.1, hjx.2⟩
  · intro j hj
    have hh := t.head
    rcases List.mem_append.1 hj with hj | hj
    · have ho := h.old j hj
      omega
    · rw [List.mem_singleton.1 hj]
      simp only [insertion]
      omega
  · intro b hf j hj hb
    have hbkt : kv'.bkt = kv.bkt := funext t.bkt
    have hf' : kv.FewKeys (ins ++ [kv.insertion (CacheOp.ofBytes i.op).key]) b := by
      have hkeys : kv'.keysIn = kv.keysIn := by
        funext js c
        simp only [keysIn, hbkt]
      obtain ⟨hc, ht⟩ := hf
      rw [hkeys] at hc ht
      exact ⟨hc, ht⟩
    exact h.kept_inserted t hk hf' hj ((t.bkt _).symm.trans hb)

/-- Everything but inserts keeps the index and the keys. -/
theorem Indexed.sameIndex {ins : List Insertion} (h : Indexed L ins kv) (hs : SameIndex kv kv')
    (he : kv'.numIndexEvictions = kv.numIndexEvictions)
    (hk : ∀ x, kv.Reaches x → (kv'.record (kv.addr x)).key = (kv.record (kv.addr x)).key)
    (hl : ∀ x, kv.Reaches x → (kv'.record (kv.addr x)).valLen = (kv.record (kv.addr x)).valLen) : Indexed L ins kv' := by
  have hbkt : kv'.bkt = kv.bkt := funext hs.bkt
  refine ⟨hs.inv h.inv hk hl, he.trans h.evictions, ?_, ?_, ?_, ?_⟩
  · intro x hx
    have hr := hs.reaches.1 hx
    rw [hs.addr, hk x hr]
    exact h.source x hr
  · intro x hx
    rw [hs.slot] at hx ⊢
    rw [hbkt]
    exact h.tag x hx
  · rw [hs.head]
    exact h.old
  · intro b hf j hj hb
    have hkeys : kv'.keysIn = kv.keysIn := by
      funext js c
      simp only [keysIn, hbkt]
    obtain ⟨hc, ht⟩ := hf
    rw [hkeys] at hc ht
    rw [hbkt] at hb
    simp only [hs.slot]
    exact h.kept b ⟨hc, ht⟩ j hj hb

/-! ## Batches -/

/-- What has become of the store the batch began with: a slot is as it was, or has been taken by
an insert of the batch. -/
structure MicaKv.Since (kv₀ kv : MicaKv) : Prop extends Forward kv₀ kv where
  slots : ∀ x, (kv.slot x).inUse = true → kv.slot x = kv₀.slot x ∨ kv₀.logHead ≤ (kv.slot x).offset

theorem MicaKv.Since.sameIndex (h : Since kv₀ kv) (hs : SameIndex kv kv') : Since kv₀ kv' where
  toForward := h.toForward.trans hs.forward
  slots x hx := by
    rw [hs.slot] at hx ⊢
    exact h.slots x hx

theorem MicaKv.Since.inserted (h : Since kv₀ kv) (t : Inserted L kv op kv') : Since kv₀ kv' where
  toForward := by
    have hh := t.head
    exact h.toForward.trans ⟨t.cap, t.mask, by omega⟩
  slots x hx := by
    by_cases he : x = kv.target (CacheOp.ofBytes op).key
    · subst he
      rw [t.slot_self]
      exact .inr h.head
    · rw [t.slot_ne x he] at hx ⊢
      exact h.slots x hx

/-- A record of the store the batch began with, not lapped yet, is a record of the store as it is
now or apart from all of them. -/
theorem MicaKv.Since.apart {y : ℕ × Fin 8} (hs : Since kv₀ kv) (h₀ : kv₀.Inv L) (h : kv.Inv L) (hx : kv₀.Reaches x)
    (hl : Live kv₀.logCap kv.logHead (kv₀.slot x).offset) (hy : kv.Reaches y) :
    kv.addr y = kv₀.addr x ∨ Apart (kv.addr y) (recordLen L) (kv₀.addr x) (recordLen L) := by
  have hcap := hs.cap
  have hhead := hs.head
  have hbx := h₀.below x hx.1
  have hby := h.below y hy.1
  have hly := hy.2
  unfold addr
  rw [hcap] at hly ⊢
  rcases hs.slots y hy.1 with he | hnew
  · by_cases hxy : x = y
    · left
      rw [he, hxy]
    · right
      have hu : (kv₀.slot y).inUse = true := he ▸ hy.1
      rw [he] at hly hby ⊢
      rcases h₀.ordered x y hxy hx.1 hu with ho | ho
      · exact (hl.apart ho hby).symm
      · exact hly.apart ho (by omega)
  · right
    exact (hl.apart (by omega) hby).symm

variable {v : Variant}

theorem Variant.lawful (v : Variant) : (v.backend cfg machineId).Lawful := by
  cases v with
  | mica => exact mica_lawful cfg
  | crcw => exact micaCrcw_lawful cfg machineId

theorem Variant.insertOf_op (v : Variant) (op : Bytes) : (v.insertOf op).op = op := by
  cases v <;> rfl

theorem Variant.apply_of_insert (hok : (v.backend cfg machineId).insert kv op = .ok (kv', op')) :
    (v.insertOf op).apply cfg kv = .ok kv' := by
  cases v <;> exact bind_eq_ok.2 ⟨_, hok, rfl⟩

theorem Variant.get_evictions {p : ℕ} (hok : (v.backend cfg machineId).get kv p = .ok kv') :
    kv'.numIndexEvictions = kv.numIndexEvictions := by
  cases v with
  | mica =>
    cases hok
    rfl
  | crcw =>
    simp only [backend, micaCrcw] at hok
    split at hok
    · cases hok
      rfl
    · cases hok

theorem Variant.put_evictions {p : ℕ} (hok : (v.backend cfg machineId).put kv op p = .ok (kv', op')) :
    kv'.numIndexEvictions = kv.numIndexEvictions := by
  cases v with
  | mica =>
    cases hok
    rfl
  | crcw =>
    obtain ⟨ol, _, he⟩ := bind_eq_ok.1 hok
    cases he
    rfl

theorem Variant.getFail_evictions : ((v.backend cfg machineId).getFail kv).numIndexEvictions = kv.numIndexEvictions := by
  cases v <;> rfl

/-- A PUT in place, at the address the batch has for it, keeps the keys of all records. -/
theorem MicaKv.Since.put {p : ℕ} {y : ℕ × Fin 8} (hs : Since kv₀ kv) (h₀ : kv₀.Inv L) (h : kv.Inv L)
    (hkeep : kv₀.Keeps kv key) (hp : kv.inStore key (kv₀.lookup key) = some p) (u : Updated L kv op p kv')
    (hy : kv.Reaches y) : (kv'.record (kv.addr y)).key = (kv.record (kv.addr y)).key ∧
      (kv'.record (kv.addr y)).valLen = (kv.record (kv.addr y)).valLen := by
  obtain ⟨hlook, -⟩ := Option.filter_eq_some_iff.1 hp
  obtain ⟨j, hx, -, rfl⟩ := h₀.lookup_eq_some.1 hlook
  rcases hs.apart h₀ h hx (hkeep _ hx hlook) hy with ha | ha
  · rw [ha]
    exact ⟨u.key, u.valLen⟩
  · have hr := CacheOp.same_of_agree (u.frame _ ha)
    exact ⟨hr.key, hr.valLen⟩

/-- One turn of a batch that began in `kv₀`: it inserts, or it keeps index and keys. -/
theorem Variant.turn_cases (h₀ : kv₀.Inv L) (h : kv.Inv L) (hs : Since kv₀ kv) (hop : Request L op)
    (hfresh : (CacheOp.ofBytes op).opcode = .put → kv₀.Keeps kv (CacheOp.ofBytes op).key)
    (hok : (v.backend cfg machineId).serve kv op (kv₀.lookup (CacheOp.ofBytes op).key) = .ok (kv', op', r)) :
    (¬ kv₀.Inserts kv op ∧ SameIndex kv kv' ∧ kv'.numIndexEvictions = kv.numIndexEvictions ∧
      ∀ y, kv.Reaches y → (kv'.record (kv.addr y)).key = (kv.record (kv.addr y)).key ∧
        (kv'.record (kv.addr y)).valLen = (kv.record (kv.addr y)).valLen) ∨
    (kv₀.Inserts kv op ∧ (CacheOp.ofBytes op).valLen = L ∧ (v.insertOf op).apply cfg kv = .ok kv') := by
  have hlaw : (v.backend cfg machineId).Lawful := v.lawful
  have hlog : kv'.htLog = kv.htLog → ∀ y, kv.Reaches y → (kv'.record (kv.addr y)).key = (kv.record (kv.addr y)).key ∧
      (kv'.record (kv.addr y)).valLen = (kv.record (kv.addr y)).valLen := by
    intro he y _
    unfold record
    rw [he]
    exact ⟨rfl, rfl⟩
  rcases Backend.serve_cases hok with ⟨p, hp, hg, hst, _⟩ | ⟨p, hp, hput, hl, hst, _⟩ | ⟨_, hg, rfl, _⟩ | ⟨hn, hng, hst, _⟩
  · obtain ⟨hsame, he⟩ := hlaw.get hst
    exact .inl ⟨fun hi => hi.1 hg, hsame, Variant.get_evictions hst, hlog he⟩
  · have hrec : (kv.record p).valLen = L := by
      rcases hop with hg | ⟨-, hv⟩
      · rw [hput] at hg
        cases hg
      · exact hl.symm.trans hv
    have u := hlaw.put hst
    rw [hrec] at u
    refine .inl ⟨fun hi => ?_, u.toSameIndex, Variant.put_evictions hst, fun y hy => hs.put h₀ h (hfresh hput) hp u hy⟩
    rw [hi.2] at hp
    cases hp
  · obtain ⟨hsame, he⟩ := hlaw.getFail kv
    exact .inl ⟨fun hi => hi.1 hg, hsame, Variant.getFail_evictions, hlog he⟩
  · exact .inr ⟨⟨hng, hn⟩, (hop.resolve_left hng).2, Variant.apply_of_insert hst⟩

theorem Indexed.turn {ins : List Insertion} (h : Indexed L ins kv) (hL : L.toNat ≤ cfg.herdValueSize) (h₀ : kv₀.Inv L)
    (hs : Since kv₀ kv) (hop : Request L op)
    (hfresh : (CacheOp.ofBytes op).opcode = .put → kv₀.Keeps kv (CacheOp.ofBytes op).key)
    (hok : (v.backend cfg machineId).serve kv op (kv₀.lookup (CacheOp.ofBytes op).key) = .ok (kv', op', r)) :
    Indexed L (ins ++ insertionsOf kv₀ [(kv, op)]) kv' ∧ Since kv₀ kv' := by
  rcases Variant.turn_cases h₀ h.inv hs hop hfresh hok with ⟨hn, hsame, he, hrec⟩ | ⟨hi, hv, ha⟩
  · have hnone : insertionsOf kv₀ [(kv, op)] = [] := by simp [insertionsOf, hn]
    rw [hnone, List.append_nil]
    exact ⟨h.sameIndex hsame he (fun y hy => (hrec y hy).1) (fun y hy => (hrec y hy).2), hs.sameIndex hsame⟩
  · have hins : insertionsOf kv₀ [(kv, op)] = [kv.insertion (CacheOp.ofBytes op).key] := by simp [insertionsOf, hi]
    rw [← v.insertOf_op op] at hv
    have hnew := h.insert hL hv ha
    have t := (v.insertOf op).inserted h.inv hL hv ha
    rw [v.insertOf_op] at hnew
    rw [hins]
    exact ⟨hnew, hs.inserted t⟩

/-- All turns of a batch. -/
theorem Indexed.turns {ins : List Insertion} {ops : List Bytes} {rs : List (KvResp × MicaKv)} (h₀ : kv₀.Inv L)
    (hL : L.toNat ≤ cfg.herdValueSize) (ht : Trace (v.backend cfg machineId) kv₀.lookup kv ops rs kv') :
    Indexed L ins kv → Since kv₀ kv → (∀ op ∈ ops, Request L op) →
    (∀ t ∈ (v.backend cfg machineId).turns kv₀ kv ops, (CacheOp.ofBytes t.2).opcode = .put →
      kv₀.Keeps t.1 (CacheOp.ofBytes t.2).key) →
    Indexed L (ins ++ insertionsOf kv₀ ((v.backend cfg machineId).turns kv₀ kv ops)) kv' := by
  induction ht generalizing ins with
  | nil =>
    intro h _ _ _
    simpa [Backend.turns, insertionsOf] using h
  | @cons kv op kv₁ op' r ops rs kv₂ hok _ ih =>
    intro h hs hops hfresh
    simp only [Backend.turns, hok] at hfresh ⊢
    obtain ⟨h₁, hs₁⟩ := h.turn hL h₀ hs (hops op List.mem_cons_self) (hfresh _ List.mem_cons_self) hok
    have h₂ := ih h₁ hs₁ (fun o ho => hops o (List.mem_cons_of_mem _ ho)) (fun t ht => hfresh t (List.mem_cons_of_mem _ ht))
    rw [List.append_assoc] at h₂
    rw [insertionsOf, ← List.singleton_append, List.filterMap_append]
    exact h₂

/-- One call. -/
theorem Indexed.call {ins js : List Insertion} {c : KvCall} (h : Indexed L ins kv) (hL : L.toNat ≤ cfg.herdValueSize)
    (hw : c.WellFormed cfg machineId L kv) (hf : c.FreshPuts cfg machineId kv)
    (hok : c.run cfg machineId kv = .ok (kv', js)) : Indexed L (ins ++ js) kv' := by
  cases c with
  | insert i =>
    obtain ⟨kv₁, hi, he⟩ := bind_eq_ok.1 hok
    cases he
    exact h.insert hL hw.1 hi
  | batch v ops =>
    obtain ⟨⟨kv₁, ys⟩, hb, he⟩ := bind_eq_ok.1 hok
    cases he
    obtain ⟨rs, ht, -⟩ := serveAll_eq_ok hb
    exact .turns h.inv hL ht h ⟨⟨rfl, rfl, Nat.le_refl _⟩, fun _ _ => .inl rfl⟩ hw.1 hf

/-- The inserts of a run. -/
def insertsOfRun (es : List (KvCall × List Insertion)) : List Insertion := es.flatMap (·.2)

theorem indexed_of_run {es : List (KvCall × List Insertion)} (hL : L.toNat ≤ cfg.herdValueSize)
    (h : (kvsFresh cfg machineId L).Run kv₀ es kv) : Indexed L (insertsOfRun es) kv := by
  refine h.invariant (fun es kv => Indexed L (insertsOfRun es) kv) ?_ fun _ ih hst => ?_
  · rintro ⟨index, log, numBkts, k, hk, hinit⟩
    have hfree : ∀ x, (kv₀.slot x).inUse ≠ true := fun x => by simp [micaInit_free hinit x]
    refine ⟨inv_init L rfl hk hinit, ?_, fun x hx => absurd hx.1 (hfree x), fun x hx => absurd hx (hfree x), ?_, ?_⟩
    · unfold micaInit at hinit
      split at hinit
      · cases hinit
        rfl
      · cases hinit
    · intro i hi
      cases hi
    · intro b _ i hi
      cases hi
  · rw [insertsOfRun, List.flatMap_append, List.flatMap_singleton]
    exact ih.call hL hst.1.1 hst.2 hst.1.2

/-- Few keys are all found, until the log wraps over them. -/
theorem Indexed.found {ins : List Insertion} {b : ℕ} {i : Insertion} (h : Indexed L ins kv) (hf : kv.FewKeys ins b)
    (hi : i ∈ ins) (hb : kv.bkt i.key = b) (hl : Live kv.logCap kv.logHead i.offset) : ∃ p, kv.find i.key = some p := by
  obtain ⟨j, hu, ht, ho⟩ := h.kept b hf i hi hb
  have hr : kv.Reaches (b, j) := ⟨hu, by unfold Live at hl ⊢; omega⟩
  obtain ⟨i', hi', hk'⟩ := h.source _ hr
  obtain ⟨hb', ht'⟩ := h.inv.key _ hr
  rw [← hk'] at hb' ht'
  have he := hf.tags _ (mem_keysIn.2 ⟨⟨i', hi', rfl⟩, hb'⟩) _ (mem_keysIn.2 ⟨⟨i, hi, rfl⟩, hb⟩) (ht'.trans ht)
  exact ⟨_, h.inv.find_eq_some.2 ⟨_, hr, rfl, hk'.symm.trans he⟩⟩

/-- The lookup finds the slot an insert has taken. -/
theorem MicaKv.Inv.slotOf_inserted (h : kv.Inv L) (hL : L.toNat ≤ cfg.herdValueSize) (hv : (CacheOp.ofBytes i.op).valLen = L)
    (hok : i.apply cfg kv = .ok kv') : kv'.slotOf (CacheOp.ofBytes i.op).key =
      some (chosenSlot (kv.slots (CacheOp.ofBytes i.op).key) (keyTag (CacheOp.ofBytes i.op).key)) := by
  have t := i.inserted h hL hv hok
  have hself := t.slot_self
  rw [i.ofBytes_stored.1] at hself
  have hslot : kv'.slots (CacheOp.ofBytes i.op).key (kv.target (CacheOp.ofBytes i.op).key).2 =
      ⟨true, keyTag (CacheOp.ofBytes i.op).key, kv.logHead⟩ := by
    unfold slots
    rw [t.bkt]
    exact hself
  have h' := t.inv h (i.ofBytes_stored.2.trans hv)
  exact h'.slotOf_eq (congrArg MicaSlot.inUse hslot) (congrArg MicaSlot.tag hslot)

/-- **The index**, in every state a run reaches whose batches have fresh PUTs. The slots in use
are the upper ones of their bucket and have different tags; a slot that is not lapped has a
record of its bucket and tag; an insert takes the slot that the lookup finds afterwards; the
keys of a bucket are all found while there are few; and evictions are counted. -/
theorem index_invariant {cfg : Config} {machineId L : UInt8} {kv₀ kv : MicaKv} {es : List (KvCall × List Insertion)}
    (hL : L.toNat ≤ cfg.herdValueSize) (h : (kvsFresh cfg machineId L).Run kv₀ es kv) :
    (∀ b i j, i ≤ j → (kv.htIndex b i).inUse = true → (kv.htIndex b j).inUse = true) ∧
    (∀ b i j, (kv.htIndex b i).inUse = true → (kv.htIndex b j).inUse = true →
      (kv.htIndex b i).tag = (kv.htIndex b j).tag → i = j) ∧
    (∀ x, kv.Reaches x → kv.bkt (kv.record (kv.addr x)).key = x.1 ∧
      keyTag (kv.record (kv.addr x)).key = (kv.slot x).tag) ∧
    (∀ (i : Insert) (kv' : MicaKv), (CacheOp.ofBytes i.op).valLen = L → i.apply cfg kv = .ok kv' →
      kv'.slotOf (CacheOp.ofBytes i.op).key =
        some (chosenSlot (kv.slots (CacheOp.ofBytes i.op).key) (keyTag (CacheOp.ofBytes i.op).key))) ∧
    (∀ b, kv.FewKeys (insertsOfRun es) b → ∀ i ∈ insertsOfRun es, kv.bkt i.key = b →
      Live kv.logCap kv.logHead i.offset → ∃ p, kv.find i.key = some p) ∧
    kv.numIndexEvictions = (insertsOfRun es).countP (·.displaced) := by
  have hi := indexed_of_run hL h
  exact ⟨hi.inv.upper, hi.inv.tags, hi.inv.key,
    fun i kv' hv hok => hi.inv.slotOf_inserted hL hv hok, fun b hf i hmem hb hl => hi.found hf hmem hb hl, hi.evictions⟩

/-! ## Runs on fixed calls -/

instance (c : KvCall) : Decidable (c.WellFormed cfg machineId L kv) := by
  cases c with
  | insert i => exact inferInstanceAs (Decidable (_ ∧ _ ≤ _))
  | batch v ops => exact inferInstanceAs (Decidable (_ ∧ ∀ t ∈ _, _ → _ ≤ _))

/-- The store after well-formed calls. -/
def KvCall.follow (cfg : Config) (machineId L : UInt8) (kv : MicaKv) : List KvCall → Option MicaKv
  | [] => some kv
  | c :: cs =>
    if c.WellFormed cfg machineId L kv then
      match c.run cfg machineId kv with
      | .ok x => follow cfg machineId L x.1 cs
      | .error _ => none
    else none

theorem KvCall.run_of_follow {cs : List KvCall} : ∀ {es kv}, (kvs cfg machineId L).Run kv₀ es kv →
    follow cfg machineId L kv cs = some kv' → ∃ es', (kvs cfg machineId L).Run kv₀ es' kv' := by
  induction cs with
  | nil =>
    intro es kv h hf
    cases hf
    exact ⟨es, h⟩
  | cons c cs ih =>
    intro es kv h hf
    simp only [follow] at hf
    split at hf
    · next hw =>
      split at hf
      · next x hx => exact ih (h.snoc (e := (c, x.2)) ⟨hw, hx⟩) hf
      · cases hf
    · cases hf

/-- A PUT with a value of twelve bytes, the length of big objects divided by eight. -/
def shortRequest (key : ℕ) (v : UInt8) : Bytes := (putRequest key v).write 17 (fun _ => 12) 1

/-- Four records fill the first lap of the log; a batch then laps the record of key 1 before it
executes a PUT of that key. -/
def lappedPut : List KvCall :=
  ([0, 1, 2, 3] : List ℕ).map (fun k => .insert (.one (shortRequest k 0))) ++
    [.batch .crcw [shortRequest 4 0, shortRequest 5 0, shortRequest 6 0, shortRequest 7 0, shortRequest 3072 0, shortRequest 1 5]]

end

/-- The address of key 1 lies in the record of key 7 by then, and the key is read from the
metadata of key 3072's record, where it happens to be 1. The value overwrites that record's key. -/
theorem index_overwritten : ∃ es kv, (kvs ⟨true, 1⟩ 0 12).Run (freshKv 512) es kv ∧ kv.Reaches (0, 7) ∧
    keyTag (kv.record (kv.addr (0, 7))).key ≠ (kv.slot (0, 7)).tag := by
  have hf : (KvCall.follow ⟨true, 1⟩ 0 12 (freshKv 512) lappedPut).map
      (fun kv => decide (((kv.slot (0, 7)).inUse = true ∧ kv.logHead < (kv.slot (0, 7)).offset + kv.logCap) ∧
        keyTag (kv.record (kv.addr (0, 7))).key ≠ (kv.slot (0, 7)).tag)) = some true := by
    decide +kernel
  obtain ⟨kv, hkv, he⟩ := Option.map_eq_some_iff.1 hf
  obtain ⟨es, hr⟩ := KvCall.run_of_follow (.nil ⟨_, _, 8, 9, by omega, micaInit_freshKv 512⟩) hkv
  rw [decide_eq_true_eq] at he
  exact ⟨es, kv, hr, he⟩

/-- Two keys of one bucket. -/
def twoKeyBatch : KvCall := .batch .crcw [putRequest 0 1, putRequest (2 ^ 48) 2, getRequest 0]

theorem index_invariant_two_keys : ∃ es kv, (kvsFresh .shipped 0 32).Run (freshKv 1024) es kv ∧
    insertsOfRun es = [⟨0, 0, false⟩, ⟨2 ^ 48, 56, false⟩] ∧ kv.numIndexEvictions = 0 := by
  have hL : (32 : UInt8).toNat ≤ Config.shipped.herdValueSize := by decide
  obtain ⟨x, hx, he⟩ := exists_ok_of_map (show (twoKeyBatch.run .shipped 0 (freshKv 1024)).toOption.map (·.2) =
    some [⟨0, 0, false⟩, ⟨2 ^ 48, 56, false⟩] by decide +kernel)
  have hw : twoKeyBatch.WellFormed .shipped 0 32 (freshKv 1024) := by decide +kernel
  have hinit : (kvsFresh .shipped 0 32).init (freshKv 1024) := ⟨_, _, 8, 10, by omega, micaInit_freshKv 1024⟩
  have hrun : (kvsFresh .shipped 0 32).Run (freshKv 1024) _ x.1 := (Lts.Run.nil hinit).snoc (e := (twoKeyBatch, x.2))
    ⟨⟨hw, hx⟩, fun _ _ _ y hy => nomatch hy.1⟩
  have hins : insertsOfRun ([] ++ [(twoKeyBatch, x.2)]) = [⟨0, 0, false⟩, ⟨2 ^ 48, 56, false⟩] := by
    simp [insertsOfRun, he]
  have hev := (index_invariant hL hrun).2.2.2.2.2
  rw [hins] at hev
  exact ⟨_, _, hrun, hins, hev⟩

end CcKvs
