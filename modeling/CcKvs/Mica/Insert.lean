/-
An insert: the slot it takes, where it writes and how far it moves the head.
It keeps the invariant, and as a map the store forgets what the insert evicts,
replaces or laps and holds nothing stale.
-/
import CcKvs.Mica.Inv

namespace CcKvs.MicaKv

open CircularLog

/-! ## The head -/

/-- Aligning up to eight bytes. -/
theorem clearBits_align (x : ℕ) : x ≤ clearBits (x + 7) 7 ∧ clearBits (x + 7) 7 ≤ x + 7 := by
  have h : (x + 7) &&& 7 = (x + 7) % 8 := Nat.and_two_pow_sub_one_eq_mod (x + 7) 3
  unfold clearBits
  omega

/-- The head moves on by at least the length of the record. -/
theorem le_nextHead {kv : MicaKv} (h : kv.Shape) (cfg : Config) (n : ℕ) : kv.logHead + n ≤ kv.nextHead cfg n := by
  have ha := (clearBits_align (kv.logHead + n)).1
  have hm := Nat.mod_lt (clearBits (kv.logHead + n + 7) 7 + kv.logCap) h.cap_pos
  simp only [nextHead]
  split
  · rw [clearBits, h.and_mask]
    omega
  · exact ha

/-- The assertion keeps the head within the virtual offsets, also when it starts a new lap. -/
theorem nextHead_le {kv : MicaKv} (h : kv.Shape) (cfg : Config) {n : ℕ} (hroom : kv.logHead + n + 8 < 2 ^ 40) :
    kv.nextHead cfg n ≤ 2 ^ 40 := by
  have ha := (clearBits_align (kv.logHead + n)).2
  simp only [nextHead]
  split
  · generalize clearBits (kv.logHead + n + 7) 7 = head at ha ⊢
    obtain ⟨k, hk, hcap⟩ := h.cap
    -- the start of the next lap is a multiple of the capacity, as is the limit
    obtain ⟨d, hd⟩ : kv.logCap ∣ 2 ^ 40 := hcap ▸ Nat.pow_dvd_pow 2 hk
    have hlap : head / kv.logCap < d := by
      rw [Nat.div_lt_iff_lt_mul h.cap_pos, Nat.mul_comm, ← hd]
      omega
    have hmul := Nat.mul_le_mul_left kv.logCap (Nat.succ_le_of_lt hlap)
    have hdiv := Nat.div_add_mod head kv.logCap
    rw [clearBits, h.and_mask, Nat.add_mod_right, hd]
    rw [Nat.mul_succ] at hmul
    omega
  · omega

/-! ## The slot -/

/-- A loop without `break` keeps the last element it matches. -/
theorem foldl_last {α : Type} (P : α → Prop) [DecidablePred P] (l : List α) :
    (l.foldl (fun r a => if P a then some a else r) none = none ∧ ∀ a ∈ l, ¬ P a) ∨
    ∃ l₁ a l₂, l = l₁ ++ a :: l₂ ∧ P a ∧ (∀ b ∈ l₂, ¬ P b) ∧
      l.foldl (fun r a => if P a then some a else r) none = some a := by
  induction l using List.reverseRecOn with
  | nil => exact .inl ⟨rfl, by simp⟩
  | append_singleton l c ih =>
    simp only [List.foldl_append, List.foldl_cons, List.foldl_nil]
    by_cases hc : P c
    · exact .inr ⟨l, c, [], rfl, hc, by simp, if_pos hc⟩
    · simp only [if_neg hc]
      rcases ih with ⟨hn, hl⟩ | ⟨l₁, a, l₂, rfl, ha, hl₂, hf⟩
      · refine .inl ⟨hn, fun b hb => ?_⟩
        rcases List.mem_append.1 hb with hb | hb
        · exact hl b hb
        · exact List.mem_singleton.1 hb ▸ hc
      · refine .inr ⟨l₁, a, l₂ ++ [c], by simp, ha, fun b hb => ?_, hf⟩
        rcases List.mem_append.1 hb with hb | hb
        · exact hl₂ b hb
        · exact List.mem_singleton.1 hb ▸ hc

theorem slotToUse_spec (slots : Fin 8 → MicaSlot) (tag : ℕ) :
    (slotToUse slots tag = none ∧ ∀ j, ¬ ((slots j).tag = tag ∨ (slots j).inUse = false)) ∨
    ∃ i, slotToUse slots tag = some i ∧ ((slots i).tag = tag ∨ (slots i).inUse = false) ∧
      ∀ j, i < j → ¬ ((slots j).tag = tag ∨ (slots j).inUse = false) := by
  rcases foldl_last (fun i => (slots i).tag = tag ∨ (slots i).inUse = false) (List.finRange 8) with
    ⟨hn, hl⟩ | ⟨l₁, i, l₂, heq, hi, hl₂, hf⟩
  · exact .inl ⟨hn, fun j => hl j (List.mem_finRange j)⟩
  · refine .inr ⟨i, hf, hi, fun j hj => hl₂ j ?_⟩
    have hm := List.mem_finRange j
    have hs := List.pairwise_lt_finRange 8
    rw [heq] at hm hs
    rcases List.mem_append.1 hm with hm | hm
    · have hlt := (List.pairwise_append.1 hs).2.2 j hm i (by simp)
      omega
    · rcases List.mem_cons.1 hm with rfl | hm
      · omega
      · exact hm

section

variable {L : UInt8} {kv kv' : MicaKv} {op : Bytes} {key : UInt64} {y : ℕ × Fin 8}

/-- The slot an insert of `key` writes. -/
def target (kv : MicaKv) (key : UInt64) : ℕ × Fin 8 := (kv.bkt key, chosenSlot (kv.slots key) (keyTag key))

/-- No other slot has the tag, and the slots above the chosen one are in use. -/
theorem Inv.target_spec (h : kv.Inv L) (key : UInt64) {j : Fin 8} (hj : j ≠ (kv.target key).2) :
    ((kv.slots key j).inUse = true → (kv.slots key j).tag ≠ keyTag key) ∧
    ((kv.target key).2 ≤ j → (kv.slots key j).inUse = true) := by
  rcases slotToUse_spec (kv.slots key) (keyTag key) with ⟨hn, hall⟩ | ⟨i, hs, hi, habove⟩
  · have hj' := hall j
    rw [not_or, Bool.not_eq_false] at hj'
    exact ⟨fun _ => hj'.1, fun _ => hj'.2⟩
  · simp only [target, chosenSlot, hs, Option.getD_some] at hj ⊢
    constructor
    · intro hu ht
      have hle : j ≤ i := by
        by_contra hlt
        exact habove j (by omega) (.inl ht)
      have hui : (kv.slots key i).inUse = true := h.upper _ j i hle hu
      rcases hi with hti | hfree
      · exact hj (h.tags _ j i hu hui (ht.trans hti.symm))
      · rw [hui] at hfree
        cases hfree
    · intro hle
      have hj' := habove j (by omega)
      rw [not_or, Bool.not_eq_false] at hj'
      exact hj'.2

/-! ## The record -/

/-- `op` stands at the old head, and the records the head has not lapped are untouched. -/
structure Inserted (L : UInt8) (kv : MicaKv) (op : Bytes) (kv' : MicaKv) : Prop where
  slot_self : kv'.slot (kv.target (CacheOp.ofBytes op).key) = ⟨true, keyTag (CacheOp.ofBytes op).key, kv.logHead⟩
  slot_ne : ∀ y, y ≠ kv.target (CacheOp.ofBytes op).key → kv'.slot y = kv.slot y
  bktMask : kv'.bktMask = kv.bktMask
  cap : kv'.logCap = kv.logCap
  mask : kv'.logMask = kv.logMask
  head : kv.logHead + recordLen L ≤ kv'.logHead
  head_le : kv'.logHead ≤ 2 ^ 40
  paste : Bytes.Agree (recordLen L) (kv'.htLog.drop (kv.logHead % kv.logCap)) op
  frame : ∀ a, Live kv.logCap kv'.logHead a → a + recordLen L ≤ kv.logHead →
    Bytes.Agree (recordLen L) (kv'.htLog.drop (a % kv.logCap)) (kv.htLog.drop (a % kv.logCap))

theorem insertOne_eq_ok {cfg : Config} {n : ℕ} (hok : kv.insertOne cfg op n = .ok kv') :
    n + 8 < sub64 (2 ^ 40) kv.logHead ∧
    kv'.htIndex = Function.update kv.htIndex (kv.bkt (CacheOp.ofBytes op).key)
      (Function.update (kv.slots (CacheOp.ofBytes op).key)
        (chosenSlot (kv.slots (CacheOp.ofBytes op).key) (keyTag (CacheOp.ofBytes op).key))
        ⟨true, keyTag (CacheOp.ofBytes op).key, kv.logHead % 2 ^ 40⟩) ∧
    kv'.htLog = kv.htLog.write (kv.logHead &&& kv.logMask) op n ∧ kv'.logHead = kv.nextHead cfg n ∧
    kv'.bktMask = kv.bktMask ∧ kv'.logCap = kv.logCap ∧ kv'.logMask = kv.logMask := by
  simp only [insertOne] at hok
  split at hok
  · next hroom =>
    cases hok
    exact ⟨hroom, rfl, rfl, rfl, rfl, rfl, rfl⟩
  · cases hok

/-- Wherever an insert writes, it is behind the old head and not on a record that stays live. -/
theorem insertOne_frame (h : kv.Shape) {cfg : Config} {n m a : ℕ} (hok : kv.insertOne cfg op n = .ok kv')
    (ha : Live kv.logCap kv'.logHead a) (hb : a + m ≤ kv.logHead) :
    Bytes.Agree m (kv'.htLog.drop (a % kv.logCap)) (kv.htLog.drop (a % kv.logCap)) := by
  obtain ⟨-, -, hlog, hhead, -⟩ := insertOne_eq_ok hok
  have hgrow := le_nextHead h cfg n
  have hlive := ha.of_le (show kv.logHead + n ≤ kv'.logHead by omega)
  rw [hlog, h.and_mask]
  exact Bytes.drop_write_of_disjoint (hlive.apart hb (Nat.le_refl _))

theorem Inv.insertOne (h : kv.Inv L) {cfg : Config} {n : ℕ} (hn : recordLen L ≤ n)
    (hok : kv.insertOne cfg op n = .ok kv') : Inserted L kv op kv' := by
  obtain ⟨hroom, hidx, hlog, hhead, hbm, hcap, hmask⟩ := insertOne_eq_ok hok
  have hle := h.head_le
  rw [sub64_of_le hle (by omega)] at hroom
  have hgrow := le_nextHead h.shape cfg n
  rw [h.shape.and_mask] at hlog
  constructor
  · show kv'.htIndex _ _ = _
    rw [hidx]
    simp only [target, Function.update_self, Nat.mod_eq_of_lt (show kv.logHead < 2 ^ 40 by omega)]
  · intro y hy
    show kv'.htIndex y.1 y.2 = kv.htIndex y.1 y.2
    rw [hidx]
    by_cases hb : y.1 = kv.bkt (CacheOp.ofBytes op).key
    · have hj : y.2 ≠ chosenSlot (kv.slots (CacheOp.ofBytes op).key) (keyTag (CacheOp.ofBytes op).key) :=
        fun hj => hy (Prod.ext hb hj)
      rw [hb, Function.update_self, Function.update_of_ne hj]
      rfl
    · rw [Function.update_of_ne hb]
  · exact hbm
  · exact hcap
  · exact hmask
  · omega
  · exact hhead ▸ nextHead_le h.shape cfg (by omega)
  · rw [hlog]
    exact (Bytes.agree_drop_write _ _ _ _).mono hn
  · exact fun a ha hb => insertOne_frame h.shape hok ha hb

namespace Inserted

theorem addr_self (t : Inserted L kv op kv') : kv'.addr (kv.target (CacheOp.ofBytes op).key) = kv.logHead % kv.logCap := by
  unfold addr
  rw [t.slot_self, t.cap]

theorem addr_ne (t : Inserted L kv op kv') (hy : y ≠ kv.target (CacheOp.ofBytes op).key) : kv'.addr y = kv.addr y := by
  unfold addr
  rw [t.slot_ne y hy, t.cap]

/-- The new slot's record is the operation. -/
theorem same_self (t : Inserted L kv op kv') :
    CacheOp.Same L.toNat (kv'.record (kv'.addr (kv.target (CacheOp.ofBytes op).key))) (CacheOp.ofBytes op) := by
  rw [t.addr_self]
  exact CacheOp.same_of_agree t.paste

/-- Other slots may get lapped, but do not come back. -/
theorem reaches_ne (t : Inserted L kv op kv') (hy : y ≠ kv.target (CacheOp.ofBytes op).key) (hr : kv'.Reaches y) :
    kv.Reaches y := by
  have hh := t.head
  unfold Reaches at hr ⊢
  rw [t.slot_ne y hy, t.cap] at hr
  exact ⟨hr.1, hr.2.of_le (by omega)⟩

theorem same_ne (t : Inserted L kv op kv') (h : kv.Inv L) (hy : y ≠ kv.target (CacheOp.ofBytes op).key)
    (hr : kv'.Reaches y) : CacheOp.Same L.toNat (kv'.record (kv'.addr y)) (kv.record (kv.addr y)) := by
  have hb := h.below y (t.reaches_ne hy hr).1
  unfold Reaches at hr
  rw [t.slot_ne y hy, t.cap] at hr
  rw [t.addr_ne hy]
  exact CacheOp.same_of_agree (t.frame _ hr.2 hb)

theorem index_other (t : Inserted L kv op kv') {b : ℕ} (hb : b ≠ kv.bkt (CacheOp.ofBytes op).key) :
    kv'.htIndex b = kv.htIndex b :=
  funext fun j => t.slot_ne (b, j) fun he => hb (congrArg Prod.fst he)

theorem index_self (t : Inserted L kv op kv') :
    kv'.htIndex (kv.bkt (CacheOp.ofBytes op).key) (kv.target (CacheOp.ofBytes op).key).2 =
      ⟨true, keyTag (CacheOp.ofBytes op).key, kv.logHead⟩ := t.slot_self

theorem index_ne (t : Inserted L kv op kv') {j : Fin 8} (hj : j ≠ (kv.target (CacheOp.ofBytes op).key).2) :
    kv'.htIndex (kv.bkt (CacheOp.ofBytes op).key) j = kv.slots (CacheOp.ofBytes op).key j :=
  t.slot_ne (_, j) fun he => hj (congrArg Prod.snd he)

theorem tags (t : Inserted L kv op kv') (h : kv.Inv L) (b : ℕ) (i j : Fin 8) (hi : (kv'.htIndex b i).inUse = true)
    (hj : (kv'.htIndex b j).inUse = true) (ht : (kv'.htIndex b i).tag = (kv'.htIndex b j).tag) : i = j := by
  by_cases hb : b = kv.bkt (CacheOp.ofBytes op).key
  · subst hb
    by_cases hic : i = (kv.target (CacheOp.ofBytes op).key).2 <;>
      by_cases hjc : j = (kv.target (CacheOp.ofBytes op).key).2
    · rw [hic, hjc]
    · rw [hic, t.index_self, t.index_ne hjc] at ht
      rw [t.index_ne hjc] at hj
      exact absurd ht.symm ((h.target_spec _ hjc).1 hj)
    · rw [hjc, t.index_self, t.index_ne hic] at ht
      rw [t.index_ne hic] at hi
      exact absurd ht ((h.target_spec _ hic).1 hi)
    · rw [t.index_ne hic] at hi ht
      rw [t.index_ne hjc] at hj ht
      exact h.tags _ i j hi hj ht
  · rw [t.index_other hb] at hi hj ht
    exact h.tags b i j hi hj ht

theorem upper (t : Inserted L kv op kv') (h : kv.Inv L) (b : ℕ) (i j : Fin 8) (hij : i ≤ j)
    (hi : (kv'.htIndex b i).inUse = true) : (kv'.htIndex b j).inUse = true := by
  by_cases hb : b = kv.bkt (CacheOp.ofBytes op).key
  · subst hb
    by_cases hjc : j = (kv.target (CacheOp.ofBytes op).key).2
    · rw [hjc, t.index_self]
    · rw [t.index_ne hjc]
      by_cases hic : i = (kv.target (CacheOp.ofBytes op).key).2
      · exact (h.target_spec _ hjc).2 (hic ▸ hij)
      · rw [t.index_ne hic] at hi
        exact h.upper _ i j hij hi
  · rw [t.index_other hb] at hi ⊢
    exact h.upper b i j hij hi

/-- The records of slots in use follow each other, the new one last. -/
theorem ordered (t : Inserted L kv op kv') (h : kv.Inv L) (x y : ℕ × Fin 8) (hxy : x ≠ y)
    (hx : (kv'.slot x).inUse = true) (hy : (kv'.slot y).inUse = true) :
    (kv'.slot x).offset + recordLen L ≤ (kv'.slot y).offset ∨
    (kv'.slot y).offset + recordLen L ≤ (kv'.slot x).offset := by
  by_cases hxt : x = kv.target (CacheOp.ofBytes op).key
  · have hyt : y ≠ kv.target (CacheOp.ofBytes op).key := fun he => hxy (hxt.trans he.symm)
    rw [t.slot_ne y hyt] at hy ⊢
    rw [hxt, t.slot_self]
    exact .inr (h.below y hy)
  · rw [t.slot_ne x hxt] at hx ⊢
    by_cases hyt : y = kv.target (CacheOp.ofBytes op).key
    · rw [hyt, t.slot_self]
      exact .inl (h.below x hx)
    · rw [t.slot_ne y hyt] at hy ⊢
      exact h.ordered x y hxy hx hy

theorem bkt (t : Inserted L kv op kv') (k : UInt64) : kv'.bkt k = kv.bkt k := by
  unfold MicaKv.bkt
  rw [t.bktMask]

theorem inv (t : Inserted L kv op kv') (h : kv.Inv L) (hL : (CacheOp.ofBytes op).valLen = L) : kv'.Inv L where
  shape := h.shape.congr t.cap t.mask
  head_le := t.head_le
  below x hx := by
    have hh := t.head
    by_cases hxt : x = kv.target (CacheOp.ofBytes op).key
    · rw [hxt, t.slot_self]
      exact hh
    · rw [t.slot_ne x hxt] at hx ⊢
      have hb := h.below x hx
      omega
  ordered := t.ordered h
  tags := t.tags h
  upper := t.upper h
  key x hx := by
    rw [t.bkt]
    by_cases hxt : x = kv.target (CacheOp.ofBytes op).key
    · subst hxt
      rw [t.same_self.key, t.slot_self]
      exact ⟨rfl, rfl⟩
    · rw [(t.same_ne h hxt hx).key, t.slot_ne x hxt]
      exact h.key x (t.reaches_ne hxt hx)
  valLen x hx := by
    by_cases hxt : x = kv.target (CacheOp.ofBytes op).key
    · subst hxt
      exact t.same_self.valLen.trans hL
    · exact (t.same_ne h hxt hx).valLen.trans (h.valLen x (t.reaches_ne hxt hx))

/-- As a map, the store has the new value or has forgotten it, and holds nothing else that it
did not hold before. -/
theorem view_forgets (t : Inserted L kv op kv') (h : kv.Inv L) (hL : (CacheOp.ofBytes op).valLen = L) {k : UInt64}
    {v : List UInt8} (hv : kv'.view L k = some v) :
    Function.update (kv.view L) (CacheOp.ofBytes op).key (some ((CacheOp.ofBytes op).value.toList L.toNat)) k
      = some v := by
  obtain ⟨p, hf, rfl⟩ := Option.map_eq_some_iff.1 hv
  obtain ⟨x, hx, rfl, hk⟩ := (t.inv h hL).find_eq_some.1 hf
  by_cases hxt : x = kv.target (CacheOp.ofBytes op).key
  · subst hxt
    have hkey : k = (CacheOp.ofBytes op).key := hk.symm.trans t.same_self.key
    rw [hkey, Function.update_self]
    exact congrArg some (Bytes.toList_congr t.same_self.value).symm
  · have hs := t.same_ne h hxt hx
    have hr := t.reaches_ne hxt hx
    -- a second slot with the key would have its bucket and tag
    have hne : k ≠ (CacheOp.ofBytes op).key := by
      intro he
      obtain ⟨hb, htag⟩ := h.key x hr
      rw [← hs.key, hk, he] at hb htag
      obtain ⟨b, j⟩ := x
      simp only [] at hb
      subst hb
      have hj : j ≠ (kv.target (CacheOp.ofBytes op).key).2 := fun hj => hxt (Prod.ext rfl hj)
      exact (h.target_spec _ hj).1 hr.1 htag.symm
    have hfind : kv.find k = some (kv.addr x) := h.find_eq_some.2 ⟨x, hr, rfl, hs.key.symm.trans hk⟩
    rw [Function.update_of_ne hne, view, hfind]
    exact congrArg some (Bytes.toList_congr hs.value).symm

end Inserted

end

end CcKvs.MicaKv
