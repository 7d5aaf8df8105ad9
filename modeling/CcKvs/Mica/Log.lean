/-
Where the records of the log stand. `log_head` is virtual and only grows. On
the first lap the head jumps to the end of the log as soon as less than
`MICA_MAX_VALUE + 32` bytes are left, and no record reaches over the end. The
test subtracts the head from `log_cap` in 64-bit arithmetic, so behind the first
lap it never holds again: records follow each other without a gap, and one of
them is written across the end unless the laps come out even.
-/
import CcKvs.Mica.Batch

namespace CcKvs

open MicaKv CircularLog

/-- A call of `mica_insert_one` or of `mica_insert_one_crcw`. -/
inductive Insert
  | one (op : Bytes)
  | crcw (op : Bytes)

namespace Insert

def op : Insert → Bytes
  | one op => op
  | crcw op => op

/-- What is copied into the log: the concurrent variant gives the operation fresh metadata. -/
def stored : Insert → Bytes
  | one op => op
  | crcw op => op.write 0 CacheMeta.fresh.toBytes 8

variable (cfg : Config)

/-- `len_to_copy` -/
def lenToCopy : Insert → ℕ
  | one _ => micaOpMetadata + cfg.herdValueSize
  | crcw op => micaOpMetadata + (CacheOp.ofBytes op).valLen.toNat

/-- `op->val_len <= MICA_MAX_VALUE`, where the length comes from the operation. -/
def ValLenOk : Insert → Prop
  | one _ => True
  | crcw op => (CacheOp.ofBytes op).valLen.toNat ≤ cfg.micaMaxValue

def apply (kv : MicaKv) : Insert → Except Fault MicaKv
  | one op => do
    let x ← micaInsertOne cfg kv op
    .ok x.1
  | crcw op => do
    let x ← micaInsertOneCrcw cfg kv op
    .ok x.1

/-- The inserts in order. -/
def applyAll (kv : MicaKv) : List Insert → Except Fault MicaKv
  | [] => .ok kv
  | i :: is => do
    let kv' ← i.apply cfg kv
    applyAll kv' is

end Insert

/-- A record of `n` bytes written at the head is inside the physical log. -/
def MicaKv.Fits (kv : MicaKv) (n : ℕ) : Prop := (kv.logHead &&& kv.logMask) + n ≤ kv.logCap

/-- Every record the inserts write is inside the physical log. -/
def Insert.AllFit (cfg : Config) (kv : MicaKv) (is : List Insert) : Prop :=
  ∀ l i r kv', is = l ++ i :: r → applyAll cfg kv l = .ok kv' → kv'.Fits (i.lenToCopy cfg)

/-- A length rounded up to eight bytes. -/
def roundUp (n : ℕ) : ℕ := (n + 7) / 8 * 8

/-- What is left of the lengths behind the first lap, which goes on while less than `limit`
bytes are used. -/
def behindFirstLap (limit : ℕ) : ℕ → List ℕ → List ℕ
  | _, [] => []
  | used, n :: ns => if limit ≤ used then n :: ns else behindFirstLap limit (used + n) ns

/-- The rounded lengths of the records inserted behind the first lap. -/
def Insert.later (cfg : Config) (logCap : ℕ) (is : List Insert) : List ℕ :=
  behindFirstLap (logCap - (cfg.micaMaxValue + 32)) 0 (is.map fun i => roundUp (i.lenToCopy cfg))

/-! ## The head -/

theorem clearBits_seven (x : ℕ) : clearBits (x + 7) 7 = roundUp x := by
  have h : (x + 7) &&& 7 = (x + 7) % 8 := Nat.and_two_pow_sub_one_eq_mod (x + 7) 3
  unfold clearBits roundUp
  omega

theorem roundUp_add {a n : ℕ} (ha : 8 ∣ a) : roundUp (a + n) = a + roundUp n := by
  unfold roundUp
  omega

theorem roundUp_le (n : ℕ) : n ≤ roundUp n ∧ roundUp n ≤ n + 7 := by
  unfold roundUp
  omega

theorem dvd_roundUp (n : ℕ) : 8 ∣ roundUp n := Dvd.intro_left _ rfl

/-- Rounding up does not take a record over the end of the log. -/
theorem roundUp_fits {r n cap : ℕ} (hr : 8 ∣ r) (hcap : 8 ∣ cap) : r + n ≤ cap ↔ r + roundUp n ≤ cap := by
  unfold roundUp
  omega

namespace MicaKv

/-- A log of `2 ^ k` bytes, more than two of the largest records and the reserve, with the head
at a multiple of eight. -/
structure LogShape (cfg : Config) (k : ℕ) (kv : MicaKv) : Prop where
  cap : kv.logCap = 2 ^ k
  bits : k < 64
  mask : kv.logMask = kv.logCap - 1
  large : 2 * (cfg.micaMaxValue + 32) < kv.logCap
  aligned : 8 ∣ kv.logHead
  head_le : kv.logHead ≤ 2 ^ 40

section

variable {cfg : Config} {k n : ℕ} {kv kv' : MicaKv} {op : Bytes}

theorem LogShape.and_mask (h : kv.LogShape cfg k) (x : ℕ) : x &&& kv.logMask = x % kv.logCap := by
  rw [h.mask, h.cap, Nat.and_two_pow_sub_one_eq_mod]

theorem LogShape.dvd_cap (h : kv.LogShape cfg k) : 8 ∣ kv.logCap := by
  have hl := h.large
  rw [h.cap] at hl ⊢
  have hk : 3 ≤ k := by
    by_contra hlt
    have hle := Nat.pow_le_pow_right (show 0 < 2 by omega) (show k ≤ 3 by omega)
    omega
  exact Nat.pow_dvd_pow 2 hk

/-- The new head before the test for the end of the log. -/
theorem LogShape.next_aligned (h : kv.LogShape cfg k) (n : ℕ) :
    clearBits (kv.logHead + n + 7) 7 = kv.logHead + roundUp n := by
  rw [clearBits_seven, roundUp_add h.aligned]

/-- On the first lap a record fits, and the head goes on or jumps to the end. -/
theorem LogShape.firstLap (h : kv.LogShape cfg k) (hn : n ≤ 18 + cfg.micaMaxValue)
    (hlap : kv.logHead < kv.logCap - (cfg.micaMaxValue + 32)) :
    kv.Fits n ∧ kv.nextHead cfg n =
      if kv.logCap - (cfg.micaMaxValue + 32) ≤ kv.logHead + roundUp n then kv.logCap
      else kv.logHead + roundUp n := by
  have hl := h.large
  have hr := roundUp_le n
  have hcap : kv.logCap < 2 ^ 64 := h.cap ▸ Nat.pow_lt_pow_right (by omega) h.bits
  have hlt : kv.logHead + roundUp n < kv.logCap := by omega
  constructor
  · unfold Fits
    rw [h.and_mask, Nat.mod_eq_of_lt (by omega)]
    omega
  · simp only [nextHead, h.next_aligned, sub64_of_le (Nat.le_of_lt hlt) hcap]
    by_cases hend : kv.logCap - (cfg.micaMaxValue + 32) ≤ kv.logHead + roundUp n
    · rw [if_pos hend, if_pos (by omega), clearBits, h.and_mask, Nat.add_mod_right, Nat.mod_eq_of_lt hlt]
      omega
    · rw [if_neg hend, if_neg (by omega)]

/-- Behind the first lap the test for the end of the log is never met. -/
theorem LogShape.laterLap (h : kv.LogShape cfg k) (hn : 0 < n) (hlap : kv.logCap ≤ kv.logHead)
    (hroom : kv.logHead + n + 8 < 2 ^ 40) : kv.nextHead cfg n = kv.logHead + roundUp n := by
  have hl := h.large
  have hr := roundUp_le n
  have hsub : sub64 kv.logCap (kv.logHead + roundUp n) = kv.logCap + 2 ^ 64 - (kv.logHead + roundUp n) :=
    Nat.mod_eq_of_lt (by omega)
  simp only [nextHead, h.next_aligned, hsub]
  rw [if_neg (by omega)]

end

end MicaKv

/-! ## Inserts -/

namespace Insert

variable {cfg : Config} {k : ℕ} {kv kv' : MicaKv} {i : Insert} {is : List Insert}

theorem lenToCopy_le (h : i.ValLenOk cfg) : 0 < i.lenToCopy cfg ∧ i.lenToCopy cfg ≤ 18 + cfg.micaMaxValue := by
  have hm := micaOpMetadata_eq
  cases i with
  | one op =>
    simp only [lenToCopy, Config.herdValueSize, Config.micaMaxValue, baseValueSize]
    split <;> omega
  | crcw op =>
    simp only [ValLenOk] at h
    simp only [lenToCopy]
    omega

theorem insertOne_of_apply (hok : i.apply cfg kv = .ok kv') :
    kv.insertOne cfg i.stored (i.lenToCopy cfg) = .ok kv' := by
  cases i with
  | one op =>
    obtain ⟨x, hx, he⟩ := bind_eq_ok.1 hok
    obtain ⟨kv₁, hi, hx⟩ := bind_eq_ok.1 hx
    cases hx
    cases he
    exact hi
  | crcw op =>
    obtain ⟨x, hx, he⟩ := bind_eq_ok.1 hok
    obtain ⟨kv₁, hi, hx⟩ := bind_eq_ok.1 hx
    cases hx
    cases he
    exact hi

theorem apply_eq_ok (hok : i.apply cfg kv = .ok kv') :
    i.lenToCopy cfg + 8 < sub64 (2 ^ 40) kv.logHead ∧ kv'.logHead = kv.nextHead cfg (i.lenToCopy cfg) ∧
    kv'.logCap = kv.logCap ∧ kv'.logMask = kv.logMask := by
  obtain ⟨hroom, -, -, hhead, -, hcap, hmask⟩ := insertOne_eq_ok (insertOne_of_apply hok)
  exact ⟨hroom, hhead, hcap, hmask⟩

theorem allFit_nil : AllFit cfg kv [] := by
  intro l i r kv' he
  simp at he

theorem allFit_cons (hok : i.apply cfg kv = .ok kv') :
    AllFit cfg kv (i :: is) ↔ kv.Fits (i.lenToCopy cfg) ∧ AllFit cfg kv' is := by
  constructor
  · intro h
    refine ⟨h [] i is kv rfl rfl, fun l j r kv₁ he hl => ?_⟩
    exact h (i :: l) j r kv₁ (by simp [he]) (bind_eq_ok.2 ⟨_, hok, hl⟩)
  · intro ⟨hfit, h⟩ l j r kv₁ he hl
    cases l with
    | nil =>
      simp only [List.nil_append, List.cons.injEq] at he
      simp only [applyAll, Except.ok.injEq] at hl
      rw [← he.1, ← hl]
      exact hfit
    | cons x l =>
      simp only [List.cons_append, List.cons.injEq] at he
      rw [← he.1] at hl
      obtain ⟨kv₂, hx, hl⟩ := bind_eq_ok.1 hl
      cases hok.symm.trans hx
      exact h l j r kv₁ he.2 hl

/-- The assertion keeps the head within the virtual offsets. -/
theorem shape (h : kv.LogShape cfg k) (hok : i.apply cfg kv = .ok kv')
    (hhead : 8 ∣ kv'.logHead) (hle : kv'.logHead ≤ 2 ^ 40) : kv'.LogShape cfg k := by
  obtain ⟨-, -, hcap, hmask⟩ := apply_eq_ok hok
  exact
    { cap := hcap.trans h.cap
      bits := h.bits
      mask := by rw [hmask, hcap, h.mask]
      large := hcap ▸ h.large
      aligned := hhead
      head_le := hle }

theorem room (h : kv.LogShape cfg k) (hok : i.apply cfg kv = .ok kv') :
    kv.logHead + i.lenToCopy cfg + 8 < 2 ^ 40 := by
  have hroom := (apply_eq_ok hok).1
  have hle := h.head_le
  rw [sub64_of_le hle (by omega)] at hroom
  omega

/-- An insert behind the first lap. -/
theorem step_later (h : kv.LogShape cfg k) (hi : i.ValLenOk cfg) (hlap : kv.logCap ≤ kv.logHead)
    (hok : i.apply cfg kv = .ok kv') :
    kv'.LogShape cfg k ∧ kv'.logHead = kv.logHead + roundUp (i.lenToCopy cfg) := by
  have hroom := room h hok
  have hr := roundUp_le (i.lenToCopy cfg)
  have hhead := (apply_eq_ok hok).2.1
  rw [h.laterLap (lenToCopy_le hi).1 hlap hroom] at hhead
  refine ⟨shape h hok ?_ (by omega), hhead⟩
  rw [hhead]
  exact Nat.dvd_add h.aligned (dvd_roundUp _)

/-- Behind the first lap the records follow each other without a gap. -/
theorem allFit_later (h : kv.LogShape cfg k) (his : ∀ i ∈ is, i.ValLenOk cfg) (hlap : kv.logCap ≤ kv.logHead)
    (hok : applyAll cfg kv is = .ok kv') :
    AllFit cfg kv is ↔ StaysInLaps kv.logCap kv.logHead (is.map fun i => roundUp (i.lenToCopy cfg)) := by
  induction is generalizing kv with
  | nil => simp [allFit_nil, StaysInLaps]
  | cons i is ih =>
    obtain ⟨kv₁, ha, hrest⟩ := bind_eq_ok.1 hok
    obtain ⟨h₁, hhead⟩ := step_later h (his i (by simp)) hlap ha
    have hcap := (apply_eq_ok ha).2.2.1
    rw [allFit_cons ha, ih h₁ (fun j hj => his j (by simp [hj])) (by omega) hrest, hhead, hcap]
    have hfit : kv.Fits (i.lenToCopy cfg) ↔
        kv.logHead % kv.logCap + roundUp (i.lenToCopy cfg) ≤ kv.logCap := by
      rw [Fits, h.and_mask]
      exact roundUp_fits ((Nat.dvd_mod_iff h.dvd_cap).2 h.aligned) h.dvd_cap
    simp only [List.map_cons, StaysInLaps, hfit]

/-- An insert on the first lap fits. -/
theorem step_first (h : kv.LogShape cfg k) (hi : i.ValLenOk cfg)
    (hlap : kv.logHead < kv.logCap - (cfg.micaMaxValue + 32)) (hok : i.apply cfg kv = .ok kv') :
    kv.Fits (i.lenToCopy cfg) ∧ kv'.LogShape cfg k ∧
    (kv.logHead + roundUp (i.lenToCopy cfg) < kv.logCap - (cfg.micaMaxValue + 32) ∧
        kv'.logHead = kv.logHead + roundUp (i.lenToCopy cfg) ∨
      kv.logCap - (cfg.micaMaxValue + 32) ≤ kv.logHead + roundUp (i.lenToCopy cfg) ∧ kv'.logHead = kv.logCap) := by
  have hroom := room h hok
  have hr := roundUp_le (i.lenToCopy cfg)
  have hl := h.large
  obtain ⟨hfit, hnext⟩ := h.firstLap (lenToCopy_le hi).2 hlap
  have hhead := (apply_eq_ok hok).2.1
  rw [hnext] at hhead
  split at hhead
  · next hend =>
    -- the head has come more than half way, so offsets can count the log
    have hbits : k ≤ 40 := by
      by_contra hlt
      have hpow := Nat.pow_le_pow_right (show 0 < 2 by omega) (show 41 ≤ k by omega)
      rw [← h.cap] at hpow
      omega
    have hcap := Nat.pow_le_pow_right (show 0 < 2 by omega) hbits
    rw [← h.cap] at hcap
    exact ⟨hfit, shape h hok (hhead ▸ h.dvd_cap) (by omega), .inr ⟨hend, hhead⟩⟩
  · next hend =>
    refine ⟨hfit, shape h hok ?_ (by omega), .inl ⟨by omega, hhead⟩⟩
    rw [hhead]
    exact Nat.dvd_add h.aligned (dvd_roundUp _)

theorem allFit_first (h : kv.LogShape cfg k) (his : ∀ i ∈ is, i.ValLenOk cfg)
    (hlap : kv.logHead < kv.logCap - (cfg.micaMaxValue + 32)) (hok : applyAll cfg kv is = .ok kv') :
    AllFit cfg kv is ↔ StaysInLaps kv.logCap 0 (behindFirstLap (kv.logCap - (cfg.micaMaxValue + 32)) kv.logHead
      (is.map fun i => roundUp (i.lenToCopy cfg))) := by
  induction is generalizing kv with
  | nil => simp [allFit_nil, behindFirstLap, StaysInLaps]
  | cons i is ih =>
    obtain ⟨kv₁, ha, hrest⟩ := bind_eq_ok.1 hok
    have hcap := (apply_eq_ok ha).2.2.1
    have his' : ∀ j ∈ is, j.ValLenOk cfg := fun j hj => his j (by simp [hj])
    obtain ⟨hfit, h₁, ⟨hgo, hhead⟩ | ⟨hend, hhead⟩⟩ := step_first h (his i (by simp)) hlap ha
    · rw [allFit_cons ha, ih h₁ his' (by rw [hcap, hhead]; exact hgo) hrest, hhead, hcap]
      simp only [List.map_cons, behindFirstLap, if_neg (Nat.not_le.2 hlap), hfit, true_and]
    · have hstart : ∀ ls, StaysInLaps kv.logCap kv.logCap ls ↔ StaysInLaps kv.logCap 0 ls := staysInLaps_add 0
      rw [allFit_cons ha, allFit_later h₁ his' (by omega) hrest, hhead, hcap, hstart]
      simp only [List.map_cons, behindFirstLap, if_neg (Nat.not_le.2 hlap), hfit, true_and]
      -- all that follows is behind the first lap
      cases is with
      | nil => simp [behindFirstLap, StaysInLaps]
      | cons j js => simp only [List.map_cons, behindFirstLap, if_pos hend]

end Insert

theorem MicaKv.logShape_init {cfg : Config} {index : ℕ → Fin 8 → MicaSlot} {log : Bytes} {numBkts k : ℕ} {kv : MicaKv}
    (hk : k < 64) (hlarge : 2 * (cfg.micaMaxValue + 32) < 2 ^ k) (hinit : micaInit index log numBkts (2 ^ k) = .ok kv) :
    kv.LogShape cfg k ∧ kv.logCap = 2 ^ k ∧ kv.logHead = 0 := by
  simp only [micaInit] at hinit
  split at hinit
  · cases hinit
    exact ⟨⟨rfl, hk, rfl, hlarge, ⟨0, rfl⟩, Nat.zero_le _⟩, rfl, rfl⟩
  · cases hinit

/-- **The records are inside the log if the laps come out even**, and only then: the rounded
lengths of the records behind the first lap, laid behind each other, end every lap they
complete with the end of a record. -/
theorem records_inside_iff {cfg : Config} {index : ℕ → Fin 8 → MicaSlot} {log : Bytes} {numBkts k : ℕ}
    {kv₀ kv : MicaKv} {is : List Insert} (hk : k < 64) (hlarge : 2 * (cfg.micaMaxValue + 32) < 2 ^ k)
    (hinit : micaInit index log numBkts (2 ^ k) = .ok kv₀) (his : ∀ i ∈ is, i.ValLenOk cfg)
    (hok : Insert.applyAll cfg kv₀ is = .ok kv) :
    Insert.AllFit cfg kv₀ is ↔ FillsLaps (2 ^ k) 0 (Insert.later cfg (2 ^ k) is) := by
  obtain ⟨h, hcap, hhead⟩ := logShape_init hk hlarge hinit
  have hlap : kv₀.logHead < kv₀.logCap - (cfg.micaMaxValue + 32) := by omega
  rw [Insert.allFit_first h his hlap hok, hcap, hhead, staysInLaps_iff (Nat.two_pow_pos k)]
  rfl

/-- The ninth record of 50 bytes in a log of 256 bytes begins at 224. -/
theorem record_crosses_end :
    2 * (Config.shipped.micaMaxValue + 32) < 2 ^ 8 ∧
    micaInit (fun _ _ => ⟨false, 0, 0⟩) (fun _ => 0) 8 (2 ^ 8) = .ok (freshKv (2 ^ 8)) ∧
    (∃ kv, Insert.applyAll .shipped (freshKv (2 ^ 8)) (List.replicate 9 (.crcw (putRequest 0 1))) = .ok kv) ∧
    ¬ Insert.AllFit .shipped (freshKv (2 ^ 8)) (List.replicate 9 (.crcw (putRequest 0 1))) := by
  have hall : (Insert.applyAll .shipped (freshKv (2 ^ 8)) (List.replicate 9 (.crcw (putRequest 0 1)))).toOption.map
      (fun kv => kv.logHead) = some 536 := by decide +kernel
  have height : (Insert.applyAll .shipped (freshKv (2 ^ 8)) (List.replicate 8 (.crcw (putRequest 0 1)))).toOption.map
      (fun kv => (kv.logHead &&& kv.logMask, kv.logCap)) = some (224, 256) := by decide +kernel
  obtain ⟨kv, hkv, -⟩ := exists_ok_of_map hall
  obtain ⟨kv₈, hkv₈, hhead⟩ := exists_ok_of_map height
  refine ⟨by decide, micaInit_freshKv _, ⟨kv, hkv⟩, fun h => ?_⟩
  have hfit := h (List.replicate 8 (.crcw (putRequest 0 1))) (.crcw (putRequest 0 1)) [] kv₈ rfl hkv₈
  obtain ⟨hpos, hcap⟩ := Prod.mk.inj hhead
  rw [Fits, hpos, hcap] at hfit
  revert hfit
  decide

/-- Records of 64 bytes: three on the first lap, four on the second, one on the third. -/
theorem records_inside_even_laps :
    Insert.AllFit .shipped (freshKv (2 ^ 8))
      (List.replicate 8 (.crcw ((putRequest 0 1).write 17 (fun _ => 46) 1))) := by
  have hlater : Insert.later .shipped (2 ^ 8)
      (List.replicate 8 (.crcw ((putRequest 0 1).write 17 (fun _ => 46) 1))) = [64, 64, 64, 64, 64] := by decide +kernel
  have hall : (Insert.applyAll .shipped (freshKv (2 ^ 8))
      (List.replicate 8 (.crcw ((putRequest 0 1).write 17 (fun _ => 46) 1)))).toOption.map (fun kv => kv.logHead) =
        some 576 := by decide +kernel
  obtain ⟨kv, hkv, -⟩ := exists_ok_of_map hall
  refine (records_inside_iff (by decide) (by decide) (micaInit_freshKv (2 ^ 8)) ?_ hkv).2 ?_
  · intro i hi
    rw [(List.mem_replicate.1 hi).2]
    exact (by decide : 46 ≤ Config.shipped.micaMaxValue)
  · rw [hlater, ← staysInLaps_iff (by decide)]
    simp [StaysInLaps]

end CcKvs
