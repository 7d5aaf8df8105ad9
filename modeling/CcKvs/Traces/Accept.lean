/-
Which files `parse_trace` accepts, and what it makes of them. A file is
accepted exactly if every line has four words or more; the words may be
anything. Every command then has a machine and a worker that exist, a key of the
store, and the opcode that goes with them, so the client can run the trace.
-/
import CcKvs.Traces.Parse
import CcKvs.Client.Order
import Mathlib

namespace CcKvs.Traces

open Text Client

/-- The sizes the switches have to agree on. -/
structure Switches.Sound (sw : Switches) : Prop where
  machineNum : 0 < sw.machineNum ∧ sw.machineNum ≤ 256
  machineId : sw.machineId < sw.machineNum
  workers : sw.workersPerMachine ≤ 256
  active : 0 < sw.activeWorkersPerMachine ∧ sw.activeWorkersPerMachine ≤ sw.workersPerMachine
  keys : 0 < sw.cacheNumKeys ∧ 2 * sw.cacheNumKeys ≤ sw.herdNumKeys ∧ sw.herdNumKeys < 2 ^ 32
  groups : 0 < sw.groupSize ∧ (sw.numOfKeysToGroup + 1) * sw.groupSize ≤ sw.cacheNumKeys
  /-- Another machine to send to, if requests must not stay. -/
  others : sw.disableLocals = true → 2 ≤ sw.machineNum

/-- No switch asks for local requests when these are disabled. -/
def Switches.Placeable (sw : Switches) : Prop :=
  sw.disableLocals = true → sw.sendOnlyToOneMachine = true ∨ sw.sendOnlyToNextMachine = true ∨
    sw.balanceReqsInChunks = false ∧ sw.doOnlyLocals = false

theorem Switches.ofMachine_sound {m : ℕ} (h : m < 4) : (Switches.ofMachine m).Sound where
  machineNum := (by decide : 0 < 4 ∧ 4 ≤ 256)
  machineId := h
  workers := (by decide : 20 ≤ 256)
  active := (by decide : 0 < 20 ∧ 20 ≤ 20)
  keys := (by decide : 0 < 250 * 1000 ∧ 2 * (250 * 1000) ≤ 4 * 1024 * 1024 ∧ 4 * 1024 * 1024 < 2 ^ 32)
  groups := (by decide : 0 < 50 ∧ (10 + 1) * 50 ≤ 250 * 1000)
  others _ := (by decide : 2 ≤ 4)

theorem Switches.ofMachine_placeable (m : ℕ) : (Switches.ofMachine m).Placeable :=
  fun _ => .inr (.inr ⟨rfl, rfl⟩)

variable {sw : Switches} {draws : ℕ → ℕ} {rounds : ℕ} {hash : UInt32 → Bytes}

theorem toNat_ofNat_mod {n a : ℕ} (h0 : 0 < n) (h : n ≤ 256) : (UInt8.ofNat (a % n)).toNat = a % n := by
  have hlt := Nat.mod_lt a h0
  rw [UInt8.toNat_ofNat', Nat.mod_eq_of_lt (by omega)]

/-! ## Homes -/

section Homes

variable {home home' : UInt8} {k k' : ℕ}

theorem redraw_spec (hs : sw.Sound) (hlt : home.toNat < sw.machineNum) {n : ℕ}
    (hok : redraw sw draws n home k = .ok (home', k')) :
    home'.toNat < sw.machineNum ∧ ¬ (sw.disableLocals = true ∧ home'.toNat = sw.machineId) := by
  induction n generalizing home k with
  | zero => cases hok
  | succ n ih =>
    rw [redraw] at hok
    split at hok
    · refine ih ?_ hok
      rw [toNat_ofNat_mod hs.machineNum.1 hs.machineNum.2]
      exact Nat.mod_lt _ hs.machineNum.1
    · next hc =>
      cases hok
      exact ⟨hlt, hc⟩

theorem firstHome_lt (hs : sw.Sound) (word : List Char) (k : ℕ) : (firstHome sw draws word k).1.toNat < sw.machineNum := by
  unfold firstHome
  split
  all_goals
    rw [toNat_ofNat_mod hs.machineNum.1 hs.machineNum.2]
    exact Nat.mod_lt _ hs.machineNum.1

/-- One further on is another machine. -/
theorem succ_mod_ne {m n : ℕ} (h : m < n) (h2 : 2 ≤ n) : (m + 1) % n ≠ m := by
  by_cases he : m + 1 = n
  · rw [he, Nat.mod_self]
    omega
  · rw [Nat.mod_eq_of_lt (by omega)]
    omega

theorem balancedHome_spec (hs : sw.Sound) (hlt : home.toNat < sw.machineNum)
    (hok : balancedHome sw draws rounds home k = .ok (home', k')) :
    home'.toNat < sw.machineNum ∧ ¬ (sw.disableLocals = true ∧ home'.toNat = sw.machineId) := by
  have hmod (a : ℕ) : (UInt8.ofNat (a % sw.machineNum)).toNat = a % sw.machineNum :=
    toNat_ofNat_mod hs.machineNum.1 hs.machineNum.2
  unfold balancedHome at hok
  split_ifs at hok with h₁ h₂
  · refine redraw_spec hs ?_ hok
    rw [hmod]
    exact Nat.mod_lt _ hs.machineNum.1
  · cases hok
    rw [hmod]
    refine ⟨Nat.mod_lt _ hs.machineNum.1, ?_⟩
    rintro ⟨hd, he⟩
    have hm : home.toNat = sw.machineId := by
      have := hs.machineId
      rw [h₂.2, UInt8.toNat_ofNat', Nat.mod_eq_of_lt (by have := hs.machineNum.2; omega)]
    rw [hm] at he
    exact succ_mod_ne hs.machineId (hs.others hd) he
  · cases hok
    refine ⟨hlt, ?_⟩
    rintro ⟨hd, he⟩
    exact h₂ ⟨hd, by rw [← he, UInt8.ofNat_toNat]⟩

theorem place_lt (hs : sw.Sound) (i : ℕ) (hlt : home.toNat < sw.machineNum) : (sw.place i home).toNat < sw.machineNum := by
  have hmod (a : ℕ) : (UInt8.ofNat (a % sw.machineNum)).toNat < sw.machineNum := by
    rw [toNat_ofNat_mod hs.machineNum.1 hs.machineNum.2]
    exact Nat.mod_lt _ hs.machineNum.1
  unfold Switches.place
  split_ifs with h₁ h₂
  · exact hs.others h₂.1
  · exact hs.machineNum.1
  · exact hmod _
  · exact hs.machineNum.1
  · exact hmod _
  · rw [UInt8.toNat_ofNat', Nat.mod_eq_of_lt (hs.machineId.trans_le hs.machineNum.2)]
    exact hs.machineId
  · exact hlt

/-- The home lies elsewhere, if it must. -/
theorem place_ne (hs : sw.Sound) (hp : sw.Placeable) (i : ℕ) (hd : sw.disableLocals = true)
    (hne : home.toNat ≠ sw.machineId) : sw.machineId ≠ (sw.place i home).toNat := by
  by_cases h₁ : sw.sendOnlyToOneMachine = true
  · by_cases hm : sw.machineId = 0
    · simp [Switches.place, h₁, hd, hm]
    · simp [Switches.place, h₁, hm]
  · by_cases h₂ : sw.sendOnlyToNextMachine = true
    · simp only [Switches.place, h₁, h₂, if_true, Bool.false_eq_true, if_false]
      rw [toNat_ofNat_mod hs.machineNum.1 hs.machineNum.2]
      exact (succ_mod_ne hs.machineId (hs.others hd)).symm
    · obtain ⟨h₃, h₄⟩ := ((hp hd).resolve_left h₁).resolve_left h₂
      simpa [Switches.place, h₁, h₂, h₃, h₄] using hne.symm

/-- The second word is accepted when a home is found and may be used. -/
theorem parseMachine_ok_iff (hs : sw.Sound) {i : ℕ} {word : List Char} :
    parseMachine sw draws rounds i word k = .ok (home, k') ↔
      ∃ home₁, balancedHome sw draws rounds (firstHome sw draws word k).1 (firstHome sw draws word k).2 = .ok (home₁, k') ∧
        home = sw.place i home₁ ∧ ¬ (sw.disableLocals = true ∧ sw.machineId = home.toNat) := by
  have hlt : (firstHome sw draws word k).1.toNat < sw.machineNum := firstHome_lt hs word k
  unfold parseMachine
  generalize firstHome sw draws word k = first at hlt ⊢
  obtain ⟨home₀, k₀⟩ := first
  dsimp only at hlt ⊢
  rw [if_neg (not_not.2 hlt), bind_eq_ok]
  constructor
  · rintro ⟨⟨home₁, k₁⟩, hb, hok⟩
    dsimp only at hok
    split at hok
    · cases hok
    · next hne =>
      cases hok
      exact ⟨home₁, hb, rfl, hne⟩
  · rintro ⟨home₁, hb, rfl, hne⟩
    exact ⟨(home₁, k'), hb, if_neg hne⟩

theorem parseMachine_spec (hs : sw.Sound) {i : ℕ} {word : List Char}
    (hok : parseMachine sw draws rounds i word k = .ok (home, k')) :
    home.toNat < sw.machineNum ∧ (sw.disableLocals = true → home.toNat ≠ sw.machineId) := by
  obtain ⟨home₁, hb, rfl, hne⟩ := (parseMachine_ok_iff hs).1 hok
  exact ⟨place_lt hs i (balancedHome_spec hs (firstHome_lt hs word k) hb).1, fun hd he => hne ⟨hd, he.symm⟩⟩

end Homes

/-! ## Redrawing ends

More rounds change nothing once they suffice, and they do suffice if `rand()` names another machine
again and again. -/

/-- Whatever has been drawn, a number for another machine comes. -/
def Fair (sw : Switches) (draws : ℕ → ℕ) : Prop := ∀ k, ∃ j, k ≤ j ∧ draws j % sw.machineNum ≠ sw.machineId

theorem redraw_mono {n m : ℕ} (hnm : n ≤ m) {home : UInt8} {k : ℕ} {r} (hok : redraw sw draws n home k = .ok r) :
    redraw sw draws m home k = .ok r := by
  induction n generalizing m home k with
  | zero => cases hok
  | succ n ih =>
    obtain ⟨m, rfl⟩ : ∃ m', m = m' + 1 := ⟨m - 1, by omega⟩
    rw [redraw] at hok ⊢
    split at hok
    · next hc =>
      rw [if_pos hc]
      exact ih (by omega) hok
    · next hc =>
      rw [if_neg hc]
      exact hok

theorem redraw_total (hs : sw.Sound) (hf : Fair sw draws) (home : UInt8) (k : ℕ) : ∃ n r, redraw sw draws n home k = .ok r := by
  obtain ⟨j, hkj, hj⟩ := hf k
  -- induction on the draws that are left before one that ends the loop
  induction hd : j - k generalizing home k with
  | zero =>
    obtain rfl : k = j := by omega
    refine ⟨2, ?_⟩
    rw [redraw]
    split
    · rw [redraw, if_neg]
      · exact ⟨_, rfl⟩
      · rw [toNat_ofNat_mod hs.machineNum.1 hs.machineNum.2]
        exact fun h => hj h.2
    · exact ⟨_, rfl⟩
  | succ d ih =>
    obtain ⟨n, r, hr⟩ := ih (.ofNat (draws k % sw.machineNum)) (k + 1) (by omega) (by omega)
    refine ⟨n + 1, ?_⟩
    rw [redraw]
    split
    · exact ⟨r, hr⟩
    · exact ⟨_, rfl⟩

section Machine

variable {home : UInt8} {k : ℕ} {n : ℕ} {r : UInt8 × ℕ}

theorem balancedHome_mono (h : rounds ≤ n) (hok : balancedHome sw draws rounds home k = .ok r) :
    balancedHome sw draws n home k = .ok r := by
  unfold balancedHome at hok ⊢
  split_ifs at hok ⊢ with h₁ h₂
  · exact redraw_mono h hok
  · exact hok
  · exact hok

theorem parseMachine_mono (hs : sw.Sound) (h : rounds ≤ n) {i : ℕ} {word : List Char}
    (hok : parseMachine sw draws rounds i word k = .ok r) : parseMachine sw draws n i word k = .ok r := by
  obtain ⟨home, k'⟩ := r
  obtain ⟨home₁, hb, hr⟩ := (parseMachine_ok_iff hs).1 hok
  exact (parseMachine_ok_iff hs).2 ⟨home₁, balancedHome_mono h hb, hr⟩

theorem parseMachine_total (hs : sw.Sound) (hp : sw.Placeable) (hf : Fair sw draws) (i : ℕ) (word : List Char) (k : ℕ) :
    ∃ n r, parseMachine sw draws n i word k = .ok r := by
  obtain ⟨n, ⟨home, k'⟩, hb⟩ : ∃ n r, balancedHome sw draws n (firstHome sw draws word k).1
      (firstHome sw draws word k).2 = .ok r := by
    unfold balancedHome
    split_ifs
    · exact redraw_total hs hf _ _
    · exact ⟨0, _, rfl⟩
    · exact ⟨0, _, rfl⟩
  refine ⟨n, (sw.place i home, k'), (parseMachine_ok_iff hs).2 ⟨home, hb, rfl, ?_⟩⟩
  rintro ⟨hd, he⟩
  have hne := (balancedHome_spec hs (firstHome_lt hs word k) hb).2
  exact place_ne hs hp i hd (fun hm => hne ⟨hd, hm⟩) he

end Machine

/-! ## Workers and keys -/

theorem parseWorker_total (hs : sw.Sound) (word : List Char) (k : ℕ) :
    ∃ worker k', parseWorker sw draws word k = .ok (worker, k') ∧ worker.toNat < sw.workersPerMachine := by
  have hpos : 0 < sw.workersPerMachine := hs.active.1.trans_le hs.active.2
  unfold parseWorker
  split_ifs
  · have hw : (UInt8.ofNat (draws k % sw.activeWorkersPerMachine)).toNat < sw.workersPerMachine := by
      rw [toNat_ofNat_mod hs.active.1 (hs.active.2.trans hs.workers)]
      exact (Nat.mod_lt _ hs.active.1).trans_le hs.active.2
    exact ⟨_, _, if_pos hw, hw⟩
  · have hw : (UInt8.ofNat (strtoul word % sw.workersPerMachine)).toNat < sw.workersPerMachine := by
      rw [toNat_ofNat_mod hpos hs.workers]
      exact Nat.mod_lt _ hpos
    exact ⟨_, _, if_pos hw, hw⟩

theorem toNat_ofNat_of_lt {n : ℕ} (h : n < 2 ^ 32) : (UInt32.ofNat n).toNat = n := by
  rw [UInt32.toNat_ofNat', Nat.mod_eq_of_lt h]

/-- A key of the cache stays one. -/
theorem hotKey_total (hs : sw.Sound) (isUpdate : Bool) {key : UInt32} (hkey : key.toNat < sw.cacheNumKeys) (k : ℕ) :
    ∃ key' k', hotKey sw draws isUpdate key k = .ok (key', k') ∧ key'.toNat < sw.cacheNumKeys := by
  obtain ⟨hc, hch, hh⟩ := hs.keys
  unfold hotKey
  by_cases h₁ : (sw.balanceHotWrites && isUpdate || sw.balanceHotReqs) = true
  · have hdraw : (UInt32.ofNat (draws k % sw.cacheNumKeys)).toNat < sw.cacheNumKeys := by
      have := Nat.mod_lt (draws k) hc
      rwa [toNat_ofNat_of_lt (by omega)]
    rw [if_pos h₁]
    exact ⟨_, _, if_pos hdraw.le, hdraw⟩
  rw [if_neg h₁]
  split_ifs with h₂ h₃ h₄
  · have hdraw := Nat.mod_lt (draws k) hs.groups.1
    have hmul : (key.toNat + 1) * sw.groupSize ≤ sw.numOfKeysToGroup * sw.groupSize := Nat.mul_le_mul_right _ h₃
    have hg := hs.groups.2
    rw [Nat.add_mul, Nat.one_mul] at hmul hg
    refine ⟨_, _, rfl, ?_⟩
    rw [UInt32.toNat_add, UInt32.toNat_mul, toNat_ofNat_of_lt (by omega), toNat_ofNat_of_lt (by omega),
      Nat.mod_eq_of_lt (a := key.toNat * sw.groupSize) (by omega), Nat.mod_eq_of_lt (by omega)]
    omega
  · have hg := hs.groups.2
    rw [Nat.add_mul, Nat.one_mul] at hg
    refine ⟨_, _, rfl, ?_⟩
    rw [UInt32.toNat_add, toNat_ofNat_of_lt (by omega), Nat.mod_eq_of_lt (by omega)]
    omega
  · exact ⟨_, _, rfl, hkey⟩
  · exact ⟨_, _, rfl, hkey⟩

/-- A key that is not of the cache is moved to one of the store that is not either. -/
theorem coldKey_spec (hs : sw.Sound) (key : UInt32) :
    sw.cacheNumKeys ≤ (coldKey sw key).toNat ∧ (coldKey sw key).toNat < sw.herdNumKeys := by
  obtain ⟨hc, hch, hh⟩ := hs.keys
  have hmod : (key % UInt32.ofNat sw.herdNumKeys).toNat = key.toNat % sw.herdNumKeys := by
    rw [UInt32.toNat_mod, toNat_ofNat_of_lt hh]
  have hlt := Nat.mod_lt key.toNat (show 0 < sw.herdNumKeys by omega)
  unfold coldKey
  dsimp only
  split_ifs with h
  · rw [hmod] at h
    rw [UInt32.toNat_add, hmod, toNat_ofNat_of_lt (by omega), Nat.mod_eq_of_lt (by omega)]
    omega
  · rw [hmod] at h ⊢
    omega

theorem placedKey_total (hs : sw.Sound) (isUpdate : Bool) (key : UInt32) (k : ℕ) :
    ∃ key' k', placedKey sw draws isUpdate key k = .ok (key', k') ∧ key'.toNat < sw.herdNumKeys := by
  obtain ⟨hc, hch, -⟩ := hs.keys
  unfold placedKey
  split_ifs with h
  · obtain ⟨key', k', hok, hlt⟩ : ∃ key' k', hotKey sw draws isUpdate key k = .ok (key', k') ∧ key'.toNat < sw.cacheNumKeys :=
      hotKey_total hs isUpdate h k
    exact ⟨key', k', hok, by omega⟩
  · exact ⟨_, _, rfl, (coldKey_spec hs key).2⟩

theorem parseKey_total (hs : sw.Sound) (isUpdate : Bool) (word : List Char) (k : ℕ) :
    ∃ key k', parseKey sw draws isUpdate word k = .ok (key, k') ∧ key.toNat < sw.herdNumKeys := by
  obtain ⟨hc, hch, -⟩ := hs.keys
  unfold parseKey
  generalize firstKey sw draws word k = first
  obtain ⟨key₀, k₀⟩ := first
  obtain ⟨key₁, k₁, hok, hlt⟩ : ∃ key₁ k₁, placedKey sw draws isUpdate key₀ k₀ = .ok (key₁, k₁) ∧
      key₁.toNat < sw.herdNumKeys := placedKey_total hs isUpdate key₀ k₀
  refine ⟨_, k₁, bind_eq_ok.2 ⟨(key₁, k₁), hok, rfl⟩, ?_⟩
  split_ifs
  · show 0 < sw.herdNumKeys
    omega
  · exact hlt

/-! ## Lines -/

/-- A request that can be run: it is for a machine, a worker and a key that exist, not for this machine
if that is disabled, and its opcode says where its key is. -/
structure Command.WellFormed (sw : Switches) (hash : UInt32 → Bytes) (c : Command) : Prop where
  machine : c.homeMachineId.toNat < sw.machineNum
  remote : sw.disableLocals = true → c.homeMachineId.toNat ≠ sw.machineId
  worker : c.homeWorkerId.toNat < sw.workersPerMachine
  key : c.keyId.toNat < sw.herdNumKeys
  hot : c.opcode = .hotRead ∨ c.opcode = .hotWrite ↔ c.keyId.toNat < sw.cacheNumKeys
  isLocal : c.opcode = .localRead ∨ c.opcode = .localWrite ↔
    sw.cacheNumKeys ≤ c.keyId.toNat ∧ c.homeMachineId.toNat = sw.machineId
  hash : c.keyHash = hash c.keyId

theorem opcode_hot (isUpdate : Bool) (home : UInt8) (key : UInt32) :
    sw.opcode isUpdate home key = .hotRead ∨ sw.opcode isUpdate home key = .hotWrite ↔ key.toNat < sw.cacheNumKeys := by
  unfold Switches.opcode
  split_ifs <;> simp_all

theorem opcode_local (isUpdate : Bool) (home : UInt8) (key : UInt32) :
    sw.opcode isUpdate home key = .localRead ∨ sw.opcode isUpdate home key = .localWrite ↔
      sw.cacheNumKeys ≤ key.toNat ∧ home.toNat = sw.machineId := by
  unfold Switches.opcode
  split_ifs <;> simp_all

/-- What is known of a line after `wordCount` words. -/
structure Line.Reads (sw : Switches) (hash : UInt32 → Bytes) (wordCount : ℕ) (x : Line) : Prop where
  machine : 2 ≤ wordCount → x.homeMachineId.toNat < sw.machineNum ∧
    (sw.disableLocals = true → x.homeMachineId.toNat ≠ sw.machineId)
  worker : 3 ≤ wordCount → x.homeWorkerId.toNat < sw.workersPerMachine
  wellFormed : ∀ c, x.cmd = some c → c.WellFormed sw hash
  isSome : x.cmd.isSome = true ↔ 4 ≤ wordCount

section Line

variable {x y : Line} {isUpdate : Bool} {i wordCount k k' : ℕ} {w : List Char} {ws : List (List Char)}

theorem Line.Reads.word (hs : sw.Sound) (h : x.Reads sw hash wordCount)
    (hok : x.word sw draws rounds hash isUpdate i wordCount w k = .ok (y, k')) : y.Reads sw hash (wordCount + 1) := by
  rcases wordCount with _ | _ | _ | _ | n
  · cases hok
    exact ⟨by omega, by omega, h.wellFormed, by simpa using h.isSome⟩
  · obtain ⟨⟨home, k₁⟩, hm, hok⟩ := bind_eq_ok.1 hok
    cases hok
    exact ⟨fun _ => parseMachine_spec hs hm, by omega, h.wellFormed, by simpa using h.isSome⟩
  · obtain ⟨⟨worker, k₁⟩, hw, hok⟩ := bind_eq_ok.1 hok
    cases hok
    obtain ⟨worker', k₂, hw', hlt⟩ : ∃ worker' k₂, parseWorker sw draws w k = .ok (worker', k₂) ∧
        worker'.toNat < sw.workersPerMachine := parseWorker_total hs w k
    cases hw.symm.trans hw'
    exact ⟨fun _ => h.machine (by omega), fun _ => hlt, h.wellFormed, by simpa using h.isSome⟩
  · obtain ⟨⟨key, k₁⟩, hk, hok⟩ := bind_eq_ok.1 hok
    cases hok
    obtain ⟨key', k₂, hk', hlt⟩ : ∃ key' k₂, parseKey sw draws isUpdate w k = .ok (key', k₂) ∧
        key'.toNat < sw.herdNumKeys := parseKey_total hs isUpdate w k
    cases hk.symm.trans hk'
    have hm := h.machine (by omega)
    have hw := h.worker (by omega)
    refine ⟨fun _ => hm, fun _ => hw, fun c hc => ?_, by simp⟩
    cases hc
    exact ⟨hm.1, hm.2, hw, hlt, opcode_hot .., opcode_local .., rfl⟩
  · cases hok
    exact ⟨fun _ => h.machine (by omega), fun _ => h.worker (by omega), h.wellFormed,
      ⟨fun _ => by omega, fun _ => h.isSome.2 (by omega)⟩⟩

theorem Line.word_mono (hs : sw.Sound) {n : ℕ} (hn : rounds ≤ n)
    (hok : x.word sw draws rounds hash isUpdate i wordCount w k = .ok (y, k')) :
    x.word sw draws n hash isUpdate i wordCount w k = .ok (y, k') := by
  rcases wordCount with _ | _ | _ | _ | m
  · exact hok
  · obtain ⟨r, hm, hr⟩ := bind_eq_ok.1 hok
    exact bind_eq_ok.2 ⟨r, parseMachine_mono hs hn hm, hr⟩
  all_goals exact hok

theorem Line.word_total (hs : sw.Sound) (hp : sw.Placeable) (hf : Fair sw draws) (isUpdate : Bool) (i wordCount : ℕ)
    (w : List Char) (x : Line) (k : ℕ) : ∃ n y k', x.word sw draws n hash isUpdate i wordCount w k = .ok (y, k') := by
  rcases wordCount with _ | _ | _ | _ | m
  · exact ⟨0, _, _, rfl⟩
  · obtain ⟨n, r, hr⟩ := parseMachine_total hs hp hf i w k
    exact ⟨n, _, _, bind_eq_ok.2 ⟨r, hr, rfl⟩⟩
  · obtain ⟨worker, k', hr, -⟩ : ∃ worker k', parseWorker sw draws w k = .ok (worker, k') ∧ _ := parseWorker_total hs w k
    exact ⟨0, _, _, bind_eq_ok.2 ⟨_, hr, rfl⟩⟩
  · obtain ⟨key, k', hr, -⟩ : ∃ key k', parseKey sw draws isUpdate w k = .ok (key, k') ∧ _ := parseKey_total hs isUpdate w k
    exact ⟨0, _, _, bind_eq_ok.2 ⟨_, hr, rfl⟩⟩
  · exact ⟨0, _, _, rfl⟩

/-- The loop over the words ends with a command or, if there is no word at all, without one. -/
theorem Line.Reads.wordLoop (hs : sw.Sound) (h : x.Reads sw hash wordCount)
    (hok : Line.wordLoop sw draws rounds hash isUpdate i ws wordCount x k = .ok (y, k')) :
    y.Reads sw hash (wordCount + ws.length) ∧ (ws = [] ∨ 4 ≤ wordCount + ws.length) := by
  induction ws generalizing wordCount x k with
  | nil =>
    cases hok
    exact ⟨h, .inl rfl⟩
  | cons w ws ih =>
    obtain ⟨⟨x₁, k₁⟩, hw, hok⟩ := bind_eq_ok.1 hok
    dsimp only at hok
    split_ifs at hok with hlast
    obtain ⟨hy, hlen⟩ := ih (h.word hs hw) hok
    rw [List.length_cons, ← Nat.add_assoc, Nat.add_right_comm]
    refine ⟨hy, .inr ?_⟩
    rcases hlen with rfl | hlen
    · have : ¬ wordCount + 1 < 4 := fun hlt => hlast ⟨rfl, hlt⟩
      simpa using this
    · exact hlen

theorem Line.wordLoop_mono (hs : sw.Sound) {n : ℕ} (hn : rounds ≤ n)
    (hok : Line.wordLoop sw draws rounds hash isUpdate i ws wordCount x k = .ok (y, k')) :
    Line.wordLoop sw draws n hash isUpdate i ws wordCount x k = .ok (y, k') := by
  induction ws generalizing wordCount x k with
  | nil => exact hok
  | cons w ws ih =>
    obtain ⟨⟨x₁, k₁⟩, hw, hok⟩ := bind_eq_ok.1 hok
    refine bind_eq_ok.2 ⟨(x₁, k₁), Line.word_mono hs hn hw, ?_⟩
    dsimp only at hok ⊢
    split_ifs at hok ⊢
    exact ih hok

/-- With four words or more the loop ends, given rounds enough. -/
theorem Line.wordLoop_total (hs : sw.Sound) (hp : sw.Placeable) (hf : Fair sw draws) (isUpdate : Bool) (i : ℕ)
    (ws : List (List Char)) (wordCount : ℕ) (x : Line) (k : ℕ) (h : 4 ≤ wordCount + ws.length) :
    ∃ n y k', Line.wordLoop sw draws n hash isUpdate i ws wordCount x k = .ok (y, k') := by
  induction ws generalizing wordCount x k with
  | nil => exact ⟨0, _, _, rfl⟩
  | cons w ws ih =>
    rw [List.length_cons] at h
    obtain ⟨n₁, x₁, k₁, hw⟩ : ∃ n y k', x.word sw draws n hash isUpdate i wordCount (chop w) k = .ok (y, k') :=
      Line.word_total hs hp hf isUpdate i wordCount (chop w) x k
    obtain ⟨n₂, y, k', hr⟩ := ih (wordCount + 1) x₁ k₁ (by omega)
    refine ⟨max n₁ n₂, y, k', bind_eq_ok.2 ⟨(x₁, k₁), Line.word_mono hs (le_max_left _ _) hw, ?_⟩⟩
    dsimp only
    rw [if_neg]
    · exact Line.wordLoop_mono hs (le_max_right _ _) hr
    · rintro ⟨rfl, hlt⟩
      simp only [List.length_nil] at h
      omega

end Line

/-! ## Files -/

section File

variable {ls : List (List Char)} {xs : List (Option Command)} {i k k' : ℕ}

theorem parseLine_spec (hs : sw.Sound) {l : List Char} {y : Line}
    (hok : parseLine sw draws rounds hash i l k = .ok (y, k')) :
    (∀ c, y.cmd = some c → c.WellFormed sw hash) ∧ (y.cmd.isSome = true ↔ 4 ≤ (strtok ' ' (cstr l)).length) := by
  have hstart : Line.Reads sw hash 0 ⟨0, 0, none⟩ := ⟨by omega, by omega, by simp, by simp⟩
  obtain ⟨hy, -⟩ := hstart.wordLoop hs hok
  refine ⟨hy.wellFormed, ?_⟩
  rw [hy.isSome, Nat.zero_add]

/-- Each line gives the command of its words. -/
theorem parseLines_spec (hs : sw.Sound) (hok : parseLines sw draws rounds hash i ls k = .ok (xs, k')) :
    List.Forall₂ (fun l x => (∀ c, x = some c → c.WellFormed sw hash) ∧
      (x.isSome = true ↔ 4 ≤ (strtok ' ' (cstr l)).length)) ls xs := by
  induction ls generalizing i k xs with
  | nil =>
    cases hok
    exact .nil
  | cons l ls ih =>
    obtain ⟨⟨y, k₁⟩, hl, hok⟩ := bind_eq_ok.1 hok
    obtain ⟨⟨ys, k₂⟩, hls, hok⟩ := bind_eq_ok.1 hok
    cases hok
    exact .cons (parseLine_spec hs hl) (ih hls)

theorem parseLines_mono (hs : sw.Sound) {n : ℕ} (hn : rounds ≤ n)
    (hok : parseLines sw draws rounds hash i ls k = .ok (xs, k')) :
    parseLines sw draws n hash i ls k = .ok (xs, k') := by
  induction ls generalizing i k xs with
  | nil => exact hok
  | cons l ls ih =>
    obtain ⟨⟨y, k₁⟩, hl, hok⟩ := bind_eq_ok.1 hok
    obtain ⟨⟨ys, k₂⟩, hls, hok⟩ := bind_eq_ok.1 hok
    cases hok
    exact bind_eq_ok.2 ⟨_, Line.wordLoop_mono hs hn hl, bind_eq_ok.2 ⟨_, ih hls, rfl⟩⟩

theorem parseLines_total (hs : sw.Sound) (hp : sw.Placeable) (hf : Fair sw draws) (i : ℕ) (ls : List (List Char)) (k : ℕ)
    (h : ∀ l ∈ ls, 4 ≤ (strtok ' ' (cstr l)).length) :
    ∃ n xs k', parseLines sw draws n hash i ls k = .ok (xs, k') := by
  induction ls generalizing i k with
  | nil => exact ⟨0, _, _, rfl⟩
  | cons l ls ih =>
    obtain ⟨n₁, y, k₁, hl⟩ : ∃ n y k', parseLine sw draws n hash i l k = .ok (y, k') :=
      Line.wordLoop_total hs hp hf _ i _ 0 _ _ (by simpa using h l List.mem_cons_self)
    obtain ⟨n₂, xs, k₂, hls⟩ := ih (i + 1) k₁ fun x hx => h x (List.mem_cons_of_mem _ hx)
    exact ⟨max n₁ n₂, _, _, bind_eq_ok.2 ⟨_, Line.wordLoop_mono hs (le_max_left _ _) hl,
      bind_eq_ok.2 ⟨_, parseLines_mono hs (le_max_right _ _) hls, rfl⟩⟩⟩

variable {file : List Char} {cmds : List Command}

theorem map_some_reduceOption {α : Type} {l : List (Option α)} (h : ∀ x ∈ l, x.isSome = true) :
    l.reduceOption.map some = l := by
  induction l with
  | nil => rfl
  | cons x l ih =>
    cases x with
    | none => simp at h
    | some x => simpa using ih (by simpa using h)

/-- The trace is accepted when every line has given its command. -/
theorem parseTrace_ok_iff (hs : sw.Sound) : parseTrace sw draws rounds hash file = .ok cmds ↔
    ∃ k, parseLines sw draws rounds hash 0 (getlines file) 0 = .ok (cmds.map some, k) := by
  unfold parseTrace
  rw [bind_eq_ok]
  constructor
  · rintro ⟨⟨xs, k⟩, hxs, hok⟩
    dsimp only at hok
    split_ifs at hok with hlen
    cases hok
    rw [(parseLines_spec hs hxs).length_eq, eq_comm, List.reduceOption_length_eq_iff] at hlen
    rw [map_some_reduceOption hlen]
    exact ⟨k, hxs⟩
  · rintro ⟨k, hxs⟩
    refine ⟨_, hxs, ?_⟩
    have hred : (cmds.map some).reduceOption = cmds := by simp [List.reduceOption, List.filterMap_map]
    dsimp only
    rw [hred, if_pos]
    rw [(parseLines_spec hs hxs).length_eq, List.length_map]

theorem four_words_of_ok (hs : sw.Sound) (hok : parseTrace sw draws rounds hash file = .ok cmds) :
    List.Forall₂ (fun l (c : Command) => c.WellFormed sw hash ∧ 4 ≤ (strtok ' ' (cstr l)).length) (getlines file) cmds := by
  obtain ⟨k, hxs⟩ := (parseTrace_ok_iff hs).1 hok
  refine (List.forall₂_map_right_iff.1 (parseLines_spec hs hxs)).imp fun l c h => ?_
  exact ⟨h.1 c rfl, h.2.1 rfl⟩

theorem parseTrace_total (hs : sw.Sound) (hp : sw.Placeable) (hf : Fair sw draws) (hash : UInt32 → Bytes)
    (h4 : ∀ l ∈ getlines file, 4 ≤ (strtok ' ' (cstr l)).length) :
    ∃ rounds cmds, parseTrace sw draws rounds hash file = .ok cmds := by
  obtain ⟨n, xs, k, hxs⟩ : ∃ n xs k, parseLines sw draws n hash 0 (getlines file) 0 = .ok (xs, k) :=
    parseLines_total hs hp hf 0 (getlines file) 0 h4
  have hall : ∀ x ∈ xs, x.isSome = true := by
    intro x hx
    obtain ⟨l, hl, -, hsome⟩ := Lts.exists_mem_of_forall₂ (parseLines_spec hs hxs).flip hx
    exact hsome.2 (h4 l hl)
  refine ⟨n, xs.reduceOption, (parseTrace_ok_iff hs).2 ⟨k, ?_⟩⟩
  rwa [map_some_reduceOption hall]

/-- **Acceptance.** If `rand()` does not name this machine for ever and no switch asks for local requests
that are disabled, `parse_trace` accepts a file exactly if each of its lines has four words or more,
whatever the words are; how long it redraws makes no difference to what it reads. -/
theorem accepts_iff (hs : sw.Sound) (hp : sw.Placeable) (hf : Fair sw draws) (hash : UInt32 → Bytes) (file : List Char) :
    ((∃ rounds cmds, parseTrace sw draws rounds hash file = .ok cmds) ↔
      ∀ l ∈ getlines file, 4 ≤ (strtok ' ' (cstr l)).length) ∧
    ∀ n cmds, parseTrace sw draws n hash file = .ok cmds → ∀ m, n ≤ m → parseTrace sw draws m hash file = .ok cmds := by
  refine ⟨⟨?_, ?_⟩, ?_⟩
  · rintro ⟨rounds, cmds, hok⟩ l hl
    obtain ⟨c, -, -, h4⟩ := Lts.exists_mem_of_forall₂ (four_words_of_ok hs hok) hl
    exact h4
  · exact parseTrace_total hs hp hf hash
  · intro n cmds hok m hnm
    obtain ⟨k, hxs⟩ := (parseTrace_ok_iff hs).1 hok
    exact (parseTrace_ok_iff hs).2 ⟨k, parseLines_mono hs hnm hxs⟩

/-- A line with a request in four words, and one more request without the newline. -/
def twoRequests : List Char :=
  ['H', 'R', ' ', '6', ' ', '5', ' ', '2', '4', '\n', 'N', 'R', ' ', ' ', '3', ' ', '4', ' ', '4', '0', '8', '3', '0']

theorem fair_one : Fair (.ofMachine 0) fun _ => 1 := fun k => ⟨k, le_rfl, Nat.one_ne_zero⟩

theorem accepts_iff_twoRequests : ∃ rounds cmds,
    parseTrace (.ofMachine 0) (fun _ => 1) rounds (fun _ _ => 0) twoRequests = .ok cmds :=
  (accepts_iff (Switches.ofMachine_sound (by decide)) (Switches.ofMachine_placeable 0) fair_one _ _).1.2 (by decide)

theorem forall₂_pmap {α β : Type} {p : α → Prop} {f : ∀ a, p a → β} (l : List α) (H : ∀ a ∈ l, p a) :
    List.Forall₂ (fun a b => ∃ h, b = f a h) l (l.pmap f H) := by
  induction l with
  | nil => exact .nil
  | cons a l ih => exact .cons ⟨H a List.mem_cons_self, rfl⟩ (ih _)

/-- `c` as the client's model has it. -/
def Command.toTraceCommand {N : ℕ} (c : Command) (h : c.homeMachineId.toNat < N) : TraceCommand N :=
  ⟨c.opcode, ⟨c.homeMachineId.toNat, h⟩, c.keyId.toNat, c.keyHash⟩

/-- **What is accepted is well formed.** A trace that is read has one command for each line of the file,
each with a machine and a worker that exist, a key of the store and the opcode that goes with key and
home. So a file that is not empty gives a trace the client can run; none of its requests is for this
machine if local requests are disabled. -/
theorem accepted_wellFormed (hs : sw.Sound) (hok : parseTrace sw draws rounds hash file = .ok cmds) :
    cmds.length = (getlines file).length ∧ (∀ c ∈ cmds, c.WellFormed sw hash) ∧
    (file ≠ [] → ∃ t : Client.Trace sw.machineNum,
      List.Forall₂ (fun c d => ∃ h, d = Command.toTraceCommand c h) cmds t.cmds ∧
      (sw.disableLocals = true → ∀ d ∈ t.cmds, (d.homeMachineId : ℕ) ≠ sw.machineId)) := by
  have hlines := four_words_of_ok hs hok
  have hwf : ∀ c ∈ cmds, c.WellFormed sw hash := by
    intro c hc
    obtain ⟨l, -, h, -⟩ := Lts.exists_mem_of_forall₂ hlines.flip hc
    exact h
  refine ⟨hlines.length_eq.symm, hwf, fun hne => ?_⟩
  have hcmds : cmds ≠ [] := by
    rintro rfl
    exact getlines_ne_nil hne (List.forall₂_nil_right_iff.1 hlines)
  let t : Client.Trace sw.machineNum :=
    ⟨cmds.pmap Command.toTraceCommand fun c hc => (hwf c hc).machine, by simpa using hcmds⟩
  refine ⟨t, forall₂_pmap _ _, fun hd d hmem => ?_⟩
  obtain ⟨c, hc, rfl⟩ := List.mem_pmap.1 hmem
  exact (hwf c hc).remote hd

theorem accepted_wellFormed_twoRequests : ∃ rounds cmds,
    parseTrace (.ofMachine 0) (fun _ => 1) rounds (fun _ _ => 0) twoRequests = .ok cmds ∧ cmds.length = 2 := by
  obtain ⟨rounds, cmds, hok⟩ : ∃ rounds cmds,
      parseTrace (.ofMachine 0) (fun _ => 1) rounds (fun _ _ => 0) twoRequests = .ok cmds := ⟨1, _, rfl⟩
  exact ⟨rounds, cmds, hok, (accepted_wellFormed (Switches.ofMachine_sound (by decide)) hok).1⟩

end File

end CcKvs.Traces
