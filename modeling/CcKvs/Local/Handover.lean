/-
Every local request is handed over once. The client fills a slot only while the
flag of its region is clear, and the worker reads slots only of a region whose
flag is set. So a request stays in its slot until it is executed, and a region
that is complete is executed within one round of the worker over the regions.

The order is another matter: the worker looks for complete regions from region 0
on. It executes the requests in the order of issue exactly in those runs in which
it takes the regions in cyclic order. Nothing in the code makes it do so, unless
there is only one region.
-/
import CcKvs.Local.Window

namespace CcKvs.Local

open Function Handoff

/-! ## Slots -/

namespace Config

variable (c : Config)

theorem regions_pos : 0 < c.localRegions := by
  refine Nat.pos_of_ne_zero fun h => ?_
  have := c.perfect
  rw [h, Nat.mod_zero] at this
  exact absurd this (Nat.ne_of_gt c.window_pos)

theorem regions_mul_size : c.localRegions * c.localRegionSize = c.localWindow :=
  Nat.mul_div_cancel' (Nat.dvd_of_mod_eq_zero c.perfect)

theorem size_pos : 0 < c.localRegionSize := by
  refine Nat.pos_of_ne_zero fun h => ?_
  have := c.regions_mul_size
  rw [h, Nat.mul_zero] at this
  exact absurd this (Nat.ne_of_lt c.window_pos)

theorem offset_eq (wn cn ws : ℕ) : c.offset wn cn ws = ws + c.localWindow * (cn + c.clientsPerMachine * wn) := by
  unfold offset
  ring

/-- Windows do not overlap. -/
theorem offset_inj {wn cn ws wn' cn' ws' : ℕ} (hcn : cn < c.clientsPerMachine) (hcn' : cn' < c.clientsPerMachine)
    (hws : ws < c.localWindow) (hws' : ws' < c.localWindow) (h : c.offset wn cn ws = c.offset wn' cn' ws') :
    (wn, cn) = (wn', cn') ∧ ws = ws' := by
  rw [offset_eq, offset_eq] at h
  have hmod := congrArg (· % c.localWindow) h
  have hdiv := congrArg (· / c.localWindow) h
  simp only [Nat.add_mul_mod_self_left, Nat.mod_eq_of_lt, hws, hws'] at hmod
  simp only [Nat.add_mul_div_left _ _ c.window_pos, Nat.div_eq_of_lt, hws, hws', Nat.zero_add] at hdiv
  have hC : 0 < c.clientsPerMachine := Nat.zero_lt_of_lt hcn
  have hc := congrArg (· % c.clientsPerMachine) hdiv
  have hw := congrArg (· / c.clientsPerMachine) hdiv
  simp only [Nat.add_mul_mod_self_left, Nat.mod_eq_of_lt, hcn, hcn'] at hc
  simp only [Nat.add_mul_div_left _ _ hC, Nat.div_eq_of_lt, hcn, hcn', Nat.zero_add] at hw
  exact ⟨by rw [hw, hc], hmod⟩

theorem slot_inj {k k' : ℕ} (h : c.slot k = c.slot k') : k = k' := Nat.add_left_cancel h

theorem div_size_lt {k : ℕ} (h : k < c.localWindow) : k / c.localRegionSize < c.localRegions := by
  rw [Nat.div_lt_iff_lt_mul c.size_pos, c.regions_mul_size]
  exact h

theorem locRegion_eq {ws : ℕ} (h : ws < c.localWindow) : c.locRegion ws = ws / c.localRegionSize := by
  have hr := c.div_size_lt h
  have h64 := c.regions_le
  rw [locRegion, slot, offset_eq, Nat.add_mul_mod_self_left, Nat.mod_eq_of_lt h, Nat.mod_eq_of_lt (by omega)]

theorem slot_lt {i j : ℕ} (hi : i < c.localRegions) (hj : j < c.localRegionSize) :
    i * c.localRegionSize + j < c.localWindow := by
  calc i * c.localRegionSize + j < i * c.localRegionSize + c.localRegionSize := by omega
    _ = (i + 1) * c.localRegionSize := by ring
    _ ≤ c.localRegions * c.localRegionSize := Nat.mul_le_mul_right _ hi
    _ = c.localWindow := c.regions_mul_size

theorem div_mod_slot (i : ℕ) {j : ℕ} (hj : j < c.localRegionSize) :
    (i * c.localRegionSize + j) / c.localRegionSize = i ∧ (i * c.localRegionSize + j) % c.localRegionSize = j := by
  refine ⟨?_, Nat.mul_add_mod_of_lt hj⟩
  rw [Nat.mul_comm, Nat.mul_add_div c.size_pos, Nat.div_eq_of_lt hj, Nat.add_zero]

/-- The worker reads where the client writes. -/
theorem served_eq {i : ℕ} (hi : i < c.localRegions) (j : ℕ) : c.served i j = c.slot (i * c.localRegionSize + j) := by
  have hfit : c.cn * c.localWindow + i * c.localRegionSize < 2 ^ 16 := by
    calc c.cn * c.localWindow + i * c.localRegionSize
        < c.cn * c.localWindow + c.localWindow := by
          have := c.slot_lt hi c.size_pos
          omega
      _ = (c.cn + 1) * c.localWindow := by ring
      _ ≤ c.clientsPerMachine * c.localWindow := Nat.mul_le_mul_right _ c.cn_lt
      _ ≤ 2 ^ 16 := c.offset_fits
  rw [served, Nat.mod_eq_of_lt hfit, slot, offset]
  ring

theorem modAdd_mod (n : ℕ) : c.modAdd (n % c.localWindow) = (n + 1) % c.localWindow := by
  have hlt := Nat.mod_lt n c.window_pos
  rw [← Nat.mod_add_mod]
  unfold modAdd
  split
  next h => rw [h, Nat.mod_self]
  next h => exact (Nat.mod_eq_of_lt (by omega)).symm

theorem modAdd_lt {ws : ℕ} (h : ws < c.localWindow) : c.modAdd ws < c.localWindow := by
  unfold modAdd
  split <;> omega

/-- After the last slot of a region comes the first one of a region. -/
theorem modAdd_of_last {ws : ℕ} (h : ws % c.localRegionSize = c.localRegionSize - 1) :
    c.modAdd ws % c.localRegionSize = 0 := by
  unfold modAdd
  split
  · exact Nat.zero_mod _
  · rw [← Nat.mod_add_mod, h, Nat.sub_add_cancel c.size_pos, Nat.mod_self]

theorem div_succ_of_ne {ws : ℕ} (h : ws % c.localRegionSize ≠ c.localRegionSize - 1) :
    (ws + 1) / c.localRegionSize = ws / c.localRegionSize ∧ (ws + 1) % c.localRegionSize = ws % c.localRegionSize + 1 := by
  have hlt : ws % c.localRegionSize + 1 < c.localRegionSize := by
    have := Nat.mod_lt ws c.size_pos
    omega
  have hws : ws + 1 = c.localRegionSize * (ws / c.localRegionSize) + (ws % c.localRegionSize + 1) := by
    rw [← Nat.add_assoc, Nat.div_add_mod]
  constructor
  · rw [hws, Nat.mul_add_div c.size_pos, Nat.div_eq_of_lt hlt, Nat.add_zero]
  · rw [hws, Nat.mul_add_mod, Nat.mod_eq_of_lt hlt]

theorem div_succ_of_last {ws : ℕ} (h : ws % c.localRegionSize = c.localRegionSize - 1) :
    (ws + 1) / c.localRegionSize = ws / c.localRegionSize + 1 := by
  refine Nat.succ_div_of_dvd (Nat.dvd_of_mod_eq_zero ?_)
  rw [← Nat.mod_add_mod, h, Nat.sub_add_cancel c.size_pos, Nat.mod_self]

/-- Within a region the window does not wrap. -/
theorem modAdd_of_ne {ws : ℕ} (hlt : ws < c.localWindow) (h : ws % c.localRegionSize ≠ c.localRegionSize - 1) :
    c.modAdd ws = ws + 1 := by
  refine if_neg fun hw => h ?_
  have h1 := (c.div_succ_of_ne h).1
  have h2 := c.div_size_lt hlt
  rw [hw, ← c.regions_mul_size, Nat.mul_div_cancel _ c.size_pos] at h1
  omega

theorem nextRegion_lt (i : ℕ) : c.nextRegion i < c.localRegions := by
  have := c.regions_pos
  unfold nextRegion
  split <;> omega

end Config

/-! ## Requests that wait -/

/-- Request `j` of region `i`, whose flag is set, is still to be executed. -/
def ServePc.Unread (i j : ℕ) : ServePc → Prop
  | .look _ => True
  | .run i' j' => i' = i → j' ≤ j
  | .clear i' => i' ≠ i

def ServePc.region : ServePc → ℕ
  | .look i | .run i _ | .clear i => i

namespace Window

variable {α : Type*} (c : Config) (w : Window α)

/-- Window slot `k` holds a request that is still to be executed. -/
def Waiting (k : ℕ) : Prop :=
  if w.localRecvFlag (k / c.localRegionSize) then w.serve.Unread (k / c.localRegionSize) (k % c.localRegionSize)
  else k / c.localRegionSize = w.ws / c.localRegionSize ∧
    (k % c.localRegionSize < w.ws % c.localRegionSize ∨ w.issue = .lock)

/-- What holds between any two steps. -/
structure Ok : Prop where
  ws_lt : w.ws < c.localWindow
  filling : ∀ op, w.issue = .fill op → w.localRecvFlag (w.ws / c.localRegionSize) = false
  locking : w.issue = .lock →
    w.localRecvFlag (w.ws / c.localRegionSize) = false ∧ w.ws % c.localRegionSize = c.localRegionSize - 1
  /-- The client is at the beginning of a region that is not executed yet. -/
  blocked : w.localRecvFlag (w.ws / c.localRegionSize) = true → w.ws % c.localRegionSize = 0
  region_lt : w.serve.region < c.localRegions
  running : ∀ i j, w.serve = .run i j → j < c.localRegionSize ∧ w.localRecvFlag i = true
  /-- `assert(local_recv_flag[wrkr_lid][clt_i][i] == 1)` -/
  clearing : ∀ i, w.serve = .clear i → w.localRecvFlag i = true

variable {c w}

theorem ok_init (h : w.Init) : w.Ok c := by
  obtain ⟨hf, hws, hi, hs⟩ := h
  constructor
  · rw [hws]
    exact c.window_pos
  · simp [hi]
  · simp [hi]
  · simp [hf]
  · rw [hs]
    exact c.regions_pos
  · simp [hs]
  · simp [hs]

theorem Ok.lt_of_run (h : w.Ok c) (hs : w.serve = .run i j) : i < c.localRegions := by
  have := h.region_lt
  rwa [hs] at this

/-- The worker is not at a region whose flag is clear. -/
theorem Ok.unread (h : w.Ok c) (hf : w.localRecvFlag i = false) (j : ℕ) : w.serve.Unread i j := by
  cases hs : w.serve with
  | look => trivial
  | run i' j' =>
    rintro rfl
    rw [(h.running i' j' hs).2] at hf
    cases hf
  | clear i' =>
    rintro rfl
    rw [h.clearing i' hs] at hf
    cases hf

theorem Ok.fill (h : w.Ok c) (hi : w.issue = .fill op) : (w.fill c op).Ok c := by
  have hf := h.filling op hi
  unfold Window.fill
  split
  next hl => exact ⟨h.ws_lt, by simp, fun _ => ⟨hf, hl⟩, fun ht => h.blocked ht, h.region_lt, h.running, h.clearing⟩
  next hl =>
    obtain ⟨hd, -⟩ := c.div_succ_of_ne hl
    refine ⟨c.modAdd_lt h.ws_lt, by simp, by simp, fun ht => ?_, h.region_lt, h.running, h.clearing⟩
    simp only [c.modAdd_of_ne h.ws_lt hl, hd, hf] at ht
    cases ht

theorem Ok.lock (h : w.Ok c) (hi : w.issue = .lock) : (w.lock c).Ok c := by
  obtain ⟨hf, hl⟩ := h.locking hi
  have hset : ∀ {i}, w.localRecvFlag i = true → update w.localRecvFlag (c.locRegion w.ws) true i = true := by
    intro i ht
    rw [update_apply]
    split <;> simp [ht]
  exact ⟨c.modAdd_lt h.ws_lt, by simp [Window.lock], by simp [Window.lock], fun _ => c.modAdd_of_last hl, h.region_lt,
    fun i j hs => ⟨(h.running i j hs).1, hset (h.running i j hs).2⟩, fun i hs => hset (h.clearing i hs)⟩

theorem Ok.look (h : w.Ok c) (hs : w.serve = .look i) : (w.look c i).Ok c := by
  have hi := h.region_lt
  rw [hs] at hi
  refine ⟨h.ws_lt, h.filling, h.locking, h.blocked, ?_, fun i' j hs' => ?_, fun i' hs' => ?_⟩
  · dsimp only [Window.look]
    split
    · exact hi
    · exact c.nextRegion_lt i
  · dsimp only [Window.look] at hs' ⊢
    split at hs'
    next hf =>
      cases hs'
      exact ⟨c.size_pos, hf⟩
    next => cases hs'
  · dsimp only [Window.look] at hs'
    split at hs' <;> cases hs'

theorem Ok.run (h : w.Ok c) (hs : w.serve = .run i j) : (w.run c i j).Ok c := by
  obtain ⟨-, hf⟩ := h.running i j hs
  have hi := h.region_lt
  rw [hs] at hi
  refine ⟨h.ws_lt, h.filling, h.locking, h.blocked, ?_, fun i' j' hs' => ?_, fun i' hs' => ?_⟩
  · dsimp only [Window.run]
    split <;> exact hi
  · dsimp only [Window.run] at hs' ⊢
    split at hs'
    next hj =>
      cases hs'
      exact ⟨hj, hf⟩
    next => cases hs'
  · dsimp only [Window.run] at hs' ⊢
    split at hs'
    next => cases hs'
    next =>
      cases hs'
      exact hf

theorem Ok.clear (h : w.Ok c) (i : ℕ) : (w.clear c i).Ok c := by
  have hunset : ∀ {i'}, w.localRecvFlag i' = false → update w.localRecvFlag i false i' = false := by
    intro i' hf
    rw [update_apply]
    split <;> simp [hf]
  refine ⟨h.ws_lt, fun op hi => hunset (h.filling op hi), fun hi => ⟨hunset (h.locking hi).1, (h.locking hi).2⟩,
    fun ht => ?_, c.nextRegion_lt i, by simp [Window.clear], by simp [Window.clear]⟩
  refine h.blocked ?_
  by_contra hf
  rw [Bool.not_eq_true] at hf
  have hf' : (w.clear c i).localRecvFlag ((w.clear c i).ws / c.localRegionSize) = false := hunset hf
  rw [hf'] at ht
  cases ht

theorem Ok.step (h : w.Ok c) (hst : w.Step c e w') : w'.Ok c := by
  cases hst with
  | check op hi hf =>
    rw [c.locRegion_eq h.ws_lt] at hf
    exact ⟨h.ws_lt, fun _ _ => hf, by simp, h.blocked, h.region_lt, h.running, h.clearing⟩
  | retry => exact h
  | fill hi => exact h.fill hi
  | lock hi => exact h.lock hi
  | look hs => exact h.look hs
  | run hs => exact h.run hs
  | clear => exact h.clear _
  | other => exact ⟨h.ws_lt, h.filling, h.locking, h.blocked, h.region_lt, h.running, h.clearing⟩

theorem waiting_of_set (hf : w.localRecvFlag (k / c.localRegionSize) = true) :
    w.Waiting c k ↔ w.serve.Unread (k / c.localRegionSize) (k % c.localRegionSize) := by
  rw [Waiting, if_pos hf]

/-- A slot is given by its region and its place there. -/
theorem eq_iff_of_div_eq {n k k' : ℕ} (hd : k / n = k' / n) : k = k' ↔ k % n = k' % n := by
  refine ⟨fun h => by rw [h], fun hm => ?_⟩
  rw [← Nat.div_add_mod k n, hd, hm, Nat.div_add_mod]

theorem Ok.waiting_fill (h : w.Ok c) (hi : w.issue = .fill op) (k : ℕ) :
    (w.fill c op).Waiting c k ↔ w.Waiting c k ∨ k = w.ws := by
  have hf := h.filling op hi
  by_cases hd : k / c.localRegionSize = w.ws / c.localRegionSize
  · have hk := Nat.mod_lt k c.size_pos
    unfold Window.fill
    split
    next hl =>
      simp only [Waiting, hd, hf, hi, eq_iff_of_div_eq hd, hl, Bool.false_eq_true, if_false, or_true, and_self,
        reduceCtorEq, or_false, true_and, true_iff]
      omega
    next hl =>
      obtain ⟨hd', hm⟩ := c.div_succ_of_ne hl
      simp only [Waiting, hd, hf, hi, eq_iff_of_div_eq hd, c.modAdd_of_ne h.ws_lt hl, hd', hm,
        Bool.false_eq_true, if_false, reduceCtorEq, or_false, true_and]
      omega
  · have hne : k ≠ w.ws := by
      rintro rfl
      exact hd rfl
    unfold Window.fill
    split
    next => simp [Waiting, hd, hne]
    next hl => simp [Waiting, hd, hne, c.modAdd_of_ne h.ws_lt hl, (c.div_succ_of_ne hl).1]

/-- A request of the region that the client completes waits for the flag first, and then for the worker. -/
theorem Ok.waiting_lock (h : w.Ok c) (hi : w.issue = .lock) (k : ℕ) : (w.lock c).Waiting c k ↔ w.Waiting c k := by
  obtain ⟨hf, hl⟩ := h.locking hi
  by_cases hd : k / c.localRegionSize = w.ws / c.localRegionSize
  · have := h.unread hf (k % c.localRegionSize)
    simp [Waiting, Window.lock, c.locRegion_eq h.ws_lt, hd, hf, hi, this]
  · simp [Waiting, Window.lock, c.locRegion_eq h.ws_lt, hd, c.modAdd_of_last hl]

theorem waiting_look (hs : w.serve = .look i) (k : ℕ) : (w.look c i).Waiting c k ↔ w.Waiting c k := by
  have : ∀ i' j, (w.look c i).serve.Unread i' j := by
    intro i' j
    unfold Window.look
    dsimp only
    split <;> simp [ServePc.Unread]
  simp only [Waiting, hs, this]
  rfl

theorem Ok.waiting_run (h : w.Ok c) (hs : w.serve = .run i j) (k : ℕ) :
    (w.run c i j).Waiting c k ↔ w.Waiting c k ∧ k ≠ i * c.localRegionSize + j := by
  obtain ⟨hj, hf⟩ := h.running i j hs
  obtain ⟨hi, hm⟩ := c.div_mod_slot i hj
  by_cases hd : k / c.localRegionSize = i
  · have hk := Nat.mod_lt k c.size_pos
    have hne : k ≠ i * c.localRegionSize + j ↔ k % c.localRegionSize ≠ j := by
      rw [Ne, eq_iff_of_div_eq (hd.trans hi.symm), hm]
    have hset : w.localRecvFlag (k / c.localRegionSize) = true := by rw [hd, hf]
    rw [hne, waiting_of_set hset, waiting_of_set (w := w.run c i j) hset, hd, hs]
    dsimp only [Window.run]
    split
    next =>
      simp only [ServePc.Unread, forall_const]
      omega
    next =>
      simp only [ServePc.Unread, forall_const, ne_eq, not_true_eq_false, false_iff]
      omega
  · have hne : k ≠ i * c.localRegionSize + j := by
      rintro rfl
      exact hd hi
    have hread : ∀ p : ServePc, p.region = i → p.Unread (k / c.localRegionSize) (k % c.localRegionSize) := by
      rintro (_ | _ | _) rfl
      · trivial
      · exact fun he => absurd he.symm hd
      · exact fun he => hd he.symm
    have h1 := hread w.serve (by rw [hs]; rfl)
    have h2 := hread (w.run c i j).serve (by dsimp only [Window.run]; split <;> rfl)
    simp only [Waiting, h1, h2, hne, Ne, not_false_eq_true, and_true]
    rfl

theorem Ok.waiting_clear (h : w.Ok c) (hs : w.serve = .clear i) (k : ℕ) :
    (w.clear c i).Waiting c k ↔ w.Waiting c k := by
  have hf := h.clearing i hs
  by_cases hd : k / c.localRegionSize = i
  · -- All requests of the region are executed, and the client has not begun with it again.
    have hlock : i = w.ws / c.localRegionSize → ¬ (k % c.localRegionSize < w.ws % c.localRegionSize ∨ w.issue = .lock) := by
      rintro rfl (hlt | hl)
      · rw [h.blocked hf] at hlt
        exact Nat.not_lt_zero _ hlt
      · rw [(h.locking hl).1] at hf
        cases hf
    simp only [Waiting, Window.clear, hd, update_self, hf, hs, ServePc.Unread]
    simpa using hlock
  · have : w.serve.Unread (k / c.localRegionSize) (k % c.localRegionSize) := by
      rw [hs]
      exact fun he => hd he.symm
    have hlook : (w.clear c i).serve.Unread (k / c.localRegionSize) (k % c.localRegionSize) := trivial
    simp only [Waiting, this, hlook]
    simp only [Window.clear, update_of_ne hd]

/-- What a step does to window slot `k`. -/
inductive Touches (c : Config) (k : ℕ) (w : Window α) (e : Event α) (w' : Window α) : Prop
  | keep : accesses (c.slot k) e.access.toList = [] → (w'.Waiting c k ↔ w.Waiting c k) →
      w'.localReqRegion (c.slot k) = w.localReqRegion (c.slot k) → Touches c k w e w'
  | put : accesses (c.slot k) e.access.toList = [.put (w'.localReqRegion (c.slot k))] → ¬ w.Waiting c k →
      w'.Waiting c k → Touches c k w e w'
  | take : accesses (c.slot k) e.access.toList = [.take (w.localReqRegion (c.slot k))] → w.Waiting c k →
      ¬ w'.Waiting c k → Touches c k w e w'

theorem Ok.touches_fill (h : w.Ok c) (hi : w.issue = .fill op) (k : ℕ) :
    Touches c k w (.issue (c.slot w.ws) op) (w.fill c op) := by
  have hmem : (w.fill c op).localReqRegion = update w.localReqRegion (c.slot w.ws) op := by
    unfold Window.fill
    split <;> rfl
  by_cases hk : k = w.ws
  · subst hk
    refine .put (by simp [Event.access, hmem]) ?_ ((h.waiting_fill hi _).2 (.inr rfl))
    simp [Waiting, h.filling op hi, hi]
  · have hslot : c.slot k ≠ c.slot w.ws := fun he => hk (c.slot_inj he)
    refine .keep (accesses_of_ne hslot.symm _) ?_ ?_
    · rw [h.waiting_fill hi, or_iff_left hk]
    · rw [hmem, update_of_ne hslot]

theorem Ok.touches_run (h : w.Ok c) (hs : w.serve = .run i j) (k : ℕ) :
    Touches c k w (.execute (c.served i j) (w.localReqRegion (c.served i j))) (w.run c i j) := by
  rw [c.served_eq (h.lt_of_run hs)]
  by_cases hk : k = i * c.localRegionSize + j
  · subst hk
    obtain ⟨hj, hf⟩ := h.running i j hs
    obtain ⟨hd, hm⟩ := c.div_mod_slot i hj
    refine .take (by simp [Event.access]) ?_ fun hw => ((h.waiting_run hs _).1 hw).2 rfl
    simp [Waiting, hd, hm, hf, hs, ServePc.Unread]
  · have hslot : c.slot (i * c.localRegionSize + j) ≠ c.slot k := fun he => hk (c.slot_inj he.symm)
    refine .keep (accesses_of_ne hslot _) ?_ rfl
    rw [h.waiting_run hs, and_iff_left hk]

theorem Ok.touches (h : w.Ok c) (hst : w.Step c e w') (hk : k < c.localWindow) : Touches c k w e w' := by
  cases hst with
  | check op hi hf => exact .keep rfl (by simp [Waiting, hi]) rfl
  | retry => exact .keep rfl Iff.rfl rfl
  | fill hi => exact h.touches_fill hi k
  | lock hi => exact .keep rfl (h.waiting_lock hi k) rfl
  | look hs => exact .keep rfl (waiting_look hs k) rfl
  | run hs => exact h.touches_run hs k
  | clear hs => exact .keep rfl (h.waiting_clear hs k) rfl
  | other wn cn ws op hcn hws hne =>
    refine .keep rfl Iff.rfl (update_of_ne ?_ _ _)
    intro he
    exact hne (c.offset_inj c.cn_lt hcn hk hws he).1.symm

end Window

/-! ## Whole runs -/

section

variable {α : Type*} {c : Config} {w₀ w : Window α} {es : List (Event α)}

theorem trace_concat (es : List (Event α)) (e : Event α) : trace (es ++ [e]) = trace es ++ e.access.toList := by
  unfold trace
  rw [List.filterMap_append]
  cases h : e.access <;> simp [h]

theorem issued_concat (es : List (Event α)) (e : Event α) : issued (es ++ [e]) = issued es ++ puts e.access.toList := by
  rw [issued, trace_concat, puts_append]
  rfl

theorem executed_concat (es : List (Event α)) (e : Event α) :
    executed (es ++ [e]) = executed es ++ takes e.access.toList := by
  rw [executed, trace_concat, takes_append]
  rfl

/-- The slot of the `n`-th request in cyclic order. -/
def Config.turn (c : Config) (n : ℕ) : ℕ := c.slot (n % c.localWindow)

/-- Where the next request is written. -/
def Window.next (c : Config) (w : Window α) : ℕ :=
  match w.issue with
  | .lock => c.modAdd w.ws
  | _ => w.ws

/-- The slots of the window against what was issued and executed so far. -/
structure Handed (c : Config) (es : List (Event α)) (w : Window α) : Prop where
  ok : w.Ok c
  waiting : ∀ k < c.localWindow, w.Waiting c k →
    Alternates (accesses (c.slot k) (trace es)) (some (w.localReqRegion (c.slot k)))
  free : ∀ k < c.localWindow, ¬ w.Waiting c k → Alternates (accesses (c.slot k) (trace es)) none
  elsewhere : ∀ a, (∀ k < c.localWindow, c.slot k ≠ a) → accesses a (trace es) = []
  turns : InTurn c.turn (issued es)
  next : w.next c = (issued es).length % c.localWindow

theorem Handed.init (h : w.Init) : Handed c [] w := by
  have hnot : ∀ k, ¬ w.Waiting c k := by
    obtain ⟨hf, hws, hi, -⟩ := h
    intro k
    simp [Window.Waiting, hf, hws, hi]
  refine ⟨Window.ok_init h, fun k _ hw => absurd hw (hnot k), fun _ _ _ => .nil, fun _ _ => rfl, .nil _, ?_⟩
  obtain ⟨-, hws, hi, -⟩ := h
  simp [Window.next, hi, hws, issued, trace, puts]

/-- A slot outside the window is not touched. -/
theorem Window.Ok.elsewhere (h : w.Ok c) (hst : w.Step c e w') {a : ℕ} (ha : ∀ k < c.localWindow, c.slot k ≠ a) :
    accesses a e.access.toList = [] := by
  cases hst with
  | fill => exact accesses_of_ne (ha _ h.ws_lt) _
  | @run i j hs =>
    refine accesses_of_ne ?_ _
    rw [c.served_eq (h.lt_of_run hs)]
    exact ha _ (c.slot_lt (h.lt_of_run hs) (h.running i j hs).1)
  | _ => rfl

/-- A request is issued at the next slot. -/
theorem Window.Step.next (hst : w.Step c e w') :
    (puts e.access.toList = [] ∧ w'.next c = w.next c) ∨
      ∃ op, puts e.access.toList = [(c.slot (w.next c), op)] ∧ w'.next c = c.modAdd (w.next c) := by
  cases hst with
  | check op hi => exact .inl ⟨rfl, by simp [Window.next, hi]⟩
  | @fill op hi =>
    have hn : w.next c = w.ws := by simp [Window.next, hi]
    refine .inr ⟨op, by rw [hn]; rfl, ?_⟩
    rw [hn]
    unfold Window.fill
    split <;> rfl
  | lock hi => exact .inl ⟨rfl, by simp [Window.next, hi, Window.lock]⟩
  | _ => exact .inl ⟨rfl, rfl⟩

theorem Handed.step (h : Handed c es w) (hst : w.Step c e w') : Handed c (es ++ [e]) w' := by
  refine ⟨h.ok.step hst, fun k hk hw => ?_, fun k hk hw => ?_, fun a ha => ?_, ?_, ?_⟩
  · rw [trace_concat, accesses_append]
    cases h.ok.touches hst hk with
    | keep he hiff hmem =>
      rw [he, List.append_nil, hmem]
      exact h.waiting k hk (hiff.1 hw)
    | put he hn =>
      rw [he]
      exact .put (h.free k hk hn)
    | take _ _ hn => exact absurd hw hn
  · rw [trace_concat, accesses_append]
    cases h.ok.touches hst hk with
    | keep he hiff =>
      rw [he, List.append_nil]
      exact h.free k hk fun hw' => hw (hiff.2 hw')
    | put _ _ hw' => exact absurd hw' hw
    | take he hw' =>
      rw [he]
      exact .take (h.waiting k hk hw')
  · rw [trace_concat, accesses_append, h.elsewhere a ha, h.ok.elsewhere hst ha, List.append_nil]
  · rw [issued_concat]
    rcases hst.next with ⟨hp, -⟩ | ⟨op, hp, -⟩
    · rw [hp, List.append_nil]
      exact h.turns
    · rw [hp, h.next]
      exact h.turns.snoc op
  · rw [issued_concat]
    rcases hst.next with ⟨hp, hn⟩ | ⟨op, hp, hn⟩
    · rw [hp, hn, List.append_nil, h.next]
    · rw [hp, hn, h.next, c.modAdd_mod, List.length_append, List.length_singleton]

theorem handed_of_run (h : (system α c).Run w₀ es w) : Handed c es w :=
  h.invariant (fun es w => Handed c es w) Handed.init fun _ hI hst => hI.step hst

/-- Each slot is filled and executed in turn. -/
theorem Handed.alternates (h : Handed c es w) (a : ℕ) : ∃ o, Alternates (accesses a (trace es)) o := by
  by_cases ha : ∃ k < c.localWindow, c.slot k = a
  · obtain ⟨k, hk, rfl⟩ := ha
    by_cases hw : w.Waiting c k
    · exact ⟨_, h.waiting k hk hw⟩
    · exact ⟨_, h.free k hk hw⟩
  · refine ⟨none, ?_⟩
    rw [h.elsewhere a fun k hk he => ha ⟨k, hk, he⟩]
    exact .nil

theorem Handed.executed_filter (h : Handed c es w) (a : ℕ) :
    (executed es).filter (·.1 = a) <+: (issued es).filter (·.1 = a) := by
  obtain ⟨o, ho⟩ := h.alternates a
  exact ⟨_, ho.puts_eq.symm⟩

/-- The requests are executed in the order of issue if the worker takes the slots in cyclic order. -/
theorem Handed.executed_prefix_iff (h : Handed c es w) : executed es <+: issued es ↔ InTurn c.turn (executed es) :=
  ⟨h.turns.of_prefix, fun ht => h.turns.takes_prefix ht h.executed_filter⟩

/-! ## A complete region is executed -/

/-- From region `j` on, how many regions the worker goes through before region `i`. -/
def Config.ahead (c : Config) (i j : ℕ) : ℕ := if j ≤ i then i - j else i + c.localRegions - j

/-- How many steps the worker needs at most to be done with its region. -/
def ServePc.left (c : Config) : ServePc → ℕ
  | .look _ => c.localRegionSize + 2
  | .run _ j => c.localRegionSize + 1 - j
  | .clear _ => 1

/-- How many steps the worker needs at most to be done with region `i`. -/
def ServePc.rank (c : Config) (i : ℕ) (p : ServePc) : ℕ := c.ahead i p.region * (c.localRegionSize + 2) + p.left c

theorem ServePc.rank_le (i : ℕ) (p : ServePc) (hi : i < c.localRegions) (hp : p.region < c.localRegions) :
    p.rank c i ≤ c.localRegions * (c.localRegionSize + 2) := by
  have hleft : p.left c ≤ c.localRegionSize + 2 := by
    cases p <;> simp only [ServePc.left] <;> omega
  have hahead : c.ahead i p.region + 1 ≤ c.localRegions := by
    unfold Config.ahead
    split <;> omega
  calc p.rank c i ≤ c.ahead i p.region * (c.localRegionSize + 2) + (c.localRegionSize + 2) := Nat.add_le_add_left hleft _
    _ = (c.ahead i p.region + 1) * (c.localRegionSize + 2) := by ring
    _ ≤ c.localRegions * (c.localRegionSize + 2) := Nat.mul_le_mul_right _ hahead

theorem Config.ahead_next {i j : ℕ} (hj : j < c.localRegions) (hi : i < c.localRegions) (hne : j ≠ i) :
    c.ahead i (c.nextRegion j) + 1 = c.ahead i j := by
  unfold Config.ahead Config.nextRegion
  split <;> split <;> split <;> omega

/-- Going on to the next region brings the worker nearer to region `i`. -/
theorem ServePc.rank_next {p : ServePc} (hp : p.region < c.localRegions) (hi : i < c.localRegions) (hne : p.region ≠ i)
    (hleft : 0 < p.left c) : (ServePc.look (c.nextRegion p.region)).rank c i + 1 ≤ p.rank c i := by
  calc (ServePc.look (c.nextRegion p.region)).rank c i + 1
      = (c.ahead i (c.nextRegion p.region) + 1) * (c.localRegionSize + 2) + 1 := by
        unfold ServePc.rank ServePc.left ServePc.region
        ring
    _ = c.ahead i p.region * (c.localRegionSize + 2) + 1 := by rw [c.ahead_next hp hi hne]
    _ ≤ p.rank c i := Nat.add_le_add_left hleft _

/-- The steps of the worker. -/
def work (es : List (Event α)) : ℕ := es.countP Event.isWorker

/-- While a request of region `i` waits, the flag stays set, and each step of the worker brings it nearer. -/
theorem Window.Ok.rank_step (h : w.Ok c) (hst : w.Step c e w') (hi : i < c.localRegions)
    (hf : w.localRecvFlag i = true) (hu : w.serve ≠ .clear i) :
    w'.localRecvFlag i = true ∧ w'.serve.rank c i + work [e] ≤ w.serve.rank c i := by
  have hr := h.region_lt
  cases hst with
  | check => exact ⟨hf, le_rfl⟩
  | retry => exact ⟨hf, le_rfl⟩
  | fill =>
    unfold Window.fill
    split <;> exact ⟨hf, le_rfl⟩
  | lock =>
    refine ⟨?_, le_rfl⟩
    dsimp only [Window.lock]
    rw [update_apply]
    split <;> simp [hf]
  | @look i' hs =>
    refine ⟨hf, ?_⟩
    have hwork : work [(Event.worker : Event α)] = 1 := rfl
    rw [hs] at hr ⊢
    dsimp only [Window.look]
    split
    next =>
      simp only [ServePc.rank, ServePc.region, ServePc.left, hwork]
      omega
    next hf' =>
      refine ServePc.rank_next (p := .look i') hr hi ?_ (Nat.succ_pos _)
      rintro rfl
      exact hf' hf
  | @run i' j hs =>
    refine ⟨hf, ?_⟩
    obtain ⟨hj, -⟩ := h.running i' j hs
    have hwork : work [Event.execute (c.served i' j) (w.localReqRegion (c.served i' j))] = 1 := rfl
    rw [hs]
    dsimp only [Window.run]
    split
    next =>
      simp only [ServePc.rank, ServePc.region, ServePc.left, hwork]
      omega
    next =>
      simp only [ServePc.rank, ServePc.region, ServePc.left, hwork]
      omega
  | @clear i' hs =>
    have hne : i' ≠ i := by
      rintro rfl
      exact hu hs
    rw [hs] at hr ⊢
    exact ⟨(update_of_ne hne.symm _ _).trans hf, ServePc.rank_next (p := .clear i') hr hi hne Nat.one_pos⟩
  | other => exact ⟨hf, le_rfl⟩

/-- A request of a complete region, in the course of a run from there. -/
theorem Window.Ok.executed_or_nearer (h : w.Ok c) (hk : k < c.localWindow)
    (hf : w.localRecvFlag (k / c.localRegionSize) = true) (hw : w.Waiting c k)
    (hrun : ((system α c).startAt w).Run w ds w') :
    (c.slot k, w.localReqRegion (c.slot k)) ∈ executed ds ∨
      w'.Ok c ∧ w'.localRecvFlag (k / c.localRegionSize) = true ∧ w'.Waiting c k ∧
      w'.localReqRegion (c.slot k) = w.localReqRegion (c.slot k) ∧
      w'.serve.rank c (k / c.localRegionSize) + work ds ≤ w.serve.rank c (k / c.localRegionSize) := by
  induction hrun with
  | nil => exact .inr ⟨h, hf, hw, rfl, le_rfl⟩
  | @snoc ds v e v' _ hst ih =>
    rcases ih with hex | ⟨hv, hfv, hwv, hmem, hrank⟩
    · rw [executed_concat]
      exact .inl (List.mem_append_left _ hex)
    · have hu : v.serve ≠ .clear (k / c.localRegionSize) := by
        intro hs
        rw [Window.waiting_of_set hfv, hs] at hwv
        exact hwv rfl
      cases hv.touches hst hk with
      | keep _ hiff hmem' =>
        obtain ⟨hf', hrank'⟩ := hv.rank_step hst (c.div_size_lt hk) hfv hu
        refine .inr ⟨hv.step hst, hf', hiff.2 hwv, hmem'.trans hmem, ?_⟩
        rw [work, List.countP_append]
        unfold work at hrank hrank'
        omega
      | put _ hn => exact absurd hwv hn
      | take he =>
        rw [executed_concat]
        refine .inl (List.mem_append_right _ (mem_takes.2 ?_))
        rw [he, hmem]
        exact List.mem_singleton_self _

/-- One round of the worker is enough. -/
theorem Handed.executed_of_work (h : Handed c es w) (hk : k < c.localWindow)
    (hf : w.localRecvFlag (k / c.localRegionSize) = true) (hx : Alternates (accesses (c.slot k) (trace es)) (some x))
    (hrun : ((system α c).startAt w).Run w ds w') (hwork : c.localRegions * (c.localRegionSize + 2) ≤ work ds) :
    (c.slot k, x) ∈ executed ds := by
  have hlast := (hx.getLast?_eq_put x).2 rfl
  have hw : w.Waiting c k := by
    by_contra hw
    have := ((h.free k hk hw).getLast?_eq_put x).1 hlast
    cases this
  have hmem : w.localReqRegion (c.slot k) = x := by
    have := ((h.waiting k hk hw).getLast?_eq_put x).1 hlast
    exact Option.some.inj this
  rcases h.ok.executed_or_nearer hk hf hw hrun with hex | ⟨hok, -, -, -, hrank⟩
  · rwa [hmem] at hex
  · -- The worker would have gone through all regions and be nearer still.
    have hle := w.serve.rank_le _ (c.div_size_lt hk) h.ok.region_lt
    have hpos : 0 < w'.serve.rank c (k / c.localRegionSize) := by
      refine Nat.add_pos_right _ ?_
      cases hs : w'.serve with
      | look => exact Nat.succ_pos _
      | run i j =>
        have := (hok.running i j hs).1
        simp only [ServePc.left]
        omega
      | clear => exact Nat.one_pos
    omega

/-! ## A single region -/

/-- How many requests of its region the worker has executed. -/
def ServePc.done : ServePc → ℕ
  | .run _ j => j
  | _ => 0

/-- With one region the worker takes the slots in cyclic order. -/
structure OneRegion (c : Config) (es : List (Event α)) (w : Window α) : Prop where
  turns : InTurn c.turn (executed es)
  place : w.serve.done = (executed es).length % c.localWindow

theorem OneRegion.init (h : w.Init) : OneRegion c [] w := by
  obtain ⟨-, -, -, hs⟩ := h
  exact ⟨.nil _, by simp [hs, ServePc.done, executed, trace, takes]⟩

/-- A step that executes nothing. -/
theorem OneRegion.keep (h : OneRegion c es w) (he : e.access.toList = [] ∨ ∃ a op, e = .issue a op)
    (hd : w'.serve.done = w.serve.done) : OneRegion c (es ++ [e]) w' := by
  have hex : executed (es ++ [e]) = executed es := by
    rw [executed_concat]
    rcases he with he | ⟨a, op, rfl⟩
    · rw [he]
      exact List.append_nil _
    · exact List.append_nil _
  exact ⟨hex ▸ h.turns, by rw [hd, hex, h.place]⟩

theorem OneRegion.run (hone : c.localRegions = 1) (h : OneRegion c es w) (hok : w.Ok c) (hs : w.serve = .run i j) :
    OneRegion c (es ++ [.execute (c.served i j) (w.localReqRegion (c.served i j))]) (w.run c i j) := by
  have hsize : c.localRegionSize = c.localWindow := by
    have := c.regions_mul_size
    rwa [hone, Nat.one_mul] at this
  have hj := (hok.running i j hs).1
  have hi := hok.lt_of_run hs
  obtain rfl : i = 0 := by omega
  have hplace : j = (executed es).length % c.localWindow := by
    have := h.place
    rwa [hs] at this
  have hslot : c.served 0 j = c.turn (executed es).length := by
    rw [c.served_eq hi, Nat.zero_mul, Nat.zero_add, hplace, Config.turn]
  constructor
  · rw [executed_concat, hslot]
    exact h.turns.snoc _
  · rw [executed_concat]
    simp only [Event.access, Option.toList_some, takes_take, List.length_append, List.length_singleton]
    rw [← c.modAdd_mod, ← hplace]
    dsimp only [Window.run, Config.modAdd]
    split
    next hlt => rw [if_neg (by omega)]; rfl
    next hlt => rw [if_pos (by omega)]; rfl

theorem OneRegion.step (hone : c.localRegions = 1) (h : OneRegion c es w) (hok : w.Ok c) (hst : w.Step c e w') :
    OneRegion c (es ++ [e]) w' := by
  cases hst with
  | fill =>
    refine h.keep (.inr ⟨_, _, rfl⟩) ?_
    unfold Window.fill
    split <;> rfl
  | look hs =>
    refine h.keep (.inl rfl) ?_
    rw [hs]
    dsimp only [Window.look]
    split <;> rfl
  | run hs => exact h.run hone hok hs
  | clear hs => exact h.keep (.inl rfl) (by rw [hs]; rfl)
  | _ => exact h.keep (.inl rfl) rfl

theorem inTurn_of_one_region (hone : c.localRegions = 1) (h : (system α c).Run w₀ es w) :
    InTurn c.turn (executed es) := by
  refine (h.invariant (fun es w => OneRegion c es w) OneRegion.init fun hr hI hst => ?_).turns
  exact hI.step hone (handed_of_run hr).ok hst

/-! ## The order -/

/-- The worker is never blocked. -/
theorem Window.worker_steps (c : Config) (w : Window α) : ∃ e w', w.Step c e w' ∧ e.isWorker = true := by
  cases hs : w.serve with
  | look i => exact ⟨_, _, .look hs, rfl⟩
  | run i j => exact ⟨_, _, .run hs, rfl⟩
  | clear i => exact ⟨_, _, .clear hs, rfl⟩

def Window.start (x : α) : Window α := ⟨fun _ => x, fun _ => false, 0, .idle, .look 0⟩

theorem Window.start_init (x : α) : (Window.start x).Init := ⟨rfl, rfl, rfl, rfl⟩

/-- The worker has passed region 0, and then the client issues the requests `f 0, …, f (n - 1)`. -/
structure Filled (c : Config) (f : ℕ → α) (n : ℕ) (es : List (Event α)) (w : Window α) : Prop where
  run : (system α c).Run (Window.start (f 0)) es w
  ws : w.ws = n % c.localWindow
  idle : w.issue = .idle
  serve : w.serve = .look 1
  flags : ∀ i, w.localRecvFlag i = decide (i < n / c.localRegionSize)
  slots : ∀ k < n, w.localReqRegion (c.slot k) = f k
  issued : issued es = (List.range n).map fun k => (c.slot k, f k)
  executed : executed es = []

theorem Filled.start (f : ℕ → α) (hR : 2 ≤ c.localRegions) :
    Filled c f 0 [.worker] ((Window.start (f 0)).look c 0) := by
  refine ⟨?_, by simp [Window.start, Window.look], rfl, ?_, by simp [Window.start, Window.look], by simp, rfl, rfl⟩
  · exact (Lts.Run.nil (Window.start_init _)).snoc (Window.Step.look rfl)
  · have hnext : c.nextRegion 0 = 1 := if_pos hR
    simp [Window.start, Window.look, hnext]

theorem Filled.succ {f : ℕ → α} {n : ℕ} (h : Filled c f n es w) (hn : n < c.localWindow) :
    ∃ es' w', Filled c f (n + 1) es' w' := by
  have hws : w.ws = n := h.ws.trans (Nat.mod_eq_of_lt hn)
  have hflag : w.localRecvFlag (c.locRegion w.ws) = false := by
    rw [hws, c.locRegion_eq hn, h.flags]
    simp
  have hrun := (h.run.snoc (Window.Step.check (f n) h.idle hflag)).snoc (Window.Step.fill rfl)
  have hmod : c.modAdd w.ws = (n + 1) % c.localWindow := by rw [h.ws, c.modAdd_mod]
  have hslots : ∀ k < n + 1, update w.localReqRegion (c.slot w.ws) (f n) (c.slot k) = f k := by
    intro k hk
    rw [hws, update_apply]
    split
    next he => rw [c.slot_inj he]
    next hne => exact h.slots k (Nat.lt_of_le_of_ne (Nat.le_of_lt_succ hk) fun he => hne (by rw [he]))
  have hiss : Local.issued (es ++ [Event.client] ++ [.issue (c.slot w.ws) (f n)]) =
      (List.range (n + 1)).map fun k => (c.slot k, f k) := by
    rw [issued_concat, issued_concat, h.issued, List.range_succ, List.map_append, hws]
    simp [Event.access, Handoff.puts]
  have hex : Local.executed (es ++ [Event.client] ++ [.issue (c.slot w.ws) (f n)]) = [] := by
    rw [executed_concat, executed_concat, h.executed]
    rfl
  by_cases hl : n % c.localRegionSize = c.localRegionSize - 1
  · have hl' : w.ws % c.localRegionSize = c.localRegionSize - 1 := by rw [hws, hl]
    rw [Window.fill, if_pos (by exact hl')] at hrun
    refine ⟨_, _, hrun.snoc (Window.Step.lock rfl), hmod, rfl, h.serve, fun i => ?_, hslots, ?_, ?_⟩
    · dsimp only [Window.lock]
      rw [hws, c.locRegion_eq hn, c.div_succ_of_last hl, update_apply, h.flags]
      split
      next hi => simp [hi]
      next hi =>
        rw [decide_eq_decide]
        omega
    · rw [issued_concat]
      exact (List.append_nil _).trans hiss
    · rw [executed_concat]
      exact (List.append_nil _).trans hex
  · have hl' : ¬ w.ws % c.localRegionSize = c.localRegionSize - 1 := by rwa [hws]
    rw [Window.fill, if_neg (by exact hl')] at hrun
    refine ⟨_, _, hrun, hmod, rfl, h.serve, fun i => ?_, hslots, hiss, hex⟩
    rw [(c.div_succ_of_ne hl).1]
    exact h.flags i

theorem exists_filled (f : ℕ → α) (hR : 2 ≤ c.localRegions) : ∀ n ≤ c.localWindow, ∃ es w, Filled c f n es w
  | 0, _ => ⟨_, _, .start f hR⟩
  | n + 1, hn => by
    obtain ⟨es, w, h⟩ := exists_filled f hR n (by omega)
    exact h.succ hn

/-- The worker finds region 0 empty; then the client fills regions 0 and 1, and the worker goes on
with region 1. -/
theorem exists_early (f : ℕ → α) (hR : 2 ≤ c.localRegions) :
    ∃ es w, (system α c).Run (Window.start (f 0)) es w ∧
      issued es = ((List.range (2 * c.localRegionSize)).map fun k => (c.slot k, f k)) ∧
      executed es = [(c.slot c.localRegionSize, f c.localRegionSize)] := by
  have hn : 2 * c.localRegionSize ≤ c.localWindow := by
    rw [← c.regions_mul_size]
    exact Nat.mul_le_mul_right _ hR
  obtain ⟨es, w, h⟩ := exists_filled f hR _ hn
  have hflag : w.localRecvFlag 1 = true := by
    rw [h.flags, Nat.mul_div_cancel _ c.size_pos]
    rfl
  have hlook : w.look c 1 = { w with serve := .run 1 0 } := by simp [Window.look, hflag]
  have hrun := h.run.snoc (Window.Step.look h.serve)
  rw [hlook] at hrun
  have hslot : c.served 1 0 = c.slot c.localRegionSize := by
    rw [c.served_eq hR, Nat.one_mul, Nat.add_zero]
  have hpos := c.size_pos
  refine ⟨_, _, hrun.snoc (Window.Step.run rfl), ?_, ?_⟩
  · rw [issued_concat, issued_concat, h.issued]
    exact (List.append_nil _).trans (List.append_nil _)
  · rw [executed_concat, executed_concat, h.executed, hslot]
    dsimp only
    rw [h.slots _ (by omega)]
    rfl

/-- No slot is filled again before its request was executed, a request is executed once, and those
of a complete region within `LOCAL_REGIONS * (LOCAL_REGION_SIZE + 2)` steps of the worker. They are
executed in the order of issue in exactly those runs in which the worker takes the slots in cyclic
order; these are all runs only with a single region. -/
theorem locals_handed_over (h : (system α c).Run w₀ es w) :
    (∀ a, ∃ o, Alternates (accesses a (trace es)) o) ∧
      (∃ e w', (system α c).step w e w' ∧ e.isWorker = true) ∧
      (∀ k < c.localWindow, w.localRecvFlag (k / c.localRegionSize) = true → ∀ x,
        Alternates (accesses (c.slot k) (trace es)) (some x) → ∀ ds w',
        ((system α c).startAt w).Run w ds w' → c.localRegions * (c.localRegionSize + 2) ≤ work ds →
        (c.slot k, x) ∈ executed ds) ∧
      (executed es <+: issued es ↔ InTurn c.turn (executed es)) ∧
      ((∀ v₀ ds v, (system α c).Run v₀ ds v → executed ds <+: issued ds) ↔ c.localRegions = 1) := by
  have hh := handed_of_run h
  refine ⟨hh.alternates, w.worker_steps c, fun k hk hf x hx ds w' hrun hwork => ?_, hh.executed_prefix_iff, ?_, ?_⟩
  · exact hh.executed_of_work hk hf hx hrun hwork
  · intro hall
    by_contra hone
    have hpos := c.regions_pos
    obtain ⟨ds, v, hrun, -, hex⟩ := exists_early (c := c) w₀.localReqRegion (by omega)
    have hturn := (handed_of_run hrun).executed_prefix_iff.1 (hall _ _ _ hrun)
    rw [hex] at hturn
    -- The first request executed would be that of slot 0.
    have hzero := c.slot_inj (hturn 0 _ rfl)
    rw [Nat.zero_mod] at hzero
    exact absurd hzero (Nat.ne_of_gt c.size_pos)
  · intro hone v₀ ds v hrun
    exact (handed_of_run hrun).executed_prefix_iff.2 (inTurn_of_one_region hone hrun)

/-- Two regions of one slot. -/
def twoSlots : Config := ⟨2, 2, 1, 0, 0, by decide, by decide, by decide, by decide, by decide⟩

/-- Both regions are filled, and then served. -/
theorem locals_handed_over_two : ∃ es w, (system ℕ twoSlots).Run (Window.start 0) es w ∧
    issued es = [(0, 7), (1, 8)] ∧ executed es = [(0, 7), (1, 8)] ∧ executed es <+: issued es := by
  have h0 := Lts.Run.nil (L := system ℕ twoSlots) (Window.start_init 0)
  have hfill := ((h0.snoc (Window.Step.check 7 rfl rfl)).snoc (Window.Step.fill rfl)).snoc (Window.Step.lock rfl)
  have hboth := ((hfill.snoc (Window.Step.check 8 rfl rfl)).snoc (Window.Step.fill rfl)).snoc (Window.Step.lock rfl)
  have hserve := ((hboth.snoc (Window.Step.look rfl)).snoc (Window.Step.run rfl)).snoc (Window.Step.clear rfl)
  have hrun := (hserve.snoc (Window.Step.look rfl)).snoc (Window.Step.run rfl)
  refine ⟨_, _, hrun, rfl, rfl, (locals_handed_over hrun).2.2.2.1.2 ?_⟩
  exact ((InTurn.nil twoSlots.turn).snoc 7).snoc 8

/-- The sizes of `main.h`, with client 0 and worker 0. -/
def shipped : Config := ⟨66, 3, 20, 0, 0, by decide, by decide, by decide, by decide, by decide⟩

/-- The second region is served before the first one: request 22 is executed before request 0. -/
theorem region_served_early : ∃ es w, (system ℕ shipped).Run (Window.start 0) es w ∧
    (issued es).map Prod.snd = List.range 44 ∧ (executed es).map Prod.snd = [22] ∧ ¬ executed es <+: issued es := by
  obtain ⟨es, w, hrun, hi, he⟩ := exists_early (c := shipped) id (by decide)
  refine ⟨es, w, hrun, ?_, ?_, ?_⟩
  · rw [hi]
    rfl
  · rw [he]
    rfl
  · rw [hi, he]
    decide

end

end CcKvs.Local
