/-
The three loops of a `cache_batch_op_*` function. The first two look up the
keys of the whole batch, and keep what they find in arrays on the stack that
nobody has initialised; the third executes the operations. The entries of a
slot that is skipped are never written, and never read.

A batch is the same as its operations one by one: a lookup reads the index
only, which no operation writes, and the key in the log is compared when the
operation's turn comes.
-/
import CcKvs.Cache.Memory

namespace CcKvs

open MicaKv Function

/-- The responses whose slots a function passes over. -/
def CacheFun.skips (enableWakeUp : Bool) (f : CacheFun) (t : RespType) : Bool :=
  t == .unservedMiss ||
    match f with
    | sc | scWithCacheOp => false
    | lin | linWithCacheOp | linWithSmallCacheOp => enableWakeUp && (t == .getStall || t == .putStall)

/-- `bkt`, `tag`, `key_in_store` and `kv_ptr`. -/
structure Lookups where
  bkt : ℕ → ℕ
  tag : ℕ → ℕ
  keyInStore : ℕ → Bool
  kvPtr : ℕ → Option ℕ

/-- `(*op)[I]` and `resp[I]`. -/
abbrev BatchSlot := CacheOp × MicaResp

/-- What comes back for a slot. `val_ptr` is left out: it points into the log, so what it shows
depends on when it is read. -/
structure Outcome where
  op : CacheOp
  type : RespType
  valLen : UInt8

def Outcome.of (op : CacheOp) (resp : MicaResp) : Outcome := ⟨op, resp.type, resp.valLen⟩

section

variable (skips : RespType → Bool) (body : Hit → Except Fault Hit)

/-- The first loop, from slot `i` on. -/
def MicaKv.locate (kv : MicaKv) : ℕ → List BatchSlot → Lookups → Lookups
  | _, [], a => a
  | i, x :: xs, a =>
    kv.locate (i + 1) xs <|
      if skips x.2.type then a
      else ⟨update a.bkt i (kv.bkt x.1.key), update a.tag i (keyTag x.1.key), update a.keyInStore i false, update a.kvPtr i none⟩

/-- The loop over the slots of a bucket; `ptr` is what `kv_ptr[I]` was. -/
def MicaKv.probe (kv : MicaKv) (bkt tag : ℕ) (ptr : Option ℕ) : Option ℕ :=
  match (List.finRange 8).find? fun j => (kv.htIndex bkt j).inUse && (kv.htIndex bkt j).tag == tag with
  | none => ptr
  | some j =>
    if kv.logCap ≤ sub64 kv.logHead (kv.htIndex bkt j).offset then none
    else some ((kv.htIndex bkt j).offset &&& kv.logMask)

/-- The second loop, from slot `i` on. -/
def MicaKv.probeAll (kv : MicaKv) : ℕ → List BatchSlot → Lookups → Lookups
  | _, [], a => a
  | i, x :: xs, a =>
    kv.probeAll (i + 1) xs <|
      if skips x.2.type then a
      else { a with kvPtr := update a.kvPtr i (kv.probe (a.bkt i) (a.tag i) (a.kvPtr i)) }

/-- One round of the third loop. -/
def MicaKv.execute (kv : MicaKv) (i : ℕ) (x : BatchSlot) (a : Lookups) : Except Fault (MicaKv × Outcome) :=
  if skips x.2.type then .ok (kv, .of x.1 x.2)
  else
    match kv.inStore x.1.key (a.kvPtr i) with
    | some p => do
      let h ← body ⟨kv.record p, x.1, x.2⟩
      .ok (kv.writeBack p h.kv, .of h.op h.resp)
    | none =>
      if a.keyInStore i then .ok (kv, .of x.1 x.2)
      else .ok (kv, ⟨x.1, .miss, 0⟩)

/-- The third loop, from slot `i` on. -/
def MicaKv.executeAll : ℕ → List BatchSlot → Lookups → MicaKv → Except Fault (MicaKv × List Outcome)
  | _, [], _, kv => .ok (kv, [])
  | i, x :: xs, a, kv => do
    let (kv, y) ← kv.execute skips body i x a
    let (kv, ys) ← executeAll (i + 1) xs a kv
    .ok (kv, y :: ys)

/-- A whole call; `a` is what the stack held. -/
def MicaKv.batchOp (kv : MicaKv) (a : Lookups) (xs : List BatchSlot) : Except Fault (MicaKv × List Outcome) :=
  executeAll skips body 0 xs (kv.probeAll skips 0 xs (kv.locate skips 0 xs a)) kv

/-- The operations in order, each in a call of its own. -/
def MicaKv.oneByOne (kv : MicaKv) : List (Lookups × BatchSlot) → Except Fault (MicaKv × List Outcome)
  | [] => .ok (kv, [])
  | (a, x) :: xs => do
    let (kv, y) ← kv.batchOp skips body a [x]
    let (kv, ys) ← kv.oneByOne xs
    .ok (kv, y ++ ys)

end

/-! ## Lookups -/

section

variable {skips : RespType → Bool} {body : Hit → Except Fault Hit} {kv kv' kv₀ : MicaKv} {i : ℕ} {x : BatchSlot}
  {xs : List BatchSlot} {a : Lookups}

theorem probe_none (kv : MicaKv) (key : UInt64) : kv.probe (kv.bkt key) (keyTag key) none = kv.lookup key := by
  unfold probe lookup slotOf slots
  cases (List.finRange 8).find? fun j => (kv.htIndex (kv.bkt key) j).inUse && (kv.htIndex (kv.bkt key) j).tag == keyTag key with
  | none => rfl
  | some j => rfl

/-- `P` holds of the index of every slot that is not skipped. -/
def Each (skips : RespType → Bool) (P : ℕ → BatchSlot → Prop) (i : ℕ) (xs : List BatchSlot) : Prop :=
  ∀ j x, xs[j]? = some x → skips x.2.type = false → P (i + j) x

theorem Each.head {P : ℕ → BatchSlot → Prop} (h : Each skips P i (x :: xs)) (hs : skips x.2.type = false) : P i x := h 0 x rfl hs

theorem Each.tail {P : ℕ → BatchSlot → Prop} (h : Each skips P i (x :: xs)) : Each skips P (i + 1) xs := by
  intro j y hj hs
  rw [Nat.add_assoc, Nat.add_comm 1 j]
  exact h (j + 1) y hj hs

theorem each_cons {P : ℕ → BatchSlot → Prop} (hx : skips x.2.type = false → P i x) (hxs : Each skips P (i + 1) xs) :
    Each skips P i (x :: xs) := by
  intro j y hj hs
  cases j with
  | zero =>
    cases hj
    exact hx hs
  | succ j =>
    rw [← Nat.add_assoc, Nat.add_right_comm]
    exact hxs j y hj hs

/-- The arrays are set up for the second loop. -/
def Located (kv : MicaKv) (a : Lookups) (i : ℕ) (x : BatchSlot) : Prop :=
  a.bkt i = kv.bkt x.1.key ∧ a.tag i = keyTag x.1.key ∧ a.keyInStore i = false ∧ a.kvPtr i = none

/-- The arrays hold what a lookup of the key gives. -/
def Found (kv : MicaKv) (a : Lookups) (i : ℕ) (x : BatchSlot) : Prop :=
  a.keyInStore i = false ∧ a.kvPtr i = kv.lookup x.1.key

/-- The loops write behind the slots they have passed. -/
theorem locate_of_lt (skips : RespType → Bool) (kv : MicaKv) (xs : List BatchSlot) (a : Lookups) {j : ℕ} (h : j < i) :
    (kv.locate skips i xs a).bkt j = a.bkt j ∧ (kv.locate skips i xs a).tag j = a.tag j ∧ (kv.locate skips i xs a).keyInStore j = a.keyInStore j ∧ (kv.locate skips i xs a).kvPtr j = a.kvPtr j := by
  induction xs generalizing i a with
  | nil => exact ⟨rfl, rfl, rfl, rfl⟩
  | cons x xs ih =>
    rw [MicaKv.locate]
    split
    · exact ih _ (by omega)
    · have hrest := ih (i := i + 1) ⟨update a.bkt i (kv.bkt x.1.key), update a.tag i (keyTag x.1.key),
        update a.keyInStore i false, update a.kvPtr i none⟩ (by omega)
      simp only [update_of_ne h.ne] at hrest
      exact hrest

theorem located (skips : RespType → Bool) (kv : MicaKv) (i : ℕ) (xs : List BatchSlot) (a : Lookups) :
    Each skips (Located kv (kv.locate skips i xs a)) i xs := by
  induction xs generalizing i a with
  | nil =>
    intro j x hj
    simp at hj
  | cons x xs ih =>
    rw [MicaKv.locate]
    refine each_cons ?_ (ih _ _)
    intro hs
    rw [if_neg (by simp [hs])]
    obtain ⟨hb, ht, hk, hp⟩ := locate_of_lt skips kv xs ⟨update a.bkt i (kv.bkt x.1.key), update a.tag i (keyTag x.1.key),
      update a.keyInStore i false, update a.kvPtr i none⟩ (Nat.lt_succ_self i)
    simp only [update_self] at hb ht hk hp
    exact ⟨hb, ht, hk, hp⟩

theorem probeAll_of_lt {j : ℕ} (h : j < i) : (kv.probeAll skips i xs a).kvPtr j = a.kvPtr j := by
  induction xs generalizing i a with
  | nil => rfl
  | cons x xs ih =>
    rw [MicaKv.probeAll, ih (by omega)]
    split
    · rfl
    · exact update_of_ne h.ne _ _

theorem probeAll_keyInStore : (kv.probeAll skips i xs a).keyInStore = a.keyInStore := by
  induction xs generalizing i a with
  | nil => rfl
  | cons x xs ih =>
    rw [MicaKv.probeAll, ih]
    split <;> rfl

theorem found_of_located (h : Each skips (Located kv a) i xs) : Each skips (Found kv (kv.probeAll skips i xs a)) i xs := by
  induction xs generalizing i a with
  | nil =>
    intro j x hj
    simp at hj
  | cons x xs ih =>
    rw [MicaKv.probeAll]
    refine each_cons ?_ (ih ?_)
    · intro hs
      obtain ⟨hb, ht, hk, hp⟩ := h.head hs
      rw [if_neg (by simp [hs])]
      refine ⟨?_, ?_⟩
      · rw [probeAll_keyInStore]
        exact hk
      · rw [probeAll_of_lt (Nat.lt_succ_self i)]
        dsimp only
        rw [update_self, hb, ht, hp, probe_none]
    · -- a slot's own entry is the only one its round writes
      intro j y hj hs
      obtain ⟨hb, ht, hk, hp⟩ := h.tail j y hj hs
      split
      · exact ⟨hb, ht, hk, hp⟩
      · refine ⟨hb, ht, hk, ?_⟩
        dsimp only
        rw [update_of_ne (by omega)]
        exact hp

theorem found (skips : RespType → Bool) (kv : MicaKv) (i : ℕ) (xs : List BatchSlot) (a : Lookups) :
    Each skips (Found kv (kv.probeAll skips i xs (kv.locate skips i xs a))) i xs := found_of_located (located skips kv i xs a)

/-! ## The third loop -/

/-- Index and bounds of the log stay, so every lookup does. -/
theorem execute_sameIndex {y : Outcome} (hok : kv.execute skips body i x a = .ok (kv', y)) : SameIndex kv kv' := by
  unfold execute at hok
  split at hok
  · cases hok
    exact ⟨rfl, rfl, rfl, rfl, rfl⟩
  · split at hok
    · obtain ⟨h, -, he⟩ := bind_eq_ok.1 hok
      cases he
      exact ⟨rfl, rfl, rfl, rfl, rfl⟩
    · split at hok
      · cases hok
        exact ⟨rfl, rfl, rfl, rfl, rfl⟩
      · cases hok
        exact ⟨rfl, rfl, rfl, rfl, rfl⟩

/-- A round depends on what was found for its own slot. -/
theorem execute_congr {b : Lookups} {j : ℕ} (ha : skips x.2.type = false → Found kv a i x)
    (hb : skips x.2.type = false → Found kv b j x) : kv.execute skips body i x a = kv.execute skips body j x b := by
  unfold execute
  split
  · rfl
  · next hs =>
    have hs' : skips x.2.type = false := by simpa using hs
    rw [(ha hs').1, (ha hs').2, (hb hs').1, (hb hs').2]

/-- A call with one operation. -/
theorem batchOp_singleton (b : Lookups) (ha : skips x.2.type = false → Found kv a i x) : kv.batchOp skips body b [x] =
    kv.execute skips body i x a >>= fun y => .ok (y.1, [y.2]) := by
  have hb := (found skips kv 0 [x] b).head
  rw [batchOp, executeAll, execute_congr ha hb]
  rfl

/-- A call with one operation is a round as the protocols have it. -/
theorem batchOp_eq_serveCache (f : CacheFun) (machineNum machineId : ℕ) (kv : MicaKv) (a : Lookups) (x : BatchSlot) :
    kv.batchOp (f.skips false) (f.body machineNum machineId) a [x] =
      kv.serveCache (f.body machineNum machineId) x.1 x.2 >>= fun y => .ok (y.1, [.of y.2.1 y.2.2]) := by
  have hskips (t : RespType) : f.skips false t = (t == .unservedMiss) := by cases f <;> simp [CacheFun.skips]
  have hfound := (found (f.skips false) kv 0 [x] a).head
  rw [batchOp_singleton a hfound, execute, serveCache, hskips]
  by_cases hu : x.2.type = .unservedMiss
  · rw [if_pos (by simp [hu]), if_pos hu]
    rfl
  · obtain ⟨hk, hp⟩ := hfound (by rw [hskips]; simp [hu])
    rw [if_neg (by simp [hu]), if_neg hu, hk, hp, show kv.inStore x.1.key (kv.lookup x.1.key) = kv.find x.1.key from rfl]
    cases hf : kv.find x.1.key with
    | none => rfl
    | some p =>
      cases hb : f.body machineNum machineId ⟨kv.record p, x.1, x.2⟩ with
      | error => simp [hb, bind, Except.bind]
      | ok h => simp [hb, bind, Except.bind]

theorem executeAll_eq {ys : List (Lookups × BatchSlot)} (hidx : SameIndex kv₀ kv)
    (h : Each skips (Found kv₀ a) i (ys.map Prod.snd)) :
    executeAll skips body i (ys.map Prod.snd) a kv = kv.oneByOne skips body ys := by
  induction ys generalizing i kv with
  | nil => rfl
  | cons y ys ih =>
    obtain ⟨b, x⟩ := y
    rw [List.map_cons] at h ⊢
    have hx : skips x.2.type = false → Found kv a i x := by
      intro hs
      obtain ⟨hk, hp⟩ := h.head hs
      exact ⟨hk, hp.trans (hidx.lookup x.1.key).symm⟩
    rw [executeAll, oneByOne, batchOp_singleton b hx]
    cases he : kv.execute skips body i x a with
    | error => rfl
    | ok z =>
      obtain ⟨kv₁, out⟩ := z
      have hrest := ih (hidx.trans (execute_sameIndex he)) h.tail
      show (executeAll skips body (i + 1) (ys.map Prod.snd) a kv₁ >>= _) = (kv₁.oneByOne skips body ys >>= _)
      rw [hrest]
      rfl

end

/-- **A batch is the same as its operations one by one**, whatever the stack holds in each call. -/
theorem cache_batch_transparent (enableWakeUp : Bool) (f : CacheFun) (machineNum machineId : ℕ) (kv : MicaKv) (a : Lookups)
    (xs : List (Lookups × BatchSlot)) :
    kv.batchOp (f.skips enableWakeUp) (f.body machineNum machineId) a (xs.map Prod.snd) =
      kv.oneByOne (f.skips enableWakeUp) (f.body machineNum machineId) xs :=
  executeAll_eq ⟨rfl, rfl, rfl, rfl, rfl⟩ (found _ kv 0 _ a)

end CcKvs
