/-
What a PUT or UPD leaves of the value, in the store and in the cache. Values
have `HERD_VALUE_SIZE` bytes and `val_len` counts them in units of
`1 << SHIFT_BITS`, but records are updated, and inserted by the concurrent
variant, with `val_len` as a number of bytes. Without big objects the unit is
a byte and the value is stored as a whole; with them, an eighth of it is.
-/
import CcKvs.Cache.Memory
import CcKvs.Mica.Index

namespace CcKvs

open MicaKv CircularLog

/-- `HERD_VALUE_SIZE >> SHIFT_BITS`, which every value has as its `val_len`. -/
def Config.valLen (cfg : Config) : UInt8 := .ofNat (cfg.herdValueSize >>> cfg.shiftBits)

/-- What `cache_populate_fixed_len` inserts for a key. `junk` is what its variable held before. -/
def populateOp (cfg : Config) (junk : Bytes) (key : UInt64) : Bytes :=
  ((((junk.write 0 CacheMeta.fresh.toBytes 8).write 8 (Bytes.le key.toNat) 8).write 16 (fun _ => 112) 1).write 17
    (fun _ => cfg.valLen) 1).write micaOpMetadata (fun _ => 97) (UInt8.ofNat cfg.herdValueSize).toNat

/-- The keys, in the order of the loop. -/
def cachePopulateFixedLen (cfg : Config) (junk : Bytes) (kv : MicaKv) (keys : List UInt64) : Except Fault MicaKv :=
  Insert.applyAll cfg kv (keys.map fun key => .one (populateOp cfg junk key))

inductive ValueCall
  | batch (ops : List Bytes)
  | cache (f : CacheFun) (op : CacheOp) (resp : MicaResp)

/-- `value` is what is stored for the key, all `HERD_VALUE_SIZE` bytes of it, and the other
records are as before. -/
structure Stored (cfg : Config) (kv kv' : MicaKv) (key : UInt64) (value : Bytes) : Prop where
  here : ∃ p, (kv'.record p).key = key ∧ Bytes.Agree cfg.herdValueSize (kv'.record p).value value
  found : ∀ p, kv'.find key = some p → Bytes.Agree cfg.herdValueSize (kv'.record p).value value
  others : ∀ y, kv'.Reaches y → (kv'.record (kv'.addr y)).key ≠ key → kv.Reaches y ∧ kv'.addr y = kv.addr y ∧
    Bytes.Agree (micaOpMetadata + cfg.herdValueSize) (kv'.htLog.drop (kv.addr y)) (kv.htLog.drop (kv.addr y))

section

variable (cfg : Config) (machineNum machineId : ℕ)

/-- Every successful PUT or UPD of the call stores its value. -/
def ValueCall.Stores (kv kv' : MicaKv) : ValueCall → Prop
  | batch ops => ∀ t ∈ (micaCrcw cfg (.ofNat machineId)).turns kv kv ops, (CacheOp.ofBytes t.2).opcode = .put →
      ∀ kv₁ op' r, (micaCrcw cfg (.ofNat machineId)).serve t.1 t.2 (kv.lookup (CacheOp.ofBytes t.2).key) = .ok (kv₁, op', r) →
        Stored cfg t.1 kv₁ (CacheOp.ofBytes t.2).key (CacheOp.ofBytes t.2).value
  | cache f op resp => ∀ op' resp', kv.serveCache (f.body machineNum machineId) op resp = .ok (kv', op', resp') →
      op.opcode = .put ∨ op.opcode = .upd → resp'.type = .putSuccess ∨ resp'.type = .updSuccess →
        Stored cfg kv kv' op.key op.value

/-- Calls on a populated store; a batch does not lap the record of one of its PUTs. -/
def values : Lts MicaKv ValueCall where
  init kv := ∃ index log numBkts k kv₀ junk keys, k ≤ 40 ∧ micaInit index log numBkts (2 ^ k) = .ok kv₀ ∧
    cachePopulateFixedLen cfg junk kv₀ keys = .ok kv
  step kv a kv' := match a with
    | .batch ops => (∀ op ∈ ops, Request cfg.valLen op) ∧ (KvCall.batch .crcw ops).FreshPuts cfg (.ofNat machineId) kv ∧
        ∃ ys, (micaCrcw cfg (.ofNat machineId)).batch kv ops = .ok (kv', ys)
    | .cache f op resp => ∃ op' resp', kv.serveCache (f.body machineNum machineId) op resp = .ok (kv', op', resp')

end

/-! ## The store a batch began with -/

section

variable {cfg : Config} {machineNum machineId : ℕ} {L mid : UInt8} {kv₀ kv kv' : MicaKv} {op op' : Bytes} {r : KvResp}
  {key : UInt64} {x y : ℕ × Fin 8}

/-- The records the batch began with stand until they are lapped, and no key of them is inserted
a second time before. -/
structure MicaKv.Current (L : UInt8) (kv₀ kv : MicaKv) : Prop extends Since kv₀ kv where
  kept : ∀ x, kv₀.Reaches x → Live kv₀.logCap kv.logHead (kv₀.slot x).offset → Kept L kv₀ x kv
  fresh : ∀ x y, kv₀.Reaches x → kv.Reaches y → kv₀.logHead ≤ (kv.slot y).offset →
    (kv.record (kv.addr y)).key = (kv₀.record (kv₀.addr x)).key → ¬ Live kv₀.logCap kv.logHead (kv₀.slot x).offset

theorem MicaKv.Current.refl (h : kv.Inv L) : Current L kv kv where
  cap := rfl
  mask := rfl
  head := Nat.le_refl _
  slots _ _ := .inl rfl
  kept x hx _ := ⟨rfl, h.valLen x hx⟩
  fresh x y _ hy hh := by
    have hb := h.below y hy.1
    have hm := micaOpMetadata_eq
    unfold recordLen at hb
    omega

/-- The records of a key: while the one the batch began with is not lapped, there is no other. -/
theorem MicaKv.Current.unique (hc : Current L kv₀ kv) (h₀ : kv₀.Inv L) (hx : kv₀.Reaches x)
    (hl : Live kv₀.logCap kv.logHead (kv₀.slot x).offset) (hy : kv.Reaches y)
    (hk : (kv.record (kv.addr y)).key = (kv.record (kv₀.addr x)).key) : kv.addr y = kv₀.addr x := by
  have hkx := (hc.kept x hx hl).key
  rcases hc.slots y hy.1 with he | hnew
  · have ha : kv.addr y = kv₀.addr y := by
      unfold addr
      rw [he, hc.cap]
    have hy₀ : kv₀.Reaches y := by
      have hlive := hy.2
      rw [he, hc.cap] at hlive
      exact ⟨he ▸ hy.1, hlive.of_le hc.head⟩
    have hly : Live kv₀.logCap kv.logHead (kv₀.slot y).offset := by
      have hlive := hy.2
      rwa [he, hc.cap] at hlive
    have hky := (hc.kept y hy₀ hly).key
    rw [ha] at hk ⊢
    have hfx := h₀.find_eq_some.2 ⟨x, hx, rfl, rfl⟩
    have hfy := h₀.find_eq_some.2 ⟨y, hy₀, rfl, hky.symm.trans (hk.trans hkx)⟩
    exact Option.some.inj (hfy.symm.trans hfx)
  · exact absurd hl (hc.fresh x y hx hy hnew (hk.trans hkx))

/-- One turn. -/
theorem MicaKv.Current.turn {v : Variant} (hc : Current L kv₀ kv) (h₀ : kv₀.Inv L) (h : kv.Inv L)
    (hL : L.toNat ≤ cfg.herdValueSize) (hop : Request L op)
    (hfresh : (CacheOp.ofBytes op).opcode = .put → kv₀.Keeps kv (CacheOp.ofBytes op).key)
    (hok : (v.backend cfg mid).serve kv op (kv₀.lookup (CacheOp.ofBytes op).key) = .ok (kv', op', r)) :
    kv'.Inv L ∧ Current L kv₀ kv' := by
  have hlaw : (v.backend cfg mid).Lawful := v.lawful
  have hf := hlaw.forward h.shape hok
  have hkept : ∀ x, kv₀.Reaches x → Live kv₀.logCap kv'.logHead (kv₀.slot x).offset → Kept L kv₀ x kv' :=
    fun x hx hl => (hlaw.kept h₀ hx hc.toForward (hc.kept x hx (hl.of_le hf.head)) hop hok hl).1
  rcases Variant.turn_cases h₀ h hc.toSince hop hfresh hok with ⟨-, hsame, -, hrec⟩ | ⟨hi, hv, ha⟩
  · refine ⟨hsame.inv h (fun y hy => (hrec y hy).1) (fun y hy => (hrec y hy).2), hc.toSince.sameIndex hsame, hkept,
      fun x y hx hy hh hk => ?_⟩
    have hr := hsame.reaches.1 hy
    rw [hsame.addr, (hrec y hr).1] at hk
    rw [hsame.slot] at hh
    rw [hsame.head]
    exact hc.fresh x y hx hr hh hk
  · rw [← v.insertOf_op op] at hv
    have t := (v.insertOf op).inserted h hL hv ha
    have hkey := (v.insertOf op).ofBytes_stored.1
    have hv' := (v.insertOf op).ofBytes_stored.2.trans hv
    rw [v.insertOf_op] at hkey
    refine ⟨t.inv h hv', hc.toSince.inserted t, hkept, fun x y hx hy hh hk hl => ?_⟩
    have hl' := hl.of_le hf.head
    by_cases he : y = kv.target (CacheOp.ofBytes (v.insertOf op).stored).key
    · -- the key would have been found
      subst he
      have hk' : (CacheOp.ofBytes op).key = (kv₀.record (kv₀.addr x)).key := hkey.symm.trans (t.same_self.key.symm.trans hk)
      have hin := (hc.kept x hx hl').inStore h₀ hx hk'
      rw [hi.2] at hin
      cases hin
    · rw [t.slot_ne y he] at hh
      rw [(t.same_ne h he hy).key] at hk
      exact hc.fresh x y hx (t.reaches_ne he hy) hh hk hl'

/-- All turns of a batch. -/
theorem MicaKv.Current.turns {v : Variant} {ops : List Bytes} {rs : List (KvResp × MicaKv)} (h₀ : kv₀.Inv L)
    (hL : L.toNat ≤ cfg.herdValueSize) (ht : Trace (v.backend cfg mid) kv₀.lookup kv ops rs kv') :
    kv.Inv L → Current L kv₀ kv → (∀ op ∈ ops, Request L op) →
    (∀ t ∈ (v.backend cfg mid).turns kv₀ kv ops, (CacheOp.ofBytes t.2).opcode = .put →
      kv₀.Keeps t.1 (CacheOp.ofBytes t.2).key) →
    kv'.Inv L ∧ ∀ t ∈ (v.backend cfg mid).turns kv₀ kv ops, t.2 ∈ ops ∧ t.1.Inv L ∧ Current L kv₀ t.1 := by
  induction ht with
  | nil =>
    intro h _ _ _
    exact ⟨h, by simp [Backend.turns]⟩
  | @cons kv op kv₁ op' r ops rs kv₂ hok _ ih =>
    intro h hc hops hfresh
    simp only [Backend.turns, hok] at hfresh ⊢
    obtain ⟨h₁, hc₁⟩ := hc.turn h₀ h hL (hops op List.mem_cons_self) (hfresh _ List.mem_cons_self) hok
    obtain ⟨h₂, hrest⟩ := ih h₁ hc₁ (fun o ho => hops o (List.mem_cons_of_mem _ ho))
      (fun t ht => hfresh t (List.mem_cons_of_mem _ ht))
    refine ⟨h₂, fun t ht => ?_⟩
    rcases List.mem_cons.1 ht with rfl | ht
    · exact ⟨List.mem_cons_self, h, hc⟩
    · exact ⟨List.mem_cons_of_mem _ (hrest t ht).1, (hrest t ht).2⟩

/-! ## One write -/

/-- A value written in place, at an address that was looked up when the batch began. -/
theorem Stored.in_place (hL : L.toNat = cfg.herdValueSize) (h₀ : kv₀.Inv L) (h : kv.Inv L) (hc : Current L kv₀ kv)
    (hx : kv₀.Reaches x) (hl : Live kv₀.logCap kv.logHead (kv₀.slot x).offset)
    (hk : (kv.record (kv₀.addr x)).key = key) (u : Updated L kv op (kv₀.addr x) kv') :
    Stored cfg kv kv' key (op.drop micaOpMetadata) := by
  have hsame : ∀ y, kv.Reaches y → (kv'.record (kv.addr y)).key = (kv.record (kv.addr y)).key := by
    intro y hy
    rcases hc.apart h₀ h hx hl hy with ha | ha
    · rw [ha]
      exact u.key
    · exact (CacheOp.same_of_agree (u.frame _ ha)).key
  have hval : Bytes.Agree cfg.herdValueSize (kv'.record (kv₀.addr x)).value (op.drop micaOpMetadata) := hL ▸ u.value
  refine ⟨⟨_, u.key.trans hk, hval⟩, fun p hp => ?_, fun y hy hne => ?_⟩
  · obtain ⟨hlook, hpk⟩ := Option.filter_eq_some_iff.1 hp
    rw [u.lookup] at hlook
    obtain ⟨j, hy, -, rfl⟩ := h.lookup_eq_some.1 hlook
    rw [beq_iff_eq, hsame _ hy] at hpk
    rw [hc.unique h₀ hx hl hy (hpk.trans hk.symm)]
    exact hval
  · have hr := u.reaches.1 hy
    rw [u.addr, hsame y hr] at hne
    refine ⟨hr, u.addr y, ?_⟩
    rcases hc.apart h₀ h hx hl hr with ha | ha
    · rw [ha] at hne
      exact absurd hk hne
    · have hframe := u.frame _ ha
      rwa [recordLen, hL] at hframe

/-- A value inserted with its key. -/
theorem Stored.inserted {i : Insert} (hL : L.toNat = cfg.herdValueSize) (h : kv.Inv L)
    (hv : (CacheOp.ofBytes i.op).valLen = L) (hok : i.apply cfg kv = .ok kv') :
    Stored cfg kv kv' (CacheOp.ofBytes i.op).key (CacheOp.ofBytes i.op).value := by
  have t := i.inserted h hL.le hv hok
  have hk := i.ofBytes_stored.1
  have h' := t.inv h (i.ofBytes_stored.2.trans hv)
  have hsv : (CacheOp.ofBytes i.stored).value = (CacheOp.ofBytes i.op).value := by
    cases i with
    | one op => rfl
    | crcw op => simp only [Insert.stored, Insert.op, ofBytes_write_meta]
  have hval : Bytes.Agree cfg.herdValueSize (kv'.record (kv'.addr (kv.target (CacheOp.ofBytes i.stored).key))).value
      (CacheOp.ofBytes i.op).value := by
    rw [← hsv, ← hL]
    exact t.same_self.value
  refine ⟨⟨_, t.same_self.key.trans hk, hval⟩, fun p hp => ?_, fun y hy hne => ?_⟩
  · -- the slot that is found is the one the insert has taken
    obtain ⟨hlook, -⟩ := Option.filter_eq_some_iff.1 hp
    obtain ⟨j, hy, ht, rfl⟩ := h'.lookup_eq_some.1 hlook
    have hj := h'.slotOf_eq hy.1 ht
    rw [h.slotOf_inserted hL.le hv hok] at hj
    have he : (kv'.bkt (CacheOp.ofBytes i.op).key, j) = kv.target (CacheOp.ofBytes i.stored).key := by
      rw [hk]
      exact Prod.ext (t.bkt _) (Option.some.inj hj).symm
    rw [he]
    exact hval
  · have he : y ≠ kv.target (CacheOp.ofBytes i.stored).key := by
      rintro rfl
      exact hne (t.same_self.key.trans hk)
    have hr := t.reaches_ne he hy
    refine ⟨hr, t.addr_ne he, ?_⟩
    have hlive := hy.2
    rw [t.slot_ne y he, t.cap] at hlive
    have hframe := t.frame _ hlive (h.below y hr.1)
    rwa [recordLen, hL] at hframe

/-- A PUT that gets its turn in a batch. -/
theorem Stored.turn (hL : L.toNat = cfg.herdValueSize) (h₀ : kv₀.Inv L) (h : kv.Inv L) (hc : Current L kv₀ kv)
    (hop : Request L op) (hput : (CacheOp.ofBytes op).opcode = .put) (hkeep : kv₀.Keeps kv (CacheOp.ofBytes op).key)
    (hok : (micaCrcw cfg mid).serve kv op (kv₀.lookup (CacheOp.ofBytes op).key) = .ok (kv', op', r)) :
    Stored cfg kv kv' (CacheOp.ofBytes op).key (CacheOp.ofBytes op).value := by
  have hv : (CacheOp.ofBytes op).valLen = L := by
    rcases hop with hg | ⟨-, hv⟩
    · rw [hput] at hg
      cases hg
    · exact hv
  rcases Backend.serve_cases hok with ⟨p, _, hg, _⟩ | ⟨p, hp, _, hl, hst, _⟩ | ⟨_, hg, _⟩ | ⟨_, _, hst, _⟩
  · rw [hput] at hg
    cases hg
  · obtain ⟨hlook, hpk⟩ := Option.filter_eq_some_iff.1 hp
    obtain ⟨j, hx, -, rfl⟩ := h₀.lookup_eq_some.1 hlook
    have u := (micaCrcw_lawful cfg mid).put hst
    rw [← hl, hv] at u
    exact .in_place hL h₀ h hc hx (hkeep _ hx hlook) (beq_iff_eq.1 hpk) u
  · rw [hput] at hg
    cases hg
  · have ha : (Insert.crcw op).apply cfg kv = .ok kv' := bind_eq_ok.2 ⟨_, hst, rfl⟩
    exact Stored.inserted (i := .crcw op) hL h hv ha

/-- A PUT or UPD that succeeds in the cache. -/
theorem Stored.served {f : CacheFun} {p : ℕ} {c : CacheOp} {resp : MicaResp} {hit : Hit} (hL : L.toNat = cfg.herdValueSize)
    (h : kv.Inv L) (hp : kv.find c.key = some p) (hb : f.body machineNum machineId ⟨kv.record p, c, resp⟩ = .ok hit)
    (hop : c.opcode = .put ∨ c.opcode = .upd) (ht : hit.resp.type = .putSuccess ∨ hit.resp.type = .updSuccess) :
    Stored cfg kv (kv.writeBack p hit.kv) c.key c.value := by
  have hserved := f.served hb
  have hw : Hit.Writes ⟨kv.record p, c, resp⟩ hit := by
    rcases hserved with hw | ⟨-, hno⟩
    · exact hw
    · exact absurd ht (not_or.2 (hno hop))
  obtain ⟨x, hx, rfl, u⟩ := h.updated_of_hit hp hserved rfl
  obtain ⟨-, -, -, hk⟩ := h.find_eq_some.1 hp
  have hst := Stored.in_place hL h h (.refl h) hx hx.2 hk u
  -- the value written back is the operation's, as far as it goes
  have hval : Bytes.Agree cfg.herdValueSize (Bytes.drop (fun i => hit.kv.value (i - micaOpMetadata)) micaOpMetadata) c.value := by
    intro i hi
    obtain ⟨m, -, he⟩ := hw
    have hlt : i < (kv.record (kv.addr x)).valLen.toNat := by
      rw [h.valLen x hx, hL]
      exact hi
    rw [Bytes.drop, Nat.add_sub_cancel_left, he, CacheOp.setMeta_value]
    exact Bytes.memcpy_of_lt hlt
  obtain ⟨q, hqk, hq⟩ := hst.here
  exact ⟨⟨q, hqk, hq.trans hval⟩, fun p hp => (hst.found p hp).trans hval, hst.others⟩

/-! ## Runs -/

theorem Config.valLen_le (cfg : Config) : cfg.valLen.toNat ≤ cfg.herdValueSize := by
  have hshift : cfg.herdValueSize >>> cfg.shiftBits ≤ cfg.herdValueSize := by
    rw [Nat.shiftRight_eq_div_pow]
    exact Nat.div_le_self _ _
  rw [valLen, UInt8.toNat_ofNat']
  exact (Nat.mod_le _ _).trans hshift

theorem valLen_populateOp (cfg : Config) (junk : Bytes) (key : UInt64) : (CacheOp.ofBytes (populateOp cfg junk key)).valLen = cfg.valLen := by
  have h17 : ¬ (micaOpMetadata ≤ 17 ∧ 17 < micaOpMetadata + (UInt8.ofNat cfg.herdValueSize).toNat) := by
    rw [micaOpMetadata_eq]
    omega
  show populateOp cfg junk key 17 = _
  rw [populateOp, Bytes.write, if_neg h17]
  rfl

theorem inv_populate {junk : Bytes} {keys : List UInt64} : ∀ {kv}, kv.Inv cfg.valLen →
    cachePopulateFixedLen cfg junk kv keys = .ok kv' → kv'.Inv cfg.valLen := by
  unfold cachePopulateFixedLen
  induction keys with
  | nil =>
    intro kv h hok
    cases hok
    exact h
  | cons key keys ih =>
    intro kv h hok
    obtain ⟨kv₁, h₁, hok⟩ := bind_eq_ok.1 hok
    have hv := valLen_populateOp cfg junk key
    have t := Insert.inserted (i := .one (populateOp cfg junk key)) h cfg.valLen_le hv h₁
    exact ih (t.inv h hv) hok

theorem inv_of_step {a : ValueCall} (h : kv.Inv cfg.valLen) (hst : (values cfg machineNum machineId).step kv a kv') :
    kv'.Inv cfg.valLen := by
  cases a with
  | batch ops =>
    obtain ⟨hops, hfresh, ys, hb⟩ := hst
    obtain ⟨rs, ht, -⟩ := serveAll_eq_ok hb
    exact (Current.turns (v := .crcw) h cfg.valLen_le ht h (.refl h) hops hfresh).1
  | cache f op resp =>
    obtain ⟨op', resp', hok⟩ := hst
    exact (h.serveCache hok).1

theorem inv_of_values_run {as : List ValueCall} (hrun : (values cfg machineNum machineId).Run kv₀ as kv) :
    kv.Inv cfg.valLen := by
  refine hrun.invariant (fun _ kv => kv.Inv cfg.valLen) ?_ fun _ ih hst => inv_of_step ih hst
  rintro ⟨index, log, numBkts, k, kv₁, junk, keys, hk, hinit, hpop⟩
  exact inv_populate (inv_init _ rfl hk hinit) hpop

/-- Without big objects every write of every run stores its value. -/
theorem stores_of_small {as : List ValueCall} {a : ValueCall} (hL : cfg.valLen.toNat = cfg.herdValueSize)
    (hrun : (values cfg machineNum machineId).Run kv₀ as kv) (hst : (values cfg machineNum machineId).step kv a kv') :
    a.Stores cfg machineNum machineId kv kv' := by
  have h := inv_of_values_run hrun
  cases a with
  | batch ops =>
    obtain ⟨hops, hfresh, ys, hb⟩ := hst
    obtain ⟨rs, ht, -⟩ := serveAll_eq_ok hb
    have hturns := (Current.turns (v := .crcw) h cfg.valLen_le ht h (.refl h) hops hfresh).2
    intro t hmem hput kv₁ op' r hok
    obtain ⟨hop, hi, hc⟩ := hturns t hmem
    exact .turn hL h hi hc (hops _ hop) hput (hfresh t hmem hput) hok
  | cache f op resp =>
    intro op' resp' hok hop ht
    rcases serveCache_eq_ok hok with ⟨-, -, ⟨rfl, hs⟩ | ⟨rfl, -, -⟩⟩ | ⟨p, g, -, hp, hb, rfl, rfl, rfl⟩
    · rw [hs] at ht
      simp at ht
    · simp at ht
    · exact .served hL h hp hb hop ht

/-! ## Big objects -/

/-- An UPD of key 0 with bytes 98. -/
def updOfBs (cfg : Config) : CacheOp := ⟨⟨.valid, 0, 0, 0, 2⟩, 0, .upd, cfg.valLen, fun _ => 98⟩

/-- A cache with the one key 0, before and after that UPD. -/
def populateAndUpd (cfg : Config) : Except Fault (MicaKv × MicaKv × CacheOp × MicaResp) := do
  let kv ← cachePopulateFixedLen cfg (fun _ => 97) (freshKv 65536) [0]
  let x ← kv.serveCache scWithCacheOp (updOfBs cfg) ⟨.empty, 0, none⟩
  .ok (kv, x)

theorem populateAndUpd_eq_ok {op' : CacheOp} {resp' : MicaResp} (hok : populateAndUpd cfg = .ok (kv, kv', op', resp')) :
    (values cfg 2 0).Run kv [] kv ∧
      kv.serveCache scWithCacheOp (updOfBs cfg) ⟨.empty, 0, none⟩ = .ok (kv', op', resp') := by
  obtain ⟨kv₁, hpop, hok⟩ := bind_eq_ok.1 hok
  obtain ⟨x, hupd, hok⟩ := bind_eq_ok.1 hok
  cases hok
  exact ⟨.nil ⟨_, _, 8, 16, freshKv 65536, _, _, by omega, micaInit_freshKv 65536, hpop⟩, hupd⟩

/-- The UPD succeeds, and the first byte behind the first `val_len` is an `a` as before. -/
def leavesTail (cfg : Config) : Bool :=
  (populateAndUpd cfg).toOption.map (fun x => (x.2.2.2.type,
    (x.2.1.find 0).map fun p => (x.2.1.record p).value cfg.valLen.toNat)) == some (.updSuccess, some 97)

theorem leavesTail_big : ∀ e < 32, leavesTail ⟨true, e⟩ = true := by decide +kernel

theorem not_stores_of_leavesTail (hlt : cfg.valLen.toNat < cfg.herdValueSize) (ht : leavesTail cfg = true) :
    ∃ kv₀ kv', (values cfg 2 0).Run kv₀ [] kv₀ ∧
      (values cfg 2 0).step kv₀ (.cache .scWithCacheOp (updOfBs cfg) ⟨.empty, 0, none⟩) kv' ∧
      ¬ (ValueCall.cache .scWithCacheOp (updOfBs cfg) ⟨.empty, 0, none⟩).Stores cfg 2 0 kv₀ kv' := by
  obtain ⟨⟨kv, kv', op', resp'⟩, hok, he⟩ := exists_ok_of_map (beq_iff_eq.1 ht)
  obtain ⟨hrun, hupd⟩ := populateAndUpd_eq_ok hok
  obtain ⟨htype, hfind⟩ := Prod.mk.inj he
  obtain ⟨p, hp, hbyte⟩ := Option.map_eq_some_iff.1 hfind
  refine ⟨kv, kv', hrun, ⟨op', resp', hupd⟩, fun hst => ?_⟩
  have hagree := (hst op' resp' hupd (.inr rfl) (.inr htype)).found p hp cfg.valLen.toNat hlt
  rw [hbyte] at hagree
  exact absurd hagree (show (97 : UInt8) ≠ 98 by decide)

end

/-- **Whole values are stored exactly without big objects.** -/
theorem whole_value_stored_iff (cfg : Config) (hfit : cfg.herdValueSize >>> cfg.shiftBits < 2 ^ 8) :
    (∀ machineNum machineId kv₀ as kv a kv', (values cfg machineNum machineId).Run kv₀ as kv →
      (values cfg machineNum machineId).step kv a kv' → a.Stores cfg machineNum machineId kv kv') ↔
    cfg.useBigObjects = false := by
  constructor
  · intro hall
    obtain ⟨big, e⟩ := cfg
    cases big with
    | false => rfl
    | true =>
      simp only [Config.herdValueSize, Config.shiftBits, if_true, baseValueSize, Nat.shiftRight_eq_div_pow] at hfit
      have hlt : (Config.valLen ⟨true, e⟩).toNat < (Config.herdValueSize ⟨true, e⟩) := by
        simp only [Config.valLen, Config.herdValueSize, Config.shiftBits, if_true, baseValueSize, UInt8.toNat_ofNat',
          Nat.shiftRight_eq_div_pow]
        omega
      obtain ⟨kv₀, kv', hrun, hst, hno⟩ := not_stores_of_leavesTail hlt (leavesTail_big e (by omega))
      exact absurd (hall 2 0 kv₀ [] kv₀ _ kv' hrun hst) hno
  · intro hsmall machineNum machineId kv₀ as kv a kv' hrun hst
    have hL : cfg.valLen.toNat = cfg.herdValueSize := by
      simp [Config.valLen, Config.herdValueSize, Config.shiftBits, hsmall, baseValueSize]
    exact stores_of_small hL hrun hst

/-- With one extra cache line an UPD stores twelve bytes of ninety-six. -/
theorem big_value_cut : ∃ kv₀ kv' op' resp', (values ⟨true, 1⟩ 2 0).Run kv₀ [] kv₀ ∧
    kv₀.serveCache scWithCacheOp (updOfBs ⟨true, 1⟩) ⟨.empty, 0, none⟩ = .ok (kv', op', resp') ∧ resp'.type = .updSuccess ∧
    (kv'.find 0).map (fun p => (kv'.record p).value.toList 96) = some (List.replicate 12 98 ++ List.replicate 84 97) := by
  obtain ⟨⟨kv, kv', op', resp'⟩, hok, he⟩ := exists_ok_of_map (show (populateAndUpd ⟨true, 1⟩).toOption.map
    (fun x => (x.2.2.2.type, (x.2.1.find 0).map fun p => (x.2.1.record p).value.toList 96)) =
      some (.updSuccess, some (List.replicate 12 98 ++ List.replicate 84 97)) by decide +kernel)
  obtain ⟨hrun, hupd⟩ := populateAndUpd_eq_ok hok
  obtain ⟨htype, hfind⟩ := Prod.mk.inj he
  exact ⟨kv, kv', op', resp', hrun, hupd, htype, hfind⟩

theorem whole_value_stored_shipped : (Config.shipped.herdValueSize >>> Config.shipped.shiftBits < 2 ^ 8) ∧
    ∀ machineNum machineId kv₀ as kv a kv', (values .shipped machineNum machineId).Run kv₀ as kv →
      (values .shipped machineNum machineId).step kv a kv' → a.Stores .shipped machineNum machineId kv kv' :=
  ⟨by decide, (whole_value_stored_iff .shipped (by decide)).2 rfl⟩

end CcKvs
