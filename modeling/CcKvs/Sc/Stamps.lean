/-
Stamps over runs of any length. A PUT adds two to the version, a counter of 32
bits that `optik_is_greater_version` compares as a number, so the stamp grows
with every PUT but the one that finds the last even version: that one starts
again at 0, below every stamp handed out before, and no replica accepts it.
-/
import CcKvs.Sc.Consistency

namespace CcKvs

/-- `new` is greater in the order of `optik_is_greater_version`, which is asked under the lock. -/
def CacheMeta.Supersedes (new old : CacheMeta) : Prop :=
  ∃ ol, optikLock old = .ok ol ∧ optikIsGreaterVersion ol new = true

theorem CacheMeta.Idle.supersedes_iff {new old : CacheMeta} (ho : old.Idle) (hn : new.Idle) :
    new.Supersedes old ↔ stamp old.version old.cid.toNat < stamp new.version new.cid.toNat := by
  simp only [Supersedes, ho.lock, Except.ok.injEq, exists_eq_left']
  exact ho.greater hn.even

/-- Only version and `cid` are compared. -/
theorem CacheMeta.Supersedes.congr {new new' old : CacheMeta} (hv : new.version = new'.version)
    (hc : new.cid = new'.cid) : new.Supersedes old ↔ new'.Supersedes old := by
  simp only [Supersedes, optikIsGreaterVersion, hv, hc]

/-- Two more is more, except behind the last even version. -/
theorem lt_add_two_iff {v : UInt32} (h : v % 2 = 0) : v.toNat < (v + 1 + 1).toNat ↔ v ≠ 4294967294 := by
  have h1 := toNat_add_one_of_even h
  have h2 := even_toNat.1 h
  have hlt := v.toNat_lt
  rw [UInt32.toNat_add, h1, ne_eq, ← UInt32.toNat_inj]
  simp only [UInt32.reduceToNat]
  omega

namespace Sc

variable {N : ℕ} {valLen : UInt8} {s₀ s s' : Sys N} {e : Event N valLen.toNat} {es : List (Event N valLen.toNat)}

/-- All runs of the protocol on `N` machines. -/
def allRuns (N : ℕ) (valLen : UInt8) : Lts (Sys N) (Event N valLen.toNat) := ⟨Init valLen, Step valLen.toNat⟩

/-- What holds between operations: records are unlocked and even, and so are the updates. -/
structure Tidy (valLen : UInt8) (s : Sys N) : Prop where
  idle : ∀ m k kv, s.cache m k = some kv → kv.keyMeta.Idle
  len : ∀ m k kv, s.cache m k = some kv → kv.valLen = valLen
  even : ∀ x ∈ s.net, x.2.keyMeta.version % 2 = 0

theorem Tidy.init (h : Init valLen s) : Tidy valLen s where
  idle m k kv hk := ⟨h.lock m k kv hk, by rw [h.version m k kv hk]; rfl⟩
  len := h.len
  even x hx := by simp [h.net] at hx

/-- One machine's cache with one record replaced. -/
theorem Tidy.set (h : Tidy valLen s) {m : Fin N} {k : UInt64} {kv : CacheOp} (hi : kv.keyMeta.Idle)
    (hl : kv.valLen = valLen) {net : Multiset (Fin N × CacheOp)} (hn : ∀ x ∈ net, x.2.keyMeta.version % 2 = 0) :
    Tidy valLen ⟨Function.update s.cache m (Function.update (s.cache m) k (some kv)), net⟩ := by
  have hnew : ∀ m' k' x, Function.update s.cache m (Function.update (s.cache m) k (some kv)) m' k' = some x →
      x = kv ∨ s.cache m' k' = some x := by
    intro m' k' x hx
    simp only [Function.update_apply] at hx
    split at hx
    · next hm =>
      simp only [Function.update_apply] at hx
      split at hx
      · exact .inl (Option.some.inj hx).symm
      · exact .inr (hm ▸ hx)
    · exact .inr hx
  refine ⟨fun m' k' x hx => ?_, fun m' k' x hx => ?_, hn⟩
  · rcases hnew m' k' x hx with rfl | hx
    · exact hi
    · exact h.idle m' k' x hx
  · rcases hnew m' k' x hx with rfl | hx
    · exact hl
    · exact h.len m' k' x hx

theorem Tidy.unchanged (h : Tidy valLen s) {m : Fin N} {net : Multiset (Fin N × CacheOp)}
    (hn : ∀ x ∈ net, x.2.keyMeta.version % 2 = 0) : Tidy valLen ⟨Function.update s.cache m (s.cache m), net⟩ := by
  rw [Function.update_eq_self]
  exact ⟨h.idle, h.len, hn⟩

theorem mem_toOthers_version {m : Fin N} {op : CacheOp} {x : Fin N × CacheOp} (hx : x ∈ toOthers m op) :
    x.2.keyMeta = op.keyMeta := by
  simp only [toOthers, Multiset.mem_map] at hx
  obtain ⟨d, -, rfl⟩ := hx
  rfl

/-- A client's GET or PUT of a cached key. -/
theorem sc_idle {m : ℕ} {h h' : Hit} (hi : h.kv.keyMeta.Idle) (hop : h.op.opcode = .get ∨ h.op.opcode = .put)
    (hok : sc m h = .ok h') :
    h'.kv.keyMeta.Idle ∧ h'.kv.valLen = h.kv.valLen ∧
    (h'.resp.type = .putSuccess → h'.op.keyMeta.version % 2 = 0) := by
  rcases hop with hop | hop
  · simp only [sc, hop, scGet_idle hi, Except.ok.injEq] at hok
    subst hok
    exact ⟨hi, rfl, by simp [Hit.found]⟩
  · simp only [sc, hop] at hok
    obtain ⟨-, hkv, ho, -⟩ := scPut_idle hi hok
    rw [hkv, ho]
    exact ⟨hi.restamp (even_add_two hi.even) _, rfl, fun _ => even_add_two hi.even⟩

theorem scWithCacheOp_idle {h h' : Hit} (hi : h.kv.keyMeta.Idle) (he : h.op.keyMeta.version % 2 = 0)
    (hok : scWithCacheOp h = .ok h') : h'.kv.keyMeta.Idle ∧ h'.kv.valLen = h.kv.valLen := by
  simp only [scWithCacheOp] at hok
  split at hok
  · rcases scUpd_idle hi he hok with ⟨-, hkv⟩ | ⟨-, hkv⟩
    · rw [hkv]
      exact ⟨hi.restamp he _, rfl⟩
    · rw [hkv]
      exact ⟨hi, rfl⟩
  · cases hok
    exact ⟨hi, rfl⟩
  · cases hok

theorem Tidy.step (h : Tidy valLen s) (hst : Step valLen.toNat s e s') : Tidy valLen s' := by
  cases hst with
  | client m op op' resp resp' cache' hop hok =>
    rcases Cache.serve_ok hok with ⟨rfl, rfl, hr⟩ | ⟨kv, x, hk, hb, rfl, rfl, rfl⟩
    · have hne : resp'.type ≠ .putSuccess := by
        rcases hr with ⟨rfl, hr⟩ | hr <;> simp [hr]
      rw [if_neg hne]
      exact h.unchanged h.even
    · obtain ⟨hi, hl, hv⟩ := sc_idle (h.idle m _ kv hk) hop hb
      refine h.set hi (hl.trans (h.len m _ kv hk)) fun y hy => ?_
      split at hy
      · next hp =>
        rcases Multiset.mem_add.1 hy with hy | hy
        · rw [mem_toOthers_version hy]
          exact hv hp
        · exact h.even y hy
      · exact h.even y hy
  | update d op op' resp resp' cache' r hn hr hok =>
    have hrest : ∀ x ∈ r, x.2.keyMeta.version % 2 = 0 := fun x hx => h.even x (by rw [hn]; exact Multiset.mem_cons_of_mem hx)
    have hop : op.keyMeta.version % 2 = 0 := h.even (d, op) (by simp [hn])
    rcases Cache.serve_ok hok with ⟨rfl, rfl, -⟩ | ⟨kv, x, hk, hb, rfl, rfl, rfl⟩
    · exact h.unchanged hrest
    · obtain ⟨hi, hl⟩ := scWithCacheOp_idle (h.idle d _ kv hk) hop hb
      exact h.set hi (hl.trans (h.len d _ kv hk)) hrest

theorem tidy_of_run (h : (allRuns N valLen).Run s₀ es s) : Tidy valLen s :=
  h.invariant (fun _ s => Tidy valLen s) Tidy.init fun _ ht hst => ht.step hst

/-- A PUT of a cached key gives the record, and the update, two more than the old version. -/
theorem put_eq_ok {m : ℕ} {cache cache' : Cache} {op op' : CacheOp} {resp resp' : MicaResp}
    (hidle : ∀ kv, cache op.key = some kv → kv.keyMeta.Idle) (hop : op.opcode = .put)
    (hok : cache.serve (sc m) op resp = .ok (cache', op', resp')) (hs : resp'.type = .putSuccess) :
    ∃ kv kv', cache op.key = some kv ∧ cache' op.key = some kv' ∧ op.valLen = kv.valLen ∧
      kv'.keyMeta = kv.keyMeta.restamp (kv.keyMeta.version + 1 + 1) (.ofNat m) ∧
      op'.keyMeta.version = kv'.keyMeta.version ∧ op'.keyMeta.cid = kv'.keyMeta.cid ∧ op'.key = op.key ∧
      op'.valLen = op.valLen := by
  rcases Cache.serve_ok hok with ⟨-, -, hr⟩ | ⟨kv, x, hk, hb, rfl, rfl, rfl⟩
  · rcases hr with ⟨rfl, hr⟩ | hr
    · rw [hr] at hs
      cases hs
    · rw [hr] at hs
      cases hs
  · simp only [sc, hop] at hb
    obtain ⟨hl, hkv, ho, -⟩ := scPut_idle (hidle kv hk) hb
    exact ⟨kv, x.kv, hk, Function.update_self .., hl, by rw [hkv]; rfl, by rw [hkv, ho]; rfl, by rw [hkv, ho]; rfl,
      by rw [ho]; rfl, by rw [ho]; rfl⟩

/-- An update with a greater stamp is accepted. -/
theorem scUpd_accepts {x op : CacheOp} {r : MicaResp} (he : op.keyMeta.version % 2 = 0)
    (hl : op.valLen = x.valLen) (hg : op.keyMeta.Supersedes x.keyMeta) :
    ∃ h, scUpd ⟨x, op, r⟩ = .ok h ∧ h.resp.type = .updSuccess := by
  obtain ⟨ol, hlock, hgr⟩ := hg
  have ha : (⟨x, op, r⟩ : Hit).assertValLen = .ok () := if_pos hl
  have hu : optikUnlock ol op.keyMeta.cid op.keyMeta.version = .ok { ol with
      cid := op.keyMeta.cid, version := op.keyMeta.version, lock := 0 } := if_pos he
  exact ⟨_, bind_eq_ok.2 ⟨(), ha, bind_eq_ok.2 ⟨ol, hlock, (if_pos hgr).trans (bind_eq_ok.2 ⟨_, hu, rfl⟩)⟩⟩, rfl⟩

/-- Any other update is refused. -/
theorem scUpd_refuses {x op : CacheOp} {r : MicaResp} (hx : x.keyMeta.Idle) (hl : op.valLen = x.valLen)
    (hg : ¬ op.keyMeta.Supersedes x.keyMeta) : ∃ h, scUpd ⟨x, op, r⟩ = .ok h ∧ h.resp.type = .updFail := by
  have ha : (⟨x, op, r⟩ : Hit).assertValLen = .ok () := if_pos hl
  have hgr : ¬ optikIsGreaterVersion { x.keyMeta with lock := 1, version := x.keyMeta.version + 1 } op.keyMeta = true :=
    fun hc => hg ⟨_, hx.lock, hc⟩
  exact ⟨_, bind_eq_ok.2 ⟨(), ha, bind_eq_ok.2 ⟨_, hx.lock, (if_neg hgr).trans (Hit.release_mk hx.even)⟩⟩, rfl⟩

/-- Every replica of `key` that holds the stamp `t`, in whatever state a run has reached,
accepts the update `op`. -/
def AcceptedOver (valLen : UInt8) (s₀ : Sys N) (key : UInt64) (t : ℕ ×ₗ ℕ) (op : CacheOp) : Prop :=
  ∀ es s, (allRuns N valLen).Run s₀ es s → ∀ d x, s.cache d key = some x → x.timestamp = t →
    ∀ r : MicaResp, r.type ≠ .unservedMiss → ∃ cache' op' r',
      (s.cache d).serve scWithCacheOp { op with opcode := .upd } r = .ok (cache', op', r') ∧ r'.type = .updSuccess

/-- **Write stamps grow unless the version wraps**: after a successful PUT in any run the stored
stamp is greater than before and every replica with the old stamp accepts the update, exactly
if the version was not the last even one. -/
theorem put_stamp_grows_iff (hrun : (allRuns N valLen).Run s₀ es s) {m : Fin N} {op op' : CacheOp}
    {resp resp' : MicaResp} {cache' : Cache} (hop : op.opcode = .put)
    (hok : (s.cache m).serve (sc m) op resp = .ok (cache', op', resp')) (hs : resp'.type = .putSuccess) :
    ∃ kv kv', s.cache m op.key = some kv ∧ cache' op.key = some kv' ∧
      (kv'.keyMeta.Supersedes kv.keyMeta ∧ AcceptedOver valLen s₀ op.key kv.timestamp op' ↔
        kv.keyMeta.version ≠ 4294967294) := by
  have ht := tidy_of_run hrun
  obtain ⟨kv, kv', hk, hk', hl, hmeta, hv, hc, hkey, hlen⟩ := put_eq_ok (ht.idle m op.key) hop hok hs
  have hi := ht.idle m op.key kv hk
  have hi' : kv'.keyMeta.Idle := hmeta ▸ hi.restamp (even_add_two hi.even) _
  have hver : kv'.keyMeta.version = kv.keyMeta.version + 1 + 1 := by rw [hmeta]; rfl
  have hlt : stamp kv.keyMeta.version kv.keyMeta.cid.toNat < stamp kv'.keyMeta.version kv'.keyMeta.cid.toNat ↔
      kv.keyMeta.version ≠ 4294967294 := by
    have hadd := lt_add_two_iff hi.even
    rw [stamp_lt, hver]
    constructor
    · rintro (h | ⟨h, -⟩)
      · exact hadd.1 h
      · rintro he
        rw [he] at h
        exact absurd h (by decide)
    · exact fun h => .inl (hadd.2 h)
  refine ⟨kv, kv', hk, hk', ?_⟩
  rw [hi.supersedes_iff hi', hlt]
  refine ⟨fun h => h.1, fun h => ⟨h, fun es₁ s₁ hrun₁ d x hx hstamp r hr => ?_⟩⟩
  have ht₁ := tidy_of_run hrun₁
  have hxi := ht₁.idle d op.key x hx
  have hnew : ({ op' with opcode := .upd } : CacheOp).keyMeta.Supersedes x.keyMeta := by
    refine (CacheMeta.Supersedes.congr hv hc).2 ((hxi.supersedes_iff hi').2 ?_)
    exact lt_of_eq_of_lt hstamp (hlt.2 h)
  have hxl : op'.valLen = x.valLen := by rw [hlen, hl, ht.len m _ kv hk, ht₁.len d _ x hx]
  obtain ⟨y, hy, hty⟩ := @scUpd_accepts x { op' with opcode := .upd } r (hv ▸ hi'.even) hxl hnew
  have hb : scWithCacheOp ⟨x, { op' with opcode := .upd }, r⟩ = .ok y := hy
  have hxk : s₁.cache d op'.key = some x := by rw [hkey]; exact hx
  refine ⟨Function.update (s₁.cache d) op'.key (some y.kv), y.op, y.resp, ?_, hty⟩
  simp only [Cache.serve, if_neg hr, hxk]
  exact bind_eq_ok.2 ⟨y, hb, rfl⟩

/-! ## The version that wraps -/

/-- A PUT of a cached key returns. -/
theorem serve_put {m : ℕ} {cache : Cache} {op kv : CacheOp} (hop : op.opcode = .put) (hk : cache op.key = some kv)
    (hi : kv.keyMeta.Idle) (hl : op.valLen = kv.valLen) :
    cache.serve (sc m) op slot = .ok
      (Function.update cache op.key (some ((kv.store op).setMeta
        (kv.keyMeta.restamp (kv.keyMeta.version + 1 + 1) (.ofNat m)))),
      { op.setMeta (op.keyMeta.restamp (kv.keyMeta.version + 1 + 1) (.ofNat m)) with opcode := .brc },
      ⟨.putSuccess, 0, .none⟩) := by
  have hput : scPut m ⟨kv, op, slot⟩ = .ok
      ⟨(kv.store op).setMeta (kv.keyMeta.restamp (kv.keyMeta.version + 1 + 1) (.ofNat m)),
        { op.setMeta (op.keyMeta.restamp (kv.keyMeta.version + 1 + 1) (.ofNat m)) with opcode := .brc },
        ⟨.putSuccess, 0, .none⟩⟩ := by
    have ha : (⟨kv, op, slot⟩ : Hit).assertValLen = .ok () := if_pos hl
    simp only [scPut, ha, hi.lock, optikUnlockWrite, CacheMeta.restamp, ← hi.free]
    rfl
  have hu : slot.type ≠ .unservedMiss := by decide
  simp only [Cache.serve, if_neg hu, hk, sc, hop]
  exact bind_eq_ok.2 ⟨_, hput, rfl⟩

/-- Both machines hold `kv` under key 7, and nothing is under way. -/
structure Even (s : Sys 2) (kv : CacheOp) : Prop where
  here : s.cache 0 7 = some kv
  there : s.cache 1 7 = some kv
  net : s.net = 0

/-- The record after a PUT by machine 0. -/
def afterPut (kv : CacheOp) : CacheOp :=
  (kv.store (opOn7 .put 0 0 1)).setMeta (kv.keyMeta.restamp (kv.keyMeta.version + 1 + 1) 0)

/-- The update of that PUT. -/
def updOf (kv : CacheOp) : CacheOp := opOn7 .upd (kv.keyMeta.version + 1 + 1) 0 1

theorem Even.put {s : Sys 2} {kv : CacheOp} (h : Even s kv) (hi : kv.keyMeta.Idle) (hl : kv.valLen = 2) :
    (s.cache 0).serve (sc 0) (opOn7 .put 0 0 1) slot = .ok (Function.update (s.cache 0) 7 (some (afterPut kv)),
      { updOf kv with opcode := .brc }, ⟨.putSuccess, 0, .none⟩) :=
  serve_put rfl h.here hi hl.symm

/-- A PUT on machine 0 that does not wrap, and its update on machine 1. -/
theorem Even.round {s : Sys 2} {kv : CacheOp} {es : List (Event 2 2)} (hrun : (allRuns 2 2).Run start es s) (h : Even s kv)
    (hi : kv.keyMeta.Idle) (hl : kv.valLen = 2) (hv : kv.keyMeta.version ≠ 4294967294) :
    ∃ es' s', (allRuns 2 2).Run start es' s' ∧ Even s' (afterPut kv) := by
  have hput := hrun.snoc (Step.client (L := 2) 0 (opOn7 .put 0 0 1) _ slot _ _ (.inr rfl) (h.put hi hl))
  have heven : (updOf kv).keyMeta.version % 2 = 0 := even_add_two hi.even
  have hgr : (updOf kv).keyMeta.Supersedes kv.keyMeta := by
    rw [hi.supersedes_iff ⟨rfl, heven⟩, stamp_lt]
    exact .inl ((lt_add_two_iff hi.even).2 hv)
  obtain ⟨x, hx, -⟩ := @scUpd_accepts kv (updOf kv) slot heven hl.symm hgr
  have hkv : x.kv = afterPut kv := by
    rcases scUpd_idle hi heven hx with ⟨-, he⟩ | ⟨hn, -⟩
    · exact he
    · exact absurd ((hi.supersedes_iff ⟨rfl, heven⟩).1 hgr) hn
  have hserve : (s.cache 1).serve scWithCacheOp (updOf kv) slot =
      .ok (Function.update (s.cache 1) 7 (some (afterPut kv)), x.op, x.resp) := by
    have hu : slot.type ≠ .unservedMiss := by decide
    have hk : s.cache 1 (updOf kv).key = some kv := h.there
    simp only [Cache.serve, if_neg hu, hk]
    exact bind_eq_ok.2 ⟨x, hx, by rw [hkv]; rfl⟩
  have hnet : toOthers 0 { updOf kv with opcode := .brc } + s.net = (1, updOf kv) ::ₘ 0 := by
    rw [h.net]
    rfl
  have hupd := hput.snoc (Step.update (L := 2) 1 (updOf kv) x.op slot x.resp
    (Function.update (s.cache 1) 7 (some (afterPut kv))) 0 hnet (by decide) hserve)
  exact ⟨_, _, hupd, rfl, rfl, rfl⟩

theorem start_init : Init 2 start := by
  refine ⟨?_, ?_, ?_, ?_, fun _ _ _ => rfl, rfl⟩
  all_goals
    intro m k kv hk
    simp only [start, Function.update_apply] at hk
    split at hk <;> cases hk
    rfl

/-- Machine 0 puts `n` times, and every update reaches machine 1. -/
theorem run_puts (n : ℕ) (hn : 2 * n < 2 ^ 32) :
    ∃ es s kv, (allRuns 2 2).Run start es s ∧ Even s kv ∧ kv.keyMeta = ⟨.valid, 0, 0, 0, .ofNat (2 * n)⟩ ∧
      kv.valLen = 2 := by
  induction n with
  | zero => exact ⟨[], start, opOn7 .put 0 0 0, .nil start_init, ⟨rfl, rfl, rfl⟩, rfl, rfl⟩
  | succ n ih =>
    obtain ⟨es, s, kv, hrun, h, hm, hl⟩ := ih (by omega)
    have hver : kv.keyMeta.version.toNat = 2 * n := by
      rw [hm, UInt32.toNat_ofNat']
      exact Nat.mod_eq_of_lt (by omega)
    have hi : kv.keyMeta.Idle := by
      refine ⟨by rw [hm], even_toNat.2 ?_⟩
      omega
    have hv : kv.keyMeta.version ≠ 4294967294 := by
      intro he
      rw [he] at hver
      simp only [UInt32.reduceToNat] at hver
      omega
    obtain ⟨es', s', hrun', h'⟩ := h.round hrun hi hl hv
    refine ⟨es', s', afterPut kv, hrun', h', ?_, hl⟩
    have hadd : UInt32.ofNat (2 * n) + 1 + 1 = UInt32.ofNat (2 * (n + 1)) := by
      rw [← UInt32.toNat_inj, UInt32.toNat_add, UInt32.toNat_add]
      simp only [UInt32.toNat_ofNat', UInt32.reduceToNat]
      omega
    simp only [afterPut, CacheOp.setMeta_keyMeta, hm, CacheMeta.restamp, hadd]

/-- After 2147483647 PUTs, all delivered, the next one gets the stamp (0, 0) and machine 1, which
holds the old stamp, refuses its update. -/
theorem put_stamp_wraps :
    ∃ es s kv kv' cache' x, (allRuns 2 2).Run start es s ∧ s.cache 0 7 = some kv ∧ s.cache 1 7 = some kv ∧
      (s.cache 0).serve (sc 0) (opOn7 .put 0 0 1) slot =
        .ok (cache', { updOf kv with opcode := .brc }, ⟨.putSuccess, 0, .none⟩) ∧
      cache' 7 = some kv' ∧ ¬ kv'.keyMeta.Supersedes kv.keyMeta ∧
      scWithCacheOp ⟨kv, updOf kv, slot⟩ = .ok x ∧ x.resp.type = .updFail := by
  obtain ⟨es, s, kv, hrun, h, hm, hl⟩ := run_puts (2 ^ 31 - 1) (by omega)
  have hi : kv.keyMeta.Idle := by
    rw [hm]
    decide
  have hlt : ¬ (updOf kv).keyMeta.Supersedes kv.keyMeta := by
    rw [hi.supersedes_iff ⟨rfl, even_add_two hi.even⟩, stamp_lt, updOf, hm]
    decide
  obtain ⟨x, hx, ht⟩ := @scUpd_refuses kv (updOf kv) slot hi hl.symm hlt
  refine ⟨es, s, kv, afterPut kv, _, x, hrun, h.here, h.there, h.put hi hl, Function.update_self .., ?_, hx, ht⟩
  exact fun hs => hlt ((CacheMeta.Supersedes.congr rfl rfl).1 hs)

/-- The first PUT of a run. -/
theorem put_stamp_grows_first_put :
    ∃ cache' op' resp', (start.cache 0).serve (sc 0) (opOn7 .put 0 0 1) slot = .ok (cache', op', resp') ∧
      ∃ kv kv', start.cache 0 7 = some kv ∧ cache' 7 = some kv' ∧
        (kv'.keyMeta.Supersedes kv.keyMeta ∧ AcceptedOver 2 start 7 kv.timestamp op' ↔
          kv.keyMeta.version ≠ 4294967294) := by
  have hrun : (allRuns 2 2).Run start [] start := .nil start_init
  have hput := @Even.put start (opOn7 .put 0 0 0) ⟨rfl, rfl, rfl⟩ (by decide) rfl
  exact ⟨_, _, _, hput, put_stamp_grows_iff hrun (by rfl) hput (by rfl)⟩

end Sc

end CcKvs
