/-
The sequentially consistent protocol is last-writer-wins replication
(`Lib.Lww`): what a record's metadata and the comparison under its lock come to
is one register per key, and the stamps of PUTs name their machine. Sequential
consistency for each key and convergence are the abstract protocol's.
-/
import CcKvs.Sc.System

namespace CcKvs.Sc

open Register

variable {N : ℕ} {valLen : UInt8}

abbrev Abs (N : ℕ) (valLen : UInt8) := Lww.St (Fin N) UInt64 (ℕ ×ₗ ℕ) (Fin valLen.toNat → UInt8)

/-- The update `op` to `d`, as the abstract protocol has it. -/
def absMsg (L : ℕ) (x : Fin N × CacheOp) : Lww.Msg (Fin N) UInt64 (ℕ ×ₗ ℕ) (Fin L → UInt8) :=
  ⟨x.1, x.2.key, x.2.timestamp, x.2.bytes L⟩

/-- A stamp is given out by the machine its `cid` names. -/
def owns (m : Fin N) (t : ℕ ×ₗ ℕ) : Prop := (ofLex t).2 = m

theorem owns_unique (m m' : Fin N) (t : ℕ ×ₗ ℕ) (h : owns m t) (h' : owns m' t) : m = m' := Fin.ext (h.symm.trans h')

/-- A record as it is between operations, and the register it stands for. -/
structure RecordOf (valLen : UInt8) (kv : CacheOp) (r : (ℕ ×ₗ ℕ) × (Fin valLen.toNat → UInt8)) : Prop where
  idle : kv.keyMeta.Idle
  len : kv.valLen = valLen
  reg : r = (kv.timestamp, kv.bytes valLen.toNat)

/-- An update in flight was stamped by a PUT of a cached key. -/
structure MsgOk (keys : UInt64 → Prop) (x : Fin N × CacheOp) : Prop where
  upd : x.2.opcode = .upd
  even : x.2.keyMeta.version % 2 = 0
  cached : keys x.2.key

/-- The relation between a state of the program, with `keys` cached, and one of the abstract protocol. -/
structure Refines (keys : UInt64 → Prop) (s : Sys N) (t : Abs N valLen) : Prop where
  record : ∀ m k kv, s.cache m k = some kv → RecordOf valLen kv (t.reg m k)
  cached : ∀ m k, (s.cache m k).isSome ↔ keys k
  msg : ∀ x ∈ s.net, MsgOk keys x
  net : t.net = s.net.map (absMsg valLen.toNat)

theorem bytes_store {kv op : CacheOp} (hl : kv.valLen = valLen) :
    (kv.store op).bytes valLen.toNat = op.bytes valLen.toNat := by
  funext i
  exact Bytes.memcpy_of_lt (by rw [hl]; exact i.isLt)

/-- A record that takes over the value and stamp of an operation. -/
theorem RecordOf.store {kv op : CacheOp} {r} (hr : RecordOf valLen kv r) {v : UInt32} {cid : UInt8}
    (hv : v % 2 = 0) :
    RecordOf valLen ((kv.store op).setMeta (kv.keyMeta.restamp v cid)) (stamp v cid.toNat, op.bytes valLen.toNat) where
  idle := hr.idle.restamp hv cid
  len := hr.len
  reg := Prod.ext rfl (bytes_store hr.len).symm

/-- The caches with another record for `k` on `m`. -/
def Sys.put (s : Sys N) (m : Fin N) (k : UInt64) (kv : CacheOp) (net : Multiset (Fin N × CacheOp)) : Sys N :=
  ⟨Function.update s.cache m (Function.update (s.cache m) k (some kv)), net⟩

theorem Sys.put_cache (s : Sys N) (m : Fin N) (k : UInt64) (kv : CacheOp) (net) (m' : Fin N) (k' : UInt64) :
    (s.put m k kv net).cache m' k' = if m' = m ∧ k' = k then some kv else s.cache m' k' := by
  by_cases hm : m' = m
  · subst hm
    by_cases hk : k' = k <;> simp [Sys.put, hk]
  · simp [Sys.put, hm]

theorem Sys.put_self {s : Sys N} {m : Fin N} {k : UInt64} {kv : CacheOp} (hk : s.cache m k = some kv) :
    s.put m k kv s.net = s := by
  rw [Sys.put, ← hk, Function.update_eq_self, Function.update_eq_self]

theorem map_toOthers (L : ℕ) (m : Fin N) (op : CacheOp) :
    (toOthers m op).map (absMsg L) = Lww.toOthers m op.key op.timestamp (op.bytes L) := by
  rw [toOthers, Multiset.map_map]
  rfl

namespace Refines

variable {keys : UInt64 → Prop} {s : Sys N} {t : Abs N valLen}

/-- A record and its register are replaced together. -/
theorem put (hr : Refines keys s t) {m : Fin N} {k : UInt64} {kv kv' : CacheOp} {r} {net : Multiset (Fin N × CacheOp)} {tnet}
    (hk : s.cache m k = some kv) (hkv' : RecordOf valLen kv' r) (hnet : ∀ x ∈ net, MsgOk keys x)
    (htnet : tnet = net.map (absMsg valLen.toNat)) :
    Refines keys (s.put m k kv' net) { t.set m k r with net := tnet } where
  record m' k' kv'' h := by
    simp only [Sys.put_cache, Lww.St.set_reg] at h ⊢
    split at h
    · next he =>
      cases h
      rw [if_pos he]
      exact hkv'
    · next he =>
      rw [if_neg he]
      exact hr.record m' k' kv'' h
  cached m' k' := by
    rw [Sys.put_cache]
    split
    · next he => rw [he.2, ← hr.cached m k, hk]; rfl
    · exact hr.cached m' k'
  msg := hnet
  net := htnet

theorem read (hr : Refines keys s t) {m : Fin N} {k : UInt64} {kv : CacheOp} (hk : s.cache m k = some kv) :
    Lww.Step owns t (.op k ⟨.get, m, kv.timestamp, kv.bytes valLen.toNat⟩) t := by
  have h : Lww.Step owns t (.op k ⟨.get, m, (t.reg m k).1, (t.reg m k).2⟩) t := .get m k
  rw [(hr.record m k kv hk).reg] at h
  exact h

theorem write (hN : N ≤ 256) (hr : Refines keys s t) {m : Fin N} {op op' kv : CacheOp} (hk : s.cache m op.key = some kv)
    (hle : kv.keyMeta.version ≤ kv.keyMeta.version + 1 + 1)
    (hop' : op' = { op.setMeta (op.keyMeta.restamp (kv.keyMeta.version + 1 + 1) (.ofNat m)) with opcode := .brc }) :
    ∃ t', Lww.Step owns t (.op op.key ⟨.put, m, op'.timestamp, op'.bytes valLen.toNat⟩) t' ∧
      Refines keys (s.put m op.key ((kv.store op).setMeta (kv.keyMeta.restamp (kv.keyMeta.version + 1 + 1) (.ofNat m)))
        (toOthers m op' + s.net)) t' := by
  have hrec := hr.record m op.key kv hk
  have heven := even_add_two hrec.idle.even
  have hts : op'.timestamp = stamp (kv.keyMeta.version + 1 + 1) (UInt8.ofNat m).toNat := by rw [hop']; rfl
  have hown : owns m op'.timestamp := by
    rw [hts]
    exact toNat_ofNat_fin hN
  have hlt : (t.reg m op.key).1 < op'.timestamp := by
    rw [hrec.reg, hts]
    refine stamp_lt.2 (.inl ?_)
    rw [toNat_add_two_of_even hrec.idle.even hle]
    omega
  refine ⟨_, .put m op.key op'.timestamp (op'.bytes valLen.toNat) hown hlt, ?_⟩
  have hval : op'.bytes valLen.toNat = op.bytes valLen.toNat := by rw [hop']; rfl
  have hkey : op'.key = op.key := by rw [hop']; rfl
  refine hr.put hk ?_ (fun x hx => ?_) ?_
  · rw [hts, hval]
    exact hrec.store heven
  · rcases Multiset.mem_add.1 hx with hx | hx
    · obtain ⟨d, _, rfl⟩ := Multiset.mem_map.1 hx
      refine ⟨rfl, ?_, ?_⟩
      · rw [hop']
        exact heven
      · show keys op'.key
        rw [hkey, ← hr.cached m, hk]
        rfl
    · exact hr.msg x hx
  · rw [Multiset.map_add, ← hr.net, map_toOthers, hkey]

theorem apply (hr : Refines keys s t) {d : Fin N} {op kv : CacheOp} {net} (hn : s.net = (d, op) ::ₘ net)
    (hk : s.cache d op.key = some kv) {resp : MicaResp} {h' : Hit} (hok : scWithCacheOp ⟨kv, op, resp⟩ = .ok h') :
    ∃ t', Lww.Step owns t .silent t' ∧ Refines keys (s.put d op.key h'.kv net) t' := by
  have hmsg := hr.msg (d, op) (by rw [hn]; exact Multiset.mem_cons_self _ _)
  have hrec := hr.record d op.key kv hk
  have htn : t.net = absMsg valLen.toNat (d, op) ::ₘ net.map (absMsg valLen.toNat) := by
    rw [hr.net, hn, Multiset.map_cons]
  have hnet : ∀ x ∈ net, MsgOk keys x := fun x hx => hr.msg x (by rw [hn]; exact Multiset.mem_cons_of_mem hx)
  have hoc : op.opcode = .upd := hmsg.upd
  simp only [scWithCacheOp, hoc] at hok
  refine ⟨_, .deliver _ _ htn, hr.put hk ?_ hnet rfl⟩
  show RecordOf valLen h'.kv (Lww.merge (t.reg d op.key) op.timestamp (op.bytes valLen.toNat))
  rcases scUpd_idle hrec.idle hmsg.even hok with ⟨hlt, hkv⟩ | ⟨hge, hkv⟩
  · have hm : Lww.merge (t.reg d op.key) op.timestamp (op.bytes valLen.toNat) =
        (op.timestamp, op.bytes valLen.toNat) := by rw [hrec.reg]; exact if_pos hlt
    rw [hkv, hm]
    exact hrec.store hmsg.even
  · have hm : Lww.merge (t.reg d op.key) op.timestamp (op.bytes valLen.toNat) = t.reg d op.key := by
      rw [hrec.reg]; exact if_neg hge
    rw [hkv, hm]
    exact hrec

/-- Every step of the program is a step of the abstract protocol. -/
theorem step (hN : N ≤ 256) (hr : Refines keys s t) {e : Event N valLen.toNat} {s' : Sys N} (hst : Step valLen.toNat s e s')
    (hw : NoWrap s e s') : ∃ t', Lww.Step owns t e t' ∧ Refines keys s' t' := by
  cases hst with
  | client m op op' resp resp' cache' hoc hok =>
    rcases Cache.serve_ok hok with ⟨rfl, rfl, hresp⟩ | ⟨kv, h, hk, hb, rfl, rfl, rfl⟩
    · have hget : resp'.type ≠ .getSuccess := by rcases hresp with ⟨rfl, h⟩ | h <;> rw [h] <;> nofun
      have hput : resp'.type ≠ .putSuccess := by rcases hresp with ⟨rfl, h⟩ | h <;> rw [h] <;> nofun
      have hans : answered valLen.toNat m (s.cache m) op' resp' = .silent := by
        unfold answered
        split <;> first | contradiction | rfl
      rw [hans, if_neg hput, Function.update_eq_self]
      exact ⟨t, .skip, hr⟩
    · have hrec := hr.record m op.key kv hk
      rcases hoc with hoc | hoc
      · simp only [sc, hoc] at hb
        rw [scGet_idle hrec.idle] at hb
        cases hb
        have hans : answered valLen.toNat m (Function.update (s.cache m) op.key (some kv)) op
            ⟨.getSuccess, kv.valLen, some kv.value⟩ = .op op.key ⟨.get, m, kv.timestamp, kv.bytes valLen.toNat⟩ := by
          simp only [answered, Function.update_self, Option.getD_some]
          rfl
        refine ⟨t, hans ▸ hr.read hk, ?_⟩
        show Refines keys (s.put m op.key kv s.net) t
        rw [Sys.put_self hk]
        exact hr
      · simp only [sc, hoc] at hb
        obtain ⟨-, hkv, hop, hresp⟩ := scPut_idle hrec.idle hb
        have hkey : h.op.key = op.key := by rw [hop]; rfl
        have hans : answered valLen.toNat m (Function.update (s.cache m) op.key (some h.kv)) h.op h.resp =
            .op op.key ⟨.put, m, h.op.timestamp, h.op.bytes valLen.toNat⟩ := by
          simp only [answered, hresp, hkey, Function.update_self]
        have hle : kv.keyMeta.version ≤ kv.keyMeta.version + 1 + 1 := by
          have hle := hw m op.key _ _ hans kv h.kv hk (by simp)
          rwa [hkv] at hle
        obtain ⟨t', hst, hr'⟩ := hr.write hN hk hle hop
        refine ⟨t', hans ▸ hst, ?_⟩
        rw [hresp, if_pos rfl, hkv]
        exact hr'
  | update d op op' resp resp' cache' r hn hne hok =>
    have hmsg := hr.msg (d, op) (by rw [hn]; exact Multiset.mem_cons_self _ _)
    obtain ⟨kv, hk⟩ := Option.isSome_iff_exists.1 ((hr.cached d _).2 hmsg.cached)
    obtain ⟨h, hb, rfl, rfl, rfl⟩ := Cache.serve_hit hne hk hok
    exact hr.apply hn hk hb

end Refines

variable {s₀ s : Sys N} {es : List (Event N valLen.toNat)}

/-- What the caches start with, read on machine `m₀`. -/
def initial (s₀ : Sys N) (L : ℕ) (m₀ : Fin N) (k : UInt64) : (ℕ ×ₗ ℕ) × (Fin L → UInt8) :=
  (stamp 0 0, ((s₀.cache m₀ k).map (·.bytes L)).getD fun _ => 0)

theorem refines_init (h : Init valLen s₀) (m₀ : Fin N) :
    Refines (fun k => (s₀.cache m₀ k).isSome) s₀ (⟨fun _ => initial s₀ valLen.toNat m₀, 0⟩ : Abs N valLen) where
  record m k kv hk := by
    refine ⟨⟨h.lock m k kv hk, by rw [h.version m k kv hk]; rfl⟩, h.len m k kv hk, Prod.ext ?_ ?_⟩
    · simp only [initial, CacheOp.timestamp, h.version m k kv hk, h.cid m k kv hk]
      rfl
    · simp only [initial, h.same m₀ m k, hk, Option.map_some, Option.getD_some]
  cached m k := by
    have hs := congrArg Option.isSome (h.same m m₀ k)
    rw [Option.isSome_map, Option.isSome_map] at hs
    rw [hs]
  msg x hx := by rw [h.net] at hx; cases hx
  net := by rw [h.net]; rfl

/-- Every run of the program is a run of the abstract protocol, with the same operations. -/
theorem refines_of_run (hN : N ≤ 256) (m₀ : Fin N) (h : (system N valLen).Run s₀ es s) :
    ∃ t₀ t : Abs N valLen, (Lww.system owns (initial s₀ valLen.toNat m₀)).Run t₀ es t ∧
      Refines (fun k => (s₀.cache m₀ k).isSome) s t := by
  let t₀ : Abs N valLen := ⟨fun _ => initial s₀ valLen.toNat m₀, 0⟩
  let R : Sys N → Abs N valLen → Prop := Refines fun k => (s₀.cache m₀ k).isSome
  have h₀ (hi : Init valLen s₀) : (Lww.system owns (initial s₀ valLen.toNat m₀)).init t₀ ∧ R s₀ t₀ :=
    ⟨⟨fun _ => rfl, rfl⟩, refines_init hi m₀⟩
  obtain ⟨ds, t, hrun, hes, hr⟩ := h.simulate Eq R h₀ fun {_ t s e s'} _ hr hst => by
    obtain ⟨t', hst', hr'⟩ := hr.step hN hst.1 hst.2
    exact ⟨e, t', hst', rfl, hr'⟩
  rw [List.forall₂_eq_eq_eq] at hes
  exact ⟨t₀, t, hes ▸ hrun, hr⟩

/-- **Sequential consistency for each key.** The PUTs and successful GETs of a cached key have
one order that keeps the order of every machine and in which each GET returns the bytes of the
last PUT before it, or the initial ones. No two PUTs get the same stamp, and no two machines come
across two stamps in opposite orders. -/
theorem sequential_consistency (hN : N ≤ 256) (h : (system N valLen).Run s₀ es s) {m₀ : Fin N} {k : UInt64}
    {kv₀ : CacheOp} (hk : s₀.cache m₀ k = some kv₀) :
    SeqConsistent (kv₀.bytes valLen.toNat) (Lww.history k es) ∧ (putStamps (Lww.history k es)).Nodup ∧
      ∀ m m' t t', [t, t'].Sublist (observed m (Lww.history k es)) →
        [t', t].Sublist (observed m' (Lww.history k es)) → t = t' := by
  obtain ⟨t₀, t, hrun, hr⟩ := refines_of_run hN m₀ h
  have hs := (Lww.inv_of_run owns_unique hrun).stamped k
  have hv : (initial s₀ valLen.toNat m₀ k).2 = kv₀.bytes valLen.toNat := by simp only [initial, hk]; rfl
  rw [hv] at hs
  exact ⟨hs.seqConsistent, hs.putStamps_nodup, fun m m' t t' => hs.observed_same_order⟩

/-! Two concurrent writes of one key, delivered to each other's machine, and a read on each. -/

/-- A record of key 7, or an operation on it, with the byte `b`. -/
def opOn7 (oc : Opcode) (version : UInt32) (cid b : UInt8) : CacheOp :=
  ⟨⟨.valid, 0, cid, 0, version⟩, 7, oc, 2, fun _ => b⟩

def start : Sys 2 := ⟨fun _ => Function.update (fun _ => none) 7 (some (opOn7 .put 0 0 0)), 0⟩

theorem start_cached : start.cache 0 7 = some (opOn7 .put 0 0 0) := rfl

def slot : MicaResp := ⟨.empty, 0, .none⟩

theorem client_step (m : Fin N) (op : CacheOp) {op' resp' cache' kv kv'} (hoc : op.opcode = .get ∨ op.opcode = .put)
    (hok : (s.cache m).serve (sc m) op slot = .ok (cache', op', resp')) (hkey : op'.key = op.key) (hk : s.cache m op.key = some kv)
    (hk' : cache' op.key = some kv') (hle : kv.keyMeta.version ≤ kv'.keyMeta.version) :
    (system N valLen).step s (answered valLen.toNat m cache' op' resp')
        { cache := Function.update s.cache m cache'
          net := if resp'.type = .putSuccess then toOthers m op' + s.net else s.net } := by
  refine ⟨.client m op op' slot resp' cache' hoc hok, fun m' k t b he x x' hx hx' => ?_⟩
  obtain ⟨rfl, rfl⟩ : op.key = k ∧ m = m' := by
    unfold answered at he
    split at he <;> cases he
    exact ⟨hkey.symm, rfl⟩
  simp only [Function.update_self, hk'] at hx'
  cases hk.symm.trans hx
  cases hx'
  exact hle

theorem update_step (d : Fin N) (op : CacheOp) (r) {op' resp' cache'} (hn : s.net = (d, op) ::ₘ r)
    (hok : (s.cache d).serve scWithCacheOp op slot = .ok (cache', op', resp')) :
    (system N valLen).step s .silent ⟨Function.update s.cache d cache', r⟩ :=
  ⟨.update d op op' slot resp' cache' r hn nofun hok, fun m k t b he => by cases he⟩

theorem run_concurrent_writes : ∃ es s, (system 2 2).Run start es s ∧ s.net = 0 ∧
    (Lww.history 7 es).map (fun o => (o.kind, o.machine, o.stamp)) =
      [(.put, 0, stamp 2 0), (.put, 1, stamp 2 1), (.get, 0, stamp 2 1), (.get, 1, stamp 2 1)] := by
  have h₀ : (system 2 2).Run start [] start := by
    refine .nil ⟨?_, ?_, ?_, ?_, fun _ _ _ => rfl, rfl⟩
    all_goals
      intro m k kv hk
      simp only [start, Function.update_apply] at hk
      split at hk <;> cases hk
      rfl
  have h₁ := h₀.snoc (client_step 0 (opOn7 .put 0 0 1) (.inr rfl) rfl rfl rfl rfl (by decide))
  have h₂ := h₁.snoc (client_step 1 (opOn7 .put 0 0 5) (.inr rfl) rfl rfl rfl rfl (by decide))
  have h₃ := h₂.snoc (update_step 0 (opOn7 .upd 2 1 5) {(1, opOn7 .upd 2 0 1)} rfl rfl)
  have h₄ := h₃.snoc (update_step 1 (opOn7 .upd 2 0 1) 0 rfl rfl)
  have h₅ := h₄.snoc (client_step 0 (opOn7 .get 0 0 0) (.inl rfl) rfl rfl rfl rfl (by decide))
  have h₆ := h₅.snoc (client_step 1 (opOn7 .get 0 0 0) (.inl rfl) rfl rfl rfl rfl (by decide))
  exact ⟨_, _, h₆, rfl, rfl⟩

theorem sequential_consistency_two_machines : ∃ es s, (system 2 2).Run start es s ∧
    (Lww.history 7 es).map (fun o => (o.kind, o.machine, o.stamp)) =
      [(.put, 0, stamp 2 0), (.put, 1, stamp 2 1), (.get, 0, stamp 2 1), (.get, 1, stamp 2 1)] ∧
    SeqConsistent ((opOn7 .put 0 0 0).bytes 2) (Lww.history 7 es) := by
  obtain ⟨es, s, hs, -, hops⟩ := run_concurrent_writes
  exact ⟨es, s, hs, hops, (sequential_consistency (by decide) hs start_cached).1⟩

/-- **Convergence.** Once every update has been delivered, all machines store for each cached key
one version, `cid` and value: those of the PUT with the largest stamp, or the initial ones. -/
theorem convergence (hN : N ≤ 256) (h : (system N valLen).Run s₀ es s) (hq : s.net = 0) {m₀ : Fin N} {k : UInt64}
    {kv₀ : CacheOp} (hk : s₀.cache m₀ k = some kv₀) :
    ∃ version cid value,
      (∀ m, ∃ kv, s.cache m k = some kv ∧ kv.keyMeta.version = version ∧ kv.keyMeta.cid = cid ∧
        kv.bytes valLen.toNat = value) ∧
      Lww.IsLatest (Lww.history k es) (stamp 0 0, kv₀.bytes valLen.toNat) (stamp version cid.toNat, value) := by
  obtain ⟨t₀, t, hrun, hr⟩ := refines_of_run hN m₀ h
  have hi := Lww.inv_of_run owns_unique hrun
  have hlast : ∀ m, Lww.IsLatest (Lww.history k es) (initial s₀ valLen.toNat m₀ k) (t.reg m k) := fun m =>
    hi.isLatest (by rw [hr.net, hq]; rfl) m k
  have hkv : ∀ m, ∃ kv, s.cache m k = some kv := fun m =>
    Option.isSome_iff_exists.1 ((hr.cached m k).2 (by rw [hk]; rfl))
  obtain ⟨kv, hkv₀⟩ := hkv m₀
  have hreg := (hr.record m₀ k kv hkv₀).reg
  refine ⟨kv.keyMeta.version, kv.keyMeta.cid, kv.bytes valLen.toNat, fun m => ?_, ?_⟩
  · obtain ⟨kv', hkv'⟩ := hkv m
    have heq : t.reg m k = t.reg m₀ k := (hlast m).unique (hi.stamped k) (hlast m₀)
    rw [(hr.record m k kv' hkv').reg, hreg, Prod.mk.injEq, CacheOp.timestamp, CacheOp.timestamp, stamp_inj,
      UInt8.toNat_inj] at heq
    exact ⟨kv', hkv', heq.1.1, heq.1.2, heq.2⟩
  · have hl := hlast m₀
    simp only [hreg, initial, hk] at hl
    exact hl

theorem convergence_two_machines : ∃ es s, (system 2 2).Run start es s ∧ s.net = 0 ∧ ∃ version cid value,
    (∀ m, ∃ kv, s.cache m 7 = some kv ∧ kv.keyMeta.version = version ∧ kv.keyMeta.cid = cid ∧ kv.bytes 2 = value) ∧
    Lww.IsLatest (Lww.history 7 es) (stamp 0 0, (opOn7 .put 0 0 0).bytes 2) (stamp version cid.toNat, value) := by
  obtain ⟨es, s, hs, hq, -⟩ := run_concurrent_writes
  exact ⟨es, s, hs, hq, convergence (by decide) hs hq start_cached⟩

end CcKvs.Sc
