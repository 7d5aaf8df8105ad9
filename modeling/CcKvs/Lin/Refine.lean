/-
The linearizable protocol refines the write-invalidate protocol of
`Lib.Invalidation`: the replay states, session ids and the counter of pending
acknowledgements are gone there, and the stamp of a copy is one field.
-/
import CcKvs.Lin.System
import CcKvs.Lib.Agreement

namespace CcKvs.Lin

open Invalidation (Phase Msg Kind St Label)

variable {N : ℕ}

/-- A stamp of the abstract protocol as a pair of numbers. -/
def val (u : ℕ ×ₗ Fin N) : ℕ ×ₗ ℕ := toLex ((ofLex u).1, ((ofLex u).2 : ℕ))

theorem val_lt {a b : ℕ ×ₗ Fin N} : val a < val b ↔ a < b := by
  rw [val, val, Prod.Lex.toLex_lt_toLex, Prod.Lex.lt_iff]
  rfl

theorem val_le {a b : ℕ ×ₗ Fin N} : val a ≤ val b ↔ a ≤ b := by
  rw [← not_lt, ← not_lt, val_lt]

theorem val_inj {a b : ℕ ×ₗ Fin N} : val a = val b ↔ a = b := by
  rw [le_antisymm_iff, le_antisymm_iff, val_le, val_le]

/-- The phase a copy is in, as its metadata shows it. -/
def PhaseOf (ol : CacheMeta) : Phase (Fin N) → Prop
  | .valid => ol.state = .valid
  | .invalid => ol.state.Invalidated
  | .writing A => ol.state.Writing ∧ A.card + ol.pendingAcks.toNat = N - 1

def opcodeOf : Kind → Opcode
  | .inv => .inv
  | .ack => .ack
  | .upd => .upd

structure WaitOf (x : Fin N × CacheOp) (y : Fin N × ℕ) : Prop where
  machine : x.1 = y.1
  ver : x.2.keyMeta.version.toNat = y.2
  even : x.2.keyMeta.version % 2 = 0

structure MsgOf (x : ℕ × CacheOp) (y : Msg (Fin N)) : Prop where
  kind : x.2.opcode = opcodeOf y.kind
  dst : x.1 = y.dst
  src : x.2.keyMeta.cid.toNat = y.src
  ver : x.2.keyMeta.version.toNat = y.ver
  even : x.2.keyMeta.version % 2 = 0

/-- The relation between a state of the program and one of the abstract protocol. -/
structure Refines (s : Sys N) (t : St (Fin N)) : Prop where
  idle : ∀ m, (s.copy m).keyMeta.Idle
  stamp : ∀ m, copyStamp m (s.copy m) = val (t.stamp m)
  phase : ∀ m, PhaseOf (s.copy m).keyMeta (t.phase m)
  waiting : Multiset.Rel WaitOf s.waiting t.waiting
  net : Multiset.Rel MsgOf s.net t.net

/-- The abstract step an event stands for. -/
def Stands : Event N → Label (Fin N) → Prop
  | .op m .getSuccess u, l => ∃ a, l = .read m a ∧ u = val a
  | .op m .putSuccess u, l => ∃ v, l = .put m v ∧ u = toLex (v, (m : ℕ))
  | .op m .lastAckSuccess u, l => ∃ v, l = .done m v ∧ u = toLex (v, (m : ℕ))
  | _, l => l = .tau

theorem PhaseOf.valid_iff {ol : CacheMeta} {p : Phase (Fin N)} (h : PhaseOf ol p) : p = .valid ↔ ol.state = .valid := by
  cases p with
  | valid => exact ⟨fun _ => h, fun _ => rfl⟩
  | invalid => exact ⟨nofun, fun hv => by rcases h with h | h <;> cases hv.symm.trans h⟩
  | writing A => exact ⟨nofun, fun hv => by rcases h.1 with h | h <;> cases hv.symm.trans h⟩

theorem PhaseOf.invalid_iff {ol : CacheMeta} {p : Phase (Fin N)} (h : PhaseOf ol p) :
    p = .invalid ↔ ol.state.Invalidated := by
  cases p with
  | valid => exact ⟨nofun, fun hv => by rcases hv with hv | hv <;> cases hv.symm.trans h⟩
  | invalid => exact ⟨fun _ => h, fun _ => rfl⟩
  | writing A =>
    exact ⟨nofun, fun hv => by rcases h.1 with h | h <;> rcases hv with hv | hv <;> cases hv.symm.trans h⟩

theorem PhaseOf.exists_writing_iff {ol : CacheMeta} {p : Phase (Fin N)} (h : PhaseOf ol p) :
    (∃ A, p = .writing A) ↔ ol.state.Writing := by
  cases p with
  | valid => exact ⟨nofun, fun hv => by rcases hv with hv | hv <;> cases hv.symm.trans h⟩
  | invalid =>
    exact ⟨nofun, fun hv => by rcases h with h | h <;> rcases hv with hv | hv <;> cases hv.symm.trans h⟩
  | writing A => exact ⟨fun _ => h.1, fun _ => ⟨A, rfl⟩⟩

variable {s : Sys N} {t : St (Fin N)} {valLen : UInt8}

open Function

/-- Only the copy of `m` changes; the rest of the relation is carried over. -/
theorem Refines.setCopy (h : Refines s t) {m : Fin N} {kv : CacheOp} {t' : St (Fin N)} {w n}
    (hoth : ∀ x, x ≠ m → t'.stamp x = t.stamp x ∧ t'.phase x = t.phase x) (hi : kv.keyMeta.Idle)
    (hs : copyStamp m kv = val (t'.stamp m)) (hp : PhaseOf kv.keyMeta (t'.phase m))
    (hw : Multiset.Rel WaitOf w t'.waiting) (hn : Multiset.Rel MsgOf n t'.net) :
    Refines ⟨update s.copy m kv, w, n⟩ t' := by
  refine ⟨fun x => ?_, fun x => ?_, fun x => ?_, hw, hn⟩ <;> by_cases hx : x = m
  · subst hx
    simpa using hi
  · simpa [hx] using h.idle x
  · subst hx
    simpa using hs
  · simpa [hx, hoth x hx] using h.stamp x
  · subst hx
    simpa using hp
  · simpa [hx, hoth x hx] using h.phase x

theorem Refines.get (h : Refines s t) {m : Fin N} {x x' : Hit} (hk : x.kv = s.copy m) (hok : linGet x = .ok x') :
    ∃ l, Invalidation.Step t l t ∧ Stands (.op m x'.resp.type (copyStamp m x'.kv)) l ∧
      x'.resp.type ≠ .putSuccess ∧ Refines { s with copy := update s.copy m x'.kv } t := by
  have hp := h.phase m
  have hs := h.stamp m
  have hi := h.idle m
  rw [← hk] at hp hs hi
  rcases linGet_idle hi hok with ⟨hv, hkv, hr⟩ | ⟨hv, hr, hkv⟩
  · refine ⟨.read m (t.stamp m), .read m (hp.valid_iff.2 hv), ?_, by simp [hr], ?_⟩
    · rw [hr, hkv, hs]
      exact ⟨_, rfl, rfl⟩
    · rw [hkv, hk, update_eq_self]
      exact h
  · have hw : x.kv.keyMeta.state.replay.Writing ↔ x.kv.keyMeta.state.Writing := by
      cases x.kv.keyMeta.state <;> simp [CacheState.replay, CacheState.Writing]
    have hn : x.kv.keyMeta.state.replay.Invalidated ↔ x.kv.keyMeta.state.Invalidated := by
      cases x.kv.keyMeta.state <;> simp [CacheState.replay, CacheState.Invalidated]
    refine ⟨.tau, .skip, by simp [hr, Stands], by simp [hr], ?_⟩
    rw [hkv]
    refine h.setCopy (fun _ _ => ⟨rfl, rfl⟩) ⟨hi.free, hi.even⟩ ?_ ?_ h.waiting h.net
    · simpa [copyStamp, CacheMeta.owner, CacheMeta.become, hw] using hs
    · cases hph : t.phase m with
      | valid => exact absurd (hp.valid_iff.1 hph) hv
      | invalid => exact hn.2 (hp.invalid_iff.1 hph)
      | writing A =>
        rw [hph] at hp
        exact ⟨hw.2 hp.1, hp.2⟩

theorem Refines.version (h : Refines s t) (m : Fin N) : (s.copy m).keyMeta.version.toNat = (ofLex (t.stamp m)).1 :=
  congrArg (fun u => (ofLex u).1) (h.stamp m)

theorem Refines.owner (h : Refines s t) (m : Fin N) : (s.copy m).keyMeta.owner m = (ofLex (t.stamp m)).2 :=
  congrArg (fun u => (ofLex u).2) (h.stamp m)

theorem Refines.put (h : Refines s t) (hN : N ≤ 256) {m : Fin N} {x x' : Hit} (hk : x.kv = s.copy m)
    (hok : linPut N m x = .ok x') (hnw : x'.resp.type = .putSuccess → x.kv.keyMeta.version ≤ x'.kv.keyMeta.version) :
    ∃ l t', Invalidation.Step t l t' ∧ Stands (.op m x'.resp.type (copyStamp m x'.kv)) l ∧
      Refines { s with
        copy := update s.copy m x'.kv
        waiting := if x'.resp.type = .putSuccess then (m, x'.op) ::ₘ s.waiting else s.waiting } t' := by
  have hi := h.idle m
  have hv := h.version m
  rw [← hk] at hi hv
  rcases linPut_idle hi hok with ⟨hr, hkv, -, hver, -, -⟩ | ⟨-, hx⟩
  · have hw : x.kv.keyMeta.state.written.Writing := by
      cases x.kv.keyMeta.state <;> simp [CacheState.written, CacheState.Writing]
    have hst : copyStamp m x'.kv = toLex (x'.op.keyMeta.version.toNat, (m : ℕ)) := by
      simp [hkv, copyStamp, CcKvs.stamp, CacheMeta.afterPut, CacheMeta.owner, hw, hver]
    have hadd : x'.op.keyMeta.version.toNat = x.kv.keyMeta.version.toNat + 2 := by
      rw [hver]
      refine toNat_add_two_of_even hi.even ?_
      simpa [hkv, CacheMeta.afterPut] using hnw (by rw [hr])
    have heven : x'.op.keyMeta.version % 2 = 0 := hver ▸ even_add_two hi.even
    refine ⟨.put m x'.op.keyMeta.version.toNat, _, .put m _ (by omega), ?_, ?_⟩
    · rw [hr]
      exact ⟨_, rfl, hst⟩
    · rw [if_pos (by rw [hr])]
      refine h.setCopy (fun y hy => by simp [hy]) ?_ ?_ ?_ ?_ h.net
      · rw [hkv]
        exact ⟨rfl, even_add_two hi.even⟩
      · simpa [val] using hst
      · simp only [hkv, update_self]
        refine ⟨hw, ?_⟩
        have : N - 1 < 256 := by omega
        simpa [CacheMeta.afterPut] using this
      · exact h.waiting.cons ⟨rfl, rfl, heven⟩
  · have hkv : x'.kv = s.copy m := by
      rcases hx with rfl | rfl <;> exact hk
    have hne : x'.resp.type ≠ .putSuccess := by
      rcases hx with rfl | rfl <;> simp
    refine ⟨.tau, t, .skip, ?_, ?_⟩
    · rcases hx with rfl | rfl <;> simp [Stands]
    · rw [hkv, if_neg hne, update_eq_self]
      exact h

theorem Refines.bcast (h : Refines s t) (hN : N ≤ 256) {m : Fin N} {op : CacheOp} {w}
    (hw : s.waiting = (m, op) ::ₘ w) :
    ∃ t', Invalidation.Step t .tau t' ∧
      Refines { s with waiting := w, net := toOthers m (outgoing m .inv op) + s.net } t' := by
  have hrel := h.waiting
  rw [hw, Multiset.rel_cons_left] at hrel
  obtain ⟨⟨m', v⟩, w', ⟨rfl, rfl, heven⟩, hw', htw⟩ := hrel
  refine ⟨_, .bcast m _ w' htw, h.idle, h.stamp, h.phase, hw', Multiset.Rel.add ?_ h.net⟩
  rw [toOthers, Invalidation.toOthers, Multiset.rel_map]
  refine Multiset.rel_refl_of_refl_on fun d _ => ⟨rfl, rfl, ?_, rfl, heven⟩
  exact toNat_ofNat_fin hN

theorem Refines.inv (h : Refines s t) (hN : N ≤ 256) {d : Fin N} {x x' : Hit} {r}
    (hn : s.net = (d.val, x.op) ::ₘ r) (hoc : x.op.opcode = .inv) (hk : x.kv = s.copy d)
    (hok : linInv d x = .ok x') :
    ∃ t', Invalidation.Step t .tau t' ∧ Stands (.op d x'.resp.type (copyStamp d x'.kv)) .tau ∧
      Refines { s with
        copy := update s.copy d x'.kv
        net := if x'.resp.type = .invSuccess then
          (x'.op.keyMeta.cid.toNat, outgoing d .ack x'.op) ::ₘ r else r } t' := by
  have hrel := h.net
  rw [hn, Multiset.rel_cons_left] at hrel
  obtain ⟨⟨k, d', c, v⟩, r', ⟨hkd, hd, hc, hv, heven⟩, hr, htn⟩ := hrel
  have hkind : k = .inv := by
    cases k <;> simp_all [opcodeOf]
  have hd' : d = d' := Fin.ext hd
  subst hkind hd'
  have hi := h.idle d
  have hs := h.stamp d
  have hp := h.phase d
  rw [← hk] at hi hs hp
  have hmsg : CcKvs.stamp x.op.keyMeta.version x.op.keyMeta.cid.toNat = val (toLex (v, c)) := by
    simp [CcKvs.stamp, val, hv, hc]
  obtain ⟨hop, ⟨hlt, hresp, hkv⟩ | ⟨hge, hresp, hkv⟩⟩ := linInv_idle hi heven hok
  · have hlt' : t.stamp d < toLex (v, c) := by
      rw [← val_lt, ← hs, ← hmsg]
      exact hlt
    refine ⟨_, .invOk d c v r' htn hlt', by simp [hresp, Stands], ?_⟩
    rw [if_pos hresp]
    have hinv : x.kv.keyMeta.state.invalidated.Invalidated ∧ ¬ x.kv.keyMeta.state.invalidated.Writing := by
      cases x.kv.keyMeta.state <;> simp [CacheState.invalidated, CacheState.Invalidated, CacheState.Writing]
    refine h.setCopy (fun y hy => by simp [hy]) ?_ ?_ ?_ h.waiting ?_
    · rw [hkv]
      exact ⟨rfl, heven⟩
    · simpa [hkv, copyStamp, CacheMeta.owner, hinv.2] using hmsg
    · simpa [hkv, PhaseOf] using hinv.1
    · refine hr.cons ⟨rfl, ?_, ?_, ?_, ?_⟩
      · simpa [hop] using hc
      · exact toNat_ofNat_fin hN
      · simpa [outgoing, hop] using hv
      · simpa [outgoing, hop] using heven
  · have hge' : ¬ t.stamp d < toLex (v, c) := by
      rw [← val_lt, ← hs, ← hmsg]
      exact hge
    refine ⟨_, .invNo d c v r' htn hge', by simp [hresp, Stands], ?_⟩
    rw [if_neg (by simp [hresp]), hkv, hk, update_eq_self]
    exact ⟨h.idle, h.stamp, h.phase, h.waiting, hr⟩

theorem Refines.upd (h : Refines s t) {d : Fin N} {x x' : Hit} {r} (hn : s.net = (d.val, x.op) ::ₘ r)
    (hoc : x.op.opcode = .upd) (hk : x.kv = s.copy d) (hok : linUpd x = .ok x') :
    ∃ t', Invalidation.Step t .tau t' ∧ Stands (.op d x'.resp.type (copyStamp d x'.kv)) .tau ∧
      x'.resp.type ≠ .lastAckSuccess ∧ Refines { s with copy := update s.copy d x'.kv, net := r } t' := by
  have hrel := h.net
  rw [hn, Multiset.rel_cons_left] at hrel
  obtain ⟨⟨k, d', c, v⟩, r', ⟨hkd, hd, hc, hv, heven⟩, hr, htn⟩ := hrel
  have hkind : k = .upd := by
    cases k <;> simp_all [opcodeOf]
  have hd' : d = d' := Fin.ext hd
  subst hkind hd'
  have hi := h.idle d
  have hs := h.stamp d
  have hp := h.phase d
  rw [← hk] at hi hs hp
  -- An invalidated copy names the writer in its `cid`, so equal fields are equal stamps.
  have hst : x.kv.keyMeta.state.Invalidated → (x.kv.keyMeta.version = x.op.keyMeta.version ∧
      x.kv.keyMeta.cid = x.op.keyMeta.cid ↔ t.stamp d = toLex (v, c)) := fun hinv => by
    have hmsg : CcKvs.stamp x.op.keyMeta.version x.op.keyMeta.cid.toNat = val (toLex (v, c)) := by
      simp [CcKvs.stamp, val, hv, hc]
    rw [← val_inj, ← hs, ← hmsg, copyStamp, stamp_inj, CacheMeta.owner_of_not_writing hinv.not_writing,
      UInt8.toNat_inj]
  rcases linUpd_idle hi hok with ⟨hinv, hve, hce, rfl⟩ | ⟨hno, rfl⟩
  · refine ⟨_, .updOk d c v r' htn ⟨hp.invalid_iff.2 hinv, (hst hinv).1 ⟨hve, hce⟩⟩, by simp [Stands], by simp, ?_⟩
    refine h.setCopy (fun y hy => by simp [hy]) ⟨hi.free, hi.even⟩ ?_ ?_ h.waiting hr
    · rw [← hs, copyStamp, copyStamp, CacheMeta.owner_of_not_writing hinv.not_writing]
      rfl
    · simp [CacheMeta.become, PhaseOf]
  · refine ⟨_, .updNo d c v r' htn ?_, by simp [Stands], by simp, ?_⟩
    · rintro ⟨hpi, hse⟩
      have hinv := hp.invalid_iff.1 hpi
      exact hno ⟨hinv, (hst hinv).2 hse⟩
    · rw [Hit.respond_kv, hk, update_eq_self]
      exact ⟨h.idle, h.stamp, h.phase, h.waiting, hr⟩

theorem toNat_sub_one {n : UInt8} (h : 0 < n.toNat) : (n - 1).toNat = n.toNat - 1 := by
  refine UInt8.toNat_sub_of_le _ _ ?_
  rw [UInt8.le_iff_toNat_le]
  exact h

/-- An acknowledgement that is counted joins its sender to the ones in. -/
theorem Refines.ack_counted (h : Refines s t) (hi : Invalidation.Inv t) (hN : N ≤ 256) {m : Fin N} {x x' : Hit} {r}
    (hn : s.net = (m.val, x.op) ::ₘ r) (hoc : x.op.opcode = .ack) (hk : x.kv = s.copy m)
    (hok : linAck m x = .ok x') :
    ∃ l t', Invalidation.Step t l t' ∧ Stands (.op m x'.resp.type (copyStamp m x'.kv)) l ∧
      Refines { s with
        copy := update s.copy m x'.kv
        net := if x'.resp.type = .lastAckSuccess then
          toOthers m (outgoing m .upd { x'.op with valLen := valLen }) + r else r } t' ∧
      (x'.resp.type = .ackSuccess → ∃ (d : Fin N) (A : _), x.op.keyMeta.cid.toNat = d ∧ t.phase m = .writing A ∧
        t'.phase m = .writing (insert d A)) := by
  have hrel := h.net
  rw [hn, Multiset.rel_cons_left] at hrel
  obtain ⟨⟨k, m', d, v⟩, r', ⟨hkd, hm, hc, hv, heven⟩, hr, htn⟩ := hrel
  have hkind : k = .ack := by
    cases k <;> simp_all [opcodeOf]
  have hm' : m = m' := Fin.ext hm
  subst hkind hm'
  have hidle := h.idle m
  have hs := h.stamp m
  have hp := h.phase m
  have hver := h.version m
  rw [← hk] at hidle hs hp hver
  rcases linAck_idle hidle hok with ⟨hw, hve, hcase⟩ | ⟨hno, rfl⟩
  · obtain ⟨A, hA⟩ := hp.exists_writing_iff.2 hw
    have hacc : Invalidation.Accepts t m v A := ⟨hA, by rw [← hver, hve, hv]⟩
    rw [hA] at hp
    obtain ⟨hdA, hmA, hmdA⟩ := hi.ack_fresh hacc (show ⟨.ack, m, d, v⟩ ∈ t.net by simp [htn])
    have hcard : (insert d A).card = A.card + 1 := Finset.card_insert_of_notMem hdA
    have hfull : Invalidation.Full m (insert d A) ↔ A.card + 1 = N - 1 := by
      rw [Invalidation.full_iff_card hmdA, hcard, Fintype.card_fin]
    have hlack : A.card ≠ N - 1 := fun hx => hi.owing hA ((Invalidation.full_iff_card hmA).2 (by simpa using hx))
    have hsum := hp.2
    rcases hcase with ⟨hpend, rfl⟩ | ⟨hpend, rfl⟩
    · have hf : Invalidation.Full m (insert d A) := hfull.2 (by rw [← hsum, hpend]; rfl)
      have hst : copyStamp m (x.kv.setMeta (x.kv.keyMeta.completed m)) = toLex (v, (m : ℕ)) := by
        simp [copyStamp, CcKvs.stamp, CacheMeta.completed, CacheMeta.owner, CacheState.Writing, hve, hv,
          toNat_ofNat_fin hN]
      refine ⟨.done m v, _, .ackLast m d v A r' htn hacc hf, ⟨v, rfl, hst⟩, ?_, by simp⟩
      refine h.setCopy (fun y hy => by simp [hy]) ⟨hidle.free, hidle.even⟩ ?_ ?_ h.waiting ?_
      · simpa [hi.stamp_writing hacc, val] using hst
      · simp [PhaseOf, CacheMeta.completed]
      · refine Multiset.Rel.add ?_ hr
        rw [toOthers, Invalidation.toOthers, Multiset.rel_map]
        exact Multiset.rel_refl_of_refl_on fun y _ => ⟨rfl, rfl, toNat_ofNat_fin hN, hv, heven⟩
    · have hpos : x.kv.keyMeta.pendingAcks.toNat ≠ 1 := fun hx => hpend (UInt8.toNat_inj.1 hx)
      refine ⟨.tau, _, .ackMore m d v A r' htn hacc fun hf => ?_, rfl, ?_, fun _ => ⟨d, A, hc, hA, update_self ..⟩⟩
      · have := hfull.1 hf
        omega
      · refine h.setCopy (fun y hy => by simp [hy]) ⟨hidle.free, hidle.even⟩ hs ?_ h.waiting hr
        simp only [update_self]
        refine ⟨hp.1, ?_⟩
        rw [hcard]
        have hsub := toNat_sub_one (show 0 < x.kv.keyMeta.pendingAcks.toNat by omega)
        simp only [CacheOp.setMeta_keyMeta, CacheMeta.acked, Hit.respond_kv, hsub]
        omega
  · refine ⟨.tau, _, .ackNo m d v r' htn fun A hacc => hno ⟨?_, ?_⟩, rfl, ?_, by simp⟩
    · exact hp.exists_writing_iff.1 ⟨A, hacc.1⟩
    · rw [← UInt32.toNat_inj, hver, hv, hacc.2]
    · rw [Hit.respond_kv, Hit.respond_type, if_neg (by decide), hk, update_eq_self]
      exact ⟨h.idle, h.stamp, h.phase, h.waiting, hr⟩

theorem Refines.ack (h : Refines s t) (hi : Invalidation.Inv t) (hN : N ≤ 256) {m : Fin N} {x x' : Hit} {r}
    (hn : s.net = (m.val, x.op) ::ₘ r) (hoc : x.op.opcode = .ack) (hk : x.kv = s.copy m)
    (hok : linAck m x = .ok x') :
    ∃ l t', Invalidation.Step t l t' ∧ Stands (.op m x'.resp.type (copyStamp m x'.kv)) l ∧
      Refines { s with
        copy := update s.copy m x'.kv
        net := if x'.resp.type = .lastAckSuccess then
          toOthers m (outgoing m .upd { x'.op with valLen := valLen }) + r else r } t' := by
  obtain ⟨l, t', h₁, h₂, h₃, -⟩ := h.ack_counted hi hN hn hoc hk hok
  exact ⟨l, t', h₁, h₂, h₃⟩

end CcKvs.Lin
