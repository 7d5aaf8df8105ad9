/-
The `cache_batch_op_*` functions on the memory of the cache's hash table. A
round looks its key up in the index, compares the key in the log, and lets the
loop body work on the record through `kv_ptr`; the body writes the record's
metadata and at most `val_len` bytes of its value.

At the end, such a round is one of the map from keys to records that the
protocols are stated over (`Cache.serve`).
-/
import CcKvs.Cache.Sc
import CcKvs.Cache.Lin
import CcKvs.Mica.Serve

namespace CcKvs

open MicaKv

/-- The functions that serve operations from the cache. -/
inductive CacheFun
  | sc
  | scWithCacheOp
  | lin
  | linWithCacheOp
  | linWithSmallCacheOp
  deriving DecidableEq, Repr

def CacheFun.body (machineNum machineId : ℕ) : CacheFun → Hit → Except Fault Hit
  | sc => CcKvs.sc machineId
  | scWithCacheOp => CcKvs.scWithCacheOp
  | lin => linNonStallingSessions machineNum machineId
  | linWithCacheOp => linNonStallingSessionsWithCacheOp machineId
  | linWithSmallCacheOp => linNonStallingSessionsWithSmallCacheOp machineId

/-- What the loop body has written through `kv_ptr`. -/
def MicaKv.writeBack (kv : MicaKv) (p : ℕ) (c : CacheOp) : MicaKv :=
  { kv with htLog := (kv.htLog.write (p + micaOpMetadata) c.value c.valLen.toNat).write p c.keyMeta.toBytes 8 }

/-- One round of a `cache_batch_op_*` function with loop body `body`. -/
def MicaKv.serveCache (kv : MicaKv) (body : Hit → Except Fault Hit) (op : CacheOp) (resp : MicaResp) :
    Except Fault (MicaKv × CacheOp × MicaResp) :=
  if resp.type = .unservedMiss then .ok (kv, op, resp) else
  match kv.find op.key with
  | none => .ok (kv, op, ⟨.miss, 0, none⟩)
  | some p => do
    let h ← body ⟨kv.record p, op, resp⟩
    .ok (kv.writeBack p h.kv, h.op, h.resp)

/-! ## What a loop body does to the record -/

/-- The state is one of the five, or the one that was there. -/
def CacheMeta.From (m ol : CacheMeta) : Prop := ∀ c, m.state = .other c → ol.state = .other c

namespace Hit

/-- Only metadata is written. -/
def Leaves (h h' : Hit) : Prop := ∃ m, m.From h.kv.keyMeta ∧ h'.kv = h.kv.setMeta m

/-- Metadata and value are written. -/
def Writes (h h' : Hit) : Prop := ∃ m, m.From h.kv.keyMeta ∧ h'.kv = (h.kv.store h.op).setMeta m

variable {machineNum machineId : ℕ} {h h' g : Hit} {ol m : CacheMeta} {t : RespType} {st : CacheState}

theorem leaves_self (h : Hit) (he : h'.kv = h.kv) : h.Leaves h' := ⟨h.kv.keyMeta, fun _ hc => hc, he⟩

theorem state_of_optikLock (hl : optikLock h.kv.keyMeta = .ok ol) : ol.state = h.kv.keyMeta.state := by
  unfold optikLock at hl
  split at hl
  · cases hl
    rfl
  · cases hl

theorem release_leaves (hok : g.release ol t = .ok h') (hg : g.kv = h.kv) (hs : ol.From h.kv.keyMeta) :
    h.Leaves h' ∧ h'.resp.type = t := by
  obtain ⟨ol', ho, he⟩ := bind_eq_ok.1 hok
  cases he
  unfold optikUnlockDecrementVersion at ho
  split at ho
  · cases ho
    refine ⟨⟨{ ol with version := ol.version - 1, lock := 0 }, hs, ?_⟩, rfl⟩
    rw [respond_kv, hg]
  · cases ho

theorem optikUnlock_from {cid : UInt8} {v : UInt32} (ho : optikUnlock ol cid v = .ok m) (hs : ol.From h.kv.keyMeta) :
    m.From h.kv.keyMeta := by
  unfold optikUnlock at ho
  split at ho
  · cases ho
    exact hs
  · cases ho

theorem scUpd_outcome (hok : scUpd h = .ok h') : h.Writes h' ∨ (h.Leaves h' ∧ h'.resp.type = .updFail) := by
  simp only [scUpd, bind_eq_ok] at hok
  obtain ⟨_, -, ol, hl, hok⟩ := hok
  have hs : ol.From h.kv.keyMeta := fun c hc => state_of_optikLock hl ▸ hc
  split at hok
  · obtain ⟨m, hm, he⟩ := bind_eq_ok.1 hok
    cases he
    exact .inl ⟨m, optikUnlock_from hm hs, rfl⟩
  · exact .inr (release_leaves hok rfl hs)

theorem linUpd_outcome (hok : linUpd h = .ok h') : h.Writes h' ∨ (h.Leaves h' ∧ h'.resp.type = .updFail) := by
  simp only [linUpd, bind_eq_ok] at hok
  obtain ⟨_, -, ol, hl, hok⟩ := hok
  split at hok
  · obtain ⟨m, hm, he⟩ := bind_eq_ok.1 hok
    cases he
    exact .inl ⟨m, optikUnlock_from hm (fun c hc => by cases hc), rfl⟩
  · exact .inr (release_leaves hok rfl fun c hc => state_of_optikLock hl ▸ hc)

theorem scPut_outcome (hok : scPut machineId h = .ok h') : h.Writes h' := by
  simp only [scPut, bind_eq_ok] at hok
  obtain ⟨_, -, ol, hl, hok⟩ := hok
  cases hok
  exact ⟨(optikUnlockWrite ol (.ofNat machineId)).1, fun c hc => state_of_optikLock hl ▸ hc, rfl⟩

theorem readUnlocked_outcome (hok : h.readUnlocked g = .ok h') (hg : g.kv = h.kv) : h.Leaves h' := by
  cases readUnlocked_eq hok
  exact leaves_self h hg

theorem readLocked_outcome (hok : h.readLocked = .ok h') : h.Leaves h' := by
  obtain ⟨ol, hl, hok⟩ := bind_eq_ok.1 hok
  have hs : ol.From h.kv.keyMeta := fun c hc => state_of_optikLock hl ▸ hc
  have hnew : ∀ st, (∀ c, st ≠ .other c) → ({ ol with state := st } : CacheMeta).From h.kv.keyMeta :=
    fun st hst c hc => absurd hc (hst c)
  split at hok
  · exact (release_leaves hok rfl hs).1
  · exact (release_leaves hok rfl hs).1
  · exact (release_leaves hok rfl hs).1
  · exact (release_leaves hok rfl (hnew _ (by simp))).1
  · exact (release_leaves hok rfl (hnew _ (by simp))).1
  · cases hok

theorem linGet_outcome (hok : linGet h = .ok h') : h.Leaves h' := by
  obtain ⟨g, hg, he⟩ := bind_eq_ok.1 hok
  cases he
  have hleaves : h.Leaves g := by
    unfold getSwitch at hg
    split at hg
    · exact readUnlocked_outcome hg rfl
    · exact readUnlocked_outcome hg rfl
    · exact readUnlocked_outcome hg rfl
    · exact readLocked_outcome hg
  exact hleaves

theorem overlay_writes (hst : ∀ c, st ≠ .other c) :
    h.Writes (h.overlay machineNum ol st) ∧ (h.overlay machineNum ol st).resp.type = .putSuccess :=
  ⟨⟨(optikUnlockWrite { ol with state := st, pendingAcks := .ofNat (machineNum - 1) } h.op.keyMeta.cid).1,
    fun c hc => absurd hc (hst c), rfl⟩, rfl⟩

theorem putSwitch_outcome (hs : ol.From h.kv.keyMeta) (hok : h.putSwitch machineNum ol = .ok g) :
    (h.Writes g ∧ g.resp.type = .putSuccess) ∨ (h.Leaves g ∧ (g.resp.type = .putFail ∨ g.resp.type = .putStall)) := by
  unfold putSwitch at hok
  split at hok
  · cases hok
    exact .inl (overlay_writes (by simp))
  · cases hok
    exact .inl (overlay_writes (by simp))
  · split at hok
    · cases hok
      exact .inl (overlay_writes (by simp))
    · exact .inr ((release_leaves hok rfl hs).imp_right .inl)
  · exact .inr ((release_leaves hok rfl hs).imp_right .inr)
  · split at hok
    · cases hok
      exact .inl (overlay_writes (by simp))
    · split at hok
      · exact .inr ((release_leaves hok rfl hs).imp_right .inr)
      · exact .inr ((release_leaves hok rfl hs).imp_right .inl)
  · cases hok

theorem linPut_outcome (hok : linPut machineNum machineId h = .ok h') :
    h.Writes h' ∨ (h.Leaves h' ∧ (h'.resp.type = .putFail ∨ h'.resp.type = .putStall)) := by
  simp only [linPut, bind_eq_ok] at hok
  obtain ⟨_, -, ol, hl, g, hg, hok⟩ := hok
  have hs : ol.From h.kv.keyMeta := fun c hc => state_of_optikLock hl ▸ hc
  rcases putSwitch_outcome hs hg with ⟨hw, ht⟩ | ⟨hle, ht⟩
  · rw [if_pos ht] at hok
    cases hok
    exact .inl hw
  · rw [if_neg (by rcases ht with ht | ht <;> simp [ht])] at hok
    cases hok
    exact .inr ⟨hle, ht⟩

theorem invalidate_outcome {greater : Bool} (hs : ol.From h.kv.keyMeta) (hst : ∀ c, st ≠ .other c)
    (hok : h.invalidate ol greater st = .ok g) : h.Leaves g := by
  unfold invalidate at hok
  split at hok
  · obtain ⟨m, hm, he⟩ := bind_eq_ok.1 hok
    cases he
    exact ⟨m, optikUnlock_from hm fun c hc => absurd hc (hst c), rfl⟩
  · exact (release_leaves hok rfl hs).1

theorem linInv_outcome (hok : linInv machineId h = .ok h') : h.Leaves h' := by
  simp only [linInv, bind_eq_ok] at hok
  obtain ⟨ol, hl, g, hg, hok⟩ := hok
  cases hok
  have hs : ol.From h.kv.keyMeta := fun c hc => state_of_optikLock hl ▸ hc
  have hleaves : h.Leaves g := by
    unfold invSwitch at hg
    split at hg
    any_goals exact invalidate_outcome hs (by simp) hg
    cases hg
  exact hleaves

theorem linAck_outcome (hok : linAck machineId h = .ok h') : h.Leaves h' := by
  simp only [linAck, bind_eq_ok] at hok
  obtain ⟨ol, hl, hok⟩ := hok
  have hs : ol.From h.kv.keyMeta := fun c hc => state_of_optikLock hl ▸ hc
  split at hok
  · split at hok
    · exact (release_leaves hok rfl fun c hc => by cases hc).1
    · exact (release_leaves hok rfl hs).1
  · exact (release_leaves hok rfl hs).1

/-- Either metadata and value are written, or only metadata and a PUT or UPD does not succeed. -/
def Served (h h' : Hit) : Prop := h.Writes h' ∨ (h.Leaves h' ∧ (h.op.opcode = .put ∨ h.op.opcode = .upd →
  h'.resp.type ≠ .putSuccess ∧ h'.resp.type ≠ .updSuccess))

/-- What stays of a record. -/
theorem Served.fields (hs : h.Served h') : h'.kv.key = h.kv.key ∧ h'.kv.opcode = h.kv.opcode ∧ h'.kv.valLen = h.kv.valLen ∧
    h'.kv.keyMeta.From h.kv.keyMeta := by
  rcases hs with ⟨m, hm, he⟩ | ⟨⟨m, hm, he⟩, -⟩
  · rw [he]
    exact ⟨rfl, rfl, rfl, hm⟩
  · rw [he]
    exact ⟨rfl, rfl, rfl, hm⟩

theorem Leaves.served (hl : h.Leaves h') (hop : h.op.opcode ≠ .put ∧ h.op.opcode ≠ .upd) : h.Served h' :=
  .inr ⟨hl, fun ho => absurd ho (not_or.2 hop)⟩

theorem served_of_upd (hu : h.Writes h' ∨ (h.Leaves h' ∧ h'.resp.type = .updFail)) : h.Served h' :=
  hu.imp_right fun hl => ⟨hl.1, fun _ => by simp [hl.2]⟩

theorem served_of_put (hp : h.Writes h' ∨ (h.Leaves h' ∧ (h'.resp.type = .putFail ∨ h'.resp.type = .putStall))) :
    h.Served h' :=
  hp.imp_right fun hl => ⟨hl.1, fun _ => by rcases hl.2 with ht | ht <;> simp [ht]⟩

end Hit

open Hit in
theorem CacheFun.served {machineNum machineId : ℕ} {h h' : Hit} (f : CacheFun)
    (hok : f.body machineNum machineId h = .ok h') : h.Served h' := by
  have hbrc : h.op.opcode = .brc → (.ok h : Except Fault Hit) = .ok h' → h.Served h' := by
    intro hop he
    cases he
    exact (leaves_self h rfl).served (by simp [hop])
  cases f with
  | sc =>
    simp only [body, CcKvs.sc] at hok
    split at hok
    · next hop => exact (readUnlocked_outcome hok rfl).served (by simp [hop])
    · exact .inl (scPut_outcome hok)
    · exact served_of_upd (scUpd_outcome hok)
    · next hop => exact hbrc hop hok
    · cases hok
  | scWithCacheOp =>
    simp only [body, CcKvs.scWithCacheOp] at hok
    split at hok
    · exact served_of_upd (scUpd_outcome hok)
    · next hop => exact hbrc hop hok
    · cases hok
  | lin =>
    simp only [body, linNonStallingSessions] at hok
    split at hok
    · next hop => exact (linGet_outcome hok).served (by simp [hop])
    · exact served_of_put (linPut_outcome hok)
    · exact served_of_upd (linUpd_outcome hok)
    · next hop => exact (linInv_outcome hok).served (by simp [hop])
    · next hop => exact (linAck_outcome hok).served (by simp [hop])
    · next hop => exact hbrc hop hok
    · cases hok
  | linWithCacheOp =>
    simp only [body, linNonStallingSessionsWithCacheOp] at hok
    split at hok
    · exact served_of_upd (linUpd_outcome hok)
    · next hop => exact (linAck_outcome hok).served (by simp [hop])
    · next hop => exact hbrc hop hok
    · cases hok
  | linWithSmallCacheOp =>
    simp only [body, linNonStallingSessionsWithSmallCacheOp] at hok
    split at hok
    · next hop => exact (linInv_outcome hok).served (by simp [hop])
    · cases hok

/-! ## The record in memory -/

section

variable {L : UInt8} {kv kv' : MicaKv} {p : ℕ} {c op op' : CacheOp} {resp resp' : MicaResp} {h h' : Hit}

theorem CacheState.ofByte_toByte {st : CacheState} (hst : ∀ b, st = .other b → ∃ b', st = .ofByte b') :
    ofByte st.toByte = st := by
  cases st with
  | other b =>
    obtain ⟨b', hb'⟩ := hst b rfl
    have hne : ∀ n ∈ [1, 2, 3, 4, 5], b' ≠ n := by
      rintro n hn rfl
      fin_cases hn <;> simp [ofByte] at hb'
    simp only [List.mem_cons, List.not_mem_nil, or_false, forall_eq_or_imp, forall_eq] at hne
    obtain ⟨h1, h2, h3, h4, h5⟩ := hne
    simp only [ofByte, h1, h2, h3, h4, h5, if_false, other.injEq] at hb'
    subst hb'
    simp [toByte, ofByte, h1, h2, h3, h4, h5]
  | _ => rfl

/-- Metadata that a loop body leaves is read back as it was written. -/
theorem CacheMeta.From.ofBytes_toBytes {m : CacheMeta} {b : Bytes} (hm : m.From (.ofBytes b)) : ofBytes m.toBytes = m := by
  have hst : CacheState.ofByte m.state.toByte = m.state :=
    CacheState.ofByte_toByte fun c hc => ⟨b 0, hc.trans (hm c hc).symm⟩
  simp only [ofBytes, m.readLE_toBytes]
  exact congrArg (fun st => (⟨st, m.pendingAcks, m.cid, m.lock, m.version⟩ : CacheMeta)) hst

/-- Writing a record back is an update with the record's value. -/
theorem MicaKv.writeBack_updated (hl : c.valLen = (kv.record p).valLen) :
    Updated c.valLen kv (fun i => c.value (i - micaOpMetadata)) p (kv.writeBack p c) := by
  have hv : Bytes.drop (fun i => c.value (i - micaOpMetadata)) micaOpMetadata = c.value := by
    funext i
    simp [Bytes.drop]
  have hlog : (kv.writeBack p c).htLog =
      (kv.copyValue (fun i => c.value (i - micaOpMetadata)) p).write p c.keyMeta.toBytes 8 := by
    simp only [writeBack, copyValue, hv, hl]
  rw [hl]
  exact updated_of_writes ⟨rfl, rfl, rfl, rfl, rfl⟩ (Nat.le_refl 8) hlog

/-- The record that a loop body has left. -/
theorem MicaKv.record_writeBack (hs : h.Served h') (hp : h.kv = kv.record p) :
    CacheOp.Same h'.kv.valLen.toNat ((kv.writeBack p h'.kv).record p) h'.kv ∧ h'.kv.valLen = (kv.record p).valLen ∧
      h'.kv.key = (kv.record p).key := by
  obtain ⟨hkey, hoc, hlen, hmeta⟩ := hp ▸ hs.fields
  have u := writeBack_updated hlen
  have hv : Bytes.drop (fun i => h'.kv.value (i - micaOpMetadata)) micaOpMetadata = h'.kv.value := by
    funext i
    simp [Bytes.drop]
  have hoc' : ((kv.writeBack p h'.kv).record p).opcode = (kv.record p).opcode := by
    have hb : (kv.writeBack p h'.kv).htLog (p + 16) = kv.htLog (p + 16) :=
      (if_neg (by omega)).trans (if_neg (by rw [micaOpMetadata_eq]; omega))
    exact congrArg Opcode.ofByte hb
  have hm' : ((kv.writeBack p h'.kv).record p).keyMeta = h'.kv.keyMeta :=
    (CacheMeta.ofBytes_congr (Bytes.agree_drop_write _ _ p 8)).trans hmeta.ofBytes_toBytes
  exact ⟨⟨hm', u.key.trans hkey.symm, hoc'.trans hoc.symm, u.valLen.trans hlen.symm, hv ▸ u.value⟩, hlen, hkey⟩

/-- The map from keys to records. -/
def MicaKv.cache (kv : MicaKv) : Cache := fun key => (kv.find key).map kv.record

theorem CacheOp.same_refl {n : ℕ} (c : Option CacheOp) : Option.Rel (Same n) c c := by
  cases c with
  | none => exact .none
  | some c => exact .some ⟨rfl, rfl, rfl, rfl, .refl _ _⟩

/-- A round in memory, with the record it works on. -/
theorem MicaKv.serveCache_eq_ok {body : Hit → Except Fault Hit} (hok : kv.serveCache body op resp = .ok (kv', op', resp')) :
    (kv' = kv ∧ op' = op ∧ (resp' = resp ∧ resp.type = .unservedMiss ∨ resp' = ⟨.miss, 0, none⟩ ∧ kv.find op.key = none ∧
      resp.type ≠ .unservedMiss)) ∨
    ∃ p h, resp.type ≠ .unservedMiss ∧ kv.find op.key = some p ∧ body ⟨kv.record p, op, resp⟩ = .ok h ∧
      kv' = kv.writeBack p h.kv ∧ op' = h.op ∧ resp' = h.resp := by
  unfold serveCache at hok
  split at hok
  · next hs =>
    cases hok
    exact .inl ⟨rfl, rfl, .inl ⟨rfl, hs⟩⟩
  · next hs =>
    split at hok
    · next hn =>
      cases hok
      exact .inl ⟨rfl, rfl, .inr ⟨rfl, hn, hs⟩⟩
    · next p hp =>
      obtain ⟨h, hb, he⟩ := bind_eq_ok.1 hok
      cases he
      exact .inr ⟨p, h, hs, hp, hb, rfl, rfl, rfl⟩

/-- A hit is an update of its record. -/
theorem MicaKv.Inv.updated_of_hit (hi : kv.Inv L) {p : ℕ} (hp : kv.find op.key = some p) (hs : h.Served h')
    (hkv : h.kv = kv.record p) : ∃ x, kv.Reaches x ∧ kv.addr x = p ∧
      Updated L kv (fun i => h'.kv.value (i - micaOpMetadata)) p (kv.writeBack p h'.kv) := by
  obtain ⟨x, hx, hxp, -⟩ := hi.find_eq_some.1 hp
  obtain ⟨-, hlen, -⟩ := record_writeBack hs hkv
  have hL : h'.kv.valLen = L := by
    rw [hlen, ← hxp]
    exact hi.valLen x hx
  exact ⟨x, hx, hxp, hL ▸ writeBack_updated hlen⟩

/-- **The cache in memory is the cache as a map**: a round answers as one on the map does, and
leaves the records that one leaves. -/
theorem MicaKv.Inv.serveCache {machineNum machineId : ℕ} {f : CacheFun} (hi : kv.Inv L)
    (hok : kv.serveCache (f.body machineNum machineId) op resp = .ok (kv', op', resp')) :
    kv'.Inv L ∧ ∃ cache', kv.cache.serve (f.body machineNum machineId) op resp = .ok (cache', op', resp') ∧
      ∀ key, Option.Rel (CacheOp.Same L.toNat) (kv'.cache key) (cache' key) := by
  have hrefl : ∀ key, Option.Rel (CacheOp.Same L.toNat) (kv.cache key) (kv.cache key) := fun key => CacheOp.same_refl _
  rcases serveCache_eq_ok hok with ⟨rfl, rfl, ⟨rfl, hs⟩ | ⟨rfl, hn, hs⟩⟩ | ⟨p, h, hs, hp, hb, rfl, rfl, rfl⟩
  · exact ⟨hi, _, by simp only [Cache.serve, if_pos hs], hrefl⟩
  · have hc : kv'.cache op'.key = none := by simp [cache, hn]
    exact ⟨hi, _, by simp only [Cache.serve, if_neg hs, hc], hrefl⟩
  · have hserved := f.served hb
    obtain ⟨x, hx, hxp, u⟩ := hi.updated_of_hit hp hserved rfl
    obtain ⟨hsame, hlen, -⟩ := record_writeBack hserved rfl
    have hL : h.kv.valLen = L := hlen.trans (hxp ▸ hi.valLen x hx)
    rw [hL] at hsame
    subst hxp
    refine ⟨u.inv hi hx, Function.update kv.cache op.key (some h.kv), ?_, fun key => ?_⟩
    · have hc : kv.cache op.key = some (kv.record (kv.addr x)) := by simp [cache, hp]
      simp only [Cache.serve, if_neg hs, hc]
      exact bind_eq_ok.2 ⟨h, hb, rfl⟩
    · unfold cache
      rw [u.find_eq hi hx]
      by_cases hk : key = op.key
      · subst hk
        rw [hp, Function.update_self]
        exact .some hsame
      · rw [Function.update_of_ne hk]
        cases hq : kv.find key with
        | none => exact .none
        | some q =>
          obtain ⟨y, hy, rfl, hky⟩ := hi.find_eq_some.1 hq
          have hyx : y ≠ x := by
            rintro rfl
            obtain ⟨-, -, -, hkx⟩ := hi.find_eq_some.1 hp
            exact hk (hky.symm.trans hkx)
          exact .some (u.same hi hx hy hyx)

end

end CcKvs
