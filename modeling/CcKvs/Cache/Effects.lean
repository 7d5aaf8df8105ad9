/-
What an operation may change. The body of the loop locks the record before it
compares anything, and locking adds one to the version; so every branch that
turns the operation down has to take that back. On memory this says: if an
operation is rejected, not a byte of the hash table is different afterwards; a
read that stalls writes the state byte of its record only; and every other
operation leaves the records of other keys alone.
-/
import CcKvs.Cache.Memory
import CcKvs.Mica.Map

namespace CcKvs

open MicaKv Function

/-- The cache has not carried the operation out. -/
def RespType.Rejects (t : RespType) : Prop :=
  t = .miss ∨ t = .putFail ∨ t = .putStall ∨ t = .updFail ∨ t = .invFail ∨ t = .ackFail

instance (t : RespType) : Decidable t.Rejects := inferInstanceAs (Decidable (_ ∨ _))

namespace Hit

variable {machineNum machineId : ℕ} {h h' g : Hit} {t : RespType} {st : CacheState} {greater : Bool}

/-! ## Records -/

/-- The lock is taken back if the operation is rejected, and a read that stalls only marks the
record. -/
structure Restores (h h' : Hit) : Prop where
  rejected : h'.resp.type.Rejects → h'.kv = h.kv
  stalled : h'.resp.type = .getStall → h'.kv = h.kv.setMeta (h.kv.keyMeta.become h.kv.keyMeta.state.replay)

theorem restores_of_accepts (ht : h'.resp.type = t) (ha : ¬ t.Rejects ∧ t ≠ .getStall) : h.Restores h' :=
  ⟨fun h => absurd (ht ▸ h) ha.1, fun h => absurd (ht.symm.trans h) ha.2⟩

theorem restores_of_eq (he : h'.kv = h.kv) (ht : h'.resp.type = t) (hs : t ≠ .getStall) : h.Restores h' :=
  ⟨fun _ => he, fun h => absurd (ht.symm.trans h) hs⟩

/-- Unlocking what was locked gives the record back. -/
theorem release_locked (hi : h.kv.keyMeta.Idle) (hok : h.release h.kv.keyMeta.locked t = .ok h') : h' = h.respond t := by
  obtain ⟨⟨⟨st, pa, cid, l, v⟩, key, oc, vl, val⟩, op, resp⟩ := h
  obtain ⟨rfl, hv⟩ := hi
  rw [CacheMeta.locked, release_mk hv] at hok
  exact (Except.ok.inj hok).symm

theorem restores_of_release (hi : h.kv.keyMeta.Idle) (hok : h.release h.kv.keyMeta.locked t = .ok h')
    (hs : t ≠ .getStall) : h.Restores h' := by
  cases release_locked hi hok
  exact restores_of_eq rfl (respond_type _ _) hs

theorem scUpd_restores (hi : h.kv.keyMeta.Idle) (hok : scUpd h = .ok h') : h.Restores h' := by
  simp only [scUpd, bind_eq_ok] at hok
  obtain ⟨_, -, ol, hl, hok⟩ := hok
  rw [hi.lock] at hl
  cases hl
  split at hok
  · obtain ⟨m, -, he⟩ := bind_eq_ok.1 hok
    cases he
    exact restores_of_accepts (respond_type _ _) (by decide)
  · exact restores_of_release hi hok (by decide)

theorem linGet_restores (hi : h.kv.keyMeta.Idle) (hok : linGet h = .ok h') : h.Restores h' := by
  rcases linGet_idle hi hok with ⟨-, -, hr⟩ | ⟨-, ht, hkv⟩
  · have ht : h'.resp.type = .getSuccess := congrArg MicaResp.type hr
    exact restores_of_accepts ht (by decide)
  · exact ⟨fun hrej => absurd hrej (by rw [ht]; decide), fun _ => hkv⟩

theorem linPut_restores (hi : h.kv.keyMeta.Idle) (hok : linPut machineNum machineId h = .ok h') : h.Restores h' := by
  rcases linPut_idle hi hok with ⟨hr, -⟩ | ⟨-, rfl | rfl⟩
  · exact restores_of_accepts (congrArg MicaResp.type hr) (by decide)
  · exact restores_of_eq rfl (respond_type _ _) (by decide)
  · exact restores_of_eq rfl (respond_type _ _) (by decide)

theorem linUpd_restores (hi : h.kv.keyMeta.Idle) (hok : linUpd h = .ok h') : h.Restores h' := by
  rcases linUpd_idle hi hok with ⟨-, -, -, rfl⟩ | ⟨-, rfl⟩
  · exact restores_of_accepts (respond_type _ _) (by decide)
  · exact restores_of_eq rfl (respond_type _ _) (by decide)

theorem invalidate_restores (hi : h.kv.keyMeta.Idle) (hok : h.invalidate h.kv.keyMeta.locked greater st = .ok g) :
    h.Restores g := by
  unfold invalidate at hok
  split at hok
  · obtain ⟨m, -, he⟩ := bind_eq_ok.1 hok
    cases he
    exact restores_of_accepts (respond_type _ _) (by decide)
  · exact restores_of_release hi hok (by decide)

/-- The version of the message need not be even. -/
theorem linInv_restores (hi : h.kv.keyMeta.Idle) (hok : linInv machineId h = .ok h') : h.Restores h' := by
  simp only [linInv, bind_eq_ok] at hok
  obtain ⟨ol, hl, g, hg, hok⟩ := hok
  rw [hi.lock] at hl
  cases hl
  cases hok
  have hrestores : h.Restores g := by
    unfold invSwitch at hg
    split at hg
    any_goals exact invalidate_restores hi hg
    cases hg
  exact ⟨hrestores.rejected, hrestores.stalled⟩

theorem linAck_restores (hi : h.kv.keyMeta.Idle) (hok : linAck machineId h = .ok h') : h.Restores h' := by
  rcases linAck_idle hi hok with ⟨-, -, ⟨-, rfl⟩ | ⟨-, rfl⟩⟩ | ⟨-, rfl⟩
  · exact restores_of_accepts (respond_type _ _) (by decide)
  · exact restores_of_accepts (respond_type _ _) (by decide)
  · exact restores_of_eq rfl (respond_type _ _) (by decide)

end Hit

open Hit in
theorem CacheFun.restores {machineNum machineId : ℕ} {h h' : Hit} (f : CacheFun) (hi : h.kv.keyMeta.Idle)
    (hok : f.body machineNum machineId h = .ok h') : h.Restores h' ∨ h' = h := by
  have hbrc : (.ok h : Except Fault Hit) = .ok h' → h.Restores h' ∨ h' = h := fun he => .inr (Except.ok.inj he).symm
  cases f with
  | sc =>
    simp only [body, CcKvs.sc] at hok
    split at hok
    · rw [scGet_idle hi] at hok
      cases hok
      exact .inl (restores_of_accepts (show h.found.resp.type = .getSuccess from rfl) (by decide))
    · exact .inl (restores_of_accepts (scPut_answer hok).2 (by decide))
    · exact .inl (scUpd_restores hi hok)
    · exact hbrc hok
    · cases hok
  | scWithCacheOp =>
    simp only [body, CcKvs.scWithCacheOp] at hok
    split at hok
    · exact .inl (scUpd_restores hi hok)
    · exact hbrc hok
    · cases hok
  | lin =>
    simp only [body, linNonStallingSessions] at hok
    split at hok
    · exact .inl (linGet_restores hi hok)
    · exact .inl (linPut_restores hi hok)
    · exact .inl (linUpd_restores hi hok)
    · exact .inl (linInv_restores hi hok)
    · exact .inl (linAck_restores hi hok)
    · exact hbrc hok
    · cases hok
  | linWithCacheOp =>
    simp only [body, linNonStallingSessionsWithCacheOp] at hok
    split at hok
    · exact .inl (linUpd_restores hi hok)
    · exact .inl (linAck_restores hi hok)
    · exact hbrc hok
    · cases hok
  | linWithSmallCacheOp =>
    simp only [body, linNonStallingSessionsWithSmallCacheOp] at hok
    split at hok
    · exact .inl (linInv_restores hi hok)
    · cases hok

/-! ## Memory -/

theorem CacheState.toByte_ofByte (b : UInt8) : (ofByte b).toByte = b := by
  unfold ofByte
  split_ifs <;> simp [toByte, *]

/-- The bytes of metadata that was read, with another state. -/
theorem CacheMeta.toBytes_become (b : Bytes) (st : CacheState) :
    Bytes.Agree 8 ((CacheMeta.ofBytes b).become st).toBytes (update b 0 st.toByte) := by
  intro i hi
  match i with
  | 0 => rfl
  | 1 => rfl
  | 2 => rfl
  | 3 => rfl
  | i + 4 =>
    have hlt : Bytes.readLE 4 (b.drop 4) < 256 ^ 4 := Bytes.readLE_lt 4 _
    have hv : (UInt32.ofNat (Bytes.readLE 4 (b.drop 4))).toNat = Bytes.readLE 4 (b.drop 4) := by
      rw [UInt32.toNat_ofNat', Nat.mod_eq_of_lt (by simpa using hlt)]
    show Bytes.le (UInt32.ofNat (Bytes.readLE 4 (b.drop 4))).toNat i = _
    rw [hv, Bytes.le_readLE (by omega), update_of_ne (by omega), Bytes.drop, Nat.add_comm]

namespace MicaKv

variable {kv kv' : MicaKv} {p : ℕ} {L : UInt8} {op op' : CacheOp} {resp resp' : MicaResp}

/-- A record that only has another state is one byte of the log. -/
theorem writeBack_become (kv : MicaKv) (p : ℕ) (st : CacheState) :
    kv.writeBack p ((kv.record p).setMeta ((kv.record p).keyMeta.become st)) =
      { kv with htLog := update kv.htLog p st.toByte } := by
  have hlog : ((kv.htLog.write (p + micaOpMetadata) (kv.record p).value (kv.record p).valLen.toNat).write p
      ((kv.record p).keyMeta.become st).toBytes 8) = update kv.htLog p st.toByte := by
    rw [show (kv.record p).value = kv.htLog.drop (p + micaOpMetadata) from Bytes.drop_drop _ _ _, Bytes.write_drop_self]
    funext i
    unfold Bytes.write
    split
    · next hin =>
      rw [show ((kv.record p).keyMeta.become st).toBytes (i - p) = _ from
        CacheMeta.toBytes_become (kv.htLog.drop p) st (i - p) (by omega)]
      by_cases h0 : i = p
      · subst h0
        rw [Nat.sub_self, update_self, update_self]
      · rw [update_of_ne (by omega), update_of_ne h0, Bytes.drop, Nat.add_sub_cancel' hin.1]
    · next hout => rw [update_of_ne (by omega)]
  show ({ kv with htLog := _ } : MicaKv) = _
  rw [← hlog]
  rfl

theorem writeBack_record (kv : MicaKv) (p : ℕ) : kv.writeBack p (kv.record p) = kv := by
  have h := kv.writeBack_become p (kv.record p).keyMeta.state
  have hbyte : (kv.record p).keyMeta.state.toByte = kv.htLog p := CacheState.toByte_ofByte _
  rw [hbyte, update_eq_self] at h
  exact h

/-- The marks a read leaves when it stalls. -/
inductive Marks : CacheState → CacheState → Prop
  | invalid : Marks .invalid .invalidReplay
  | write : Marks .write .writeReplay

theorem replay_cases (st : CacheState) : st.replay = st ∨ Marks st st.replay := by
  cases st with
  | invalid => exact .inr .invalid
  | write => exact .inr .write
  | _ => exact .inl rfl

/-- **A rejected operation leaves the hash table byte for byte as it was**, a stalled read
changes the state of its record only, and no operation touches the index or another key. -/
theorem Inv.serveCache_effects {machineNum machineId : ℕ} {f : CacheFun} (hi : kv.Inv L) (hu : kv.Unlocked)
    (hok : kv.serveCache (f.body machineNum machineId) op resp = .ok (kv', op', resp')) :
    (resp'.type.Rejects → kv' = kv) ∧
    (resp'.type = .getStall → kv' = kv ∨ ∃ p st, kv.find op.key = some p ∧ Marks (kv.record p).keyMeta.state st ∧
      kv' = { kv with htLog := update kv.htLog p st.toByte }) ∧
    SameIndex kv kv' ∧ (∀ key, key ≠ op.key → Option.Rel (CacheOp.Same L.toNat) (kv'.cache key) (kv.cache key)) ∧
    ∀ c, kv.cache op.key = some c →
      ∃ c', kv'.cache op.key = some c' ∧ c'.key = c.key ∧ c'.opcode = c.opcode ∧ c'.valLen = c.valLen := by
  rcases serveCache_eq_ok hok with ⟨rfl, -, -⟩ | ⟨p, h, hs, hp, hb, rfl, rfl, rfl⟩
  · exact ⟨fun _ => rfl, fun _ => .inl rfl, ⟨rfl, rfl, rfl, rfl, rfl⟩, fun key _ => CacheOp.same_refl _,
      fun c hc => ⟨c, hc, rfl, rfl, rfl⟩⟩
  · obtain ⟨x, hx, rfl, -⟩ := hi.find_eq_some.1 hp
    have hcached : kv.cache op.key = some (kv.record (kv.addr x)) := by simp [cache, hp]
    obtain ⟨-, cache', hmap, hrel⟩ := hi.serveCache hok
    obtain ⟨h', hb', rfl, -, -⟩ := Cache.serve_hit hs hcached hmap
    cases hb.symm.trans hb'
    obtain ⟨hkey, hoc, hlen, -⟩ := (f.served hb).fields
    refine ⟨?_, ?_, ⟨rfl, rfl, rfl, rfl, rfl⟩, ?_, ?_⟩
    · intro hrej
      have hkv : h.kv = kv.record (kv.addr x) := by
        rcases f.restores (hu x hx) hb with hr | rfl
        · exact hr.rejected hrej
        · rfl
      rw [hkv, writeBack_record]
    · intro hstall
      rcases f.restores (hu x hx) hb with hr | rfl
      · rw [hr.stalled hstall]
        rcases replay_cases (kv.record (kv.addr x)).keyMeta.state with hst | hst
        · left
          show kv.writeBack (kv.addr x) ((kv.record (kv.addr x)).setMeta ((kv.record (kv.addr x)).keyMeta.become _)) = kv
          rw [hst]
          exact kv.writeBack_record (kv.addr x)
        · exact .inr ⟨_, _, hp, hst, kv.writeBack_become _ _⟩
      · exact .inl (kv.writeBack_record _)
    · intro key hk
      have hother := hrel key
      rwa [update_of_ne hk] at hother
    · intro c hc
      cases hcached.symm.trans hc
      have hself := hrel op.key
      rw [update_self] at hself
      cases hc' : (kv.writeBack (kv.addr x) h.kv).cache op.key with
      | none =>
        rw [hc'] at hself
        cases hself
      | some c' =>
        rw [hc'] at hself
        cases hself with
        | some hsame => exact ⟨c', rfl, hsame.key.trans hkey, hsame.opcode.trans hoc, hsame.valLen.trans hlen⟩

end MicaKv

/-- An invalidation that is not newer than the record. -/
def lateInv : CacheOp := ⟨⟨.valid, 0, 0, 0, 0⟩, 0, .inv, 0, fun _ => 0⟩

theorem serveCache_effects_lateInv : ∃ (kv kv' : MicaKv) (op' : CacheOp) (resp' : MicaResp), kv.Inv 32 ∧ kv.Unlocked ∧ (kv.find 0).isSome ∧
    kv.serveCache (CacheFun.lin.body 4 2) lateInv ⟨.empty, 0, none⟩ = .ok (kv', op', resp') ∧ resp'.type = .invFail ∧
    kv' = kv := by
  have hstep : (store .shipped 2 32).step (freshKv (2 ^ 30)) ⟨putRequest 0 1, ⟨.putSuccess, none⟩⟩
      (storeAfter (2 ^ 30) [putRequest 0 1]) :=
    ⟨by decide, fun _ _ => by decide, rfl⟩
  have hinit : (store .shipped 2 32).init (freshKv (2 ^ 30)) := ⟨_, _, _, 30, by omega, micaInit_freshKv (2 ^ 30)⟩
  obtain ⟨hi, hu, -⟩ := refines_lossyMap ((Lts.Run.nil hinit).snoc hstep)
  obtain ⟨⟨kv', op', resp'⟩, hok, ht⟩ := exists_ok_of_map (show
    ((storeAfter (2 ^ 30) [putRequest 0 1]).serveCache (CacheFun.lin.body 4 2) lateInv ⟨.empty, 0, none⟩).toOption.map
      (·.2.2.type) = some .invFail by decide +kernel)
  exact ⟨_, kv', op', resp', hi, hu, by decide +kernel, hok, ht, (hi.serveCache_effects hu hok).1 (by rw [ht]; decide)⟩

end CcKvs
