/-
The linearizable protocol's loop body (`cache_batch_op_lin_non_stalling_sessions`
and its two variants): what each operation does to the record it hits. After
each branch comes what it comes to on a record that is left unlocked and even
between operations, with the OPTIK bookkeeping gone.
-/
import CcKvs.Cache.Op

namespace CcKvs

section

variable (machineNum machineId : ℕ)

/-- The read under the lock that `INVALID_STATE` and `WRITE_STATE` take. -/
def Hit.readLocked (h : Hit) : Except Fault Hit := do
  let ol ← optikLock h.kv.keyMeta
  match ol.state with
  | .valid => h.found.release ol .getSuccess
  | .invalidReplay | .writeReplay => h.release ol .getStall
  | .invalid => h.release { ol with state := .invalidReplay } .getStall
  | .write => h.release { ol with state := .writeReplay } .getStall
  | .other _ => .error .badState

def Hit.getSwitch (h : Hit) : Except Fault Hit :=
  match h.kv.keyMeta.state with
  | .valid => h.readUnlocked h.found
  | .invalidReplay | .writeReplay => h.readUnlocked (h.respond .getStall)
  | _ => h.readLocked

def linGet (h : Hit) : Except Fault Hit := do
  let h' ← h.getSwitch
  .ok { h' with op := h'.op.setMeta { h'.op.keyMeta with state := h'.kv.keyMeta.state } }

/-- What the accepting cases of the PUT switch do, with the state they leave. -/
def Hit.overlay (h : Hit) (ol : CacheMeta) (st : CacheState) : Hit :=
  let (ol', version) :=
    optikUnlockWrite { ol with state := st, pendingAcks := .ofNat (machineNum - 1) } h.op.keyMeta.cid
  { kv := (h.kv.store h.op).setMeta ol'
    op := h.op.setMeta { h.op.keyMeta with version := version }
    resp := { h.resp with type := .putSuccess } }

def Hit.putSwitch (h : Hit) (ol : CacheMeta) : Except Fault Hit :=
  match ol.state with
  | .valid | .invalid => .ok (h.overlay machineNum ol .write)
  | .write =>
    if h.op.keyMeta.cid ≥ ol.cid then .ok (h.overlay machineNum ol .write) else h.release ol .putFail
  | .invalidReplay => h.release ol .putStall
  | .writeReplay =>
    if h.op.keyMeta.cid > ol.cid then .ok (h.overlay machineNum ol .writeReplay)
    else if h.op.keyMeta.cid = ol.cid then h.release ol .putStall
    else h.release ol .putFail
  | .other _ => .error .badState

def linPut (h : Hit) : Except Fault Hit := do
  h.assertValLen
  let ol ← optikLock h.kv.keyMeta
  let h' ← h.putSwitch machineNum ol
  if h'.resp.type = .putSuccess then
    .ok { h' with
      op := { h'.op.setMeta { h'.op.keyMeta with cid := .ofNat machineId } with opcode := .brc }
      resp := ⟨.putSuccess, 0, .none⟩ }
  else .ok h'

def linUpd (h : Hit) : Except Fault Hit := do
  h.assertValLen
  let ol ← optikLock h.kv.keyMeta
  if optikIsSameVersionPlusOne ol h.op.keyMeta && (ol.state == .invalid || ol.state == .invalidReplay) then
    let ol' ← optikUnlock { ol with state := .valid } h.op.keyMeta.cid h.op.keyMeta.version
    .ok ({ h with kv := (h.kv.store h.op).setMeta ol' }.respond .updSuccess)
  else h.release ol .updFail

/-- One case of the INV switch: the comparison it makes and the state it leaves. -/
def Hit.invalidate (h : Hit) (ol : CacheMeta) (greater : Bool) (st : CacheState) : Except Fault Hit := do
  if greater then
    let ol' ← optikUnlock { ol with state := st } h.op.keyMeta.cid h.op.keyMeta.version
    .ok ({ h with kv := h.kv.setMeta ol' }.respond .invSuccess)
  else h.release ol .invFail

def Hit.invSwitch (h : Hit) (ol : CacheMeta) : Except Fault Hit :=
  match ol.state with
  | .valid | .invalid => h.invalidate ol (optikIsGreaterVersion ol h.op.keyMeta) .invalid
  | .write => h.invalidate ol (optikIsGreaterVersionSession ol h.op.keyMeta machineId) .invalid
  | .invalidReplay => h.invalidate ol (optikIsGreaterVersion ol h.op.keyMeta) .invalidReplay
  | .writeReplay => h.invalidate ol (optikIsGreaterVersionSession ol h.op.keyMeta machineId) .invalidReplay
  | .other _ => .error .badState

def linInv (h : Hit) : Except Fault Hit := do
  let ol ← optikLock h.kv.keyMeta
  let h' ← h.invSwitch machineId ol
  .ok { h' with op := { h'.op with opcode := .ack } }

/-- The `cid` of the operation is set aside during the call and put back, so it stays. -/
def linAck (h : Hit) : Except Fault Hit := do
  let ol ← optikLock h.kv.keyMeta
  if (ol.state == .write || ol.state == .writeReplay) && ol.version == h.op.keyMeta.version + 1 then
    if ol.pendingAcks = 1 then
      h.release { ol with state := .valid, cid := .ofNat machineId, pendingAcks := 0 } .lastAckSuccess
    else h.release { ol with pendingAcks := ol.pendingAcks - 1 } .ackSuccess
  else h.release ol .ackFail

/-- The loop body of `cache_batch_op_lin_non_stalling_sessions`. -/
def linNonStallingSessions (h : Hit) : Except Fault Hit :=
  match h.op.opcode with
  | .get => linGet h
  | .put => linPut machineNum machineId h
  | .upd => linUpd h
  | .inv => linInv machineId h
  | .ack => linAck machineId h
  | .brc => .ok h
  | .other _ => .error .badOpcode

/-- The loop body of `cache_batch_op_lin_non_stalling_sessions_with_cache_op`. -/
def linNonStallingSessionsWithCacheOp (h : Hit) : Except Fault Hit :=
  match h.op.opcode with
  | .upd => linUpd h
  | .ack => linAck machineId h
  | .brc => .ok h
  | _ => .error .badOpcode

/-- The loop body of `cache_batch_op_lin_non_stalling_sessions_with_small_cache_op`. -/
def linNonStallingSessionsWithSmallCacheOp (h : Hit) : Except Fault Hit :=
  match h.op.opcode with
  | .inv => linInv machineId h
  | _ => .error .badOpcode

end

/-! ## What a record goes through -/

/-- The metadata with another state. -/
def CacheMeta.become (ol : CacheMeta) (st : CacheState) : CacheMeta := { ol with state := st }

/-- The state a stalled read leaves. -/
def CacheState.replay : CacheState → CacheState
  | .invalid => .invalidReplay
  | .write => .writeReplay
  | st => st

/-- The state an accepted write leaves. -/
def CacheState.written : CacheState → CacheState
  | .writeReplay => .writeReplay
  | _ => .write

/-- The state an accepted invalidation leaves. -/
def CacheState.invalidated : CacheState → CacheState
  | .invalidReplay | .writeReplay => .invalidReplay
  | _ => .invalid

/-- A local write is pending, so the `cid` is a session id. -/
def CacheState.Writing (st : CacheState) : Prop := st = .write ∨ st = .writeReplay

instance (st : CacheState) : Decidable st.Writing := inferInstanceAs (Decidable (_ ∨ _))

/-- A remote write has been announced and its value is awaited. -/
def CacheState.Invalidated (st : CacheState) : Prop := st = .invalid ∨ st = .invalidReplay

instance (st : CacheState) : Decidable st.Invalidated := inferInstanceAs (Decidable (_ ∨ _))

/-- The machine a record's stamp names: its own while it writes, else the one stored. -/
def CacheMeta.owner (ol : CacheMeta) (machineId : ℕ) : ℕ := if ol.state.Writing then machineId else ol.cid.toNat

theorem CacheMeta.owner_of_writing {ol : CacheMeta} {machineId : ℕ} (h : ol.state.Writing) :
    ol.owner machineId = machineId := if_pos h

theorem CacheMeta.owner_of_not_writing {ol : CacheMeta} {machineId : ℕ} (h : ¬ ol.state.Writing) :
    ol.owner machineId = ol.cid.toNat := if_neg h

theorem CacheState.Invalidated.not_writing {st : CacheState} (h : st.Invalidated) : ¬ st.Writing := by
  rcases h with rfl | rfl <;> decide

theorem CacheState.valid_not_writing : ¬ CacheState.valid.Writing := by decide

theorem CacheState.writing_of_replay {st : CacheState} (h : st.replay.Writing) : st.Writing := by
  cases st <;> simp_all [CacheState.replay, CacheState.Writing]

/-- One of the five states the switches have a case for. -/
def CacheState.Known (st : CacheState) : Prop := st = .valid ∨ st.Invalidated ∨ st.Writing

theorem CacheState.Known.not_other {st : CacheState} (h : st.Known) (code : UInt8) : st ≠ .other code := by
  rintro rfl
  rcases h with h | (h | h) | (h | h) <;> cases h

variable {machineNum machineId : ℕ} {h h' : Hit}

theorem linGet_idle (hi : h.kv.keyMeta.Idle) (hok : linGet h = .ok h') :
    (h.kv.keyMeta.state = .valid ∧ h'.kv = h.kv ∧ h'.resp = ⟨.getSuccess, h.kv.valLen, .some h.kv.value⟩) ∨
    (h.kv.keyMeta.state ≠ .valid ∧ h'.resp.type = .getStall ∧
      h'.kv = h.kv.setMeta (h.kv.keyMeta.become h.kv.keyMeta.state.replay)) := by
  simp only [linGet, Hit.getSwitch, bind_eq_ok, Except.ok.injEq] at hok
  obtain ⟨h₁, h₂, rfl⟩ := hok
  obtain ⟨⟨⟨st, pa, cid, l, v⟩, key, oc, vl, val⟩, op, resp⟩ := h
  obtain ⟨rfl, hv⟩ := hi
  cases st <;>
    simp only [Hit.readUnlocked_idle ⟨rfl, hv⟩, Hit.readLocked, optikLock, ite_true, bind_eq_ok, Except.ok.injEq,
      exists_eq_left', Hit.release_mk hv, reduceCtorEq] at h₂
  all_goals subst h₂
  case valid => exact .inl ⟨rfl, rfl, rfl⟩
  all_goals exact .inr ⟨by simp, rfl, rfl⟩

theorem linGet_valid (hi : h.kv.keyMeta.Idle) (hv : h.kv.keyMeta.state = .valid) :
    ∃ h', linGet h = .ok h' ∧ h'.resp.type = .getSuccess := by
  simp only [linGet, Hit.getSwitch, hv, Hit.readUnlocked_idle hi]
  exact ⟨_, rfl, rfl⟩

/-- The metadata under the lock. -/
def CacheMeta.locked (ol : CacheMeta) : CacheMeta := { ol with lock := 1, version := ol.version + 1 }

/-- The metadata of a record after an accepted local write by session `cid`. -/
def CacheMeta.afterPut (ol : CacheMeta) (machineNum : ℕ) (cid : UInt8) : CacheMeta :=
  ⟨ol.state.written, .ofNat (machineNum - 1), cid, 0, ol.version + 1 + 1⟩

theorem Hit.putSwitch_idle (hi : h.kv.keyMeta.Idle) (hok : h.putSwitch machineNum h.kv.keyMeta.locked = .ok h') :
    h' = h.overlay machineNum h.kv.keyMeta.locked h.kv.keyMeta.state.written ∨
    (h.kv.keyMeta.state ≠ .valid ∧ (h' = h.respond .putFail ∨ h' = h.respond .putStall)) := by
  obtain ⟨⟨⟨st, pa, cid, l, v⟩, key, oc, vl, val⟩, op, resp⟩ := h
  obtain ⟨rfl, hv⟩ := hi
  cases st <;> simp only [putSwitch, CacheMeta.locked, release_mk hv, Except.ok.injEq, reduceCtorEq] at hok
  case valid | invalid => exact .inl hok.symm
  case invalidReplay => exact .inr ⟨nofun, .inr hok.symm⟩
  case write =>
    split at hok
    · exact .inl (Except.ok.inj hok).symm
    · exact .inr ⟨nofun, .inl (Except.ok.inj hok).symm⟩
  case writeReplay =>
    split at hok
    · exact .inl (Except.ok.inj hok).symm
    · split at hok
      · exact .inr ⟨nofun, .inr (Except.ok.inj hok).symm⟩
      · exact .inr ⟨nofun, .inl (Except.ok.inj hok).symm⟩

theorem linPut_idle (hi : h.kv.keyMeta.Idle) (hok : linPut machineNum machineId h = .ok h') :
    (h'.resp = ⟨.putSuccess, 0, .none⟩ ∧
      h'.kv = (h.kv.store h.op).setMeta (h.kv.keyMeta.afterPut machineNum h.op.keyMeta.cid) ∧
      h'.op.opcode = .brc ∧ h'.op.keyMeta.version = h.kv.keyMeta.version + 1 + 1 ∧
      h'.op.keyMeta.cid = .ofNat machineId ∧ h'.op.value = h.op.value) ∨
    (h.kv.keyMeta.state ≠ .valid ∧ (h' = h.respond .putFail ∨ h' = h.respond .putStall)) := by
  simp only [linPut, bind_eq_ok] at hok
  obtain ⟨_, _, ol, hl, h₁, h₂, h₃⟩ := hok
  rw [hi.lock] at hl
  cases hl
  rcases Hit.putSwitch_idle hi h₂ with rfl | ⟨hs, rfl | rfl⟩
  · simp only [Hit.overlay, ite_true, Except.ok.injEq] at h₃
    subst h₃
    exact .inl ⟨rfl, rfl, rfl, rfl, rfl, rfl⟩
  · simp only [Hit.respond_type, reduceCtorEq, ite_false, Except.ok.injEq] at h₃
    exact .inr ⟨hs, .inl h₃.symm⟩
  · simp only [Hit.respond_type, reduceCtorEq, ite_false, Except.ok.injEq] at h₃
    exact .inr ⟨hs, .inr h₃.symm⟩

theorem linPut_valid (hi : h.kv.keyMeta.Idle) (hv : h.kv.keyMeta.state = .valid) (hl : h.op.valLen = h.kv.valLen) :
    ∃ h', linPut machineNum machineId h = .ok h' ∧ h'.resp.type = .putSuccess := by
  have ha : h.assertValLen = .ok () := if_pos hl
  simp only [linPut, ha, hi.lock, Hit.putSwitch, hv]
  exact ⟨_, rfl, rfl⟩

theorem linUpd_idle (hi : h.kv.keyMeta.Idle) (hok : linUpd h = .ok h') :
    (h.kv.keyMeta.state.Invalidated ∧ h.kv.keyMeta.version = h.op.keyMeta.version ∧
      h.kv.keyMeta.cid = h.op.keyMeta.cid ∧
      h' = { h with kv := (h.kv.store h.op).setMeta (h.kv.keyMeta.become .valid) }.respond .updSuccess) ∨
    (¬ (h.kv.keyMeta.state.Invalidated ∧ h.kv.keyMeta.version = h.op.keyMeta.version ∧
      h.kv.keyMeta.cid = h.op.keyMeta.cid) ∧ h' = h.respond .updFail) := by
  simp only [linUpd, bind_eq_ok] at hok
  obtain ⟨_, _, ol, hl, h₂⟩ := hok
  rw [hi.lock] at hl
  cases hl
  obtain ⟨⟨⟨st, pa, cid, l, v⟩, key, oc, vl, val⟩, op, resp⟩ := h
  obtain ⟨rfl, hv⟩ := hi
  simp only [optikIsSameVersionPlusOne, Bool.and_eq_true, beq_iff_eq, Bool.or_eq_true, UInt32.add_left_inj,
    Hit.release_mk hv] at h₂
  split at h₂
  · next hc =>
    obtain ⟨⟨hve, hce⟩, hs⟩ := hc
    simp only [optikUnlock, bind_eq_ok] at h₂
    simp only [← hve, ← hce, hv, ite_true, Except.ok.injEq, exists_eq_left'] at h₂
    exact .inl ⟨hs, hve, hce, h₂.symm⟩
  · next hc => exact .inr ⟨fun hx => hc ⟨hx.2, hx.1⟩, (Except.ok.inj h₂).symm⟩

/-- Whichever comparison the state selects, it compares the record's stamp with the message's. -/
theorem Hit.invSwitch_idle (hi : h.kv.keyMeta.Idle) (he : h.op.keyMeta.version % 2 = 0)
    (hok : h.invSwitch machineId h.kv.keyMeta.locked = .ok h') :
    h.invalidate h.kv.keyMeta.locked (decide (stamp h.kv.keyMeta.version (h.kv.keyMeta.owner machineId) <
      stamp h.op.keyMeta.version h.op.keyMeta.cid.toNat)) h.kv.keyMeta.state.invalidated = .ok h' := by
  have hg : optikIsGreaterVersion h.kv.keyMeta.locked h.op.keyMeta = decide (stamp h.kv.keyMeta.version
      h.kv.keyMeta.cid.toNat < stamp h.op.keyMeta.version h.op.keyMeta.cid.toNat) := by
    rw [Bool.eq_iff_iff, decide_eq_true_iff]
    exact hi.greater he
  have hs : optikIsGreaterVersionSession h.kv.keyMeta.locked h.op.keyMeta machineId = decide (stamp
      h.kv.keyMeta.version machineId < stamp h.op.keyMeta.version h.op.keyMeta.cid.toNat) := by
    rw [Bool.eq_iff_iff, decide_eq_true_iff]
    exact hi.greater_session he
  rw [invSwitch, hg, hs] at hok
  cases hst : h.kv.keyMeta.state <;> simp only [CacheMeta.locked, hst, reduceCtorEq] at hok <;>
    simpa [CacheMeta.owner, CacheState.Writing, hst, CacheState.invalidated, CacheMeta.locked] using hok

theorem linInv_idle (hi : h.kv.keyMeta.Idle) (he : h.op.keyMeta.version % 2 = 0) (hok : linInv machineId h = .ok h') :
    h'.op = { h.op with opcode := .ack } ∧
    ((stamp h.kv.keyMeta.version (h.kv.keyMeta.owner machineId) < stamp h.op.keyMeta.version h.op.keyMeta.cid.toNat ∧
      h'.resp.type = .invSuccess ∧
      h'.kv = h.kv.setMeta ⟨h.kv.keyMeta.state.invalidated, h.kv.keyMeta.pendingAcks, h.op.keyMeta.cid, 0,
        h.op.keyMeta.version⟩) ∨
    (¬ stamp h.kv.keyMeta.version (h.kv.keyMeta.owner machineId) <
        stamp h.op.keyMeta.version h.op.keyMeta.cid.toNat ∧ h'.resp.type = .invFail ∧ h'.kv = h.kv)) := by
  simp only [linInv, bind_eq_ok, Except.ok.injEq] at hok
  obtain ⟨ol, hl, h₁, h₂, rfl⟩ := hok
  rw [hi.lock] at hl
  cases hl
  have h₃ := Hit.invSwitch_idle hi he h₂
  obtain ⟨⟨⟨st, pa, cid, l, v⟩, key, oc, vl, val⟩, op, resp⟩ := h
  obtain ⟨rfl, hv⟩ := hi
  simp only [Hit.invalidate, decide_eq_true_eq, CacheMeta.locked, Hit.release_mk hv] at h₃
  split at h₃
  · next hc =>
    simp only [optikUnlock, he, ite_true, bind_eq_ok, Except.ok.injEq, exists_eq_left'] at h₃
    subst h₃
    exact ⟨rfl, .inl ⟨hc, rfl, rfl⟩⟩
  · next hc =>
    cases h₃
    exact ⟨rfl, .inr ⟨hc, rfl, rfl⟩⟩

/-- One acknowledgement fewer is pending. -/
def CacheMeta.acked (ol : CacheMeta) : CacheMeta := { ol with pendingAcks := ol.pendingAcks - 1 }

/-- The last acknowledgement is in: the write is done and the `cid` is the writer's again. -/
def CacheMeta.completed (ol : CacheMeta) (machineId : ℕ) : CacheMeta :=
  ⟨.valid, 0, .ofNat machineId, ol.lock, ol.version⟩

theorem linAck_idle (hi : h.kv.keyMeta.Idle) (hok : linAck machineId h = .ok h') :
    (h.kv.keyMeta.state.Writing ∧ h.kv.keyMeta.version = h.op.keyMeta.version ∧
      (h.kv.keyMeta.pendingAcks = 1 ∧
          h' = { h with kv := h.kv.setMeta (h.kv.keyMeta.completed machineId) }.respond .lastAckSuccess ∨
        h.kv.keyMeta.pendingAcks ≠ 1 ∧
          h' = { h with kv := h.kv.setMeta h.kv.keyMeta.acked }.respond .ackSuccess)) ∨
    (¬ (h.kv.keyMeta.state.Writing ∧ h.kv.keyMeta.version = h.op.keyMeta.version) ∧ h' = h.respond .ackFail) := by
  simp only [linAck, bind_eq_ok] at hok
  obtain ⟨ol, hl, h₂⟩ := hok
  rw [hi.lock] at hl
  cases hl
  obtain ⟨⟨⟨st, pa, cid, l, v⟩, key, oc, vl, val⟩, op, resp⟩ := h
  obtain ⟨rfl, hv⟩ := hi
  simp only [Bool.and_eq_true, beq_iff_eq, Bool.or_eq_true, UInt32.add_left_inj, Hit.release_mk hv] at h₂
  split at h₂
  · next hc =>
    refine .inl ⟨hc.1, hc.2, ?_⟩
    split at h₂
    · next hp => exact .inl ⟨hp, (Except.ok.inj h₂).symm⟩
    · next hp => exact .inr ⟨hp, (Except.ok.inj h₂).symm⟩
  · next hc => exact .inr ⟨hc, (Except.ok.inj h₂).symm⟩

/-! ## Assertions

On a record that is left as it should be, in a state that is known, no assertion but the one on
the value's length can fail. -/

/-- The call returns, or the operation's value is not of the record's length. -/
def Hit.Safe (h : Hit) (x : Except Fault Hit) : Prop :=
  (∃ h', x = .ok h') ∨ h.op.valLen ≠ h.kv.valLen ∧ x = .error .valLen

theorem Hit.safe_assertValLen {f : Unit → Except Fault Hit} (hf : h.op.valLen = h.kv.valLen → ∃ h', f () = .ok h') :
    h.Safe (h.assertValLen >>= f) := by
  by_cases hl : h.op.valLen = h.kv.valLen
  · obtain ⟨h', hh⟩ := hf hl
    exact .inl ⟨h', bind_eq_ok.2 ⟨(), if_pos hl, hh⟩⟩
  · have he : h.assertValLen = .error .valLen := if_neg hl
    exact .inr ⟨hl, by rw [he]; rfl⟩

theorem linGet_total (hi : h.kv.keyMeta.Idle) (hk : h.kv.keyMeta.state.Known) : ∃ h', linGet h = .ok h' := by
  obtain ⟨⟨⟨st, pa, cid, l, v⟩, key, oc, vl, val⟩, op, resp⟩ := h
  obtain ⟨rfl, hv⟩ := hi
  cases st with
  | other code => exact absurd rfl (hk.not_other code)
  | _ =>
    simp only [linGet, Hit.getSwitch, Hit.readUnlocked_idle ⟨rfl, hv⟩, Hit.readLocked, optikLock, ite_true, bind,
      Except.bind, Hit.release_mk hv]
    exact ⟨_, rfl⟩

theorem Hit.putSwitch_total (hi : h.kv.keyMeta.Idle) (hk : h.kv.keyMeta.state.Known) :
    ∃ h', h.putSwitch machineNum h.kv.keyMeta.locked = .ok h' := by
  obtain ⟨⟨⟨st, pa, cid, l, v⟩, key, oc, vl, val⟩, op, resp⟩ := h
  obtain ⟨rfl, hv⟩ := hi
  cases st <;> simp only [putSwitch, CacheMeta.locked, release_mk hv]
  case valid | invalid | invalidReplay => exact ⟨_, rfl⟩
  case write => split <;> exact ⟨_, rfl⟩
  case writeReplay =>
    split
    · exact ⟨_, rfl⟩
    · split <;> exact ⟨_, rfl⟩
  case other code => exact absurd rfl (hk.not_other code)

theorem linPut_safe (hi : h.kv.keyMeta.Idle) (hk : h.kv.keyMeta.state.Known) : h.Safe (linPut machineNum machineId h) := by
  refine Hit.safe_assertValLen fun _ => ?_
  obtain ⟨g, hg⟩ : ∃ g, h.putSwitch machineNum h.kv.keyMeta.locked = .ok g := Hit.putSwitch_total hi hk
  unfold CacheMeta.locked at hg
  simp only [hi.lock, bind, Except.bind, hg]
  split <;> exact ⟨_, rfl⟩

/-- A write of the record's length returns. -/
theorem linPut_total (hi : h.kv.keyMeta.Idle) (hk : h.kv.keyMeta.state.Known) (hl : h.op.valLen = h.kv.valLen) :
    ∃ h', linPut machineNum machineId h = .ok h' :=
  (linPut_safe hi hk).resolve_right fun hfail => hfail.1 hl

theorem linUpd_safe (hi : h.kv.keyMeta.Idle) (he : h.op.keyMeta.version % 2 = 0) : h.Safe (linUpd h) := by
  refine Hit.safe_assertValLen fun _ => ?_
  obtain ⟨⟨⟨st, pa, cid, l, v⟩, key, oc, vl, val⟩, op, resp⟩ := h
  obtain ⟨rfl, hv⟩ := hi
  simp only [optikLock, ite_true, bind, Except.bind, Hit.release_mk hv, optikUnlock, he]
  split <;> exact ⟨_, rfl⟩

theorem Hit.invalidate_total (hi : h.kv.keyMeta.Idle) (he : h.op.keyMeta.version % 2 = 0) (greater : Bool)
    (st : CacheState) : ∃ h', h.invalidate h.kv.keyMeta.locked greater st = .ok h' := by
  obtain ⟨⟨⟨st', pa, cid, l, v⟩, key, oc, vl, val⟩, op, resp⟩ := h
  obtain ⟨rfl, hv⟩ := hi
  cases greater with
  | true =>
    simp only [invalidate, CacheMeta.locked, ite_true, optikUnlock, he, bind, Except.bind]
    exact ⟨_, rfl⟩
  | false => exact ⟨_, release_mk hv⟩

theorem linInv_total (hi : h.kv.keyMeta.Idle) (hk : h.kv.keyMeta.state.Known) (he : h.op.keyMeta.version % 2 = 0) :
    ∃ h', linInv machineId h = .ok h' := by
  obtain ⟨g, hg⟩ : ∃ g, h.invSwitch machineId h.kv.keyMeta.locked = .ok g := by
    unfold Hit.invSwitch
    split
    any_goals exact Hit.invalidate_total hi he _ _
    next code hst => exact absurd hst (hk.not_other code)
  exact ⟨_, bind_eq_ok.2 ⟨_, hi.lock, bind_eq_ok.2 ⟨g, hg, rfl⟩⟩⟩

theorem linAck_total (hi : h.kv.keyMeta.Idle) : ∃ h', linAck machineId h = .ok h' := by
  obtain ⟨⟨⟨st, pa, cid, l, v⟩, key, oc, vl, val⟩, op, resp⟩ := h
  obtain ⟨rfl, hv⟩ := hi
  simp only [linAck, optikLock, ite_true, bind, Except.bind, Hit.release_mk hv]
  split
  · split <;> exact ⟨_, rfl⟩
  · exact ⟨_, rfl⟩

/-! ## The operation stays -/

theorem Hit.release_op {ol : CacheMeta} {t : RespType} (hok : h.release ol t = .ok h') : h'.op = h.op := by
  obtain ⟨_, -, he⟩ := bind_eq_ok.1 hok
  cases he
  rfl

theorem linUpd_op (hok : linUpd h = .ok h') : h'.op = h.op := by
  obtain ⟨_, -, hok⟩ := bind_eq_ok.1 hok
  obtain ⟨ol, -, hok⟩ := bind_eq_ok.1 hok
  split at hok
  · obtain ⟨_, -, he⟩ := bind_eq_ok.1 hok
    cases he
    rfl
  · exact Hit.release_op hok

theorem linAck_op (hok : linAck machineId h = .ok h') : h'.op = h.op := by
  obtain ⟨ol, -, hok⟩ := bind_eq_ok.1 hok
  split at hok
  · split at hok
    · exact Hit.release_op hok
    · exact Hit.release_op hok
  · exact Hit.release_op hok

theorem Hit.invalidate_op {ol : CacheMeta} {greater : Bool} {st : CacheState}
    (hok : h.invalidate ol greater st = .ok h') : h'.op = h.op := by
  unfold Hit.invalidate at hok
  split at hok
  · obtain ⟨_, -, he⟩ := bind_eq_ok.1 hok
    cases he
    rfl
  · exact Hit.release_op hok

theorem linInv_op (hok : linInv machineId h = .ok h') : h'.op = { h.op with opcode := .ack } := by
  obtain ⟨ol, -, hok⟩ := bind_eq_ok.1 hok
  obtain ⟨g, hg, he⟩ := bind_eq_ok.1 hok
  cases he
  have hop : g.op = h.op := by
    unfold Hit.invSwitch at hg
    split at hg
    · exact Hit.invalidate_op hg
    · exact Hit.invalidate_op hg
    · exact Hit.invalidate_op hg
    · exact Hit.invalidate_op hg
    · exact Hit.invalidate_op hg
    · cases hg
  show { g.op with opcode := .ack } = _
  rw [hop]

/-! ## Answers to the client's own operations -/

theorem Hit.release_type {ol : CacheMeta} {t : RespType} (hok : h.release ol t = .ok h') : h'.resp.type = t := by
  obtain ⟨_, -, he⟩ := bind_eq_ok.1 hok
  cases he
  rfl

theorem Hit.readLocked_answer (hok : h.readLocked = .ok h') :
    h'.op = h.op ∧ (h'.resp.type = .getSuccess ∨ h'.resp.type = .getStall) := by
  obtain ⟨ol, -, hok⟩ := bind_eq_ok.1 hok
  split at hok
  · exact ⟨(release_op hok).trans rfl, .inl (release_type hok)⟩
  · exact ⟨release_op hok, .inr (release_type hok)⟩
  · exact ⟨release_op hok, .inr (release_type hok)⟩
  · exact ⟨release_op hok, .inr (release_type hok)⟩
  · exact ⟨release_op hok, .inr (release_type hok)⟩
  · cases hok

/-- A read is served or stalls. -/
theorem linGet_answer (hok : linGet h = .ok h') :
    h'.op.opcode = h.op.opcode ∧ (h'.resp.type = .getSuccess ∨ h'.resp.type = .getStall) := by
  obtain ⟨g, hg, he⟩ := bind_eq_ok.1 hok
  cases he
  have hanswer : g.op = h.op ∧ (g.resp.type = .getSuccess ∨ g.resp.type = .getStall) := by
    unfold Hit.getSwitch at hg
    split at hg
    · cases Hit.readUnlocked_eq hg
      exact ⟨rfl, .inl rfl⟩
    · cases Hit.readUnlocked_eq hg
      exact ⟨rfl, .inr rfl⟩
    · cases Hit.readUnlocked_eq hg
      exact ⟨rfl, .inr rfl⟩
    · exact Hit.readLocked_answer hg
  exact ⟨show g.op.opcode = h.op.opcode by rw [hanswer.1], hanswer.2⟩

theorem Hit.putSwitch_answer {ol : CacheMeta} (hok : h.putSwitch machineNum ol = .ok h') :
    h'.resp.type = .putSuccess ∨ h'.op = h.op ∧ (h'.resp.type = .putFail ∨ h'.resp.type = .putStall) := by
  unfold putSwitch at hok
  split at hok
  · cases hok
    exact .inl rfl
  · cases hok
    exact .inl rfl
  · split at hok
    · cases hok
      exact .inl rfl
    · exact .inr ⟨release_op hok, .inl (release_type hok)⟩
  · exact .inr ⟨release_op hok, .inr (release_type hok)⟩
  · split at hok
    · cases hok
      exact .inl rfl
    · split at hok
      · exact .inr ⟨release_op hok, .inr (release_type hok)⟩
      · exact .inr ⟨release_op hok, .inl (release_type hok)⟩
  · cases hok

/-- A write is taken and becomes a broadcast, or it fails or stalls and stays a write. -/
theorem linPut_answer (hok : linPut machineNum machineId h = .ok h') :
    h'.op.opcode = .brc ∧ h'.resp.type = .putSuccess ∨
      h'.op = h.op ∧ (h'.resp.type = .putFail ∨ h'.resp.type = .putStall) := by
  simp only [linPut, bind_eq_ok] at hok
  obtain ⟨_, -, ol, -, g, hg, hok⟩ := hok
  rcases Hit.putSwitch_answer hg with ht | ⟨hop, ht⟩
  · rw [if_pos ht] at hok
    cases hok
    exact .inl ⟨rfl, rfl⟩
  · rw [if_neg (by rcases ht with ht | ht <;> simp [ht])] at hok
    cases hok
    exact .inr ⟨hop, ht⟩

end CcKvs
