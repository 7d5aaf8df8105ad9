/-
What the loop bodies do between taking the lock of a record and giving it back.
A read that does not take the lock looks at the state and at the length. The
state changes at one moment of a section, and under the linearizable protocol
the value is only written while the state is not `VALID_STATE`; so to such a
read, too, a section is one step, and it is the step of the loop body
(`CacheFun.body`) on a record that nobody else uses.
-/
import CcKvs.Cache.Threads
import Mathlib

namespace CcKvs

/-- What a caller goes by. A read copies the state into the operation for debugging, after it is
done, and a read that stalls may leave the length that an earlier round has found. -/
def Outcome.essence (x : Outcome) : Outcome :=
  ⟨x.op.setMeta { x.op.keyMeta with state := .valid }, x.type, if x.type = .getStall then 0 else x.valLen⟩

namespace Threads

open Locked

/-- The answer of a call, up to what a caller goes by. -/
def view : Except Fault Outcome → Except Fault Outcome := Except.map Outcome.essence

/-- What can be seen of a record without the lock; `lin` says that the protocol is the linearizable
one. -/
structure Sees (lin : Prop) (s u : CacheOp) : Prop where
  state : s.keyMeta.state = u.keyMeta.state
  valLen : s.valLen = u.valLen
  value : lin → s.keyMeta.state = .valid → s.value = u.value

/-- How a record is left between operations. -/
structure Sound (lin : Prop) (L : UInt8) (s : CacheOp) : Prop where
  idle : s.keyMeta.Idle
  known : lin → s.keyMeta.state.Known
  valLen : s.valLen = L

/-- The hit of a call on a record. -/
def Call.hit (c : Call) (s : CacheOp) : Hit := ⟨s, c.slot.op, ⟨c.slot.type, c.slot.valLen, none⟩⟩

/-- The record without threads: a loop body is one step. -/
def object (machineNum machineId : ℕ) (lin : Prop) (L : UInt8) : Object CacheOp Call (Except Fault Outcome) where
  inv := Sound lin L
  step c s r s' := ∃ h, c.fn.body machineNum machineId (c.hit s) = .ok h ∧ h.kv = s' ∧ r = view (.ok (.of h.op h.resp))

/-! ## Accesses under the lock -/

section

variable {lin : Prop} {u v s : CacheOp} {r : Except Fault Outcome}

/-- The section of a writer, see `Works`. -/
abbrev Under (lin : Prop) (v : CacheOp) (r : Except Fault Outcome) (u : CacheOp) (p : Block) (s : CacheOp) : Prop :=
  Works record (Sees lin) view v r u p s

/-- An access that leaves the record as it is. -/
def RecordAccess.IsLoad : RecordAccess → Prop
  | loadState | loadPendingAcks | loadCid | loadLock | loadVersion | loadValLen => True
  | _ => False

theorem RecordAccess.IsLoad.look {c : RecordAccess} (h : c.IsLoad) : record.Look c := by
  intro s
  cases c with
  | loadState | loadPendingAcks | loadCid | loadLock | loadVersion | loadValLen => rfl
  | _ => exact h.elim

theorem Under.load {c : RecordAccess} {k : c.Result → Block} (hc : c.IsLoad) (h : Under lin v r u (k (c.exec s).1) s) :
    Under lin v r u (.act c k) s := by
  refine Works.silent (hc.look.silent s) ?_
  rw [hc.look s]
  exact h

theorem Under.pos {c : Prop} {_ : Decidable c} {p q : Block} (hc : c) (h : Under lin v r u p s) :
    Under lin v r u (if c then p else q) s := by
  rw [if_pos hc]
  exact h

theorem Under.neg {c : Prop} {_ : Decidable c} {p q : Block} (hc : ¬ c) (h : Under lin v r u q s) :
    Under lin v r u (if c then p else q) s := by
  rw [if_neg hc]
  exact h

theorem Under.loadMeta {f : CacheMeta → Block} (h : Under lin v r u (f s.keyMeta) s) : Under lin v r u (loadMeta >>= f) s :=
  .load trivial <| .load trivial <| .load trivial <| .load trivial <| .load trivial h

theorem Under.storePendingAcks {n : UInt8} {k : Unit → Block}
    (h : Under lin v r u (k ()) (s.setMeta { s.keyMeta with pendingAcks := n })) :
    Under lin v r u (.act (.storePendingAcks n) k) s :=
  Works.silent ⟨id, fun _ h => ⟨h.state, h.valLen, h.value⟩⟩ h

theorem Under.storeCid {cid : UInt8} {k : Unit → Block} (h : Under lin v r u (k ()) (s.setMeta { s.keyMeta with cid := cid })) :
    Under lin v r u (.act (.storeCid cid) k) s :=
  Works.silent ⟨id, fun _ h => ⟨h.state, h.valLen, h.value⟩⟩ h

theorem Under.storeVersion {w : UInt32} {k : Unit → Block}
    (h : Under lin v r u (k ()) (s.setMeta { s.keyMeta with version := w })) :
    Under lin v r u (.act (.storeVersion w) k) s :=
  Works.silent ⟨id, fun _ h => ⟨h.state, h.valLen, h.value⟩⟩ h

/-- The state is written, and from then on the record is seen as it will be. -/
theorem Under.storeState {st : CacheState} {k : Unit → Block} (hs : Sees lin s u) (hl : s.keyMeta.lock ≠ 0)
    (h : Under lin v r v (k ()) (s.setMeta { s.keyMeta with state := st })) :
    Under lin v r u (.act (.storeState st) k) s := by
  refine Works.shows u _ _ s hs hl ?_
  exact h

/-- Under the linearizable protocol the value may be written while the state is not `VALID_STATE`. -/
theorem Under.memcpyFrom {src : Bytes} {f : Unit → Block} {i n : ℕ} (hv : lin → s.keyMeta.state ≠ .valid)
    (h : Under lin v r u (f ()) { s with value := s.value.write i (src.drop i) n }) :
    Under lin v r u (memcpyFrom src i n >>= f) s := by
  induction n generalizing i s with
  | zero =>
    rw [Bytes.write_zero] at h
    exact h
  | succ n ih =>
    have hobs (w : CacheOp) (hw : Sees lin { s with value := Function.update s.value i (src i) } w) : Sees lin s w :=
      ⟨hw.state, hw.valLen, fun hlin hs => absurd hs (hv hlin)⟩
    have hbytes : Bytes.write (Function.update s.value i (src i)) (i + 1) (src.drop (i + 1)) n =
        s.value.write i (src.drop i) (n + 1) := by
      funext j
      simp only [Bytes.write, Bytes.drop, Function.update_apply]
      grind
    refine Works.silent ⟨id, hobs⟩ (ih hv ?_)
    rw [← hbytes] at h
    exact h

theorem Under.memcpy {op : CacheOp} {f : Unit → Block} (hv : lin → s.keyMeta.state ≠ .valid)
    (h : Under lin v r u (f ()) (s.store op)) : Under lin v r u (memcpy op.value >>= f) s := by
  refine .load trivial (.memcpyFrom hv ?_)
  have : s.value.write 0 (op.value.drop 0) s.valLen.toNat = s.value.memcpy op.value s.valLen.toNat := by
    funext j
    simp [Bytes.write, Bytes.memcpy, Bytes.drop]
  show Under lin v r u (f ()) { s with value := s.value.write 0 (op.value.drop 0) s.valLen.toNat }
  rw [this]
  exact h

theorem Under.unlock {next : Block} (hs : Sees lin s u) (hl : s.keyMeta.lock ≠ 0)
    (hv : s.setMeta { s.keyMeta with lock := 0 } = v) (ha : Answers record view r next) :
    Under lin v r u (.act (.storeLock 0) fun _ => next) s := .release u (RecordAccess.storeLock 0) _ s hs hl hv ha

theorem Under.unlockWrite {cid : UInt8} {next : UInt32 → Block} (hs : Sees lin s u) (hl : s.keyMeta.lock ≠ 0)
    (hv : s.setMeta { s.keyMeta with cid := cid, version := s.keyMeta.version + 1, lock := 0 } = v)
    (ha : Answers record view r (next (s.keyMeta.version + 1))) : Under lin v r u (optikUnlockWrite cid next) s :=
  .storeCid <| .load trivial <| .storeVersion <| .load trivial <| .unlock ⟨hs.state, hs.valLen, hs.value⟩ hl hv ha

theorem Under.unlockDecrement {next : Block} (hs : Sees lin s u) (hl : s.keyMeta.lock ≠ 0)
    (he : (s.keyMeta.version - 1) % 2 = 0)
    (hv : s.setMeta { s.keyMeta with version := s.keyMeta.version - 1, lock := 0 } = v) (ha : Answers record view r next) :
    Under lin v r u (optikUnlockDecrementVersion next) s := by
  refine .load trivial <| .storeVersion <| .load trivial <| .storeVersion <| .load trivial <| .pos he ?_
  exact .unlock ⟨hs.state, hs.valLen, hs.value⟩ hl hv ha

theorem Under.optikUnlock {cid : UInt8} {version : UInt32} {next : Block} (hs : Sees lin s u) (hl : s.keyMeta.lock ≠ 0)
    (he : version % 2 = 0) (hv : s.setMeta { s.keyMeta with cid := cid, version := version, lock := 0 } = v)
    (ha : Answers record view r next) : Under lin v r u (optikUnlock cid version next) s := by
  unfold Threads.optikUnlock
  rw [if_pos he]
  exact .storeCid <| .storeVersion <| .unlock ⟨hs.state, hs.valLen, hs.value⟩ hl hv ha

theorem answers_finish {x : Outcome} (h : view (.ok x) = r) : Answers record view r (finish x) := .ret _ h

end

/-- The loop body returns `x` on record `s`, and program `p` does the same under the lock. -/
def Does (lin : Prop) (L : UInt8) (x : Except Fault Hit) (s : CacheOp) (p : Block) : Prop :=
  match x with
  | .ok h => Sound lin L h.kv ∧ Under lin h.kv (view (.ok (.of h.op h.resp))) s p (s.setMeta s.keyMeta.locked)
  | .error _ => False

section

variable {machineNum machineId : ℕ} {L : UInt8} {s op : CacheOp} {resp : MicaResp} {lin : Prop}

/-- What comes first in the section shows nothing. -/
theorem Does.after {x : Except Fault Hit} {p q : Block} (h : Does lin L x s q)
    (hp : ∀ {v r}, Under lin v r s q (s.setMeta s.keyMeta.locked) → Under lin v r s p (s.setMeta s.keyMeta.locked)) :
    Does lin L x s p := by
  cases x with
  | error e => exact h
  | ok h' => exact ⟨h.1, hp h.2⟩

theorem one_ne : (1 : UInt8) ≠ 0 := by decide

theorem add_sub_one (v : UInt32) : v + 1 - 1 = v := by simp

theorem sees_locked (s : CacheOp) : Sees lin (s.setMeta s.keyMeta.locked) s := ⟨rfl, rfl, fun _ _ => rfl⟩

theorem even_sub_one (hi : s.keyMeta.Idle) : (s.keyMeta.locked.version - 1) % 2 = 0 :=
  (add_sub_one s.keyMeta.version).symm ▸ hi.even

/-- What `optik_unlock_decrement_version` leaves after `optik_lock` and a change of the metadata that
keeps the version. -/
theorem setMeta_unlocked {m : CacheMeta} (hi : s.keyMeta.Idle) (hm : m.version = s.keyMeta.version + 1) :
    { m with version := m.version - 1, lock := 0 } = { m with version := s.keyMeta.version, lock := s.keyMeta.lock } := by
  rw [hm, add_sub_one, hi.free]

/-- The same in the loop body. -/
theorem release_unlocked {m : CacheMeta} {t : RespType} (hi : s.keyMeta.Idle) (hm : m.version = s.keyMeta.version + 1) :
    (⟨s, op, resp⟩ : Hit).release m t =
      .ok ((⟨s.setMeta { m with version := s.keyMeta.version, lock := s.keyMeta.lock }, op, resp⟩ : Hit).respond t) := by
  obtain ⟨st, pa, cid, l, v⟩ := m
  subst hm
  rw [Hit.release_mk hi.even, hi.free]

/-- Giving up under the lock: the record is as it was. -/
theorem does_release (hs : Sound lin L s) (t : RespType) {x : Outcome} (hx : x = ⟨op, t, resp.valLen⟩) :
    Does lin L ((⟨s, op, resp⟩ : Hit).release s.keyMeta.locked t) s (optikUnlockDecrementVersion (finish x)) := by
  rw [release_unlocked hs.idle rfl, hx]
  refine ⟨hs, .unlockDecrement (sees_locked s) one_ne (even_sub_one hs.idle) ?_ (answers_finish rfl)⟩
  exact congrArg s.setMeta (setMeta_unlocked hs.idle rfl)

/-! ## The sequentially consistent protocol -/

theorem does_scPut (hs : Sound False L s) (hl : op.valLen = L) :
    Does False L (CcKvs.scPut machineId ⟨s, op, resp⟩) s (scPut machineId ⟨op, resp.type, resp.valLen⟩) := by
  have hlen : (⟨s, op, resp⟩ : Hit).assertValLen = .ok () := if_pos (hl.trans hs.valLen.symm)
  simp only [CcKvs.scPut, hlen, hs.idle.lock, bind, Except.bind]
  refine ⟨⟨⟨rfl, even_add_two hs.idle.even⟩, False.elim, hs.valLen⟩, ?_⟩
  exact .memcpy False.elim (.unlockWrite ⟨rfl, rfl, False.elim⟩ one_ne rfl (answers_finish rfl))

theorem does_scUpd (hs : Sound False L s) (hl : op.valLen = L) (he : op.keyMeta.version % 2 = 0) :
    Does False L (CcKvs.scUpd ⟨s, op, resp⟩) s (scUpd ⟨op, resp.type, resp.valLen⟩) := by
  have hlen : (⟨s, op, resp⟩ : Hit).assertValLen = .ok () := if_pos (hl.trans hs.valLen.symm)
  have hlock : CcKvs.optikLock s.keyMeta = .ok s.keyMeta.locked := hs.idle.lock
  simp only [CcKvs.scUpd, hlen, hlock, bind, Except.bind]
  by_cases hg : optikIsGreaterVersion s.keyMeta.locked op.keyMeta = true
  · simp only [hg, ite_true, CcKvs.optikUnlock, he]
    refine ⟨⟨⟨rfl, he⟩, False.elim, hs.valLen⟩, ?_⟩
    exact .loadMeta <| .pos hg <| .memcpy False.elim <| .optikUnlock ⟨rfl, rfl, False.elim⟩ one_ne he rfl (answers_finish rfl)
  · rw [if_neg hg]
    exact (does_release hs .updFail rfl).after fun h => .loadMeta (.neg hg h)

/-! ## The linearizable protocol -/

/-- The rest of a read after the lock has been given back. -/
theorem answers_linGetDone {x : Outcome} {r : Except Fault Outcome} (h : view (.ok x) = r) :
    Answers record view r (linGetDone x) := by
  refine .look RecordAccess.loadState _ (RecordAccess.IsLoad.look trivial) fun st => .ret _ ?_
  rw [← h]
  rfl

theorem under_linGetUnlock {u v : CacheOp} {r : Except Fault Outcome} {x : Outcome} (hs : Sees lin s u) (hl : s.keyMeta.lock ≠ 0)
    (he : (s.keyMeta.version - 1) % 2 = 0)
    (hv : s.setMeta { s.keyMeta with version := s.keyMeta.version - 1, lock := 0 } = v) (hx : view (.ok x) = r) :
    Under lin v r u (linGetUnlock x) s := by
  refine .unlockDecrement hs hl he hv ?_
  have hload {c : RecordAccess} {k : c.Result → Block} (hc : c.IsLoad) (hk : ∀ y, Answers record view r (k y)) :
      Answers record view r (.act c k) := .look c k hc.look hk
  exact hload trivial fun _ => hload trivial fun _ => hload trivial fun _ => hload trivial fun _ => hload trivial fun _ =>
    answers_linGetDone hx

theorem does_linGet (hs : Sound True L s) {x : Outcome} (hx : x.op = op) :
    Does True L (CcKvs.linGet ⟨s, op, resp⟩) s (linGetLocked x) := by
  have hread (g : Hit) : (⟨s, op, resp⟩ : Hit).readUnlocked g = .ok g := Hit.readUnlocked_idle hs.idle
  have hkeep {r : Except Fault Outcome} {y : Outcome} (hy : view (.ok y) = r) :
      Under True s r s (linGetUnlock y) (s.setMeta s.keyMeta.locked) :=
    under_linGetUnlock (sees_locked s) one_ne (even_sub_one hs.idle) (congrArg s.setMeta (setMeta_unlocked hs.idle rfl)) hy
  have heven := even_sub_one hs.idle
  obtain ⟨⟨st, pa, cid, l, v⟩, key, oc, vl, val⟩ := s
  obtain ⟨rfl, hv⟩ := hs.idle
  subst hx
  cases st with
  | other code => exact absurd rfl ((hs.known trivial).not_other code)
  | valid =>
    simp only [CcKvs.linGet, Hit.getSwitch, hread, bind, Except.bind]
    exact ⟨hs, .load trivial <| .load trivial <| hkeep rfl⟩
  | invalidReplay =>
    simp only [CcKvs.linGet, Hit.getSwitch, hread, bind, Except.bind]
    exact ⟨hs, .load trivial <| hkeep rfl⟩
  | writeReplay =>
    simp only [CcKvs.linGet, Hit.getSwitch, hread, bind, Except.bind]
    exact ⟨hs, .load trivial <| hkeep rfl⟩
  | invalid =>
    simp only [CcKvs.linGet, Hit.getSwitch, Hit.readLocked, CcKvs.optikLock, ite_true, Hit.release_mk hv, bind, Except.bind]
    refine ⟨⟨⟨rfl, hv⟩, fun _ => .inr (.inl (.inr rfl)), hs.valLen⟩, .load trivial <| .storeState (sees_locked _) one_ne ?_⟩
    exact under_linGetUnlock ⟨rfl, rfl, fun _ _ => rfl⟩ one_ne heven (congrArg _ (setMeta_unlocked ⟨rfl, hv⟩ rfl)) rfl
  | write =>
    simp only [CcKvs.linGet, Hit.getSwitch, Hit.readLocked, CcKvs.optikLock, ite_true, Hit.release_mk hv, bind, Except.bind]
    refine ⟨⟨⟨rfl, hv⟩, fun _ => .inr (.inr (.inr rfl)), hs.valLen⟩, .load trivial <| .storeState (sees_locked _) one_ne ?_⟩
    exact under_linGetUnlock ⟨rfl, rfl, fun _ _ => rfl⟩ one_ne heven (congrArg _ (setMeta_unlocked ⟨rfl, hv⟩ rfl)) rfl

theorem under_overlay {u v : CacheOp} {r : Except Fault Outcome} {x : Outcome} (hs : Sees True s u) (hl : s.keyMeta.lock ≠ 0)
    (hst : s.keyMeta.state ≠ .valid)
    (hv : (s.store x.op).setMeta ⟨s.keyMeta.state, .ofNat (machineNum - 1), x.op.keyMeta.cid, 0, s.keyMeta.version + 1⟩ = v)
    (hx : view (.ok ⟨{ x.op.setMeta { x.op.keyMeta with version := s.keyMeta.version + 1, cid := .ofNat machineId } with
      opcode := .brc }, .putSuccess, 0⟩) = r) :
    Under True v r u (overlay machineNum machineId x) s :=
  .memcpy (fun _ => hst) <| .storePendingAcks <|
    .unlockWrite ⟨hs.state, hs.valLen, fun _ h => absurd h hst⟩ hl hv (answers_finish hx)

theorem write_ne : CacheState.write ≠ .valid := by decide

theorem writeReplay_ne : CacheState.writeReplay ≠ .valid := by decide

theorem does_linPut (hs : Sound True L s) (hl : op.valLen = L) :
    Does True L (CcKvs.linPut machineNum machineId ⟨s, op, resp⟩) s (linPut machineNum machineId ⟨op, resp.type, resp.valLen⟩) := by
  have hlen : (⟨s, op, resp⟩ : Hit).assertValLen = .ok () := if_pos (hl.trans hs.valLen.symm)
  have hkeep {r : Except Fault Outcome} {y : Outcome} (hy : view (.ok y) = r) :
      Under True s r s (optikUnlockDecrementVersion (finish y)) (s.setMeta s.keyMeta.locked) :=
    .unlockDecrement (sees_locked s) one_ne (even_sub_one hs.idle) (congrArg s.setMeta (setMeta_unlocked hs.idle rfl))
      (answers_finish hy)
  have heven := even_add_two hs.idle.even
  obtain ⟨⟨st, pa, cid, l, v⟩, key, oc, vl, val⟩ := s
  obtain ⟨rfl, hv⟩ := hs.idle
  cases st with
  | other code => exact absurd rfl ((hs.known trivial).not_other code)
  | valid =>
    simp only [CcKvs.linPut, hlen, CcKvs.optikLock, Hit.putSwitch, ite_true, bind, Except.bind]
    refine ⟨⟨⟨rfl, heven⟩, fun _ => .inr (.inr (.inl rfl)), hs.valLen⟩, .load trivial <| .storeState (sees_locked _) one_ne ?_⟩
    exact under_overlay ⟨rfl, rfl, fun _ h => absurd h write_ne⟩ one_ne write_ne rfl rfl
  | invalid =>
    simp only [CcKvs.linPut, hlen, CcKvs.optikLock, Hit.putSwitch, ite_true, bind, Except.bind]
    refine ⟨⟨⟨rfl, heven⟩, fun _ => .inr (.inr (.inl rfl)), hs.valLen⟩, .load trivial <| .storeState (sees_locked _) one_ne ?_⟩
    exact under_overlay ⟨rfl, rfl, fun _ h => absurd h write_ne⟩ one_ne write_ne rfl rfl
  | invalidReplay =>
    simp only [CcKvs.linPut, hlen, CcKvs.optikLock, Hit.putSwitch, ite_true, Hit.release_mk hv, bind, Except.bind, Hit.respond_type,
      reduceCtorEq, ite_false]
    exact ⟨hs, .load trivial <| hkeep rfl⟩
  | write =>
    simp only [CcKvs.linPut, hlen, CcKvs.optikLock, Hit.putSwitch, ite_true, Hit.release_mk hv, bind, Except.bind]
    by_cases hc : op.keyMeta.cid ≥ cid
    · simp only [if_pos hc]
      refine ⟨⟨⟨rfl, heven⟩, fun _ => .inr (.inr (.inl rfl)), hs.valLen⟩, .load trivial <| .load trivial <| .pos hc ?_⟩
      exact under_overlay (sees_locked _) one_ne write_ne rfl rfl
    · simp only [if_neg hc]
      exact ⟨hs, .load trivial <| .load trivial <| .neg hc <| hkeep rfl⟩
  | writeReplay =>
    simp only [CcKvs.linPut, hlen, CcKvs.optikLock, Hit.putSwitch, ite_true, Hit.release_mk hv, bind, Except.bind]
    by_cases hc : op.keyMeta.cid > cid
    · simp only [if_pos hc]
      refine ⟨⟨⟨rfl, heven⟩, fun _ => .inr (.inr (.inr rfl)), hs.valLen⟩, .load trivial <| .load trivial <| .pos hc ?_⟩
      exact under_overlay (sees_locked _) one_ne writeReplay_ne rfl rfl
    · by_cases hc' : op.keyMeta.cid = cid
      · simp only [if_neg hc, if_pos hc']
        exact ⟨hs, .load trivial <| .load trivial <| .neg hc <| .load trivial <| .pos hc' <| hkeep rfl⟩
      · simp only [if_neg hc, if_neg hc']
        exact ⟨hs, .load trivial <| .load trivial <| .neg hc <| .load trivial <| .neg hc' <| hkeep rfl⟩

theorem Under.stateIn {a b : CacheState} {u v : CacheOp} {r : Except Fault Outcome} {f : Bool → Block}
    (h : Under lin v r u (f (s.keyMeta.state == a || s.keyMeta.state == b)) s) : Under lin v r u (stateIn a b >>= f) s := by
  refine .load trivial ?_
  show Under lin v r u (Prog.bind (if s.keyMeta.state = a then Prog.ret true else Prog.bind loadState fun st => Prog.ret (decide (st = b))) f) s
  by_cases ha : s.keyMeta.state = a
  · rw [if_pos ha]
    rw [ha, beq_self_eq_true, Bool.true_or] at h
    exact h
  · rw [if_neg ha]
    rw [beq_eq_false_iff_ne.2 ha, Bool.false_or, beq_eq_decide] at h
    exact .load trivial h

theorem does_linUpd (hs : Sound True L s) (hl : op.valLen = L) (he : op.keyMeta.version % 2 = 0) :
    Does True L (CcKvs.linUpd ⟨s, op, resp⟩) s (linUpd ⟨op, resp.type, resp.valLen⟩) := by
  have hlen : (⟨s, op, resp⟩ : Hit).assertValLen = .ok () := if_pos (hl.trans hs.valLen.symm)
  have hlock : CcKvs.optikLock s.keyMeta = .ok s.keyMeta.locked := hs.idle.lock
  simp only [CcKvs.linUpd, hlen, hlock, bind, Except.bind]
  by_cases hv : optikIsSameVersionPlusOne s.keyMeta.locked op.keyMeta = true
  · by_cases ha : (s.keyMeta.locked.state == .invalid || s.keyMeta.locked.state == .invalidReplay) = true
    · have hst : s.keyMeta.state ≠ .valid := by
        intro h
        simp [CacheMeta.locked, h] at ha
      rw [if_pos (Bool.and_eq_true_iff.2 ⟨hv, ha⟩)]
      simp only [CcKvs.optikUnlock, he, ite_true]
      refine ⟨⟨⟨rfl, he⟩, fun _ => .inl rfl, hs.valLen⟩, .loadMeta <| .pos hv <| .stateIn <| .pos ha <| .memcpy (fun _ => hst) ?_⟩
      refine .storeState ⟨rfl, rfl, fun _ h => absurd h hst⟩ one_ne ?_
      exact .optikUnlock ⟨rfl, rfl, fun _ _ => rfl⟩ one_ne he rfl (answers_finish rfl)
    · rw [if_neg fun h => ha (Bool.and_eq_true_iff.1 h).2]
      exact (does_release hs .updFail rfl).after fun h => .loadMeta <| .pos hv <| .stateIn <| .neg ha h
  · rw [if_neg fun h => hv (Bool.and_eq_true_iff.1 h).1]
    exact (does_release hs .updFail rfl).after fun h => .loadMeta (.neg hv h)

/-- One case of the INV switch. -/
theorem does_invalidate (hs : Sound True L s) (he : op.keyMeta.version % 2 = 0) {greater : CacheMeta → Bool} {st : CacheState}
    (hst : st.Invalidated) :
    Does True L ((⟨s, op, resp⟩ : Hit).invalidate s.keyMeta.locked (greater s.keyMeta.locked) st >>=
      fun h => .ok { h with op := { h.op with opcode := .ack } }) s (invalidate ⟨op, resp.type, resp.valLen⟩ greater st) := by
  by_cases hg : greater s.keyMeta.locked = true
  · simp only [Hit.invalidate, hg, ite_true, CcKvs.optikUnlock, he, bind, Except.bind]
    refine ⟨⟨⟨rfl, he⟩, fun _ => .inr (.inl hst), hs.valLen⟩, .loadMeta <| .pos hg <| .storeState (sees_locked s) one_ne ?_⟩
    exact .optikUnlock ⟨rfl, rfl, fun _ _ => rfl⟩ one_ne he rfl (answers_finish rfl)
  · simp only [Hit.invalidate, if_neg hg, release_unlocked hs.idle (m := s.keyMeta.locked) rfl, bind, Except.bind]
    refine ⟨hs, .loadMeta <| .neg hg <| .unlockDecrement (sees_locked s) one_ne (even_sub_one hs.idle) ?_ (answers_finish rfl)⟩
    exact congrArg s.setMeta (setMeta_unlocked hs.idle rfl)

theorem does_linInv (hs : Sound True L s) (he : op.keyMeta.version % 2 = 0) :
    Does True L (CcKvs.linInv machineId ⟨s, op, resp⟩) s (linInv machineId ⟨op, resp.type, resp.valLen⟩) := by
  have hcase {p : Block} {greater : CacheMeta → Bool} {st : CacheState} (hst : st.Invalidated)
      (hsw : (⟨s, op, resp⟩ : Hit).invSwitch machineId s.keyMeta.locked =
        (⟨s, op, resp⟩ : Hit).invalidate s.keyMeta.locked (greater s.keyMeta.locked) st)
      (hp : ∀ {v r}, Under True v r s (invalidate ⟨op, resp.type, resp.valLen⟩ greater st) (s.setMeta s.keyMeta.locked) →
        Under True v r s p (s.setMeta s.keyMeta.locked)) : Does True L (CcKvs.linInv machineId ⟨s, op, resp⟩) s p := by
    have hlock : CcKvs.optikLock s.keyMeta = .ok s.keyMeta.locked := hs.idle.lock
    rw [CcKvs.linInv, hlock]
    refine Does.after ?_ hp
    show Does True L ((⟨s, op, resp⟩ : Hit).invSwitch machineId s.keyMeta.locked >>= _) s _
    rw [hsw]
    exact does_invalidate hs he hst
  obtain ⟨⟨st, pa, cid, l, v⟩, key, oc, vl, val⟩ := s
  cases st with
  | other code => exact absurd rfl ((hs.known trivial).not_other code)
  | valid => exact hcase (.inl rfl) rfl fun h => .load trivial h
  | invalid => exact hcase (.inl rfl) rfl fun h => .load trivial h
  | write => exact hcase (.inl rfl) rfl fun h => .load trivial h
  | invalidReplay => exact hcase (.inr rfl) rfl fun h => .load trivial h
  | writeReplay => exact hcase (.inr rfl) rfl fun h => .load trivial h

theorem does_linAck (hs : Sound True L s) :
    Does True L (CcKvs.linAck machineId ⟨s, op, resp⟩) s (linAck machineId ⟨op, resp.type, resp.valLen⟩) := by
  have hlock : CcKvs.optikLock s.keyMeta = .ok s.keyMeta.locked := hs.idle.lock
  simp only [CcKvs.linAck, hlock, bind, Except.bind]
  by_cases hw : (s.keyMeta.locked.state == .write || s.keyMeta.locked.state == .writeReplay) = true
  · by_cases hv : s.keyMeta.locked.version = op.keyMeta.version + 1
    · rw [if_pos (Bool.and_eq_true_iff.2 ⟨hw, beq_iff_eq.2 hv⟩)]
      by_cases hp : s.keyMeta.locked.pendingAcks = 1
      · rw [if_pos hp, release_unlocked hs.idle rfl]
        refine ⟨⟨⟨hs.idle.free, hs.idle.even⟩, fun _ => .inl rfl, hs.valLen⟩, .stateIn <| .pos hw <| .load trivial <| .pos hv ?_⟩
        refine .load trivial <| .pos hp <| .storeState (sees_locked s) one_ne <| .storeCid <| .storePendingAcks ?_
        exact .unlockDecrement ⟨rfl, rfl, fun _ _ => rfl⟩ one_ne (even_sub_one hs.idle)
          (congrArg s.setMeta (setMeta_unlocked hs.idle rfl)) (answers_finish rfl)
      · rw [if_neg hp, release_unlocked hs.idle rfl]
        refine ⟨⟨⟨hs.idle.free, hs.idle.even⟩, hs.known, hs.valLen⟩, .stateIn <| .pos hw <| .load trivial <| .pos hv ?_⟩
        refine .load trivial <| .neg hp <| .load trivial <| .storePendingAcks ?_
        exact .unlockDecrement ⟨rfl, rfl, fun _ _ => rfl⟩ one_ne (even_sub_one hs.idle)
          (congrArg s.setMeta (setMeta_unlocked hs.idle rfl)) (answers_finish rfl)
    · rw [if_neg fun h => hv (beq_iff_eq.1 (Bool.and_eq_true_iff.1 h).2)]
      exact (does_release hs .ackFail rfl).after fun h => .stateIn <| .pos hw <| .load trivial <| .neg hv h
  · rw [if_neg fun h => hw (Bool.and_eq_true_iff.1 h).1]
    exact (does_release hs .ackFail rfl).after fun h => .stateIn <| .neg hw h

end

end Threads

end CcKvs
