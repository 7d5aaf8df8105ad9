/-
The loop bodies of the `cache_batch_op_*` functions are atomic: whatever the
threads of a machine interleave, access by access, the calls and their answers
are those of a record on which every loop body is one step, which is what the
protocols are stated over. No assertion fails, a record in `VALID_STATE` never
shows half of a value, and no thread is ever kept from returning.
-/
import CcKvs.Cache.Sections
import Mathlib

namespace CcKvs

namespace Threads

open Locked

/-! ## Outside the lock -/

section

variable {machineNum machineId : ℕ} {L : UInt8} {lin : Prop} {good : Label → Call → Prop} {c : Call} {seen : Set (Except Fault Outcome)}

/-- What a thread does for call `c` without the lock, see `Serves`. -/
abbrev Serving (machineNum machineId : ℕ) (lin : Prop) (L : UInt8) (good : Label → Call → Prop) (c : Call)
    (seen : Set (Except Fault Outcome)) (p : Block) : Prop :=
  Serves record (object machineNum machineId lin L) (Sees lin) view good c seen p

theorem Serving.look {a : RecordAccess} {k : a.Result → Block} (ha : a.IsLoad)
    (h : ∀ s v, Sound lin L v → Sees lin s v →
      Serving machineNum machineId lin L good c (seen ∪ (object machineNum machineId lin L).pure c v) (k (a.exec s).1)) :
    Serving machineNum machineId lin L good c seen (.act a k) :=
  Serves.look seen a k ha.look h

/-- A load whose answer does not matter. -/
theorem Serving.load {a : RecordAccess} {k : a.Result → Block} (ha : a.IsLoad)
    (h : ∀ y, Serving machineNum machineId lin L good c seen (k y)) : Serving machineNum machineId lin L good c seen (.act a k) :=
  .look ha fun _ _ _ _ => (h _).mono Set.subset_union_left

theorem Serving.loadMeta {f : CacheMeta → Block} (h : ∀ m, Serving machineNum machineId lin L good c seen (f m)) :
    Serving machineNum machineId lin L good c seen (loadMeta >>= f) :=
  .load trivial fun _ => .load trivial fun _ => .load trivial fun _ => .load trivial fun _ => .load trivial fun _ => h _

/-- The state is that of the record at some moment. -/
theorem Serving.loadState {f : CacheState → Block}
    (h : ∀ v, Sound lin L v → Serving machineNum machineId lin L good c (seen ∪ (object machineNum machineId lin L).pure c v)
      (f v.keyMeta.state)) : Serving machineNum machineId lin L good c seen (loadState >>= f) := by
  refine .look trivial fun s v hv hs => ?_
  have hf := h v hv
  rw [← hs.state] at hf
  exact hf

/-- The length never changes. -/
theorem Serving.loadValLen {f : UInt8 → Block} (h : Serving machineNum machineId lin L good c seen (f L)) :
    Serving machineNum machineId lin L good c seen (loadValLen >>= f) := by
  refine .look trivial fun s v hv hs => ?_
  have hf : Serving machineNum machineId lin L good c seen (f s.valLen) := by rwa [hs.valLen, hv.valLen]
  exact hf.mono Set.subset_union_left

theorem Serving.ite {p : Prop} {_ : Decidable p} {x y : Block} (hx : p → Serving machineNum machineId lin L good c seen x)
    (hy : ¬ p → Serving machineNum machineId lin L good c seen y) :
    Serving machineNum machineId lin L good c seen (if p then x else y) := by
  split
  · next h => exact hx h
  · next h => exact hy h

theorem Serving.checkLen (hg : good (.lock c c.slot) c) (hl : c.slot.op.valLen = L) :
    Serving machineNum machineId lin L good c seen (checkLen c) := by
  exact .loadValLen <| .ite (fun _ => .again _ _ hg) fun hn => absurd hl hn

/-- The lock is taken when it is free, and then the section does what the loop body does. -/
theorem Serving.optikLock {x : Outcome} {next : Block} (hg : good (.lock c x) c)
    (h : ∀ s, Sound lin L s → Does lin L (c.fn.body machineNum machineId (c.hit s)) s next) :
    Serving machineNum machineId lin L good c seen (optikLock (.lock c x) next) := by
  refine .loadMeta fun old => .ite (fun _ => .again _ _ hg) fun _ => .acquire seen (RecordAccess.casLock 0 1) _ ?_ ?_ ?_
  · intro s hs
    exact if_neg hs
  · intro s hs
    exact Serving.ite (fun h0 => absurd h0 hs) fun _ => .again _ _ hg
  · intro s hs
    have hdoes := h s hs
    unfold Does at hdoes
    split at hdoes
    · next g hg =>
      refine ⟨_, _, ⟨g, hg, rfl, rfl⟩, hdoes.1, ?_⟩
      have hcas : record.exec (.casLock 0 1) s = ((0 : UInt8), s.setMeta { s.keyMeta with lock := 1 }) := by
        simp only [record, RecordAccess.exec, hs.idle.free, ite_true]
        rfl
      rw [hcas]
      exact Under.load trivial <| .storeVersion hdoes.2
    · exact hdoes.elim

/-! ## The protocols -/

/-- What a caller of the sequentially consistent functions keeps to. -/
structure ScCall (L : UInt8) (c : Call) : Prop where
  served : c.fn = .sc ∧ c.slot.op.opcode ∈ [.get, .put, .upd, .brc] ∨ c.fn = .scWithCacheOp ∧ c.slot.op.opcode ∈ [.upd, .brc]
  valLen : c.slot.op.opcode ∈ [.put, .upd] → c.slot.op.valLen = L
  even : c.slot.op.opcode = .upd → c.slot.op.keyMeta.version % 2 = 0

/-- What a caller of the linearizable functions keeps to. -/
structure LinCall (L : UInt8) (c : Call) : Prop where
  served : c.fn = .lin ∧ c.slot.op.opcode ∈ [.get, .put, .upd, .inv, .ack, .brc] ∨
    c.fn = .linWithCacheOp ∧ c.slot.op.opcode ∈ [.upd, .ack, .brc] ∨ c.fn = .linWithSmallCacheOp ∧ c.slot.op.opcode = .inv
  valLen : c.slot.op.opcode ∈ [.put, .upd] → c.slot.op.valLen = L
  even : c.slot.op.opcode ∈ [.upd, .inv] → c.slot.op.keyMeta.version % 2 = 0

/-- The blocks that the code of a call runs through. A read may have changed its slot in a round
that it repeats. -/
def LinRuns (L : UInt8) : Label → Call → Prop
  | .enter c, d => c = d ∧ LinCall L d
  | .read c x, d => c = d ∧ LinCall L d ∧ d.slot.op.opcode = .get ∧ x.op = d.slot.op
  | .lock c x, d => c = d ∧ LinCall L d ∧ d.slot.op.opcode ≠ .brc ∧ x.op = d.slot.op ∧ (d.slot.op.opcode ≠ .get → x = d.slot)

def ScRuns (L : UInt8) : Label → Call → Prop
  | .enter c, d => c = d ∧ ScCall L d
  | .read c x, d => c = d ∧ ScCall L d ∧ d.slot.op.opcode = .get ∧ x.op = d.slot.op
  | .lock c x, d => c = d ∧ ScCall L d ∧ d.slot.op.opcode ∈ [.put, .upd] ∧ x = d.slot

abbrev LinServing (machineNum machineId : ℕ) (L : UInt8) (c : Call) (seen : Set (Except Fault Outcome)) (p : Block) : Prop :=
  Serving machineNum machineId True L (LinRuns L) c seen p

abbrev ScServing (machineNum machineId : ℕ) (L : UInt8) (c : Call) (seen : Set (Except Fault Outcome)) (p : Block) : Prop :=
  Serving machineNum machineId False L (ScRuns L) c seen p

/-- The variants of a function agree on the operations that both serve. -/
theorem LinCall.body_eq (hc : LinCall L c) (s : CacheOp) :
    c.fn.body machineNum machineId (c.hit s) = linNonStallingSessions machineNum machineId (c.hit s) := by
  rcases hc.served with ⟨hf, _⟩ | ⟨hf, ho⟩ | ⟨hf, ho⟩
  · rw [hf, CacheFun.body]
  · rw [hf, CacheFun.body]
    simp only [List.mem_cons, List.not_mem_nil, or_false] at ho
    rcases ho with ho | ho | ho <;> simp only [linNonStallingSessionsWithCacheOp, linNonStallingSessions, Call.hit, ho]
  · rw [hf, CacheFun.body]
    simp only [linNonStallingSessionsWithSmallCacheOp, linNonStallingSessions, Call.hit, ho]

theorem serving_linGetCheck {prev : CacheMeta} {x : Outcome} (hc : LinCall L c) (ho : c.slot.op.opcode = .get) (hx : x.op = c.slot.op)
    (hseen : view (.ok x) ∈ seen) : LinServing machineNum machineId L c seen (linGetCheck c prev x) := by
  refine .loadMeta fun cur => .ite (fun _ => ?_) fun _ => .again _ _ ⟨rfl, hc, ho, hx⟩
  exact .load trivial fun st => .answer _ _ hseen

/-- What a read that does not change the record answers at some moment. -/
theorem linGet_pure {v : CacheOp} {h : Hit} (hc : LinCall L c) (ho : c.slot.op.opcode = .get)
    (hget : (c.hit v).getSwitch = .ok h) (hkv : h.kv = v) :
    view (.ok (.of h.op h.resp)) ∈ (object machineNum machineId True L).pure c v := by
  refine ⟨{ h with op := h.op.setMeta { h.op.keyMeta with state := h.kv.keyMeta.state } }, ?_, hkv, rfl⟩
  rw [hc.body_eq, linNonStallingSessions, show (c.hit v).op.opcode = .get from ho]
  simp only [CcKvs.linGet, hget, bind, Except.bind]

theorem serving_linGet {x : Outcome} (hc : LinCall L c) (ho : c.slot.op.opcode = .get) (hx : x.op = c.slot.op) :
    LinServing machineNum machineId L c seen (linGet c x) := by
  refine .loadMeta fun prev => .loadState fun v hv => ?_
  have hread (g : Hit) : (c.hit v).readUnlocked g = .ok g := Hit.readUnlocked_idle hv.idle
  have hlock (seen : Set (Except Fault Outcome)) : LinServing machineNum machineId L c seen (jump (.lock c x)) :=
    .again _ _ ⟨rfl, hc, by simp [ho], hx, fun h => absurd ho h⟩
  have hstall (hsw : (c.hit v).getSwitch = (c.hit v).readUnlocked ((c.hit v).respond .getStall)) :
      LinServing machineNum machineId L c (seen ∪ (object machineNum machineId True L).pure c v)
        (linGetCheck c prev { x with type := .getStall }) := by
    refine serving_linGetCheck hc ho hx (.inr ?_)
    rw [hx]
    exact linGet_pure hc ho (hsw.trans (hread _)) rfl
  cases hst : v.keyMeta.state with
  | other code => exact absurd hst ((hv.known trivial).not_other code)
  | invalid => exact hlock _
  | write => exact hlock _
  | valid =>
    have hsw : (c.hit v).getSwitch = (c.hit v).readUnlocked (c.hit v).found := by
      rw [Hit.getSwitch, show (c.hit v).kv.keyMeta.state = .valid from hst]
    refine .loadValLen <| serving_linGetCheck hc ho hx (.inr ?_)
    rw [hx, ← hv.valLen]
    exact linGet_pure hc ho (hsw.trans (hread _)) rfl
  | invalidReplay => exact hstall (by rw [Hit.getSwitch, show (c.hit v).kv.keyMeta.state = .invalidReplay from hst])
  | writeReplay => exact hstall (by rw [Hit.getSwitch, show (c.hit v).kv.keyMeta.state = .writeReplay from hst])

theorem LinCall.enter_eq (hc : LinCall L c) : linBlock machineNum machineId (.enter c) =
    match c.slot.op.opcode with
    | .get => jump (.read c c.slot)
    | .put | .upd => checkLen c
    | .brc => finish c.slot
    | _ => jump (.lock c c.slot) := by
  rcases hc.served with ⟨hf, ho⟩ | ⟨hf, ho⟩ | ⟨hf, ho⟩
  · simp only [List.mem_cons, List.not_mem_nil, or_false] at ho
    rcases ho with ho | ho | ho | ho | ho | ho <;> simp only [linBlock, hf, ho]
  · simp only [List.mem_cons, List.not_mem_nil, or_false] at ho
    rcases ho with ho | ho | ho <;> simp only [linBlock, hf, ho]
  · simp only [linBlock, hf, ho]

theorem serving_linEnter {v : CacheOp} (hc : LinCall L c) :
    LinServing machineNum machineId L c ((object machineNum machineId True L).pure c v)
      (linBlock machineNum machineId (.enter c)) := by
  have hlock (ho : c.slot.op.opcode ≠ .brc) : LinRuns L (.lock c c.slot) c := ⟨rfl, hc, ho, rfl, fun _ => rfl⟩
  rw [hc.enter_eq]
  cases ho : c.slot.op.opcode with
  | get => exact .again _ _ ⟨rfl, hc, ho, rfl⟩
  | put => exact .checkLen (hlock (by simp [ho])) (hc.valLen (by simp [ho]))
  | upd => exact .checkLen (hlock (by simp [ho])) (hc.valLen (by simp [ho]))
  | brc =>
    refine .answer _ _ ⟨c.hit v, ?_, rfl, rfl⟩
    rw [hc.body_eq, linNonStallingSessions, show (c.hit v).op.opcode = .brc from ho]
  | inv => exact .again _ _ (hlock (by simp [ho]))
  | ack => exact .again _ _ (hlock (by simp [ho]))
  | other code => exact .again _ _ (hlock (by simp [ho]))

theorem LinRuns.does (machineNum machineId : ℕ) {d : Call} {x : Outcome} {s : CacheOp} (hl : LinRuns L (.lock d x) c) (hs : Sound True L s) :
    Does True L (c.fn.body machineNum machineId (c.hit s)) s (linLocked machineNum machineId x) := by
  obtain ⟨rfl, hc, hb, hx, hslot⟩ := hl
  have hlen := hc.valLen
  have heven := hc.even
  rw [hc.body_eq, linNonStallingSessions, linLocked, hx, show (d.hit s).op.opcode = d.slot.op.opcode from rfl]
  cases ho : d.slot.op.opcode with
  | get => exact does_linGet hs hx
  | put =>
    rw [hslot (by simp [ho])]
    exact does_linPut hs (hlen (by simp [ho]))
  | upd =>
    rw [hslot (by simp [ho])]
    exact does_linUpd hs (hlen (by simp [ho])) (heven (by simp [ho]))
  | inv =>
    rw [hslot (by simp [ho])]
    exact does_linInv hs (heven (by simp [ho]))
  | ack =>
    rw [hslot (by simp [ho])]
    exact does_linAck hs
  | brc => exact absurd ho hb
  | other code =>
    rcases hc.served with ⟨_, h⟩ | ⟨_, h⟩ | ⟨_, h⟩ <;> simp [ho] at h

theorem serving_linBlock {l : Label} {v : CacheOp} (hl : LinRuns L l c) :
    LinServing machineNum machineId L c ((object machineNum machineId True L).pure c v) (linBlock machineNum machineId l) := by
  cases l with
  | enter d =>
    obtain ⟨rfl, hc⟩ := hl
    exact serving_linEnter hc
  | read d x =>
    obtain ⟨rfl, hc, ho, hx⟩ := hl
    exact serving_linGet hc ho hx
  | lock d x =>
    obtain rfl : d = c := hl.1
    exact .optikLock hl fun s hs => hl.does machineNum machineId hs

/-- The code of the linearizable functions is correct. -/
theorem linCode_correct : Correct record (linCode machineNum machineId) (object machineNum machineId True L) (Sees True) view
    (LinCall L) (LinRuns L) where
  free _ hv hh := hh hv.idle.free
  obs _ _ := ⟨rfl, rfl, fun _ _ => rfl⟩
  start _ ho := ⟨rfl, ho⟩
  serves _ _ _ hl _ := serving_linBlock hl

theorem ScCall.body_eq (hc : ScCall L c) (s : CacheOp) : c.fn.body machineNum machineId (c.hit s) = sc machineId (c.hit s) := by
  rcases hc.served with ⟨hf, _⟩ | ⟨hf, ho⟩
  · rw [hf, CacheFun.body]
  · rw [hf, CacheFun.body]
    simp only [List.mem_cons, List.not_mem_nil, or_false] at ho
    rcases ho with ho | ho <;> simp only [CcKvs.scWithCacheOp, sc, Call.hit, ho]

theorem ScCall.opcode_mem (hc : ScCall L c) :
    c.slot.op.opcode = .get ∨ c.slot.op.opcode = .put ∨ c.slot.op.opcode = .upd ∨ c.slot.op.opcode = .brc := by
  rcases hc.served with ⟨_, ho⟩ | ⟨_, ho⟩
  · simpa using ho
  · simp only [List.mem_cons, List.not_mem_nil, or_false] at ho
    exact .inr (.inr ho)

theorem ScCall.enter_eq (hc : ScCall L c) : scBlock machineId (.enter c) =
    match c.slot.op.opcode with
    | .get => jump (.read c c.slot)
    | .brc => finish c.slot
    | _ => checkLen c := by
  rcases hc.served with ⟨hf, ho⟩ | ⟨hf, ho⟩
  · simp only [List.mem_cons, List.not_mem_nil, or_false] at ho
    rcases ho with ho | ho | ho | ho <;> simp only [scBlock, hf, ho]
  · simp only [List.mem_cons, List.not_mem_nil, or_false] at ho
    rcases ho with ho | ho <;> simp only [scBlock, hf, ho]

/-- A read finds the length, whenever it looks. -/
theorem serving_scGet {v : CacheOp} {x : Outcome} (hc : ScCall L c) (hv : Sound False L v) (ho : c.slot.op.opcode = .get) (hx : x.op = c.slot.op) :
    ScServing machineNum machineId L c ((object machineNum machineId False L).pure c v) (scGet c x) := by
  refine .loadMeta fun prev => .loadValLen <| .loadMeta fun cur => .ite (fun _ => .answer _ _ ?_) fun _ => .again _ _ ⟨rfl, hc, ho, hx⟩
  refine ⟨(c.hit v).found, ?_, rfl, ?_⟩
  · rw [hc.body_eq, sc, show (c.hit v).op.opcode = .get from ho]
    exact scGet_idle hv.idle
  · rw [hx, ← hv.valLen]
    rfl

theorem serving_scEnter {v : CacheOp} (hc : ScCall L c) :
    ScServing machineNum machineId L c ((object machineNum machineId False L).pure c v)
      (scBlock machineId (.enter c)) := by
  have hlock (ho : c.slot.op.opcode ∈ [.put, .upd]) : ScRuns L (.lock c c.slot) c := ⟨rfl, hc, ho, rfl⟩
  rw [hc.enter_eq]
  rcases hc.opcode_mem with ho | ho | ho | ho
  · rw [ho]
    exact .again _ _ ⟨rfl, hc, ho, rfl⟩
  · have hput : c.slot.op.opcode ∈ [.put, .upd] := by simp [ho]
    rw [ho]
    exact .checkLen (hlock hput) (hc.valLen hput)
  · have hput : c.slot.op.opcode ∈ [.put, .upd] := by simp [ho]
    rw [ho]
    exact .checkLen (hlock hput) (hc.valLen hput)
  · rw [ho]
    refine .answer _ _ ⟨c.hit v, ?_, rfl, rfl⟩
    rw [hc.body_eq, sc, show (c.hit v).op.opcode = .brc from ho]

theorem ScRuns.does (machineNum machineId : ℕ) {d : Call} {x : Outcome} {s : CacheOp} (hl : ScRuns L (.lock d x) c) (hs : Sound False L s) :
    Does False L (c.fn.body machineNum machineId (c.hit s)) s (scLocked machineId x) := by
  obtain ⟨rfl, hc, hput, rfl⟩ := hl
  have hlen := hc.valLen hput
  rw [hc.body_eq, sc, scLocked, show (d.hit s).op.opcode = d.slot.op.opcode from rfl]
  simp only [List.mem_cons, List.not_mem_nil, or_false] at hput
  rcases hput with ho | ho
  · rw [ho]
    exact does_scPut hs hlen
  · rw [ho]
    exact does_scUpd hs hlen (hc.even ho)

theorem serving_scBlock {l : Label} {v : CacheOp} (hl : ScRuns L l c) (hv : Sound False L v) :
    ScServing machineNum machineId L c ((object machineNum machineId False L).pure c v) (scBlock machineId l) := by
  cases l with
  | enter d =>
    obtain ⟨rfl, hc⟩ := hl
    exact serving_scEnter hc
  | read d x =>
    obtain ⟨rfl, hc, ho, hx⟩ := hl
    exact serving_scGet hc hv ho hx
  | lock d x =>
    obtain rfl : d = c := hl.1
    exact .optikLock hl fun s hs => hl.does machineNum machineId hs

theorem scCode_correct : Correct record (scCode machineId) (object machineNum machineId False L) (Sees False) view
    (ScCall L) (ScRuns L) where
  free _ hv hh := hh hv.idle.free
  obs _ _ := ⟨rfl, rfl, fun _ _ => rfl⟩
  start _ ho := ⟨rfl, ho⟩
  serves _ _ _ hl hv := serving_scBlock hl hv

/-! ## Threads that run alone -/

/-- Run without the other threads, the program answers, and leaves a record with `Q`. -/
def Alone (Q : CacheOp → Prop) (K : Code RecordAccess RecordAccess.Result Call Label (Except Fault Outcome)) (p : Block) (s : CacheOp) : Prop :=
  ∃ s', Q s' ∧ Ends record K p s s'

section

variable {K : Code RecordAccess RecordAccess.Result Call Label (Except Fault Outcome)} {s : CacheOp} {Q : CacheOp → Prop}

theorem Alone.load {a : RecordAccess} {k : a.Result → Block} (ha : a.IsLoad) (h : Alone Q K (k (a.exec s).1) s) :
    Alone Q K (.act a k) s := by
  obtain ⟨s', hs', he⟩ := h
  refine ⟨s', hs', .act a k s s' ?_⟩
  rw [ha.look s]
  exact he

theorem Alone.loadMeta {f : CacheMeta → Block} (h : Alone Q K (f s.keyMeta) s) : Alone Q K (loadMeta >>= f) s :=
  .load trivial <| .load trivial <| .load trivial <| .load trivial <| .load trivial h

theorem Alone.jump {l : Label} (h : Alone Q K (K.block l) s) : Alone Q K (jump l) s := by
  obtain ⟨s', hs', he⟩ := h
  exact ⟨s', hs', .jump l s s' he⟩

theorem Alone.finish {x : Outcome} (hs : Q s) : Alone Q K (finish x) s := ⟨s, hs, .ret _ s⟩

theorem Alone.pos {c : Prop} {_ : Decidable c} {p q : Block} (hc : c) (h : Alone Q K p s) : Alone Q K (if c then p else q) s := by
  rw [if_pos hc]
  exact h

theorem Alone.checkLen (hs : Sound lin L s) (hl : c.slot.op.valLen = L) (h : Alone Q K (K.block (.lock c c.slot)) s) :
    Alone Q K (checkLen c) s :=
  .load trivial <| .pos (hl.trans hs.valLen.symm) (.jump h)

/-- A lock that is free is taken, and its section comes to an end. -/
theorem Alone.optikLock {l : Label} {next : Block} {x : Except Fault Hit} (hs : Sound lin L s) (h : Does lin L x s next)
    (hQ : ∀ g, x = .ok g → Sound lin L g.kv → Q g.kv) : Alone Q K (optikLock l next) s := by
  unfold Does at h
  split at h
  · next g =>
    refine .loadMeta ⟨g.kv, hQ g rfl h.1, ?_⟩
    have hcas : record.exec (.casLock 0 1) s = ((0 : UInt8), s.setMeta { s.keyMeta with lock := 1 }) := by
      simp only [record, RecordAccess.exec, hs.idle.free, ite_true]
      rfl
    rw [if_neg (by rw [hs.idle.free]; exact one_ne.symm)]
    refine .act _ _ s _ ?_
    rw [hcas]
    exact .act RecordAccess.loadVersion _ _ _ <| .act (RecordAccess.storeVersion _) _ _ _ h.2.ends
  · exact h.elim

theorem same_of_idle (hi : s.keyMeta.Idle) : optikIsSameVersionAndValid s.keyMeta s.keyMeta = true := by
  simp [optikIsSameVersionAndValid, hi.even]

/-- A call that runs alone leaves what its loop body leaves. -/
theorem alone_linLock {d : Call} {x : Outcome} (hl : LinRuns L (.lock d x) c) (hs : Sound True L s)
    (hbody : ∀ g, c.fn.body machineNum machineId (c.hit s) = .ok g → Sound True L g.kv → Q g.kv) :
    Alone Q (linCode machineNum machineId) (linBlock machineNum machineId (.lock d x)) s :=
  .optikLock hs (hl.does machineNum machineId hs) hbody

/-- A round of a read that nobody disturbs is the last one, unless it goes on under the lock. -/
theorem alone_linGet {x : Outcome} (hs : Sound True L s) (hc : LinCall L c) (ho : c.slot.op.opcode = .get) (hx : x.op = c.slot.op)
    (hread : Q s) (hbody : ∀ g, c.fn.body machineNum machineId (c.hit s) = .ok g → Sound True L g.kv → Q g.kv) :
    Alone Q (linCode machineNum machineId) (linGet c x) s := by
  have hcheck (y : Outcome) : Alone Q (linCode machineNum machineId) (linGetCheck c s.keyMeta y) s :=
    .loadMeta <| .pos (same_of_idle hs.idle) <| .load trivial <| .finish hread
  have hlock : Alone Q (linCode machineNum machineId) (jump (.lock c x)) s :=
    .jump <| alone_linLock ⟨rfl, hc, by simp [ho], hx, fun h => absurd ho h⟩ hs hbody
  refine .loadMeta <| .load trivial ?_
  show Alone _ _ (Prog.bind (Prog.ret s.keyMeta.state) _) s
  cases hst : s.keyMeta.state with
  | other code => exact absurd hst ((hs.known trivial).not_other code)
  | valid => exact .load trivial (hcheck _)
  | invalidReplay => exact hcheck _
  | writeReplay => exact hcheck _
  | invalid => exact hlock
  | write => exact hlock

theorem alone_scLock {d : Call} {x : Outcome} (hl : ScRuns L (.lock d x) c) (hs : Sound False L s) :
    Alone (Sound False L) (scCode machineId) (scBlock machineId (.lock d x)) s :=
  .optikLock hs (hl.does 0 machineId hs) fun _ _ hg => hg

theorem alone_scGet {x : Outcome} (hs : Sound False L s) : Alone (Sound False L) (scCode machineId) (scGet c x) s :=
  .loadMeta <| .load trivial <| .loadMeta <| .pos (same_of_idle hs.idle) <| .finish hs

theorem alone_scBlock {l : Label} (hl : ScRuns L l c) (hs : Sound False L s) :
    Alone (Sound False L) (scCode machineId) (scBlock machineId l) s := by
  cases l with
  | enter d =>
    obtain ⟨rfl, hc⟩ := hl
    have hlock (ho : d.slot.op.opcode ∈ [.put, .upd]) : Alone (Sound False L) (scCode machineId) (checkLen d) s :=
      .checkLen hs (hc.valLen ho) (alone_scLock ⟨rfl, hc, ho, rfl⟩ hs)
    rw [hc.enter_eq]
    rcases hc.opcode_mem with ho | ho | ho | ho
    · rw [ho]
      exact .jump (alone_scGet hs)
    · have := hlock (by simp [ho])
      rw [ho]
      exact this
    · have := hlock (by simp [ho])
      rw [ho]
      exact this
    · rw [ho]
      exact .finish hs
  | read d x => exact alone_scGet hs
  | lock d x =>
    obtain rfl : d = c := hl.1
    exact alone_scLock hl hs

/-- As before; a call may also only look, and leave the record as it is. -/
theorem alone_linBlock {l : Label} (hl : LinRuns L l c) (hs : Sound True L s) (hread : c.slot.op.opcode ∈ [.get, .brc] → Q s)
    (hbody : ∀ g, c.fn.body machineNum machineId (c.hit s) = .ok g → Sound True L g.kv → Q g.kv) :
    Alone Q (linCode machineNum machineId) (linBlock machineNum machineId l) s := by
  cases l with
  | enter d =>
    obtain ⟨rfl, hc⟩ := hl
    have hlock (ho : d.slot.op.opcode ≠ .brc) :
        Alone Q (linCode machineNum machineId) ((linCode machineNum machineId).block (.lock d d.slot)) s :=
      alone_linLock ⟨rfl, hc, ho, rfl, fun _ => rfl⟩ hs hbody
    rw [hc.enter_eq]
    cases ho : d.slot.op.opcode with
    | get => exact .jump (alone_linGet hs hc ho rfl (hread (by simp [ho])) hbody)
    | put => exact .checkLen hs (hc.valLen (by simp [ho])) (hlock (by simp [ho]))
    | upd => exact .checkLen hs (hc.valLen (by simp [ho])) (hlock (by simp [ho]))
    | brc => exact .finish (hread (by simp [ho]))
    | inv => exact .jump (hlock (by simp [ho]))
    | ack => exact .jump (hlock (by simp [ho]))
    | other code => exact .jump (hlock (by simp [ho]))
  | read d x =>
    obtain ⟨rfl, hc, ho, hx⟩ := hl
    exact alone_linGet hs hc ho hx (hread (by simp [ho])) hbody
  | lock d x =>
    obtain rfl : d = c := hl.1
    exact alone_linLock hl hs hbody

end

end

end Threads

/-! ## What the threads of a machine do -/

namespace Protocol

open Threads Locked

def code (machineNum machineId : ℕ) : Protocol → Code RecordAccess RecordAccess.Result Call Label (Except Fault Outcome)
  | sc => scCode machineId
  | lin => linCode machineNum machineId

def Calls (L : UInt8) : Protocol → Call → Prop
  | sc => ScCall L
  | lin => LinCall L

def Runs (L : UInt8) : Protocol → Label → Call → Prop
  | sc => ScRuns L
  | lin => LinRuns L

/-- The threads `ι` of a machine, with their calls on a record that is first `m₀`. -/
def threads (ι : Type) [DecidableEq ι] (p : Protocol) (machineNum machineId : ℕ) (L : UInt8) (m₀ : CacheOp) :
    Lts (State CacheOp RecordAccess RecordAccess.Result Label (Except Fault Outcome) ι) (Event ι Call (Except Fault Outcome)) :=
  Locked.threads record (p.code machineNum machineId) (p.Calls L) m₀

/-- The same calls where every loop body is one step. -/
def atomic (ι : Type) [DecidableEq ι] (p : Protocol) (machineNum machineId : ℕ) (L : UInt8) (m₀ : CacheOp) :
    Lts (Linear CacheOp Call (Except Fault Outcome) ι) (Event ι Call (Except Fault Outcome)) :=
  Locked.atomic (object machineNum machineId (p = .lin) L) (p.Calls L) m₀

variable {machineNum machineId : ℕ} {L : UInt8} {p : Protocol}

theorem sc_eq_lin : (Protocol.sc = .lin) = False := by simp

theorem correct : Correct record (p.code machineNum machineId) (object machineNum machineId (p = .lin) L) (Sees (p = .lin)) view
    (p.Calls L) (p.Runs L) := by
  cases p with
  | sc =>
    rw [sc_eq_lin]
    exact scCode_correct
  | lin =>
    rw [eq_self]
    exact linCode_correct

theorem alone {l : Label} {c : Call} {s : CacheOp} (hl : p.Runs L l c) (hs : Sound (p = .lin) L s) :
    ∃ s', Sound (p = .lin) L s' ∧ Ends record (p.code machineNum machineId) ((p.code machineNum machineId).block l) s s' := by
  cases p with
  | sc =>
    rw [sc_eq_lin] at hs ⊢
    exact alone_scBlock hl hs
  | lin =>
    rw [eq_self] at hs ⊢
    exact alone_linBlock hl hs (fun _ => hs) fun _ _ hg => hg

end Protocol

namespace Threads

open Locked

section

variable {ι : Type} [DecidableEq ι] {p : Protocol} {machineNum machineId : ℕ} {L : UInt8} {m₀ : CacheOp}
  {s₀ s : State CacheOp RecordAccess RecordAccess.Result Label (Except Fault Outcome) ι} {es : List (Event ι Call (Except Fault Outcome))}

/-- A call that returns has gone through its loop body. -/
theorem ok_of_ret (h₀ : Sound (p = .lin) L m₀) (hrun : (p.threads ι machineNum machineId L m₀).Run s₀ es s) {t : ι}
    {a : Except Fault Outcome} (hret : .ret t a ∈ es) : ∃ x, a = .ok x := by
  obtain ⟨ds, b, hds, hh, -⟩ := Locked.atomic_of_run Protocol.correct h₀ hrun
  have hmem : .ret t (view a) ∈ history ds := by
    rw [hh]
    exact List.mem_map.2 ⟨.ret t a, List.mem_filter.2 ⟨hret, rfl⟩, rfl⟩
  obtain ⟨o, v, v', x, -, -, hx⟩ := Locked.step_of_ret hds (List.mem_filter.1 hmem).1
  cases a with
  | error f => cases hx
  | ok y => exact ⟨y, rfl⟩

/-- What the loop body does to the value: nothing, or it writes that of a PUT or an UPD. -/
theorem value_of_step {c : Call} {v v' : CacheOp} {r : Except Fault Outcome} (hc : LinCall L c)
    (hst : (object machineNum machineId True L).step c v r v') :
    v'.value = v.value ∨ c.slot.op.opcode ∈ [.put, .upd] ∧ v'.value = (v.store c.slot.op).value := by
  obtain ⟨h, hok, rfl, -⟩ := hst
  rw [hc.body_eq, linNonStallingSessions, show (c.hit v).op.opcode = c.slot.op.opcode from rfl] at hok
  have hleaves (hl : (c.hit v).Leaves h) : h.kv.value = v.value := by
    obtain ⟨m, -, he⟩ := hl
    rw [he]
    rfl
  have hwrites (hw : (c.hit v).Writes h) : h.kv.value = (v.store c.slot.op).value := by
    obtain ⟨m, -, he⟩ := hw
    rw [he]
    rfl
  cases ho : c.slot.op.opcode with
  | get => exact .inl (hleaves (Hit.linGet_outcome (by simpa only [ho] using hok)))
  | put =>
    rcases Hit.linPut_outcome (by simpa only [ho] using hok) with hw | ⟨hl, -⟩
    · exact .inr ⟨by simp, hwrites hw⟩
    · exact .inl (hleaves hl)
  | upd =>
    rcases Hit.linUpd_outcome (by simpa only [ho] using hok) with hw | ⟨hl, -⟩
    · exact .inr ⟨by simp, hwrites hw⟩
    · exact .inl (hleaves hl)
  | inv => exact .inl (hleaves (Hit.linInv_outcome (by simpa only [ho] using hok)))
  | ack => exact .inl (hleaves (Hit.linAck_outcome (by simpa only [ho] using hok)))
  | brc =>
    simp only [ho] at hok
    cases hok
    exact .inl rfl
  | other code =>
    simp only [ho] at hok
    cases hok

/-- Where a value of a record comes from. -/
def Origin (m₀ : CacheOp) (es : List (Event ι Call (Except Fault Outcome))) (x : CacheOp) : Prop :=
  x = m₀ ∨ ∃ t c, .call t c ∈ es ∧ c.slot.op.opcode ∈ [.put, .upd] ∧ c.slot.op = x

/-- **The loop bodies are atomic.** However the accesses of the threads are interleaved, their calls
and answers are those of a record on which every loop body is one step, and while nobody has the
lock, the memory is that record. -/
theorem loop_bodies_atomic (h₀ : Sound (p = .lin) L m₀) (hrun : (p.threads ι machineNum machineId L m₀).Run s₀ es s) :
    ∃ ds b, (p.atomic ι machineNum machineId L m₀).Run ⟨m₀, fun _ => .idle⟩ ds b ∧
      history ds = (history es).map (Event.map view) ∧ (s.mem.keyMeta.lock = 0 → s.mem = b.val) := by
  obtain ⟨ds, b, hds, hh, -, hfree⟩ := Locked.atomic_of_run Protocol.correct h₀ hrun
  exact ⟨ds, b, hds, hh, fun hl => hfree fun hh => hh hl⟩

open Function in
/-- A thread begins a call and comes to its answer before another thread moves. -/
theorem Alone.run {Q : CacheOp → Prop} {c : Call} {m : CacheOp} {thread} {t : ι}
    (h : Alone Q (linCode machineNum machineId) (linBlock machineNum machineId (.enter c)) m) (hc : LinCall L c) (ht : thread t = none)
    (hrun : (Protocol.lin.threads ι machineNum machineId L m₀).Run s₀ es ⟨m, thread⟩) :
    ∃ ds a m', (Protocol.lin.threads ι machineNum machineId L m₀).Run s₀ (es ++ ds) ⟨m', thread⟩ ∧ Q m' ∧
      history ds = [.call t c, .ret t a] := by
  obtain ⟨m', hq, he⟩ := h
  obtain ⟨ds, a, hds, hh⟩ := he.run (update_self ..) (hrun.snoc (Step.call t c ht hc))
  rw [update_idem, ← ht, update_eq_self, List.append_assoc] at hds
  exact ⟨_, a, m', hds, hq, by rw [history_append, hh]; rfl⟩

/-- A record as it is after populating the cache. -/
def sampleRecord : CacheOp := ⟨⟨.valid, 0, 0, 0, 0⟩, 0, .put, 32, fun _ => 0⟩

/-- A PUT of session 1 on it. -/
def samplePut : Call := ⟨.lin, ⟨⟨⟨.valid, 0, 1, 0, 0⟩, 0, .put, 32, fun _ => 7⟩, .empty, 0⟩⟩

def sampleGet : Call := ⟨.lin, ⟨⟨⟨.valid, 0, 2, 0, 0⟩, 0, .get, 0, fun _ => 0⟩, .empty, 0⟩⟩

/-- The acknowledgement of the PUT, from the one other machine. -/
def sampleAck : Call := ⟨.lin, ⟨⟨⟨.valid, 0, 1, 0, 2⟩, 0, .ack, 0, fun _ => 0⟩, .empty, 0⟩⟩

/-- The record with the PUT, while its acknowledgement is waited for. -/
def sampleWritten : CacheOp := (sampleRecord.store samplePut.slot.op).setMeta ⟨.write, 1, 1, 0, 2⟩

def sampleAcked : CacheOp := sampleWritten.setMeta ⟨.valid, 0, 0, 0, 2⟩

theorem sampleRecord_sound {lin : Prop} : Sound lin 32 sampleRecord := ⟨⟨rfl, rfl⟩, fun _ => .inl rfl, rfl⟩

theorem samplePut_call : LinCall 32 samplePut := ⟨.inl ⟨rfl, by decide⟩, fun _ => rfl, fun _ => rfl⟩

theorem sampleGet_call : LinCall 32 sampleGet := ⟨.inl ⟨rfl, by decide⟩, fun h => absurd h (by decide), fun _ => rfl⟩

theorem sampleAck_call : LinCall 32 sampleAck := ⟨.inl ⟨rfl, by decide⟩, fun h => absurd h (by decide), fun _ => rfl⟩

theorem samplePut_alone : Alone (· = sampleWritten) (linCode 2 0) (linBlock 2 0 (.enter samplePut)) sampleRecord := by
  refine alone_linBlock ⟨rfl, samplePut_call⟩ sampleRecord_sound (fun h => absurd h (by decide)) fun g hg _ => ?_
  have hkv : (samplePut.fn.body 2 0 (samplePut.hit sampleRecord)).map Hit.kv = .ok sampleWritten := rfl
  rw [hg] at hkv
  exact Except.ok.inj hkv

theorem sampleAck_alone : Alone (· = sampleAcked) (linCode 2 0) (linBlock 2 0 (.enter sampleAck)) sampleWritten := by
  refine alone_linBlock ⟨rfl, sampleAck_call⟩ ⟨⟨rfl, rfl⟩, fun _ => .inr (.inr (.inl rfl)), rfl⟩ (fun h => absurd h (by decide)) fun g hg _ => ?_
  have hkv : (sampleAck.fn.body 2 0 (sampleAck.hit sampleWritten)).map Hit.kv = .ok sampleAcked := rfl
  rw [hg] at hkv
  exact Except.ok.inj hkv

/-- The calls of the sample run: a PUT and its acknowledgement overtake a read. -/
def sampleHistory (a b : Except Fault Outcome) : List (Event Bool Call (Except Fault Outcome)) :=
  [.call true sampleGet, .call false samplePut, .ret false a, .call false sampleAck, .ret false b]

/-- The read has loaded the state of the old record, and goes on with the new one. -/
theorem sample_run : ∃ es s a b, (Protocol.lin.threads Bool 2 0 32 sampleRecord).Run ⟨sampleRecord, fun _ => none⟩ es s ∧
    history es = sampleHistory a b ∧ s.thread true ≠ none ∧ s.mem = sampleAcked := by
  have hget := (Lts.Run.nil (L := Protocol.lin.threads Bool 2 0 32 sampleRecord) rfl).snoc (Step.call true sampleGet rfl sampleGet_call)
  have hjump := hget.snoc (Step.jump true (.read sampleGet sampleGet.slot) rfl)
  have hload := hjump.snoc (Step.act true .loadState _ rfl)
  obtain ⟨ds, a, m, hput, rfl, hds⟩ := samplePut_alone.run samplePut_call (t := false) rfl hload
  obtain ⟨ds', b, m, hack, rfl, hds'⟩ := sampleAck_alone.run sampleAck_call (t := false) rfl hput
  refine ⟨_, _, a, b, hack, ?_, Option.some_ne_none _, rfl⟩
  rw [history_append, history_append, hds, hds']
  rfl

theorem loop_bodies_atomic_sample : ∃ es s a b, history es = sampleHistory a b ∧
    (Protocol.lin.threads Bool 2 0 32 sampleRecord).Run ⟨sampleRecord, fun _ => none⟩ es s ∧
    ∃ ds x, (Protocol.lin.atomic Bool 2 0 32 sampleRecord).Run ⟨sampleRecord, fun _ => .idle⟩ ds x ∧
      history ds = (sampleHistory a b).map (Event.map view) ∧ x.val = sampleAcked := by
  obtain ⟨es, s, a, b, hrun, hes, -, hmem⟩ := sample_run
  obtain ⟨ds, x, hds, hh, hval⟩ := loop_bodies_atomic sampleRecord_sound hrun
  exact ⟨es, s, a, b, hes, hrun, ds, x, hds, hes ▸ hh, by rw [← hval (by rw [hmem]; rfl), hmem]⟩

/-- **A valid record shows a whole value.** At every moment of every interleaving, a record in
`VALID_STATE` has the bytes it started with, or those of one PUT or UPD. -/
theorem valid_value_whole (h₀ : Sound True L m₀) (hrun : (Protocol.lin.threads ι machineNum machineId L m₀).Run s₀ es s)
    (hvalid : s.mem.keyMeta.state = .valid) :
    ∃ x, Origin m₀ es x ∧ Bytes.Agree L.toNat s.mem.value x.value := by
  obtain ⟨ds, b, hds, hh, hobs, -⟩ := Locked.atomic_of_run linCode_correct h₀ hrun
  -- the value of the atomic record, with the length that the copies go by
  have hval : b.val.valLen = L ∧ ∃ x, Origin m₀ ds x ∧ Bytes.Agree L.toNat b.val.value x.value := by
    refine Locked.val_of_run (I := fun ds v => v.valLen = L ∧ ∃ x, Origin m₀ ds x ∧ Bytes.Agree L.toNat v.value x.value) hds
      ⟨h₀.valLen, m₀, .inl rfl, Bytes.Agree.refl _ _⟩ ?_ ?_
    · rintro ds e v ⟨hl, x, hx, ha⟩
      refine ⟨hl, x, hx.imp_right ?_, ha⟩
      rintro ⟨t, c, hc, hop⟩
      exact ⟨t, c, List.mem_append_left _ hc, hop⟩
    · rintro ds t c v r v' hcall hc ⟨hl, x, hx, ha⟩ hst
      refine ⟨?_, ?_⟩
      · obtain ⟨h, hok, rfl, -⟩ := hst
        exact (CacheFun.served c.fn hok).fields.2.2.1.trans hl
      · rcases value_of_step hc hst with hv | ⟨hop, hv⟩
        · exact ⟨x, hx, hv ▸ ha⟩
        · refine ⟨c.slot.op, .inr ⟨t, c, hcall, hop, rfl⟩, ?_⟩
          rw [hv, ← hl]
          exact Bytes.agree_memcpy _ _ _
  obtain ⟨-, x, hx, ha⟩ := hval
  refine ⟨x, hx.imp_right ?_, hobs.value trivial hvalid ▸ ha⟩
  rintro ⟨t, c, hc, hop⟩
  have hmem : .call t c ∈ (history es).map (Event.map view) := hh ▸ List.mem_filter.2 ⟨hc, rfl⟩
  obtain ⟨e, he, heq⟩ := List.mem_map.1 hmem
  cases e with
  | call y d =>
    cases heq
    exact ⟨t, c, (List.mem_filter.1 he).1, hop⟩
  | ret y d => cases heq
  | tau => cases heq

theorem valid_value_whole_sample : ∃ es s a b, history es = sampleHistory a b ∧
    (Protocol.lin.threads Bool 2 0 32 sampleRecord).Run ⟨sampleRecord, fun _ => none⟩ es s ∧ s.mem = sampleAcked ∧
    ∃ x, Origin sampleRecord es x ∧ Bytes.Agree 32 sampleAcked.value x.value := by
  obtain ⟨es, s, a, b, hrun, hes, -, hmem⟩ := sample_run
  obtain ⟨x, hx, ha⟩ := valid_value_whole sampleRecord_sound hrun (by rw [hmem]; rfl)
  exact ⟨es, s, a, b, hes, hrun, hmem, x, hx, hmem ▸ ha⟩

/-- **No assertion fails**, in any interleaving. -/
theorem no_assertion_fails (h₀ : Sound (p = .lin) L m₀) (hrun : (p.threads ι machineNum machineId L m₀).Run s₀ es s) (t : ι)
    (f : Fault) : .ret t (.error f) ∉ es := by
  intro hret
  obtain ⟨x, hx⟩ := ok_of_ret h₀ hrun hret
  cases hx

theorem no_assertion_fails_sample : ∃ es s a b, history es = sampleHistory a b ∧
    (Protocol.lin.threads Bool 2 0 32 sampleRecord).Run ⟨sampleRecord, fun _ => none⟩ es s ∧
    ∀ t f, .ret t (.error f) ∉ es := by
  obtain ⟨es, s, a, b, hrun, hes, -⟩ := sample_run
  exact ⟨es, s, a, b, hes, hrun, no_assertion_fails sampleRecord_sound hrun⟩

/-- **No thread is kept from returning.** Whatever the threads have done, each that is under way can
be brought to return, while no thread begins anything new. -/
theorem threads_can_return (h₀ : Sound (p = .lin) L m₀) (hrun : (p.threads ι machineNum machineId L m₀).Run s₀ es s) {t : ι}
    (ht : s.thread t ≠ none) :
    ∃ ds s' x, (p.threads ι machineNum machineId L m₀).Run s₀ (es ++ ds) s' ∧ s'.thread t = none ∧ .ret t (.ok x) ∈ ds ∧
      ∀ y c, .call y c ∉ ds := by
  obtain ⟨ds, s', a, hds, hs', hret, hall⟩ := Locked.answers_of_run Protocol.correct (fun l c m hl hm => Protocol.alone hl hm) h₀ hrun ht
  have hmem := (List.mem_filter.1 hret).1
  obtain ⟨x, rfl⟩ := ok_of_ret h₀ hds (List.mem_append_right es hmem)
  refine ⟨ds, s', x, hds, hs', hmem, fun y c hc => ?_⟩
  obtain ⟨z, b, hz⟩ := hall (.call y c) (List.mem_filter.2 ⟨hc, rfl⟩)
  cases hz

theorem threads_can_return_sample : ∃ es a b ds s' x, history es = sampleHistory a b ∧
    (Protocol.lin.threads Bool 2 0 32 sampleRecord).Run ⟨sampleRecord, fun _ => none⟩ (es ++ ds) s' ∧ s'.thread true = none ∧
    .ret true (.ok x) ∈ ds := by
  obtain ⟨es, s, a, b, hrun, hes, ht, -⟩ := sample_run
  obtain ⟨ds, s', x, hds, hs', hret, -⟩ := threads_can_return sampleRecord_sound hrun ht
  exact ⟨es, a, b, ds, s', x, hes, hds, hs', hret⟩

end

end Threads

end CcKvs
