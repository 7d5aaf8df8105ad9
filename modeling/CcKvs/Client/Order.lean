/-
A client's operations over many iterations. Cold requests stay in the order of
the trace: what was handed over for a machine, followed by what still waits for
it, is the sequence of the commands that missed there. The slots of a batch are
handled exactly once, and under `LINEARIZABILITY` a pointer that survives an
iteration leads to a read of its key that stalled.

One invariant is carried through an iteration, in the three forms it has
before the batch is filled, when it is filled, and after the broadcasts.
-/
import CcKvs.Client.Iteration

namespace CcKvs.Client

open Function Sc Bytes

section

variable {N : ℕ}

/-! ## Commands and requests -/

/-- The part of the command's key that is compared. -/
def TraceCommand.key (c : TraceCommand N) : UInt64 := .ofNat (readLE 8 (c.keyHash.drop 8))

/-- The first `n` commands a client takes. -/
def Trace.first (t : Trace N) (n : ℕ) : List (TraceCommand N) := (List.range n).map t.command

/-- The commands among `cs` that ask machine `rm` for a key that is not cached. -/
def missing (cached : UInt64 → Bool) (rm : Fin N) (cs : List (TraceCommand N)) : List (TraceCommand N) :=
  cs.filter fun c => !cached c.key && decide (c.homeMachineId = rm)

/-- `op` asks for what command `c` asks for. -/
structure Carries (e : Env N) (c : TraceCommand N) (op : CacheOp) : Prop where
  key : op.key = c.key
  opcode : op.opcode = if c.opcode.isWrite then .put else .get
  value : c.opcode.isWrite = true →
    op.valLen = .ofNat (e.cfg.herdValueSize >>> e.cfg.shiftBits) ∧ Agree e.cfg.herdValueSize op.value e.text

/-- The operation in a slot whose key is not cached, if it is for machine `rm`. -/
def coldFor (cached : UInt64 → Bool) (rm : Fin N) (x : Slot N) : Option Bytes :=
  if cached x.key = false ∧ x.machine = rm then some x.op else none

variable {e : Env N} {t : Trace N} {cached : UInt64 → Bool} {rm : Fin N} {x y z : Slot N} {c : TraceCommand N}

theorem Carries.sameRequest {a b : CacheOp} (h : Carries e c a) (hs : SameRequest e.cfg a b) : Carries e c b where
  key := hs.key.trans h.key
  opcode := hs.opcode.trans h.opcode
  value hw := by
    have hput : a.opcode = .put := by rw [h.opcode, if_pos hw]
    obtain ⟨hlen, hval⟩ := h.value hw
    obtain ⟨hlen', hval'⟩ := hs.value hput
    exact ⟨hlen'.trans hlen, hval'.trans hval⟩

theorem forall₂_carries_trans {cs : List (TraceCommand N)} {as bs : List CacheOp} (h : List.Forall₂ (Carries e) cs as)
    (hs : List.Forall₂ (SameRequest e.cfg) as bs) : List.Forall₂ (Carries e) cs bs := by
  induction h generalizing bs with
  | nil =>
    cases hs
    exact .nil
  | cons hc _ ih =>
    cases hs with
    | cons hab hrest => exact .cons (hc.sameRequest hab) (ih hrest)

theorem first_succ (t : Trace N) (n : ℕ) : t.first (n + 1) = t.first n ++ [t.command n] := by
  rw [Trace.first, List.range_succ, List.map_append]
  rfl

/-- The slots are the same as far as requests go. -/
structure SameCold (e : Env N) (cached : UInt64 → Bool) (x y : Slot N) : Prop where
  key : y.key = x.key
  machine : y.machine = x.machine
  request : cached x.key = false → SameRequest e.cfg (.ofBytes x.op) (.ofBytes y.op)

theorem SameCold.refl (x : Slot N) : SameCold e cached x x := ⟨rfl, rfl, fun _ => .refl _ _⟩

theorem coldFor_sameRequest {xs ys : List (Slot N)} (h : List.Forall₂ (SameCold e cached) xs ys) (rm : Fin N) :
    List.Forall₂ (SameRequest e.cfg) ((xs.filterMap (coldFor cached rm)).map .ofBytes)
      ((ys.filterMap (coldFor cached rm)).map .ofBytes) := by
  induction h with
  | nil => exact .nil
  | @cons x y xs ys hxy _ ih =>
    by_cases hc : cached x.key = false ∧ x.machine = rm
    · have hx : coldFor cached rm x = some x.op := if_pos hc
      have hy : coldFor cached rm y = some y.op := if_pos (by rw [hxy.key, hxy.machine]; exact hc)
      simp only [List.filterMap_cons, hx, hy, List.map_cons]
      exact .cons (hxy.request hc.1) ih
    · have hx : coldFor cached rm x = none := if_neg hc
      have hy : coldFor cached rm y = none := if_neg (by rw [hxy.key, hxy.machine]; exact hc)
      simpa only [List.filterMap_cons, hx, hy] using ih

/-- `served` was handed over and `xs` waits: together they are the commands so far. -/
def InOrder (e : Env N) (t : Trace N) (cached : UInt64 → Bool) (served : Fin N → List Bytes) (n : ℕ) (xs : List (Slot N)) : Prop :=
  ∀ rm, List.Forall₂ (Carries e) (missing cached rm (t.first n))
    ((served rm ++ xs.filterMap (coldFor cached rm)).map .ofBytes)

variable {served : Fin N → List Bytes} {n : ℕ} {xs ys : List (Slot N)}

theorem InOrder.congr (h : InOrder e t cached served n xs) (hs : List.Forall₂ (SameCold e cached) xs ys) :
    InOrder e t cached served n ys := by
  intro rm
  refine forall₂_carries_trans (h rm) ?_
  rw [List.map_append, List.map_append]
  exact List.rel_append (List.forall₂_same.2 fun c _ => .refl e.cfg c) (coldFor_sameRequest hs rm)

/-- A command with a slot of its own comes last. -/
theorem InOrder.take (h : InOrder e t cached served n xs) (hkey : x.key = (t.command n).key)
    (hmachine : x.machine = (t.command n).homeMachineId) (hc : Carries e (t.command n) (.ofBytes x.op)) :
    InOrder e t cached served (n + 1) (xs ++ [x]) := by
  intro rm
  rw [first_succ, missing, List.filter_append, List.filterMap_append, ← List.append_assoc, List.map_append]
  refine List.rel_append (h rm) ?_
  by_cases hm : cached x.key = false ∧ x.machine = rm
  · have hx : coldFor cached rm x = some x.op := if_pos hm
    have hcmd : (!cached (t.command n).key && decide ((t.command n).homeMachineId = rm)) = true := by
      rw [← hkey, ← hmachine, hm.1, hm.2]
      simp
    simp only [List.filter_cons, hcmd, List.filterMap_cons, hx]
    exact .cons hc .nil
  · have hx : coldFor cached rm x = none := if_neg hm
    have hcmd : (!cached (t.command n).key && decide ((t.command n).homeMachineId = rm)) = false := by
      rw [← hkey, ← hmachine]
      simpa using hm
    simp only [List.filter_cons, hcmd, List.filterMap_cons, hx]
    exact .nil

/-- A command whose key is cached is no request. -/
theorem InOrder.skip (h : InOrder e t cached served n xs) (hc : cached (t.command n).key = true) :
    InOrder e t cached served (n + 1) xs := by
  intro rm
  have hnone : missing cached rm (t.first (n + 1)) = missing cached rm (t.first n) := by
    rw [first_succ, missing, List.filter_append]
    simp [hc, missing]
  rw [hnone]
  exact h rm

/-! ## Filling the batch -/

/-- Slot `x` holds a read of key `k`, one of the first `n` commands, and none of those after it
writes the key. -/
structure ReadOf (t : Trace N) (n k : ℕ) (x : Slot N) : Prop where
  tracks : Tracks k x
  command : ∃ m < n, (t.command m).keyId = k ∧ (t.command m).opcode.isRead = true ∧ x.key = (t.command m).key ∧
    ∀ j, m < j → j < n → (t.command j).keyId = k → (t.command j).opcode.isRead = true

theorem ReadOf.congr {k : ℕ} (h : ReadOf t n k x) (ht : Tracks k y) (hkey : y.key = x.key) : ReadOf t n k y := by
  obtain ⟨m, hm, hid, hread, hx, hlater⟩ := h.command
  exact ⟨ht, m, hm, hid, hread, hkey.trans hx, hlater⟩

theorem ReadOf.succ {k : ℕ} (h : ReadOf t n k x) (hn : (t.command n).keyId = k → (t.command n).opcode.isRead = true) :
    ReadOf t (n + 1) k x := by
  obtain ⟨m, hm, hid, hread, hx, hlater⟩ := h.command
  refine ⟨h.tracks, m, by omega, hid, hread, hx, ?_⟩
  intro j hj hjn hk
  rcases Nat.lt_succ_iff_lt_or_eq.1 hjn with hlt | rfl
  · exact hlater j hj hlt hk
  · exact hn hk

/-- The slots filled so far. -/
def Fill.slots (f : Fill N) : List (Slot N) := (List.range f.i).map f.ops

/-- The batch after the first `n` commands. -/
structure Filling (e : Env N) (t : Trace N) (cached : UInt64 → Bool) (served : Fin N → List Bytes) (n : ℕ) (f : Fill N) :
    Prop where
  waiting : ∀ j < f.i, Waiting e cached (f.ops j)
  order : InOrder e t cached served n f.slots
  tracked : e.protocol = .lin → ∀ k < hottestKeysToTrack, f.hottestKeysPointers k ≠ 0 →
    f.hottestKeysPointers k ≤ f.i ∧ cached (f.ops (f.hottestKeysPointers k - 1)).key = true ∧
      ReadOf t n k (f.ops (f.hottestKeysPointers k - 1))

/-! ### A command with a slot of its own -/

variable {tagged : ℕ → Bool} {f f' : Fill N}

theorem taken_of_ne {j : ℕ} (h : j ≠ f.i) : ((f.prepared e c).taken e tagged t c).ops j = f.ops j := by
  have hi : (f.prepared e c).i = f.i := Fill.prepared_i f
  rw [Fill.taken_ops_of_ne tagged t (hi ▸ h), Fill.prepared_ops h]

theorem taken_self (e : Env N) (tagged : ℕ → Bool) (t : Trace N) (c : TraceCommand N) (f : Fill N) : ∃ tag rand,
    ((f.prepared e c).taken e tagged t c).ops f.i = ⟨e.fillOp c tag rand ((f.prepared e c).ops f.i).op, .empty, c.homeMachineId⟩ := by
  have hself := Fill.taken_ops_self tagged t (e := e) (c := c) (f.prepared e c)
  rw [Fill.prepared_i] at hself
  exact ⟨_, _, hself⟩

theorem taken_slots (f : Fill N) : ((f.prepared e c).taken e tagged t c).slots =
    f.slots ++ [((f.prepared e c).taken e tagged t c).ops f.i] := by
  have hi : ((f.prepared e c).taken e tagged t c).i = f.i + 1 := congrArg (· + 1) (Fill.prepared_i f)
  have hbefore : (List.range f.i).map ((f.prepared e c).taken e tagged t c).ops = f.slots :=
    List.map_congr_left fun j hj => taken_of_ne (List.mem_range.1 hj).ne
  rw [Fill.slots, hi, List.range_succ, List.map_append, hbefore]
  rfl

variable {tag : Bool} {rand : UInt32} {op : Bytes} {ty : RespType} {home : Fin N}

theorem fillOp_slot_key : (⟨e.fillOp c tag rand op, ty, home⟩ : Slot N).key = c.key :=
  congrArg UInt64.ofNat (readLE_congr fun _ _ => Env.fillOp_key (by omega) (by omega))

theorem fillOp_carries : Carries e c (.ofBytes (e.fillOp c tag rand op)) where
  key := congrArg UInt64.ofNat (readLE_congr fun _ _ => Env.fillOp_key (by omega) (by omega))
  opcode := by
    cases hw : c.opcode.isWrite with
    | true =>
      rw [if_pos rfl]
      exact congrArg Opcode.ofByte (Env.fillOp_write hw).1
    | false =>
      rw [if_neg Bool.false_ne_true]
      exact congrArg Opcode.ofByte (Env.fillOp_read hw).1
  value hw := (Env.fillOp_write hw).2

theorem fillOp_opcode : (⟨e.fillOp c tag rand op, ty, home⟩ : Slot N).opcode = if c.opcode.isWrite then .put else .get :=
  fillOp_carries.opcode

/-- The slot of a command before the cache is probed. -/
theorem fillOp_waiting : Waiting e cached ⟨e.fillOp c tag rand op, .empty, home⟩ where
  kind := by
    refine .inr ⟨rfl, ?_⟩
    rw [fillOp_opcode]
    split
    · exact .inr rfl
    · exact .inl rfl
  cold h := absurd rfl h

/-- A round fills one slot at most. -/
theorem Fill.round_i_le (hok : f.round e tagged t c = .ok f') : f'.i ≤ f.i + 1 := by
  rcases Fill.round_cases hok with ⟨-, rfl⟩ | ⟨-, -, -, -, rfl⟩
  · exact (congrArg (· + 1) (Fill.prepared_i f)).le
  · exact Nat.le_succ _

theorem Fill.loop_i_le (hok : f.loop e tagged t n = .ok f') : f'.i ≤ f.i + n := by
  induction n generalizing f with
  | zero =>
    cases hok
    exact Nat.le_refl _
  | succ n ih =>
    rw [Fill.loop] at hok
    split at hok
    · split at hok
      · cases hok
        omega
      · obtain ⟨f₁, hround, hrest⟩ := bind_eq_ok.1 hok
        have hone := Fill.round_i_le hround
        have hmore := ih hrest
        omega
    · cases hok
      omega

/-- Commands on keys that are not tracked take slots of their own, behind those there are. -/
theorem untracked_loop {f₀ : Fill N} {m : ℕ} (hiter : f₀.traceIter = m % t.cmds.length) (hroom : f₀.i + n ≤ cacheBatchSize)
    (hu : ∀ j < n, hottestKeysToTrack ≤ (t.command (m + j)).keyId) :
    ∃ f, f₀.loop e tagged t n = .ok f ∧ f.i = f₀.i + n ∧ f.traceIter = (m + n) % t.cmds.length ∧
      (∀ j < f₀.i, f.ops j = f₀.ops j) ∧ (∀ k < hottestKeysToTrack, f.hottestKeysPointers k = f₀.hottestKeysPointers k) ∧
      ∀ j < n, ∃ tag rand op, f.ops (f₀.i + j) =
        ⟨e.fillOp (t.command (m + j)) tag rand op, .empty, (t.command (m + j)).homeMachineId⟩ := by
  induction n with
  | zero => exact ⟨f₀, rfl, rfl, hiter, fun _ _ => rfl, fun _ _ => rfl, fun j hj => absurd hj (Nat.not_lt_zero _)⟩
  | succ n ih =>
    obtain ⟨f, hloop, hi, hf, hold, hptr, hslots⟩ := ih (by omega) fun j hj => hu j (by omega)
    have hcold := hu n (Nat.lt_succ_self n)
    have hround : f.round e tagged t (t.command (m + n)) =
        .ok ((f.prepared e (t.command (m + n))).taken e tagged t (t.command (m + n))) :=
      Fill.round_takes fun h => absurd h.1 (by omega)
    refine ⟨(f.prepared e (t.command (m + n))).taken e tagged t (t.command (m + n)), ?_, ?_, ?_, fun j hj => ?_,
      fun k hk => ?_, fun j hj => ?_⟩
    · have hlast : f.loop e tagged t 1 = f.round e tagged t (t.command (m + n)) >>= fun f => .ok f := by
        rw [Fill.loop, if_pos (by omega), hf, t.getElem?_mod]
        rfl
      rw [Fill.loop_add_one, hloop]
      exact hlast.trans (by rw [hround]; rfl)
    · exact (congrArg (· + 1) ((Fill.prepared_i f).trans hi)).trans (Nat.add_assoc _ _ _)
    · rw [Fill.round_traceIter hround, hf, t.advance_mod, Nat.add_assoc]
    · rw [taken_of_ne (by omega)]
      exact hold j hj
    · exact (Fill.prepared_pointers_of_ne (by omega)).trans (hptr k hk)
    · rcases Nat.lt_succ_iff_lt_or_eq.1 hj with hlt | rfl
      · rw [taken_of_ne (by omega)]
        exact hslots j hlt
      · obtain ⟨tag, rand, hself⟩ := taken_self e tagged t (t.command (m + j)) f
        rw [hi] at hself
        exact ⟨tag, rand, _, hself⟩

/-- A read that is tracked keeps its key in its value. -/
theorem taken_tracks (hp : e.protocol = .lin) (hc : c.IsTracked) :
    Tracks c.keyId (((f.prepared e c).taken e tagged t c).ops f.i) := by
  obtain ⟨tag, rand, hself⟩ := taken_self e tagged t c f
  have hw : c.opcode.isWrite = false := by rw [TraceOpcode.isWrite_eq, hc.2]; rfl
  have hvalue : ((f.prepared e c).ops f.i).op 18 = .ofNat c.keyId := by
    simp only [Fill.prepared, if_pos hc.1, hc.2, if_true, Fill.track, hp, update_self]
    exact update_self _ _ _
  rw [hself]
  refine ⟨by rw [fillOp_opcode, hw]; rfl, ?_⟩
  show (e.fillOp c tag rand ((f.prepared e c).ops f.i).op 18).toNat = c.keyId
  have hlt : c.keyId < 20 := hc.1
  rw [(Env.fillOp_read hw).2.2 18 (Nat.le_refl _), hvalue, UInt8.toNat_ofNat', Nat.mod_eq_of_lt (by omega)]

/-- Commands on the hottest keys find them in the cache. -/
def Resident (t : Trace N) (cached : UInt64 → Bool) : Prop :=
  ∀ c ∈ t.cmds, c.keyId < hottestKeysToTrack → cached c.key = true

theorem Resident.command (h : Resident t cached) (hk : (t.command n).keyId < hottestKeysToTrack) :
    cached (t.command n).key = true := h _ (List.get_mem _ _) hk

theorem Filling.take (hres : Resident t cached) (h : Filling e t cached served n f) :
    Filling e t cached served (n + 1) ((f.prepared e (t.command n)).taken e tagged t (t.command n)) := by
  obtain ⟨tag, rand, hself⟩ := taken_self e tagged t (t.command n) f
  have hi : ((f.prepared e (t.command n)).taken e tagged t (t.command n)).i = f.i + 1 :=
    congrArg (· + 1) (Fill.prepared_i f)
  refine ⟨?_, ?_, ?_⟩
  · intro j hj
    rw [hi] at hj
    rcases Nat.lt_succ_iff_lt_or_eq.1 hj with hlt | rfl
    · rw [taken_of_ne hlt.ne]
      exact h.waiting j hlt
    · rw [hself]
      exact fillOp_waiting
  · rw [taken_slots, hself]
    exact h.order.take fillOp_slot_key rfl fillOp_carries
  · intro hp k hk
    show (f.prepared e (t.command n)).hottestKeysPointers k ≠ 0 → _
    intro h0
    rw [hi]
    show (f.prepared e (t.command n)).hottestKeysPointers k ≤ f.i + 1 ∧
      cached (((f.prepared e (t.command n)).taken e tagged t (t.command n)).ops
        ((f.prepared e (t.command n)).hottestKeysPointers k - 1)).key = true ∧
      ReadOf t (n + 1) k (((f.prepared e (t.command n)).taken e tagged t (t.command n)).ops
        ((f.prepared e (t.command n)).hottestKeysPointers k - 1))
    by_cases hkey : (t.command n).keyId = k
    · -- the command is a read, and the pointer is at its slot
      subst hkey
      rw [Fill.prepared_pointers hk] at h0 ⊢
      cases hread : (t.command n).opcode.isRead with
      | false => simp [hread] at h0
      | true =>
        have hslot : (((f.prepared e (t.command n)).taken e tagged t (t.command n)).ops f.i).key = (t.command n).key := by
          rw [hself]
          exact fillOp_slot_key
        rw [if_pos rfl, Nat.add_sub_cancel]
        refine ⟨Nat.le_refl _, by rw [hslot]; exact hres.command hk, taken_tracks hp ⟨hk, hread⟩, n, Nat.lt_succ_self n, rfl,
          hread, hslot, ?_⟩
        intro j hj hjn
        omega
    · rw [Fill.prepared_pointers_of_ne hkey] at h0 ⊢
      obtain ⟨hle, hcached, hread⟩ := h.tracked hp k hk h0
      rw [taken_of_ne (by omega)]
      exact ⟨by omega, hcached, hread.succ fun hk' => absurd hk' hkey⟩

/-! ### A read that is counted -/

/-- A slot that counts one more read, or is as it was. -/
structure Counts (x y : Slot N) : Prop where
  type : y.type = x.type
  machine : y.machine = x.machine
  bytes : ∀ j, j ≠ 17 → y.op j = x.op j
  valLen : x.opcode ≠ .get → y.op 17 = x.op 17

theorem counted_counts {opI : ℕ} (ho : (f.ops opI).opcode = .get) (j : ℕ) : Counts (f.ops j) ((f.counted t opI).ops j) := by
  by_cases hj : j = opI
  · subst hj
    have hself : (f.counted t j).ops j = { f.ops j with op := update (f.ops j).op 17 ((f.ops j).valLen + 1) } :=
      update_self _ _ _
    rw [hself]
    exact ⟨rfl, rfl, fun i hi => update_of_ne hi _ _, fun hne => absurd ho hne⟩
  · have hother : (f.counted t opI).ops j = f.ops j := update_of_ne hj _ _
    rw [hother]
    exact ⟨rfl, rfl, fun _ _ => rfl, fun _ => rfl⟩

theorem Counts.opcode (h : Counts x y) : y.opcode = x.opcode := congrArg Opcode.ofByte (h.bytes 16 (by omega))

theorem Counts.key (h : Counts x y) : y.key = x.key :=
  congrArg UInt64.ofNat (readLE_congr fun i hi => h.bytes (8 + i) (by omega))

theorem Counts.tracks {k : ℕ} (h : Counts x y) (ht : Tracks k x) : Tracks k y :=
  ⟨h.opcode.trans ht.get, (congrArg UInt8.toNat (h.bytes 18 (by omega))).trans ht.value0⟩

theorem Counts.sameCold (h : Counts x y) : SameCold e cached x y where
  key := h.key
  machine := h.machine
  request _ := by
    refine ⟨h.key, h.opcode, ?_⟩
    intro hput
    have hne : x.opcode ≠ .get := by
      rw [show x.opcode = .put from hput]
      decide
    exact ⟨h.valLen hne, fun i _ => h.bytes (micaOpMetadata + i) (by rw [micaOpMetadata_eq]; omega)⟩

theorem Waiting.counts (hx : Waiting e cached x) (h : Counts x y) : Waiting e cached y where
  kind := by
    rw [h.type, h.opcode]
    exact hx.kind.imp_left fun hl => hl.congr h.type h.opcode
  cold := by
    rw [h.type, h.key]
    exact hx.cold

theorem Admissible.counts (hx : Admissible e x) (h : Counts x y) : Admissible e y where
  valLen := by
    have hok := hx.valLen
    unfold valLenOk at hok ⊢
    simp only [Bool.or_eq_true, bne_iff_ne, ne_eq, beq_iff_eq, h.bytes 16 (by omega)] at hok ⊢
    by_cases hput : Opcode.ofByte (x.op 16) = .put
    · have hne : x.opcode ≠ .get := by
        rw [show x.opcode = .put from hput]
        decide
      rw [h.valLen hne]
      exact hok
    · exact .inl hput
  machine := h.machine ▸ hx.machine

theorem Filling.count (hres : Resident t cached) (h : Filling e t cached served n f) (hc : (t.command n).IsTracked) {opI : ℕ}
    (ho : (f.ops opI).opcode = .get) : Filling e t cached served (n + 1) (f.counted t opI) := by
  have hcounts (j : ℕ) := counted_counts (t := t) ho j
  refine ⟨?_, ?_, ?_⟩
  · intro j hj
    exact (h.waiting j hj).counts (hcounts j)
  · refine (h.order.skip (hres.command hc.1)).congr ?_
    exact List.forall₂_map_left_iff.2 (List.forall₂_map_right_iff.2 (List.forall₂_same.2 fun j _ => (hcounts j).sameCold))
  · intro hp k hk h0
    obtain ⟨hle, hcached, hread⟩ := h.tracked hp k hk h0
    have hslot := hcounts (f.hottestKeysPointers k - 1)
    refine ⟨hle, ?_, ?_⟩
    · show cached ((f.counted t opI).ops (f.hottestKeysPointers k - 1)).key = true
      rw [hslot.key]
      exact hcached
    · exact (hread.congr (hslot.tracks hread.tracks) hslot.key).succ fun _ => hc.2

theorem Filling.round (hres : Resident t cached) (h : Filling e t cached served n f)
    (hok : f.round e tagged t (t.command n) = .ok f') : Filling e t cached served (n + 1) f' := by
  rcases Fill.round_cases hok with ⟨-, rfl⟩ | ⟨hc, -, hget, -, rfl⟩
  · exact h.take hres
  · exact h.count hres hc hget

/-- Requests can be handed over if no command is for the client's own machine. -/
structure Fits (e : Env N) (t : Trace N) : Prop where
  remote : ∀ c ∈ t.cmds, c.homeMachineId ≠ e.machineId
  valLen : e.cfg.herdValueSize >>> e.cfg.shiftBits < 256

theorem fillOp_admissible (hlen : e.cfg.herdValueSize >>> e.cfg.shiftBits < 256) (hhome : home ≠ e.machineId) :
    Admissible e ⟨e.fillOp c tag rand op, ty, home⟩ where
  valLen := by
    unfold valLenOk
    dsimp only
    cases hw : c.opcode.isWrite with
    | false => simp [(Env.fillOp_read hw).1, Opcode.ofByte]
    | true =>
      rw [(Env.fillOp_write hw).2.1, UInt8.toNat_ofNat', Nat.mod_eq_of_lt hlen]
      simp
  machine := hhome

theorem admissible_round (hfit : Fits e t) (h : ∀ j < f.i, Admissible e (f.ops j))
    (hok : f.round e tagged t (t.command n) = .ok f') : ∀ j < f'.i, Admissible e (f'.ops j) := by
  rcases Fill.round_cases hok with ⟨-, rfl⟩ | ⟨-, -, hget, -, rfl⟩
  · obtain ⟨tag, rand, hself⟩ := taken_self e tagged t (t.command n) f
    intro j hj
    rw [show ((f.prepared e (t.command n)).taken e tagged t (t.command n)).i = f.i + 1 from
      congrArg (· + 1) (Fill.prepared_i f)] at hj
    rcases Nat.lt_succ_iff_lt_or_eq.1 hj with hlt | rfl
    · rw [taken_of_ne hlt.ne]
      exact h j hlt
    · rw [hself]
      exact fillOp_admissible hfit.valLen (hfit.remote _ (List.get_mem _ _))
  · intro j hj
    exact (h j hj).counts (counted_counts hget j)

/-! ## The batch after the broadcasts -/

theorem forall₂_comp {α β γ : Type} {R : α → β → Prop} {S : β → γ → Prop} {as : List α} {bs : List β} {cs : List γ}
    (h : List.Forall₂ R as bs) (h' : List.Forall₂ S bs cs) : List.Forall₂ (fun a c => ∃ b, R a b ∧ S b c) as cs := by
  induction h generalizing cs with
  | nil =>
    cases h'
    exact .nil
  | cons hab _ ih =>
    cases h' with
    | cons hbc hrest => exact .cons ⟨_, hab, hbc⟩ (ih hrest)

/-- A slot before the cache is probed and the same slot after the broadcasts. -/
def Becomes (e : Env N) (cached : UInt64 → Bool) (x z : Slot N) : Prop := ∃ y, Probed e cached x y ∧ e.Sends y z

theorem Becomes.keeps (h : Becomes e cached x z) : Keeps x z := by
  obtain ⟨y, hprobe, hs⟩ := h
  exact hprobe.keeps.trans hs.keeps

theorem Waiting.sameCold (hx : Waiting e cached x) (h : Becomes e cached x z) : SameCold e cached x z := by
  refine ⟨h.keeps.key, h.keeps.machine, ?_⟩
  intro hc
  obtain ⟨y, hprobe, hs⟩ := h
  exact hx.sameRequest hprobe hs hc

/-- The batch that `handle_cold_requests` finds after the first `n` commands. -/
structure Sent (e : Env N) (t : Trace N) (cached : UInt64 → Bool) (served : Fin N → List Bytes) (n : ℕ)
    (pointers : ℕ → ℕ) (xs : List (Slot N)) : Prop where
  answered : ∀ x ∈ xs, Answered e cached x
  order : InOrder e t cached served n xs
  tracked : e.protocol = .lin → ∀ k < hottestKeysToTrack, ∀ i, pointers k = i + 1 → ∃ x, xs[i]? = some x ∧
    (x.type = .getSuccess ∨ x.type = .getStall) ∧ ReadOf t n k x

theorem mem_slots (hx : x ∈ f.slots) : ∃ j < f.i, f.ops j = x := by
  obtain ⟨j, hj, hx⟩ := List.mem_map.1 hx
  exact ⟨j, List.mem_range.1 hj, hx⟩

theorem Filling.becomes (h : Filling e t cached served n f) (hb : List.Forall₂ (Becomes e cached) f.slots xs) :
    Sent e t cached served n f.hottestKeysPointers xs := by
  have hwaiting : ∀ x ∈ f.slots, Waiting e cached x := by
    intro x hx
    obtain ⟨j, hj, rfl⟩ := mem_slots hx
    exact h.waiting j hj
  refine ⟨?_, ?_, ?_⟩
  · intro z hz
    obtain ⟨x, hx, y, hprobe, hs⟩ := Lts.exists_mem_of_forall₂ hb.flip hz
    exact ((hwaiting x hx).answered hprobe hs).1
  · refine h.order.congr (((List.forall₂_and_left _ _).2 ⟨hwaiting, hb⟩).imp ?_)
    intro x z hxz
    exact hxz.1.sameCold hxz.2
  · intro hp k hk i hi
    obtain ⟨hle, hcached, hread⟩ := h.tracked hp k hk (by omega)
    rw [hi, Nat.add_sub_cancel] at hcached hread
    obtain ⟨hlen, hget⟩ := List.forall₂_iff_get.1 hb
    have hslots : i < f.slots.length := by
      rw [Fill.slots, List.length_map, List.length_range]
      omega
    obtain ⟨y, hprobe, hs⟩ := hget i hslots (hlen ▸ hslots)
    have hx : f.slots.get ⟨i, hslots⟩ = f.ops i := by simp [Fill.slots]
    rw [hx] at hprobe
    obtain ⟨htype, htracks⟩ := (h.waiting i (by omega)).tracks hprobe hs hcached hread.tracks
    refine ⟨_, List.getElem?_eq_getElem (hlen ▸ hslots), htype, hread.congr htracks ?_⟩
    exact (hprobe.keeps.trans hs.keeps).key

/-! ## What is left of the batch -/

variable {xs' : List (Slot N)} {fs : List (Fate N)} {s s' : Cold N} {pointers : ℕ → ℕ}

theorem Env.Meets.copies {f : Fate N} (h : e.Meets x f) (hy : f.next = some y) : ∃ m, e.Copies m x y := by
  cases h with
  | retired => cases hy
  | handed => cases hy
  | passed _ _ hcopy =>
    cases hy
    exact ⟨_, hcopy⟩
  | copied _ hcopy =>
    cases hy
    exact ⟨_, hcopy⟩

/-- A read that stalls is copied as it is. -/
theorem Env.Meets.of_getStall {f : Fate N} (h : e.Meets x f) (hr : Ready e x) (ht : x.type = .getStall) :
    ∃ y, f = .copied y ∧ e.Copies (CacheOp.ofBytes x.op).keyMeta x y := by
  have hm : x.isMiss ≠ true := by simp [Slot.isMiss, ht]
  have ho : x.opcode = .get := by
    cases hr with
    | miss hm' => exact absurd hm' hm
    | getSuccess ht' => simp [ht] at ht'
    | upd _ ht' => simp [ht] at ht'
    | inv _ ht' => simp [ht] at ht'
    | putFail _ ht' => simp [ht] at ht'
    | stays _ hl => exact hl.get_of_getStall ht
  cases h with
  | retired _ hret => cases hp : e.protocol <;> simp [Env.retires, hp, ht, ho] at hret
  | handed hm' => exact absurd hm' hm
  | passed _ hm' => exact absurd hm' hm
  | copied y hcopy => exact ⟨y, rfl, hcopy⟩

/-- What is in the next batch is the copy of a slot. -/
theorem copies_of_next (h : List.Forall₂ e.Meets xs fs) (hy : y ∈ fs.filterMap Fate.next) : ∃ x ∈ xs, ∃ m, e.Copies m x y := by
  obtain ⟨f, hf, hnext⟩ := List.mem_filterMap.1 hy
  obtain ⟨x, hx, hmeets⟩ := Lts.exists_mem_of_forall₂ h.flip hf
  exact ⟨x, hx, hmeets.copies hnext⟩

theorem Env.Copies.isMiss {m : CacheMeta} (h : e.Copies m x y) : y.isMiss = x.isMiss := by
  rw [Slot.isMiss, h.type]
  exact unserved_isMiss x

theorem Env.Copies.admissible {m : CacheMeta} (h : e.Copies m x y) (hx : Admissible e x) : Admissible e y := by
  refine ⟨?_, h.machine ▸ hx.machine⟩
  have hok := hx.valLen
  have hlen : y.op 17 = x.op 17 := h.op.valLen
  have ho : Opcode.ofByte (y.op 16) = .ofByte (x.op 16) := h.op.opcode
  rwa [valLenOk, hlen, ho]

theorem Answered.coldFor_eq (h : Answered e cached x) (rm : Fin N) : coldFor cached rm x = missFor rm x := by
  simp [coldFor, missFor, h.cold]

/-- What is left is a request exactly if its key is not cached. -/
theorem Sent.next_cold (h : Sent e t cached served n pointers xs) (hm : List.Forall₂ e.Meets xs fs)
    (hy : y ∈ fs.filterMap Fate.next) : y.isMiss = !cached y.key := by
  obtain ⟨x, hx, m, hcopy⟩ := copies_of_next hm hy
  have hkey : y.key = x.key := hcopy.op.key
  rw [hcopy.isMiss, hkey]
  exact (h.answered x hx).cold

/-- What is handed over leaves the queue at its head. -/
theorem Sent.inOrder (h : Sent e t cached served n pointers xs) (hh : Handled e true 0 xs s xs' fs s') :
    InOrder e t cached (fun rm => served rm ++ fs.filterMap (Fate.handedTo rm)) n (fs.filterMap Fate.next) := by
  intro rm
  have hbefore : xs.filterMap (coldFor cached rm) = xs.filterMap (missFor rm) :=
    List.filterMap_congr fun x hx => (h.answered x hx).coldFor_eq rm
  have hafter : (fs.filterMap Fate.next).filterMap (coldFor cached rm) = (fs.filterMap Fate.next).filterMap (missFor rm) := by
    refine List.filterMap_congr ?_
    intro y hy
    simp [coldFor, missFor, h.next_cold hh.meets hy]
  have hqueue := h.order rm
  rw [hbefore, List.map_append] at hqueue
  rw [hafter, List.append_assoc, List.map_append]
  refine forall₂_carries_trans hqueue ?_
  exact List.rel_append (List.forall₂_same.2 fun c _ => .refl e.cfg c) (hh.fifo rm)

/-- What is left waits for the next iteration. -/
theorem Sent.left (h : Sent e t cached served n pointers xs) (hh : Handled e true 0 xs s xs' fs s')
    (hy : y ∈ fs.filterMap Fate.next) : Left e.protocol y ∧ (y.type = .unservedMiss ↔ cached y.key = false) := by
  have hl := hh.left_of_next y hy
  have hcold := h.next_cold hh.meets hy
  refine ⟨hl, ?_, ?_⟩
  · intro ht
    have hm : y.isMiss = true := by simp [Slot.isMiss, ht]
    rw [hm] at hcold
    simpa using hcold.symm
  · intro hc
    exact hl.type_of_miss (by rw [hcold, hc]; rfl)

theorem Sent.pointing (h : Sent e t cached served n pointers xs) (hp : e.protocol = .lin)
    (hs : s.hottestKeysPointers = pointers) : s.Pointing 0 xs := by
  intro k hk h0
  rw [hs] at h0 ⊢
  obtain ⟨i, hi⟩ := Nat.exists_eq_succ_of_ne_zero h0
  obtain ⟨x, hx, htype, hread⟩ := h.tracked hp k hk i hi
  refine .inr ⟨by omega, x, ?_, htype, hread.tracks⟩
  rw [hi, Nat.succ_sub_one, Nat.sub_zero]
  exact hx

/-- The pointers go with the slots, whatever bytes other slots have where a read keeps its key. -/
theorem Sent.follow (h : Sent e t cached served n pointers xs) (hh : Handled e true 0 xs s xs' fs s') (hp : e.protocol = .lin)
    (hs : s.hottestKeysPointers = pointers) (h0 : s.nextOpI = 0) {k : ℕ} (hk : k < hottestKeysToTrack) :
    s'.hottestKeysPointers k = Client.follow fs (pointers k) := by
  have hfollow := (hh.pointers hp h0.le (h.pointing hp hs)).2 k hk
  rw [hs, h0] at hfollow
  cases hi : pointers k with
  | zero => exact (hfollow.1 hi.le).trans hi
  | succ i =>
    rw [hfollow.2 i (by rw [hi, Nat.zero_add])]
    split
    · next hend => exact hend.symm
    · exact Nat.zero_add _

theorem slots_eq_next (hh : Handled e true 0 xs s xs' fs s') (h0 : s.nextOpI = 0) : s'.slots = fs.filterMap Fate.next := by
  rw [hh.slots, Cold.slots, h0]
  rfl

theorem Sent.tracked_next (h : Sent e t cached served n pointers xs) (hh : Handled e true 0 xs s xs' fs s') (hp : e.protocol = .lin)
    (hs : s.hottestKeysPointers = pointers) (h0 : s.nextOpI = 0) {k : ℕ} (hk : k < hottestKeysToTrack)
    (hne : s'.hottestKeysPointers k ≠ 0) : s'.hottestKeysPointers k ≤ s'.nextOpI ∧
      (s'.nextOps (s'.hottestKeysPointers k - 1)).type = .getStall ∧ ReadOf t n k (s'.nextOps (s'.hottestKeysPointers k - 1)) := by
  have hpointing := (hh.pointers hp h0.le (h.pointing hp hs)).1
  rcases hpointing k hk hne with ⟨hle, htype, htracks⟩ | ⟨-, y, hy, -⟩
  · refine ⟨hle, htype, ?_⟩
    -- the slot is the copy of the one the pointer was at, so it holds that one's read
    obtain ⟨p, hpk⟩ := Nat.exists_eq_succ_of_ne_zero hne
    have hfollow := h.follow hh hp hs h0 hk
    rw [hpk] at hfollow htracks hle ⊢
    obtain ⟨i, hi⟩ : ∃ i, pointers k = i + 1 := by
      cases hi : pointers k with
      | zero =>
        rw [hi] at hfollow
        cases hfollow
      | succ i => exact ⟨i, rfl⟩
    rw [hi] at hfollow
    obtain ⟨fate, y, hfate, hcopy, hnext⟩ := follow_eq_succ hfollow.symm
    have hy : y = s'.nextOps p := by
      rw [← slots_eq_next hh h0, Cold.slots, List.getElem?_map, List.getElem?_range (by omega)] at hnext
      exact (Option.some.inj hnext).symm
    obtain ⟨x, hx, -, hread⟩ := h.tracked hp k hk i hi
    have hmeets : e.Meets x fate := by
      obtain ⟨hxlt, hxget⟩ := List.getElem?_eq_some_iff.1 hx
      obtain ⟨hflt, hfget⟩ := List.getElem?_eq_some_iff.1 hfate
      have hget := (List.forall₂_iff_get.1 hh.meets).2 i hxlt hflt
      rwa [List.get_eq_getElem, List.get_eq_getElem, hxget, hfget] at hget
    subst hy
    obtain ⟨m, hcopies⟩ := hmeets.copies hcopy
    exact hread.congr htracks hcopies.op.key
  · simp at hy

end

end CcKvs.Client
