/-
How a client takes its operations from the trace (`batch_from_trace_to_cache`
in `cache.c`), up to the point where the cache is probed. Every command takes
a slot of its own, with one exception: while a read of one of the hottest keys
is in the batch and the key has not been written since, further reads of it are
counted in that slot's `val_len` instead.

The count is a byte and the trace is cyclic, so the loop depends on other
commands to fill the batch before a count is full. What exactly it depends on
is the subject of the next module.
-/
import CcKvs.Sc.Client

namespace CcKvs

def Sc.Slot.opcode {N : ℕ} (x : Sc.Slot N) : Opcode := .ofByte (x.op 16)

def Sc.Slot.valLen {N : ℕ} (x : Sc.Slot N) : UInt8 := x.op 17

/-- `value[0]`, in which a tracked read keeps its key. -/
def Sc.Slot.value0 {N : ℕ} (x : Sc.Slot N) : UInt8 := x.op 18

namespace Client

open Function Sc

def hottestKeysToTrack : ℕ := 20

def sessionsPerClient : ℕ := 6

def clientsPerMachine : ℕ := 20

/-- The opcodes of a trace apart from `NOP`. -/
inductive TraceOpcode
  | hotWrite
  | hotRead
  | remoteWrite
  | remoteRead
  | localWrite
  | localRead
  deriving DecidableEq, Repr

namespace TraceOpcode

def isRead : TraceOpcode → Bool
  | hotRead | remoteRead | localRead => true
  | _ => false

def isWrite : TraceOpcode → Bool
  | hotWrite | remoteWrite | localWrite => true
  | _ => false

def isRemote : TraceOpcode → Bool
  | remoteRead | remoteWrite => true
  | _ => false

theorem isWrite_eq (o : TraceOpcode) : o.isWrite = !o.isRead := by cases o <;> rfl

end TraceOpcode

structure TraceCommand (N : ℕ) where
  opcode : TraceOpcode
  homeMachineId : Fin N
  keyId : ℕ
  /-- The sixteen bytes of the key. -/
  keyHash : Bytes

/-- A read that can be counted in another read's slot. -/
def TraceCommand.IsTracked {N : ℕ} (c : TraceCommand N) : Prop := c.keyId < hottestKeysToTrack ∧ c.opcode.isRead = true

instance {N : ℕ} (c : TraceCommand N) : Decidable c.IsTracked := inferInstanceAs (Decidable (_ ∧ _))

/-- The commands in front of the `NOP`; there is at least one. -/
structure Trace (N : ℕ) where
  cmds : List (TraceCommand N)
  ne : cmds ≠ []

/-- What is fixed for a client. -/
structure Env (N : ℕ) where
  cfg : Config
  protocol : Protocol
  machineId : Fin N
  cltGid : ℕ
  /-- Memory from the literal `"Armonia is the key to success!  "` on, the value of every write. -/
  text : Bytes

def Env.localClientId {N : ℕ} (e : Env N) : ℕ := e.cltGid % clientsPerMachine

section

variable {N : ℕ}

/-- `trace[trace_iter]`, where the trace starts over at the `NOP`. -/
def Trace.command (t : Trace N) (n : ℕ) : TraceCommand N :=
  t.cmds.get ⟨n % t.cmds.length, Nat.mod_lt _ (List.length_pos_of_ne_nil t.ne)⟩

/-- `trace_iter++`, and back to the start at the `NOP`. -/
def Trace.advance (t : Trace N) (i : ℕ) : ℕ := if t.cmds[i + 1]?.isNone then 0 else i + 1

def hrdFastrand (seed : UInt64) : UInt64 × UInt32 :=
  let seed := seed * 1103515245 + 12345
  (seed, (seed >>> 32).toUInt32)

/-! ## The loop -/

/-- The operation in slot `i` after command `c`, over what was there. `tagged` is the choice
`start_measurement` makes: it marks a remote request in `key.meta.state`. -/
def Env.fillOp (e : Env N) (c : TraceCommand N) (tagged : Bool) (rand : UInt32) (op : Bytes) : Bytes :=
  let op := op.write 0 c.keyHash keySize
  let op := update op 0 (if tagged && c.opcode.isRemote then 1 else 0)
  let op := update op 2 (.ofNat (rand.toNat % sessionsPerClient * clientsPerMachine + e.localClientId))
  if c.opcode.isWrite then
    let op : Bytes := update (update op 16 112) 17 (.ofNat (e.cfg.herdValueSize >>> e.cfg.shiftBits))
    -- `str_to_binary` ends the value with a zero
    update (op.write micaOpMetadata e.text e.cfg.herdValueSize) (micaOpMetadata + e.cfg.herdValueSize) 0
  else update (update op 16 111) 17 0

/-- The variables of the loop. A pointer is one more than the index of a slot, or 0. -/
structure Fill (N : ℕ) where
  i : ℕ
  traceIter : ℕ
  ops : ℕ → Slot N
  hottestKeysPointers : ℕ → ℕ
  seed : UInt64

variable (e : Env N) (tagged : ℕ → Bool) (t : Trace N)

/-- The slot at `i` holds command `c`. -/
def Fill.taken (c : TraceCommand N) (s : Fill N) : Fill N :=
  { s with
    i := s.i + 1
    traceIter := t.advance s.traceIter
    ops := update s.ops s.i
      ⟨e.fillOp c (tagged s.i) (hrdFastrand s.seed).2 (s.ops s.i).op, .empty, c.homeMachineId⟩
    seed := (hrdFastrand s.seed).1 }

/-- The part of a round that all commands with a slot of their own go through. -/
def Fill.takeSlot (c : TraceCommand N) (s : Fill N) : Except Fault (Fill N) :=
  if c.opcode.isWrite && ((s.taken e tagged t c).ops s.i).valLen == 0 then .error .emptyValue
  else .ok (s.taken e tagged t c)

/-- The slot at `opI` counts one more read. -/
def Fill.counted (opI : ℕ) (s : Fill N) : Fill N :=
  { s with
    traceIter := t.advance s.traceIter
    ops := update s.ops opI { s.ops opI with op := update (s.ops opI).op 17 ((s.ops opI).valLen + 1) } }

def Fill.countRead (opI : ℕ) (s : Fill N) : Except Fault (Fill N) :=
  if (s.ops opI).opcode ≠ .get then .error .notGet
  else if 255 ≤ (s.ops opI).valLen.toNat then .error .tooManyReads
  else .ok (s.counted t opI)

/-- The slot of a read that is tracked from now on; under `LINEARIZABILITY` it keeps its key. -/
def Fill.track (k : ℕ) (s : Fill N) : Fill N :=
  { s with
    hottestKeysPointers := update s.hottestKeysPointers k (s.i + 1)
    ops := match e.protocol with
      | .sc => s.ops
      | .lin => update s.ops s.i { s.ops s.i with op := update (s.ops s.i).op micaOpMetadata (.ofNat k) } }

/-- A write of a tracked key. -/
def Fill.untrack (k : ℕ) (s : Fill N) : Fill N :=
  { s with hottestKeysPointers := update s.hottestKeysPointers k 0 }

/-- One round of the loop, for the command at `trace_iter`. -/
def Fill.round (c : TraceCommand N) (s : Fill N) : Except Fault (Fill N) :=
  if c.keyId < hottestKeysToTrack then
    if c.opcode.isRead then
      if s.hottestKeysPointers c.keyId = 0 then (s.track e c.keyId).takeSlot e tagged t c
      else s.countRead t (s.hottestKeysPointers c.keyId - 1)
    else (s.untrack c.keyId).takeSlot e tagged t c
  else s.takeSlot e tagged t c

/-- At most so many rounds of `while (i < CACHE_BATCH_SIZE && trace[trace_iter].opcode != NOP)`. -/
def Fill.loop : ℕ → Fill N → Except Fault (Fill N)
  | 0, s => .ok s
  | n + 1, s =>
    if s.i < cacheBatchSize then
      match t.cmds[s.traceIter]? with
      | none => .ok s
      | some c => do
        let s ← s.round e tagged t c
        Fill.loop n s
    else .ok s

/-- The assertions on the slots carried over. -/
def carriedOver (ops : ℕ → Slot N) (nextOpI : ℕ) : Bool :=
  (List.range nextOpI).all fun j =>
    (ops j).type != .empty &&
      !((ops j).type == .getSuccess || (ops j).opcode == .inv || (ops j).type == .putFail)

/-- The loop begins behind the slots carried over. -/
def Fill.start (traceIter : ℕ) (ops : ℕ → Slot N) (nextOpI : ℕ) (hottestKeysPointers : ℕ → ℕ) : Fill N where
  i := nextOpI
  traceIter := traceIter
  ops := ops
  hottestKeysPointers := match e.protocol with
    | .sc => fun _ => 0
    | .lin => hottestKeysPointers
  seed := 0xdeadbeef

/-- `batch_from_trace_to_cache` without the call of the cache, for at most `rounds` rounds. -/
def batchFromTrace (rounds traceIter : ℕ) (ops : ℕ → Slot N) (nextOpI : ℕ) (hottestKeysPointers : ℕ → ℕ) :
    Except Fault (Fill N) :=
  if carriedOver ops nextOpI then (Fill.start e traceIter ops nextOpI hottestKeysPointers).loop e tagged t rounds
  else .error .carriedOver

/-! ## What the client loop leaves -/

/-- What a slot may be that was copied to the next batch. -/
inductive Left : Protocol → Slot N → Prop
  | unserved : x.type = .unservedMiss → x.opcode = .get ∨ x.opcode = .put → Left p x
  | getStall : x.type = .getStall → x.opcode = .get → Left .lin x
  | putStall : x.type = .putStall → x.opcode = .put → Left .lin x
  /-- A write that the cache has taken and that waits for credits. -/
  | brc : x.type = .putSuccess → x.opcode = .brc → Left .lin x

/-- The first slots of the batch and the pointers into them, before the others are filled. -/
structure CarriedOver (p : Protocol) (ops : ℕ → Slot N) (nextOpI : ℕ) (hottestKeysPointers : ℕ → ℕ) : Prop where
  le : nextOpI ≤ cacheBatchSize
  left : ∀ j < nextOpI, Left p (ops j)
  /-- A tracked read is one that stalled. -/
  tracked : p = .lin → ∀ k < hottestKeysToTrack, hottestKeysPointers k ≠ 0 → hottestKeysPointers k ≤ nextOpI ∧
    (ops (hottestKeysPointers k - 1)).type = .getStall ∧ (ops (hottestKeysPointers k - 1)).value0.toNat = k

/-- The loop returns with the whole batch filled, and no assertion fails before that. -/
def Fills (traceIter : ℕ) (ops : ℕ → Slot N) (nextOpI : ℕ) (hottestKeysPointers : ℕ → ℕ) : Prop :=
  ∃ rounds s, batchFromTrace e tagged t rounds traceIter ops nextOpI hottestKeysPointers = .ok s ∧ s.i = cacheBatchSize

/-! ## The operation in a slot -/

variable {e} {c : TraceCommand N} {tag : Bool} {rand : UInt32} {op : Bytes} {j : ℕ}

/-- A read writes the header only. -/
theorem Env.fillOp_read (h : c.opcode.isWrite = false) :
    (e.fillOp c tag rand op) 16 = 111 ∧ (e.fillOp c tag rand op) 17 = 0 ∧ ∀ j, 18 ≤ j → (e.fillOp c tag rand op) j = op j := by
  simp only [fillOp, h, Bool.false_eq_true, if_false]
  refine ⟨by simp [update], by simp [update], fun j hj => ?_⟩
  have hne : j ≠ 17 ∧ j ≠ 16 ∧ j ≠ 2 ∧ j ≠ 0 := by omega
  rw [update_of_ne hne.1, update_of_ne hne.2.1, update_of_ne hne.2.2.1, update_of_ne hne.2.2.2, Bytes.write,
    if_neg (by rw [keySize]; omega)]

theorem Env.fillOp_write (h : c.opcode.isWrite = true) :
    (e.fillOp c tag rand op) 16 = 112 ∧ (e.fillOp c tag rand op) 17 = .ofNat (e.cfg.herdValueSize >>> e.cfg.shiftBits) ∧
      Bytes.Agree e.cfg.herdValueSize ((e.fillOp c tag rand op).drop micaOpMetadata) e.text := by
  simp only [fillOp, h, if_true]
  have hout (b : Bytes) (i : ℕ) (hi : i < 18) :
      update (b.write micaOpMetadata e.text e.cfg.herdValueSize) (micaOpMetadata + e.cfg.herdValueSize) 0 i = b i := by
    rw [update_of_ne (by rw [micaOpMetadata_eq]; omega), Bytes.write, if_neg (by rw [micaOpMetadata_eq]; omega)]
  refine ⟨(hout _ _ (by omega)).trans (by simp [update]), (hout _ _ (by omega)).trans (by simp [update]), fun i hi => ?_⟩
  rw [Bytes.drop, update_of_ne (by omega), Bytes.write, if_pos ⟨by omega, by omega⟩, Nat.add_sub_cancel_left]

/-- The key is the command's, but for the state and the session. -/
theorem Env.fillOp_key (h2 : 2 < j) (h16 : j < 16) : e.fillOp c tag rand op j = c.keyHash j := by
  have hne : j ≠ 17 ∧ j ≠ 16 ∧ j ≠ 2 ∧ j ≠ 0 := by omega
  have hkey : update (update (op.write 0 c.keyHash keySize) 0 (if tag && c.opcode.isRemote then 1 else 0)) 2
      (.ofNat (rand.toNat % sessionsPerClient * clientsPerMachine + e.localClientId)) j = c.keyHash j := by
    rw [update_of_ne hne.2.2.1, update_of_ne hne.2.2.2, Bytes.write, if_pos (by rw [keySize]; omega), Nat.sub_zero]
  unfold fillOp
  dsimp only
  split
  · rw [update_of_ne (by rw [micaOpMetadata_eq]; omega), Bytes.write, if_neg (by rw [micaOpMetadata_eq]; omega),
      update_of_ne hne.1, update_of_ne hne.2.1]
    exact hkey
  · rw [update_of_ne hne.1, update_of_ne hne.2.1]
    exact hkey

/-- A write's `val_len` is not 0, whatever the size of a value. -/
theorem valLen_ne_zero (cfg : Config) : UInt8.ofNat (cfg.herdValueSize >>> cfg.shiftBits) ≠ 0 := by
  intro h
  have h' : cfg.herdValueSize >>> cfg.shiftBits % 2 ^ 8 = 0 := (UInt8.toNat_ofNat').symm.trans (congrArg UInt8.toNat h)
  obtain ⟨big, lines⟩ := cfg
  cases big
  · exact absurd (show 32 % 2 ^ 8 = 0 from h') (by decide)
  · simp only [Config.herdValueSize, Config.shiftBits, baseValueSize, if_true, Nat.shiftRight_eq_div_pow] at h'
    omega

theorem Fill.taken_ops_self (s : Fill N) : (s.taken e tagged t c).ops s.i =
    ⟨e.fillOp c (tagged s.i) (hrdFastrand s.seed).2 (s.ops s.i).op, .empty, c.homeMachineId⟩ := update_self _ _ _

theorem Fill.taken_ops_of_ne {s : Fill N} (h : j ≠ s.i) : (s.taken e tagged t c).ops j = s.ops j := update_of_ne h _ _

theorem Fill.takeSlot_eq (s : Fill N) : s.takeSlot e tagged t c = .ok (s.taken e tagged t c) := by
  refine if_neg ?_
  simp only [Bool.and_eq_true, beq_iff_eq, not_and]
  intro hw
  rw [taken_ops_self]
  exact fun h0 => valLen_ne_zero e.cfg ((Env.fillOp_write hw).2.1.symm.trans h0)

end

end Client

end CcKvs
