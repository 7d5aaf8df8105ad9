/-
An iteration of a client's main loop (`run_client` in `client-sc.c` and
`client-lin.c`), as far as the client's own operations go: the buffers are
swapped, the batch is filled from the trace, the cache is probed, hot writes are
broadcast, and what is left goes through `handle_cold_requests`.

The cache is shared with the other clients of the machine and with what the
other machines send, so every slot may meet another content of it. What does
not change is which keys it holds.
-/
import CcKvs.Client.Coalescing
import CcKvs.Client.Fates
import CcKvs.Cache.Memory
import CcKvs.Lib.Lts

namespace CcKvs

/-- The part of the key that is compared. -/
def Sc.Slot.key {N : ℕ} (x : Sc.Slot N) : UInt64 := (CacheOp.ofBytes x.op).key

namespace Client

open Function Sc Bytes

section

variable {N : ℕ}

/-! ## The cache -/

/-- The function `batch_from_trace_to_cache` calls. -/
def Env.cacheFun (e : Env N) : CacheFun :=
  match e.protocol with
  | .sc => .sc
  | .lin => .lin

/-- What a loop body has written to `ops[I]`: `key.meta` and `opcode`. -/
def storeOp (op : CacheOp) (b : Bytes) : Bytes := update (b.write 0 op.keyMeta.toBytes 8) 16 op.opcode.toByte

/-- The cache is probed for slot `x`, at a moment when it holds the keys `cached`. -/
inductive Probed (e : Env N) (cached : UInt64 → Bool) (x : Slot N) : Slot N → Prop
  | mk (cache cache' : Cache) (resp resp' : MicaResp) (op' : CacheOp) : (∀ key, (cache key).isSome = cached key) →
      resp.type = x.type →
      cache.serve (e.cacheFun.body N e.machineId) (.ofBytes x.op) resp = .ok (cache', op', resp') →
      Probed e cached x ⟨storeOp op' x.op, resp'.type, x.machine⟩

/-! ## Broadcasts -/

/-- The part of `forge_bcast_wrs_LIN` that is about a slot. -/
def Env.invalidation (e : Env N) (x : Slot N) : Slot N :=
  { x with op := update (update x.op 16 114) 2 (.ofNat e.machineId) }

/-- The slots after `perform_broadcasts_LIN` has found credits for `credits` invalidations. -/
def Env.broadcastInvs (e : Env N) : ℕ → List (Slot N) → List (Slot N)
  | _, [] => []
  | credits, x :: xs =>
    if x.opcode = .brc then
      match credits with
      | 0 => x :: xs
      | credits + 1 => e.invalidation x :: e.broadcastInvs credits xs
    else x :: e.broadcastInvs credits xs

/-- `perform_broadcasts_SC` or `perform_broadcasts_LIN`. The first collects the hot writes where
`broadcast_cache_ops` has left nothing; how many credits the second has is left open. -/
inductive Broadcast (e : Env N) (xs : List (Slot N)) : List (Slot N) → Prop
  | sc (requestLength : ℕ) (ops : List Bytes) (batch : CacheBatch) : e.protocol = .sc →
      performBroadcasts e.cfg (xs.map (·.op)) ⟨[], requestLength⟩ = .ok (ops, batch) →
      Broadcast e xs (List.zipWith (fun x op => { x with op := op }) xs ops)
  | lin (credits : ℕ) : e.protocol = .lin → Broadcast e xs (e.broadcastInvs credits xs)

/-! ## The loop -/

/-- The variables of the loop. -/
structure State (N : ℕ) where
  traceIter : ℕ
  ops : ℕ → Slot N
  nextOps : ℕ → Slot N
  thirdOps : ℕ → Slot N
  nextOpI : ℕ
  hottestKeysPointers : ℕ → ℕ
  cacheHits : ℕ

/-- With `CLIENT_ENABLE_INLINING` two buffers are swapped, without it three circulate. -/
def State.swapOps (inlining : Bool) (s : State N) : State N :=
  if inlining then { s with ops := s.nextOps, nextOps := s.ops }
  else { s with ops := s.nextOps, nextOps := s.thirdOps, thirdOps := s.ops }

/-- `setup_ops`, `trace_iter = 0`, `next_op_i = 0` and no key tracked. -/
structure State.Init (s : State N) : Prop where
  traceIter : s.traceIter = 0
  nextOpI : s.nextOpI = 0
  hottestKeysPointers : ∀ k, s.hottestKeysPointers k = 0
  cacheHits : s.cacheHits = 0

/-- The variables of `handle_cold_requests` when it is called; `send_requests` has emptied the
batches. -/
def State.cold (s : State N) (f : Fill N) : Cold N where
  nextOps := s.nextOps
  nextOpI := 0
  hottestKeysPointers := f.hottestKeysPointers
  cacheHits := s.cacheHits
  batch := fun _ => []
  perWorkerOutstanding := fun _ => 0
  wrI := 0
  remReqI := 0

/-- An array whose first elements were written. -/
def overwrite (l : List (Slot N)) (b : ℕ → Slot N) : ℕ → Slot N := fun j => l[j]?.getD (b j)

section

variable (e : Env N) (t : Trace N) (cached : UInt64 → Bool)

/-- From a state with swapped buffers, `n` commands are taken until the batch is full, and
`slots` is the batch as `handle_cold_requests` finds it. -/
structure Prepared (s : State N) (n : ℕ) (f : Fill N) (slots : List (Slot N)) : Prop where
  fill : ∃ tagged, batchFromTrace e tagged t n s.traceIter s.ops s.nextOpI s.hottestKeysPointers = .ok f ∧
    ∀ m < n, ∀ f', batchFromTrace e tagged t m s.traceIter s.ops s.nextOpI s.hottestKeysPointers = .ok f' →
      f'.i < cacheBatchSize
  full : f.i = cacheBatchSize
  probe : ∃ probed, List.Forall₂ (Probed e cached) ((List.range cacheBatchSize).map f.ops) probed ∧ Broadcast e probed slots

/-- What an iteration shows: the number of commands taken, the slots that `handle_cold_requests`
found, and what it collected for each machine. -/
structure Iteration (N : ℕ) where
  commands : ℕ
  slots : List (Slot N)
  batch : Fin N → ErpcBatch

inductive Step (inlining : Bool) (s : State N) : Iteration N → State N → Prop
  | iterate (n : ℕ) (f : Fill N) (slots slots' : List (Slot N)) (c : Cold N) :
      Prepared e t cached (s.swapOps inlining) n f slots →
      handleColdRequests e 0 slots ((s.swapOps inlining).cold f) = .ok (slots', c) →
      Step inlining s ⟨n, slots, c.batch⟩
        { traceIter := f.traceIter
          ops := overwrite slots' f.ops
          nextOps := c.nextOps
          thirdOps := (s.swapOps inlining).thirdOps
          nextOpI := c.nextOpI
          hottestKeysPointers := c.hottestKeysPointers
          cacheHits := c.cacheHits }

def client (inlining : Bool) : Lts (State N) (Iteration N) := ⟨State.Init, Step e t cached inlining⟩

end

/-! ## Probing a slot -/

variable {e : Env N} {cached : UInt64 → Bool} {x y z : Slot N}

/-- Of an operation, a probe and a broadcast write the metadata and the opcode only. -/
structure Keeps (x y : Slot N) : Prop where
  machine : y.machine = x.machine
  bytes : ∀ j, 8 ≤ j → j ≠ 16 → y.op j = x.op j

theorem Keeps.trans (h : Keeps x y) (h' : Keeps y z) : Keeps x z :=
  ⟨h'.machine.trans h.machine, fun j h8 h16 => (h'.bytes j h8 h16).trans (h.bytes j h8 h16)⟩

theorem Keeps.key (h : Keeps x y) : y.key = x.key :=
  congrArg UInt64.ofNat (readLE_congr fun i hi => h.bytes (8 + i) (by omega) (by omega))

/-- Writes come from writes. -/
theorem Keeps.valLenOk (h : Keeps x y) (hput : y.opcode = .put → x.opcode = .put) {cfg : Config}
    (hx : valLenOk cfg x.op = true) : Sc.valLenOk cfg y.op = true := by
  have hlen : y.op 17 = x.op 17 := h.bytes 17 (by omega) (by omega)
  unfold Sc.valLenOk at hx ⊢
  simp only [Bool.or_eq_true, bne_iff_ne, ne_eq, beq_iff_eq, hlen] at hx ⊢
  exact hx.imp_left fun hne hp => hne (hput hp)

theorem Keeps.sameRequest (h : Keeps x y) (ho : y.opcode = x.opcode) (cfg : Config) :
    SameRequest cfg (.ofBytes x.op) (.ofBytes y.op) where
  key := h.key
  opcode := ho
  value _ := ⟨h.bytes 17 (by omega) (by omega), fun i _ =>
    h.bytes (micaOpMetadata + i) (by rw [micaOpMetadata_eq]; omega) (by rw [micaOpMetadata_eq]; omega)⟩

theorem Keeps.tracks {k : ℕ} (h : Keeps x y) (ho : y.opcode = x.opcode) (hx : Tracks k x) : Tracks k y :=
  ⟨ho.trans hx.get, (congrArg UInt8.toNat (h.bytes 18 (by omega) (by omega))).trans hx.value0⟩

theorem storeOp_keeps (op : CacheOp) (t : RespType) : Keeps x ⟨storeOp op x.op, t, x.machine⟩ where
  machine := rfl
  bytes j h8 h16 := (update_of_ne h16 _ _).trans (if_neg (by omega))

theorem storeOp_opcode (op : CacheOp) (t : RespType) :
    (⟨storeOp op x.op, t, x.machine⟩ : Slot N).opcode = .ofByte op.opcode.toByte :=
  congrArg Opcode.ofByte (show storeOp op x.op 16 = _ from update_self _ _ _)

/-- How the cache answers an operation whose key it holds. -/
inductive Env.Answers (e : Env N) (x y : Slot N) : Prop
  | getSuccess : x.opcode = .get → y.opcode = .get → y.type = .getSuccess → Answers e x y
  | getStall : e.protocol = .lin → x.opcode = .get → y.opcode = .get → y.type = .getStall → Answers e x y
  | taken : x.opcode = .put → y.opcode = .brc → y.type = .putSuccess → Answers e x y
  | putStall : e.protocol = .lin → x.opcode = .put → y.opcode = .put → y.type = .putStall → Answers e x y
  | putFail : e.protocol = .lin → x.opcode = .put → y.opcode = .put → y.type = .putFail → Answers e x y
  | brc : x.opcode = .brc → y.opcode = .brc → y.type = x.type → Answers e x y

/-- What a loop body answers to an operation of the client's own. -/
theorem answers_of_body {g h : Hit} (hb : e.cacheFun.body N e.machineId g = .ok h) (hg : g.op = .ofBytes x.op)
    (htype : g.resp.type = x.type) (ho : x.opcode = .get ∨ x.opcode = .put ∨ x.opcode = .brc) :
    e.Answers x ⟨storeOp h.op x.op, h.resp.type, x.machine⟩ := by
  have hop {o : Opcode} (he : h.op.opcode = o) : (⟨storeOp h.op x.op, h.resp.type, x.machine⟩ : Slot N).opcode =
      .ofByte o.toByte := by rw [storeOp_opcode, he]
  have hgo : g.op.opcode = x.opcode := congrArg CacheOp.opcode hg
  cases hp : e.protocol with
  | sc =>
    rw [show e.cacheFun = .sc by simp [Env.cacheFun, hp]] at hb
    rcases ho with ho | ho | ho <;> rw [ho] at hgo <;> simp only [CacheFun.body, sc, hgo] at hb
    · cases Hit.readUnlocked_eq hb
      exact .getSuccess ho (hop hgo) rfl
    · obtain ⟨hbrc, ht⟩ := scPut_answer hb
      exact .taken ho (hop hbrc) ht
    · cases hb
      exact .brc ho (hop hgo) htype
  | lin =>
    rw [show e.cacheFun = .lin by simp [Env.cacheFun, hp]] at hb
    rcases ho with ho | ho | ho <;> rw [ho] at hgo <;> simp only [CacheFun.body, linNonStallingSessions, hgo] at hb
    · obtain ⟨hget, ht | ht⟩ := linGet_answer hb
      · exact .getSuccess ho (hop (hget.trans hgo)) ht
      · exact .getStall hp ho (hop (hget.trans hgo)) ht
    · rcases linPut_answer hb with ⟨hbrc, ht⟩ | ⟨hsame, ht⟩
      · exact .taken ho (hop hbrc) ht
      · have hput : h.op.opcode = .put := (congrArg CacheOp.opcode hsame).trans hgo
        rcases ht with ht | ht
        · exact .putFail hp ho (hop hput) ht
        · exact .putStall hp ho (hop hput) ht
    · cases hb
      exact .brc ho (hop hgo) htype

theorem Probed.keeps (h : Probed e cached x y) : Keeps x y := by
  cases h
  exact storeOp_keeps _ _

/-- **A probe**: a request that waits is passed over, a key that is not held is a miss, and any
other operation gets an answer. -/
theorem Probed.cases (h : Probed e cached x y) (ho : x.opcode = .get ∨ x.opcode = .put ∨ x.opcode = .brc) :
    (x.type = .unservedMiss ∧ y.type = .unservedMiss ∧ y.opcode = x.opcode) ∨
    (x.type ≠ .unservedMiss ∧ cached x.key = false ∧ y.type = .miss ∧ y.opcode = x.opcode) ∨
    (x.type ≠ .unservedMiss ∧ cached x.key = true ∧ e.Answers x y) := by
  obtain ⟨cache, cache', resp, resp', op', hkeys, htype, hserve⟩ := h
  have hsame (t : RespType) : (⟨storeOp (.ofBytes x.op) x.op, t, x.machine⟩ : Slot N).opcode = x.opcode :=
    (storeOp_opcode _ _).trans (congrArg Opcode.ofByte (Opcode.toByte_ofByte _))
  unfold Cache.serve at hserve
  split at hserve
  · next hs =>
    cases hserve
    exact .inl ⟨htype ▸ hs, hs, hsame _⟩
  · next hs =>
    rw [htype] at hs
    split at hserve
    · next hnone =>
      cases hserve
      exact .inr (.inl ⟨hs, (hkeys _).symm.trans (by rw [Slot.key, hnone]; rfl), rfl, hsame _⟩)
    · next kv hkv =>
      obtain ⟨h, hb, he⟩ := bind_eq_ok.1 hserve
      cases he
      exact .inr (.inr ⟨hs, (hkeys _).symm.trans (by rw [Slot.key, hkv]; rfl), answers_of_body hb rfl htype ho⟩)

/-- A record that another machine has invalidated, and that a read has found so. -/
def invalidated (valLen : UInt8) : CacheOp := ⟨⟨.invalidReplay, 0, 0, 0, 0⟩, 0, .other 0, valLen, fun _ => 0⟩

/-- A moment at which all the keys that are cached are such. -/
def stalling (cached : UInt64 → Bool) (valLen : UInt8) : Cache := fun key => bif cached key then some (invalidated valLen) else none

theorem stalling_isSome (valLen : UInt8) (key : UInt64) : (stalling cached valLen key).isSome = cached key := by
  unfold stalling
  cases cached key <;> rfl

/-- On such a record reads and writes stall. -/
theorem linBody_invalidated (op : CacheOp) (resp : MicaResp) (machineId : ℕ)
    (ho : op.opcode = .get ∨ op.opcode = .put ∨ op.opcode = .brc) :
    ∃ h, CacheFun.lin.body N machineId ⟨invalidated op.valLen, op, resp⟩ = .ok h ∧
      (op.opcode = .get → h.resp.type = .getStall) := by
  have hi : (invalidated op.valLen).keyMeta.Idle := ⟨rfl, rfl⟩
  have hk : (invalidated op.valLen).keyMeta.state.Known := .inr (.inl (.inr rfl))
  simp only [CacheFun.body, linNonStallingSessions]
  rcases ho with ho | ho | ho <;> simp only [ho]
  · obtain ⟨h, hok⟩ : ∃ h, linGet ⟨invalidated op.valLen, op, resp⟩ = .ok h := linGet_total hi hk
    refine ⟨h, hok, fun _ => ?_⟩
    rcases linGet_idle hi hok with ⟨hv, -⟩ | ⟨-, ht, -⟩
    · cases hv
    · exact ht
  · obtain ⟨h, hok⟩ : ∃ h, linPut N machineId ⟨invalidated op.valLen, op, resp⟩ = .ok h := linPut_total hi hk rfl
    exact ⟨h, hok, fun hg => by cases hg⟩
  · exact ⟨_, rfl, fun hg => by cases hg⟩

/-- **Every slot can be probed**, at a moment when reads of cached keys stall. -/
theorem exists_probed (hp : e.protocol = .lin) (ho : x.opcode = .get ∨ x.opcode = .put ∨ x.opcode = .brc) :
    ∃ y, Probed e cached x y ∧
      (x.type ≠ .unservedMiss → cached x.key = true → x.opcode = .get → y.type = .getStall) := by
  have hfun : e.cacheFun = .lin := by simp [Env.cacheFun, hp]
  have hkeys : ∀ key, (stalling cached x.valLen key).isSome = cached key := stalling_isSome x.valLen
  by_cases hs : x.type = .unservedMiss
  · refine ⟨_, .mk _ _ ⟨x.type, 0, none⟩ ⟨x.type, 0, none⟩ (.ofBytes x.op) hkeys rfl (if_pos hs), ?_⟩
    exact fun hne => absurd hs hne
  · cases hc : cached x.key with
    | false =>
      have hnone : stalling cached x.valLen (CacheOp.ofBytes x.op).key = none := by
        rw [stalling, show cached (CacheOp.ofBytes x.op).key = false from hc]
        rfl
      refine ⟨_, .mk _ (stalling cached x.valLen) ⟨x.type, 0, none⟩ ⟨.miss, 0, none⟩ (.ofBytes x.op) hkeys rfl ?_,
        fun _ hc' => by cases hc'⟩
      rw [Cache.serve, if_neg hs, hnone]
    | true =>
      have hsome : stalling cached x.valLen (CacheOp.ofBytes x.op).key = some (invalidated (CacheOp.ofBytes x.op).valLen) := by
        rw [stalling, show cached (CacheOp.ofBytes x.op).key = true from hc]
        rfl
      obtain ⟨h, hok, hget⟩ := linBody_invalidated (N := N) (.ofBytes x.op) ⟨x.type, 0, none⟩ e.machineId ho
      obtain ⟨cache', hserve⟩ : ∃ cache', (stalling cached x.valLen).serve (e.cacheFun.body N e.machineId) (.ofBytes x.op)
          ⟨x.type, 0, none⟩ = .ok (cache', h.op, h.resp) := by
        rw [Cache.serve, if_neg hs, hsome, hfun]
        exact ⟨_, bind_eq_ok.2 ⟨h, hok, rfl⟩⟩
      exact ⟨_, .mk _ cache' _ h.resp h.op hkeys rfl hserve, fun _ _ hg => hget hg⟩

/-! ## Broadcasting a slot -/

/-- What a broadcast does to a slot. -/
inductive Env.Sends (e : Env N) (x : Slot N) : Slot N → Prop
  | upd : e.protocol = .sc → x.opcode = .brc → Sends e x { x with op := setUpd x.op }
  | inv : e.protocol = .lin → x.opcode = .brc → Sends e x (e.invalidation x)
  /-- An invalidation without credits waits. -/
  | stays : (e.protocol = .sc → x.opcode ≠ .brc) → Sends e x x

theorem Env.Sends.keeps (h : e.Sends x y) : Keeps x y := by
  cases h with
  | upd => exact ⟨rfl, fun j _ h16 => update_of_ne h16 _ _⟩
  | inv => exact ⟨rfl, fun j h8 h16 => (update_of_ne (by omega) _ _).trans (update_of_ne h16 _ _)⟩
  | stays => exact ⟨rfl, fun _ _ _ => rfl⟩

theorem Env.invalidation_opcode (e : Env N) (x : Slot N) : (e.invalidation x).opcode = .inv := by
  show Opcode.ofByte (update (update x.op 16 114) 2 (.ofNat e.machineId) 16) = .inv
  rw [update_of_ne (by decide), update_self]
  rfl

theorem Env.Sends.type (h : e.Sends x y) : y.type = x.type := by cases h <;> rfl

theorem Env.Sends.eq_of_ne (h : e.Sends x y) (ho : x.opcode ≠ .brc) : y = x := by
  cases h with
  | upd _ hb => exact absurd hb ho
  | inv _ hb => exact absurd hb ho
  | stays => rfl

theorem broadcastInvs_sends (hp : e.protocol = .lin) (credits : ℕ) (xs : List (Slot N)) :
    List.Forall₂ e.Sends xs (e.broadcastInvs credits xs) := by
  have hstays (x : Slot N) : e.Sends x x := .stays fun h => by simp [hp] at h
  induction xs generalizing credits with
  | nil => exact .nil
  | cons x xs ih =>
    unfold Env.broadcastInvs
    split
    · next hb =>
      cases credits with
      | zero => exact List.forall₂_same.2 fun y _ => hstays y
      | succ credits => exact .cons (.inv hp hb) (ih credits)
    · exact .cons (hstays x) (ih credits)

theorem setUpd_sends (hp : e.protocol = .sc) (xs : List (Slot N)) :
    List.Forall₂ e.Sends xs (List.zipWith (fun x op => { x with op := op }) xs
      ((xs.map (·.op)).map fun op => if IsHot op then setUpd op else op)) := by
  induction xs with
  | nil => exact .nil
  | cons x xs ih =>
    refine .cons ?_ ih
    by_cases hot : IsHot x.op
    · beta_reduce
      rw [if_pos hot]
      exact .upd hp (by simpa [IsHot, Slot.opcode] using hot)
    · beta_reduce
      rw [if_neg hot]
      exact .stays fun _ => by simpa [IsHot, Slot.opcode] using hot

theorem Broadcast.sends {xs ys : List (Slot N)} (h : Broadcast e xs ys) : List.Forall₂ e.Sends xs ys := by
  cases h with
  | lin credits hp => exact broadcastInvs_sends hp credits xs
  | sc requestLength ops batch hp hok =>
    rw [performBroadcasts_ops hok]
    exact setUpd_sends hp xs

/-! ## A slot through an iteration -/

/-- A slot of the batch before the cache is probed. -/
structure Waiting (e : Env N) (cached : UInt64 → Bool) (x : Slot N) : Prop where
  kind : Left e.protocol x ∨ x.type = .empty ∧ (x.opcode = .get ∨ x.opcode = .put)
  /-- Of what was carried over, the requests are those whose keys are not cached. -/
  cold : x.type ≠ .empty → (x.type = .unservedMiss ↔ cached x.key = false)

/-- A slot as `handle_cold_requests` finds it. -/
structure Answered (e : Env N) (cached : UInt64 → Bool) (x : Slot N) : Prop where
  ready : Ready e x
  cold : x.isMiss = !cached x.key

theorem Left.opcode {p : Protocol} (h : Left p x) : x.opcode = .get ∨ x.opcode = .put ∨ x.opcode = .brc := by
  cases h with
  | unserved _ ho => exact ho.imp_right .inl
  | getStall _ ho => exact .inl ho
  | putStall _ ho => exact .inr (.inl ho)
  | brc _ ho => exact .inr (.inr ho)

theorem Waiting.opcode (h : Waiting e cached x) : x.opcode = .get ∨ x.opcode = .put ∨ x.opcode = .brc :=
  h.kind.elim Left.opcode fun h => h.2.imp_right .inl

theorem Left.of_brc {p : Protocol} (h : Left p x) (ho : x.opcode = .brc) : p = .lin ∧ x.type = .putSuccess := by
  cases h with
  | unserved _ ho' => rcases ho' with ho' | ho' <;> simp [ho] at ho'
  | getStall _ ho' => simp [ho] at ho'
  | putStall _ ho' => simp [ho] at ho'
  | brc ht _ => exact ⟨rfl, ht⟩

/-- Only a write that was carried over is a broadcast before the cache is probed. -/
theorem Waiting.of_brc (h : Waiting e cached x) (ho : x.opcode = .brc) : e.protocol = .lin ∧ x.type = .putSuccess := by
  rcases h.kind with hl | ⟨-, hr | hw⟩
  · exact hl.of_brc ho
  · simp [ho] at hr
  · simp [ho] at hw

theorem Left.of_unserved {p : Protocol} (h : Left p x) (ht : x.type = .unservedMiss) : x.opcode = .get ∨ x.opcode = .put := by
  cases h with
  | unserved _ ho => exact ho
  | getStall ht' => simp [ht] at ht'
  | putStall ht' => simp [ht] at ht'
  | brc ht' => simp [ht] at ht'

/-- A request is a read or a write. -/
theorem Waiting.of_cold (h : Waiting e cached x) (hc : cached x.key = false) : x.opcode = .get ∨ x.opcode = .put := by
  rcases h.kind with hl | ⟨-, ho⟩
  · exact hl.of_unserved ((h.cold hl.type_ne_empty).2 hc)
  · exact ho

/-- A request is a miss, whether it is new or waits. -/
theorem Waiting.probe_cold (h : Waiting e cached x) (hprobe : Probed e cached x y) (hc : cached x.key = false) :
    y.isMiss = true ∧ y.opcode = x.opcode := by
  rcases hprobe.cases h.opcode with ⟨-, ht, ho⟩ | ⟨-, -, ht, ho⟩ | ⟨-, hc', -⟩
  · exact ⟨by simp [Slot.isMiss, ht], ho⟩
  · exact ⟨by simp [Slot.isMiss, ht], ho⟩
  · simp [hc] at hc'

theorem Waiting.probe_cached (h : Waiting e cached x) (hprobe : Probed e cached x y) (hc : cached x.key = true) :
    e.Answers x y := by
  rcases hprobe.cases h.opcode with ⟨ht, -⟩ | ⟨-, hc', -⟩ | ⟨-, -, ha⟩
  · have hcold := (h.cold (by simp [ht])).1 ht
    simp [hc] at hcold
  · simp [hc] at hc'
  · exact ha

/-- What `handle_cold_requests` finds where the cache has answered. -/
theorem Env.Answers.ready (h : e.Answers x y) (hx : Waiting e cached x) (hs : e.Sends y z) :
    Ready e z ∧ z.isMiss = false ∧ (z.opcode = .put → x.opcode = .put) := by
  have hmiss (ht : y.type ≠ .miss ∧ y.type ≠ .unservedMiss) : z.isMiss = false := by
    simp [Slot.isMiss, hs.type, ht]
  have hsame (ho : y.opcode ≠ .brc) : z = y := hs.eq_of_ne ho
  -- a write that the cache has taken is sent, or waits for credits
  have hbrc (hb : y.opcode = .brc) (ht : y.type = .putSuccess) :
      Ready e z ∧ z.isMiss = false ∧ (z.opcode = .put → x.opcode = .put) := by
    have hm := hmiss (by simp [ht])
    cases hs with
    | upd hp _ =>
      have ho : ({ y with op := setUpd y.op } : Slot N).opcode = .upd := by
        show Opcode.ofByte (update y.op 16 113 16) = .upd
        rw [update_self]
        rfl
      exact ⟨.upd hp ht ho, hm, fun h => by simp [ho] at h⟩
    | inv hp _ =>
      have ho := e.invalidation_opcode y
      exact ⟨.inv hp ht ho, hm, fun h => by simp [ho] at h⟩
    | stays hsc =>
      cases hp : e.protocol with
      | sc => exact absurd hb (hsc hp)
      | lin => exact ⟨.stays hm (hp ▸ .brc ht hb), hm, fun h => by simp [hb] at h⟩
  cases h with
  | getSuccess _ ho ht =>
    cases hsame (by simp [ho])
    exact ⟨.getSuccess ht ho, hmiss (by simp [ht]), fun h => by simp [ho] at h⟩
  | getStall hp _ ho ht =>
    cases hsame (by simp [ho])
    have hm := hmiss (by simp [ht])
    exact ⟨.stays hm (hp ▸ .getStall ht ho), hm, fun h => by simp [ho] at h⟩
  | taken _ ho ht => exact hbrc ho ht
  | putStall hp hxo ho ht =>
    cases hsame (by simp [ho])
    have hm := hmiss (by simp [ht])
    exact ⟨.stays hm (hp ▸ .putStall ht ho), hm, fun _ => hxo⟩
  | putFail hp hxo ho ht =>
    cases hsame (by simp [ho])
    exact ⟨.putFail hp ht ho, hmiss (by simp [ht]), fun _ => hxo⟩
  | brc hxo ho ht => exact hbrc ho (ht.trans (hx.of_brc hxo).2)

theorem Waiting.answered (h : Waiting e cached x) (hprobe : Probed e cached x y) (hs : e.Sends y z) :
    Answered e cached z ∧ (z.opcode = .put → x.opcode = .put) := by
  have hkey := (hprobe.keeps.trans hs.keeps).key
  cases hc : cached x.key with
  | false =>
    obtain ⟨hm, ho⟩ := h.probe_cold hprobe hc
    have hro := h.of_cold hc
    rw [← ho] at hro
    cases hs.eq_of_ne (by rcases hro with hro | hro <;> simp [hro])
    exact ⟨⟨.miss hm hro, by rw [hm, hkey, hc]; rfl⟩, fun hp => ho ▸ hp⟩
  | true =>
    obtain ⟨hready, hm, hput⟩ := (h.probe_cached hprobe hc).ready h hs
    exact ⟨⟨hready, by rw [hm, hkey, hc]; rfl⟩, hput⟩

theorem Waiting.admissible (h : Waiting e cached x) (ha : Admissible e x) (hprobe : Probed e cached x y) (hs : e.Sends y z) :
    Admissible e z where
  valLen := (hprobe.keeps.trans hs.keeps).valLenOk (h.answered hprobe hs).2 ha.valLen
  machine := (hprobe.keeps.trans hs.keeps).machine ▸ ha.machine

/-- A request goes through the probe and the broadcasts as it is. -/
theorem Waiting.sameRequest (h : Waiting e cached x) (hprobe : Probed e cached x y) (hs : e.Sends y z)
    (hc : cached x.key = false) : SameRequest e.cfg (.ofBytes x.op) (.ofBytes z.op) := by
  obtain ⟨-, ho⟩ := h.probe_cold hprobe hc
  have hro := h.of_cold hc
  rw [← ho] at hro
  cases hs.eq_of_ne (by rcases hro with hro | hro <;> simp [hro])
  exact hprobe.keeps.sameRequest ho e.cfg

/-- A read that is tracked is served or stalls, and is tracked still. -/
theorem Waiting.tracks {k : ℕ} (h : Waiting e cached x) (hprobe : Probed e cached x y) (hs : e.Sends y z)
    (hc : cached x.key = true) (ht : Tracks k x) : (z.type = .getSuccess ∨ z.type = .getStall) ∧ Tracks k z := by
  have hread (ho : y.opcode = .get) (hy : y.type = .getSuccess ∨ y.type = .getStall) :
      (z.type = .getSuccess ∨ z.type = .getStall) ∧ Tracks k z := by
    cases hs.eq_of_ne (by simp [ho])
    exact ⟨hy, hprobe.keeps.tracks (ho.trans ht.get.symm) ht⟩
  cases h.probe_cached hprobe hc with
  | getSuccess _ ho hy => exact hread ho (.inl hy)
  | getStall _ _ ho hy => exact hread ho (.inr hy)
  | taken hxo => simp [ht.get] at hxo
  | putStall _ hxo => simp [ht.get] at hxo
  | putFail _ hxo => simp [ht.get] at hxo
  | brc hxo => simp [ht.get] at hxo

end

end Client

end CcKvs
