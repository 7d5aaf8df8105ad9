/-
A worker and the clients it serves: client `i` of every other machine has its
data session with worker `i`. A client has at most one request to the worker
outstanding: it sends the next one only when the callback for the last has run,
and that is after `enqueue_response`. So a pass of the worker collects at most
one request of each client, and a request has at most `KVS_BATCH` operations.
-/
import CcKvs.Sc.Buffers
import CcKvs.Requests

namespace CcKvs.Sc

open Worker

/-- `req_handler` of a worker built for `machineNum` machines: `WORKER_MAX_BATCH` is
`KVS_BATCH * MACHINE_NUM`. -/
def reqHandlerFor {H : Type} (cfg : Config) (machineNum : ℕ) (c : Context H) (handle : H) (buf : Bytes) (size : ℕ) :
    Except Fault (Context H) :=
  let ops := splitOps cfg buf size 0
  if c.opPtrArr.length + ops.length ≤ kvsBatch * machineNum then
    .ok { c with opPtrArr := c.opPtrArr ++ ops, reqs := c.reqs ++ [(handle, ops.length)] }
  else .error .workerBatchFull

theorem reqHandlerFor_four {H : Type} (cfg : Config) : @reqHandlerFor H cfg 4 = reqHandler cfg := rfl

/-- A worker of machine `w`, and a client of every machine. A request's handle is the machine of
the client it is from. -/
structure Pool (N : ℕ) where
  client : Fin N → Client N
  kv : MicaKv
  context : Context (Fin N)
  /-- `oldreqs`, while `run_event_loop_once` runs. -/
  oldreqs : Option ℕ
  /-- Requests to the worker that are not delivered yet. -/
  sent : Multiset (ColdRequest (Fin N))
  /-- The clients whose response is enqueued and whose callback has not run yet. -/
  answered : Multiset (Fin N)

inductive PoolEvent (N : ℕ)
  | client (m : Fin N) (e : Action N)
  | poll
  | reqHandler (m : Fin N)
  | again
  | idle
  | drainBatch

section

variable {N : ℕ} (cfg : Config) (w : Fin N) (machineId : UInt8) (base : ℕ)

open Function in
/-- The worker polls until a pass of `run_event_loop_once` brings no request; callbacks run
`req_handler` meanwhile. If there are requests it answers all of them, and begins again. -/
inductive Pool.Step : Pool N → PoolEvent N → Pool N → Prop
  /-- What does not concern the worker: all but a send to it and a response from it. -/
  | client (m e s') : Client.Step m cfg (p.client m) e s' → (e = .send → w ∉ (p.client m).due m) →
      e ≠ .response .data w → Step p (.client m e) { p with client := update p.client m s' }
  /-- The operations are left open but for their number. -/
  | send (m s' r) : Client.Step m cfg (p.client m) .send s' → w ∈ (p.client m).due m →
      r.handle = m → r.ops.length = (p.client m).idx w →
      Step p (.client m .send) { p with client := update p.client m s', sent := r ::ₘ p.sent }
  | response (m s' a) : Client.Step m cfg (p.client m) (.response .data w) s' → p.answered = m ::ₘ a →
      Step p (.client m (.response .data w)) { p with client := update p.client m s', answered := a }
  | poll : p.oldreqs = none → Step p .poll { p with oldreqs := some p.context.reqs.length }
  | reqHandler (r l c) : p.oldreqs ≠ none → p.sent = r ::ₘ l →
      reqHandlerFor cfg N p.context (r.received cfg).1 (r.received cfg).2.1 (r.received cfg).2.2 = .ok c →
      Step p (.reqHandler r.handle) { p with context := c, sent := l }
  | again : p.oldreqs = some n → n ≠ p.context.reqs.length → Step p .again { p with oldreqs := none }
  | idle : p.oldreqs = some p.context.reqs.length → p.context.reqs = [] →
      Step p .idle { p with oldreqs := none, context := .begin p.context.micaRespArr }
  | drainBatch (kv' out arr) : p.oldreqs = some p.context.reqs.length → p.context.reqs ≠ [] →
      drainBatch cfg machineId base p.kv p.context = .ok (kv', out) →
      Step p .drainBatch { p with
        kv := kv'
        oldreqs := none
        context := .begin arr
        answered := p.answered + ↑(out.map (·.1)) }

structure Pool.Init (p : Pool N) : Prop where
  client : ∀ m, (p.client m).Init
  context : p.context = .begin p.context.micaRespArr
  oldreqs : p.oldreqs = none
  sent : p.sent = 0
  answered : p.answered = 0

/-- The runs of a worker of machine `w` and its clients. -/
def pool : Lts (Pool N) (PoolEvent N) := ⟨Pool.Init, Pool.Step cfg w machineId base⟩

end

variable {N : ℕ} {m w : Fin N} {cfg : Config} {machineId : UInt8} {base : ℕ}

/-! ## A request has room -/

/-- The window of each machine is what was added for it. -/
structure Cold.Window (c : Cold N) : Prop where
  eq : c.outstanding = c.idx
  le : ∀ rm, c.idx rm ≤ kvsBatch

theorem Cold.Window.add {c c' : Cold N} {rm : Fin N} (h : c.Window) (hroom : c.outstanding rm < kvsBatch)
    (hok : c.addErpcRequest rm = .ok c') : c'.Window := by
  unfold addErpcRequest at hok
  split at hok
  · cases hok
    refine ⟨by simp only [h.eq], fun rm' => ?_⟩
    rw [h.eq] at hroom
    have hle := h.le rm'
    simp only [Function.update_apply]
    split <;> omega
  · cases hok

namespace Client

variable {s s' : Client N} {e : Action N} {rm : Fin N}

/-- No step collects more than `KVS_BATCH` requests for a machine. -/
theorem idx_le_of_step (hp : s.Phase m) (h : ∀ rm, s.idx rm ≤ kvsBatch) (hst : Step m cfg s e s') :
    ∀ rm, s'.idx rm ≤ kvsBatch := by
  cases hst with
  | prepare slots ops' batch' cold hpc _ hcold =>
    obtain ⟨-, hidx, -⟩ := hp.idle (.inl hpc)
    have hw : Cold.Window ⟨s.idx, 0, 0, fun _ => 0⟩ := ⟨funext fun rm => (hidx rm).symm, h⟩
    exact (handleColdRequests_keeps (fun _ _ _ hc _ hroom hadd => hc.add hroom hadd) hw hcold).le
  | response | waited | next => exact h
  | broadcast _ hok =>
    unfold broadcastCacheOps at hok
    split at hok
    · cases hok
      exact h
    · obtain ⟨s₁, hfill, hok⟩ := bind_eq_ok.1 hok
      cases hok
      rw [show ({ s₁ with batch := _ } : Client N).idx = s.idx from (fillAll_ok hfill).1.idx]
      exact h
  | send _ hok =>
    obtain ⟨s₁, -, hok⟩ := bind_eq_ok.1 hok
    cases hok
    intro rm
    show (if rm ∈ s.due m then 0 else s.idx rm) ≤ kvsBatch
    split
    · exact Nat.zero_le _
    · exact h rm

/-! ## When a data buffer is in use -/

/-- A send takes the buffers of the machines it has requests for. -/
theorem used_of_send (hst : Step m cfg s .send s') (rm : Fin N) :
    s'.used .data rm = true ↔ s.used .data rm = true ∨ rm ∈ s.due m := by
  cases hst with
  | send _ hok =>
    obtain ⟨s₁, hfill, hok⟩ := bind_eq_ok.1 hok
    cases hok
    simpa using (fillAll_ok hfill).2.2 .data rm

/-- The other steps leave data buffers alone, but for a response. -/
theorem used_of_step (hst : Step m cfg s e s') (hs : e = .send → rm ∉ s.due m) (hr : e ≠ .response .data rm) :
    s'.used .data rm = s.used .data rm := by
  cases hst with
  | prepare | waited | next => rfl
  | response k rm' r _ _ =>
    show Function.update s.used k (Function.update (s.used k) rm' false) .data rm = _
    rw [update_used, if_neg]
    rintro he
    obtain ⟨rfl, rfl⟩ := Prod.mk.inj he
    exact hr rfl
  | broadcast _ hok =>
    unfold broadcastCacheOps at hok
    split at hok
    · cases hok
      rfl
    · obtain ⟨s₁, hfill, hok⟩ := bind_eq_ok.1 hok
      cases hok
      have hu := (fillAll_ok hfill).2.2 .data rm
      exact Bool.eq_iff_iff.2 (by simpa using hu)
  | send hpc hok =>
    have hst : Step m cfg s .send _ := .send hpc hok
    exact Bool.eq_iff_iff.2 ((used_of_send hst rm).trans (by simp [hs rfl]))

/-- A response is for a buffer in use, and frees it. -/
theorem used_of_data_response (ha : s.Accounted) (hst : Step m cfg s (.response .data rm) s') :
    s.used .data rm = true ∧ s'.used .data rm = false := by
  cases hst with
  | response _ _ r _ hf =>
    have hin : (Traffic.data, rm) ∈ s.busy := by
      rw [← Finset.mem_val, ← ha.flight, hf]
      exact Multiset.mem_cons_self _ _
    refine ⟨mem_busy.1 hin, ?_⟩
    show Function.update s.used .data (Function.update (s.used .data) rm false) .data rm = false
    rw [update_used, if_pos rfl]

end Client

/-! ## One request of each client -/

/-- What the worker relies on in a client of machine `m`. -/
structure Client.Windowed (m : Fin N) (s : Client N) : Prop where
  accounted : s.Accounted
  phase : s.Phase m
  idx : ∀ rm, s.idx rm ≤ kvsBatch

theorem Client.Windowed.step {s s' : Client N} {e : Action N} (h : s.Windowed m) (hst : Step m cfg s e s') :
    s'.Windowed m :=
  ⟨h.accounted.step hst, h.phase.step h.accounted hst, idx_le_of_step h.phase h.idx hst⟩

/-- The clients whose buffer for machine `w` is in use. -/
def busyFor (w : Fin N) (client : Fin N → Client N) : Finset (Fin N) :=
  Finset.univ.filter fun m => (client m).used .data w

theorem mem_busyFor {client : Fin N → Client N} : m ∈ busyFor w client ↔ (client m).used .data w = true := by
  simp [busyFor]

theorem mem_busyFor_update {client : Fin N → Client N} {s' : Client N} {m' : Fin N} :
    m' ∈ busyFor w (Function.update client m s') ↔
      if m' = m then s'.used .data w = true else m' ∈ busyFor w client := by
  rw [mem_busyFor, Function.update_apply]
  split
  · rfl
  · exact mem_busyFor.symm

namespace Pool

/-- The clients with a request to the worker outstanding: under way, collected, or answered. -/
def outstanding (p : Pool N) : Multiset (Fin N) :=
  p.sent.map (·.handle) + ↑(p.context.reqs.map (·.1)) + p.answered

structure Balanced (w : Fin N) (p : Pool N) : Prop where
  client : ∀ m, (p.client m).Windowed m
  /-- A client with a request outstanding has its buffer in use, and no other has. -/
  flight : p.outstanding = (busyFor w p.client).val
  own : w ∉ busyFor w p.client
  sent : ∀ r ∈ p.sent, r.ops.length ≤ kvsBatch
  reqs : ∀ x ∈ p.context.reqs, x.2 ≤ kvsBatch
  count : totalOps p.context.reqs = p.context.opPtrArr.length

variable {p p' : Pool N} {s' : Client N} {e : Action N}

theorem Balanced.windowed (h : p.Balanced w) (hst : Client.Step m cfg (p.client m) e s') (m' : Fin N) :
    (Function.update p.client m s' m').Windowed m' := by
  by_cases hm : m' = m
  · subst hm
    rw [Function.update_self]
    exact (h.client m').step hst
  · rw [Function.update_of_ne hm]
    exact h.client m'

theorem Balanced.other (h : p.Balanced w) (hst : Client.Step m cfg (p.client m) e s')
    (hs : e = .send → w ∉ (p.client m).due m) (hr : e ≠ .response .data w) :
    Balanced w { p with client := Function.update p.client m s' } := by
  have hsame : busyFor w (Function.update p.client m s') = busyFor w p.client := by
    ext m'
    rw [mem_busyFor_update]
    split
    · next hm => rw [hm, mem_busyFor, Client.used_of_step hst hs hr]
    · rfl
  exact ⟨h.windowed hst, by rw [hsame]; exact h.flight, by rw [hsame]; exact h.own, h.sent, h.reqs, h.count⟩

/-- A request is sent when none is outstanding. -/
theorem Balanced.send (h : p.Balanced w) {r : ColdRequest (Fin N)} (hst : Client.Step m cfg (p.client m) .send s')
    (hdue : w ∈ (p.client m).due m) (hr : r.handle = m) (hlen : r.ops.length = (p.client m).idx w) :
    Balanced w { p with client := Function.update p.client m s', sent := r ::ₘ p.sent } := by
  have hfree : m ∉ busyFor w p.client := by
    have hpc : (p.client m).pc = .send := by cases hst; assumption
    rw [mem_busyFor, (h.client m).phase.data (.inr hpc) w]
    exact Bool.false_ne_true
  have hbusy : busyFor w (Function.update p.client m s') = insert m (busyFor w p.client) := by
    ext m'
    rw [mem_busyFor_update, Finset.mem_insert]
    split
    · next hm => simp [hm, (Client.used_of_send hst w).2 (.inr hdue)]
    · next hm => simp [hm]
  refine ⟨h.windowed hst, ?_, ?_, ?_, h.reqs, h.count⟩
  · show ((r ::ₘ p.sent).map (·.handle) + _) + _ = _
    rw [hbusy, Finset.insert_val_of_notMem hfree, ← h.flight, Multiset.map_cons, Multiset.cons_add, Multiset.cons_add, hr]
    rfl
  · rw [hbusy, Finset.mem_insert, not_or]
    exact ⟨(Client.mem_due.1 hdue).1, h.own⟩
  · intro r' hr'
    rcases Multiset.mem_cons.1 hr' with rfl | hr'
    · exact hlen.trans_le ((h.client m).idx w)
    · exact h.sent r' hr'

theorem Balanced.response (h : p.Balanced w) {a} (hst : Client.Step m cfg (p.client m) (.response .data w) s')
    (ha : p.answered = m ::ₘ a) : Balanced w { p with client := Function.update p.client m s', answered := a } := by
  obtain ⟨-, hfree⟩ := Client.used_of_data_response (h.client m).accounted hst
  have hbusy : busyFor w (Function.update p.client m s') = (busyFor w p.client).erase m := by
    ext m'
    rw [mem_busyFor_update, Finset.mem_erase]
    split
    · next hm => simp [hm, hfree]
    · next hm => simp [hm]
  refine ⟨h.windowed hst, ?_, ?_, h.sent, h.reqs, h.count⟩
  · have hout : p.outstanding = m ::ₘ (p.sent.map (·.handle) + ↑(p.context.reqs.map (·.1)) + a) := by
      rw [outstanding, ha, Multiset.add_cons]
    show p.sent.map (·.handle) + _ + a = _
    rw [hbusy, Finset.erase_val, ← h.flight, hout, Multiset.erase_cons_head]
  · rw [hbusy]
    exact fun hin => h.own (Finset.mem_of_mem_erase hin)

theorem reqHandlerFor_eq_ok {H : Type} {k : ℕ} {c c' : Context H} {r : ColdRequest H} :
    reqHandlerFor cfg k c (r.received cfg).1 (r.received cfg).2.1 (r.received cfg).2.2 = .ok c' ↔
      c.opPtrArr.length + r.ops.length ≤ kvsBatch * k ∧
      c' = { c with opPtrArr := c.opPtrArr ++ r.found cfg, reqs := c.reqs ++ [(r.handle, r.ops.length)] } := by
  rw [← r.length_found cfg]
  show (if c.opPtrArr.length + (r.found cfg).length ≤ kvsBatch * k then _ else _) = _ ↔ _
  split
  · next hle => exact ⟨fun h => ⟨hle, (Except.ok.inj h).symm⟩, fun h => congrArg Except.ok h.2.symm⟩
  · next hle => simp [hle]

theorem Balanced.reqHandler (h : p.Balanced w) {r l c} (hsent : p.sent = r ::ₘ l)
    (hok : reqHandlerFor cfg N p.context (r.received cfg).1 (r.received cfg).2.1 (r.received cfg).2.2 = .ok c) :
    Balanced w { p with context := c, sent := l } := by
  obtain ⟨-, rfl⟩ := reqHandlerFor_eq_ok.1 hok
  have hin : ∀ r' ∈ r ::ₘ l, r'.ops.length ≤ kvsBatch := hsent ▸ h.sent
  refine ⟨h.client, ?_, h.own, fun r' hr' => hin r' (Multiset.mem_cons_of_mem hr'), fun x hx => ?_, ?_⟩
  · rw [← h.flight, outstanding, outstanding, hsent]
    simp only [List.map_append, List.map_cons, List.map_nil, ← Multiset.coe_add, Multiset.map_cons, Multiset.cons_add,
      ← Multiset.cons_coe, Multiset.coe_nil, Multiset.add_cons, add_zero]
  · rcases List.mem_append.1 hx with hx | hx
    · exact h.reqs x hx
    · rw [List.mem_singleton.1 hx]
      exact hin r (Multiset.mem_cons_self _ _)
  · have hcount := h.count
    simp only [totalOps, List.map_append, List.sum_append, List.length_append, r.length_found] at hcount ⊢
    rw [hcount]
    rfl

theorem map_fst_enqueueResponses {H : Type} (arr : Bytes) (offset : ℕ) (reqs : List (H × ℕ)) :
    (enqueueResponses arr offset reqs).map (·.1) = reqs.map (·.1) := by
  induction reqs generalizing offset with
  | nil => rfl
  | cons r reqs ih => simp [enqueueResponses, ih]

theorem Balanced.step {ev} (h : p.Balanced w) (hst : Step cfg w machineId base p ev p') : p'.Balanced w := by
  cases hst with
  | client m e s' hst hs hr => exact h.other hst hs hr
  | send m s' r hst hdue hr hlen => exact h.send hst hdue hr hlen
  | response m s' a hst ha => exact h.response hst ha
  | poll | again => exact ⟨h.client, h.flight, h.own, h.sent, h.reqs, h.count⟩
  | reqHandler r l c _ hsent hok => exact h.reqHandler hsent hok
  | idle _ hnil =>
    refine ⟨h.client, ?_, h.own, h.sent, by simp [Context.begin], rfl⟩
    rw [← h.flight, outstanding, outstanding, hnil]
    rfl
  | drainBatch kv' out arr _ _ hok =>
    obtain ⟨x, -, hx⟩ := bind_eq_ok.1 hok
    obtain ⟨-, rfl⟩ := Prod.mk.inj (Except.ok.inj hx)
    refine ⟨h.client, ?_, h.own, h.sent, by simp [Context.begin], rfl⟩
    rw [← h.flight, outstanding, outstanding, map_fst_enqueueResponses]
    simp only [Context.begin, List.map_nil, Multiset.coe_nil, add_zero, add_assoc, add_comm p.answered]

theorem Balanced.init (h : p.Init) : p.Balanced w := by
  have hb : busyFor w p.client = ∅ := by
    ext m
    simp [mem_busyFor, (h.client m).free]
  refine ⟨fun m => ?_, ?_, by simp [hb], by simp [h.sent], ?_, ?_⟩
  · obtain ⟨ha, hp⟩ := Client.init_phase (h.client m)
    exact ⟨ha, hp, fun rm => ((h.client m).idx rm).trans_le (Nat.zero_le _)⟩
  · rw [outstanding, hb, h.context, h.sent, h.answered]
    rfl
  · rw [h.context]
    simp [Context.begin]
  · rw [h.context]
    rfl

theorem balanced_of_run {p₀ : Pool N} {es} (h : (pool cfg w machineId base).Run p₀ es p) : p.Balanced w :=
  h.invariant (fun _ p => p.Balanced w) Balanced.init fun _ hi hst => hi.step hst

/-- No client but the `N - 1` others has a request outstanding. -/
theorem Balanced.card_lt (h : p.Balanced w) : p.sent.card + p.context.reqs.length + p.answered.card < N := by
  have hcard : p.outstanding.card = (busyFor w p.client).card := by
    rw [h.flight]
    rfl
  have hlt : (busyFor w p.client).card < N := by
    have := Finset.card_lt_univ_of_notMem h.own
    rwa [Fintype.card_fin] at this
  rw [← hcard] at hlt
  simpa [outstanding] using hlt

theorem totalOps_le {H : Type} {reqs : List (H × ℕ)} (h : ∀ x ∈ reqs, x.2 ≤ kvsBatch) :
    totalOps reqs ≤ kvsBatch * reqs.length := by
  have hsum := List.sum_le_card_nsmul (reqs.map (·.2)) kvsBatch (List.forall_mem_map.2 h)
  rw [List.length_map, smul_eq_mul, Nat.mul_comm] at hsum
  exact hsum

/-- The counters of the `WorkerContext` are within its arrays, and so is what the next call of
`req_handler` does: it writes `handle` and `ops_in_req` at `reqs_per_loop` and `op_ptr_arr` from
`total_ops` on, and its assertion holds. -/
structure InBounds (cfg : Config) (p : Pool N) : Prop where
  reqs : p.context.reqs.length < N
  ops : p.context.opPtrArr.length ≤ kvsBatch * N
  next : ∀ r ∈ p.sent, p.context.reqs.length < N ∧ p.context.opPtrArr.length + (r.found cfg).length ≤ kvsBatch * N ∧
    ∃ c, reqHandlerFor cfg N p.context (r.received cfg).1 (r.received cfg).2.1 (r.received cfg).2.2 = .ok c

/-- **Batch bounds.** In every run of a worker with a client on every other machine, the arrays
of the `WorkerContext` are never indexed out of range and `req_handler` never fails. -/
theorem worker_in_bounds {p₀ : Pool N} {es} (h : (pool cfg w machineId base).Run p₀ es p) : p.InBounds cfg := by
  have hb := balanced_of_run h
  have hcard := hb.card_lt
  have htotal := totalOps_le hb.reqs
  rw [hb.count] at htotal
  refine ⟨by omega, htotal.trans (Nat.mul_le_mul_left _ (by omega)), fun r hr => ?_⟩
  have hpos : 0 < p.sent.card := Multiset.card_pos_iff_exists_mem.2 ⟨r, hr⟩
  have hops := hb.sent r hr
  have hfit : p.context.opPtrArr.length + r.ops.length ≤ kvsBatch * N := calc
    _ ≤ kvsBatch * p.context.reqs.length + kvsBatch := by omega
    _ = kvsBatch * (p.context.reqs.length + 1) := rfl
    _ ≤ kvsBatch * N := Nat.mul_le_mul_left _ (by omega)
  exact ⟨by omega, by rwa [r.length_found], _, reqHandlerFor_eq_ok.2 ⟨hfit, rfl⟩⟩

/-! One read of machine 0 that misses and has its home on machine 1, among reads that hit. -/

def coldRead : Slot 2 := ⟨getRequest 0, .miss, Fin.last 1⟩

def oneCold : Vector (Slot 2) cacheBatchSize :=
  ⟨(coldRead :: List.replicate (cacheBatchSize - 1) readHit).toArray, by
    simp only [List.size_toArray, List.length_cons, List.length_replicate]
    rfl⟩

theorem oneCold_toList : oneCold.toList = coldRead :: List.replicate (cacheBatchSize - 1) readHit := rfl

theorem hotWrites_oneCold : hotWrites (oneCold.toList.map (·.op)) = [] := by
  have hc : ¬ IsHot coldRead.op := by decide
  have hr : ¬ IsHot readHit.op := by decide
  rw [oneCold_toList, List.map_cons, List.map_replicate, hotWrites, List.filter_cons_of_neg hc,
    List.filter_replicate_of_neg hr]
  rfl

def oneColdCount : Cold 2 := ⟨Function.update (fun _ => 0) (Fin.last 1) 1, 1, 1, Function.update (fun _ => 0) (Fin.last 1) 1⟩

theorem handleColdRequests_oneCold :
    handleColdRequests .shipped 0 oneCold.toList ⟨clientStart.idx, 0, 0, fun _ => 0⟩ = .ok oneColdCount := by
  have hfirst (xs : List (Slot 2)) : handleColdRequests .shipped 0 (coldRead :: xs) ⟨clientStart.idx, 0, 0, fun _ => 0⟩ =
      handleColdRequests .shipped 0 xs oneColdCount := rfl
  rw [oneCold_toList, hfirst]
  refine handleColdRequests_hits fun x hx => ?_
  rw [List.eq_of_mem_replicate hx]
  rfl

def poolStart : Pool 2 := ⟨fun _ => clientStart, storeAfter (2 ^ 30) [], .begin fun _ => 0, none, 0, 0⟩

/-- The request is sent and delivered. -/
theorem worker_in_bounds_one_request : ∃ es p, (pool .shipped (1 : Fin 2) 1 (2 ^ 20)).Run poolStart es p ∧
    p.context.reqs = [(0, 1)] ∧ p.InBounds .shipped := by
  have h₀ : (pool .shipped (1 : Fin 2) 1 (2 ^ 20)).Run poolStart [] poolStart :=
    .nil ⟨fun _ => ⟨rfl, fun _ _ => rfl, rfl, fun _ => rfl, rfl, rfl, rfl⟩, rfl, rfl, rfl, rfl⟩
  obtain ⟨ops', batch', hrun, hc, -⟩ := performBroadcasts_ok .shipped (oneCold.toList.map (·.op)) clientStart.batch
    (by rw [hotWrites_oneCold]; decide)
  rw [hotWrites_oneCold] at hc
  have hcidx : batch'.cidx = 0 := congrArg List.length hc
  have h₁ := h₀.snoc (.client 0 _ _ (.prepare oneCold ops' batch' _ rfl hrun handleColdRequests_oneCold) (by simp) (by simp))
  have h₂ := h₁.snoc (.client 0 _ _ (.broadcast rfl (if_pos hcidx)) (by simp) (by simp))
  have h₃ := h₂.snoc (.send 0 _ ⟨0, [getRequest 0], fun _ => 0⟩ (.send rfl rfl)
    (Client.mem_due.2 ⟨by decide, show 0 < oneColdCount.idx 1 by decide⟩) rfl rfl)
  have h₄ := h₃.snoc (.poll rfl)
  have h₅ := h₄.snoc (.reqHandler _ 0 _ (by simp) rfl (reqHandlerFor_eq_ok.2 ⟨show 0 + 1 ≤ kvsBatch * 2 by decide, rfl⟩))
  exact ⟨_, _, h₅, rfl, worker_in_bounds h₅⟩

end Pool

end CcKvs.Sc
