/-
The worker (`worker.c`). In one pass it collects request messages
(`req_handler`), runs the operations of all of them as one batch against the
store, and answers each request with its part of the array of `mica_resp`
(`drain_batch`). A `mica_resp` has a pointer in it where the value should be:
what is sent is the pointer.
-/
import CcKvs.Mica.Batch

namespace CcKvs.Worker

/-- `WORKER_MAX_BATCH`: `KVS_BATCH` for each of `MACHINE_NUM` machines. -/
def workerMaxBatch : ℕ := 100 * 4

def sizeofMicaResp : ℕ := 16

/-- `WorkerContext`. A request is its `handle` with its `ops_in_req`; the counters `total_ops`
and `reqs_per_loop` are the lengths of the two lists. -/
structure Context (H : Type) where
  micaRespArr : Bytes
  opPtrArr : List Bytes
  reqs : List (H × ℕ)

/-- How a pass begins: the responses of the last one are still in the array. -/
def Context.begin {H : Type} (micaRespArr : Bytes) : Context H := ⟨micaRespArr, [], []⟩

def sizeOfOp (cfg : Config) (op : Bytes) : ℕ :=
  if (CacheOp.ofBytes op).opcode = .put then cfg.herdPutReqSize else herdGetReqSize

theorem sizeOfOp_pos (cfg : Config) (op : Bytes) : 0 < sizeOfOp cfg op := by
  unfold sizeOfOp
  split
  · rw [cfg.herdPutReqSize_eq, micaOpMetadata_eq]
    omega
  · exact Nat.succ_pos _

/-- The loop of `req_handler` over the bytes of a message. -/
def splitOps (cfg : Config) (buf : Bytes) (size offset : ℕ) : List Bytes :=
  if offset < size then buf.drop offset :: splitOps cfg buf size (offset + sizeOfOp cfg (buf.drop offset)) else []
termination_by size - offset
decreasing_by
  have hpos := sizeOfOp_pos cfg (buf.drop offset)
  omega

section

variable {H : Type}

def reqHandler (cfg : Config) (c : Context H) (handle : H) (buf : Bytes) (size : ℕ) : Except Fault (Context H) :=
  let ops := splitOps cfg buf size 0
  if c.opPtrArr.length + ops.length ≤ workerMaxBatch then
    .ok { c with opPtrArr := c.opPtrArr ++ ops, reqs := c.reqs ++ [(handle, ops.length)] }
  else .error .workerBatchFull

/-- The requests of a pass, each with its handle and message. -/
def collect (cfg : Config) (c : Context H) : List (H × Bytes × ℕ) → Except Fault (Context H)
  | [] => .ok c
  | r :: rest => do
    let c' ← reqHandler cfg c r.1 r.2.1 r.2.2
    collect cfg c' rest

/-- `MICA_RESP_GET_SUCCESS` and the other types. -/
def respCode : MicaRespType → UInt8
  | .getSuccess => 113
  | .putSuccess => 114
  | .getFail => 115

/-- The fields of `mica_resp_arr[i]`; the bytes between length and pointer are unused. The log
begins at address `base`. -/
def storeResp (base : ℕ) (arr : Bytes) (i : ℕ) (r : KvResp) : Bytes :=
  (arr.write (sizeofMicaResp * i) (fun k => if k = 0 then respCode r.type else r.valLen) 2).write
    (sizeofMicaResp * i + 8) (Bytes.le (r.valPtr.elim 0 (base + ·))) 8

def storeResps (base : ℕ) (arr : Bytes) (i : ℕ) : List KvResp → Bytes
  | [] => arr
  | r :: rs => storeResps base (storeResp base arr i r) (i + 1) rs

/-- The loop of `drain_batch` over the requests. -/
def enqueueResponses (arr : Bytes) (offset : ℕ) : List (H × ℕ) → List (H × List UInt8)
  | [] => []
  | r :: rest =>
    (r.1, (arr.drop offset).toList (r.2 * sizeofMicaResp)) :: enqueueResponses arr (offset + r.2 * sizeofMicaResp) rest

/-- The store afterwards, and the response message for each handle. -/
def drainBatch (cfg : Config) (machineId : UInt8) (base : ℕ) (kv : MicaKv) (c : Context H) :
    Except Fault (MicaKv × List (H × List UInt8)) := do
  let x ← micaBatchOpCrcw cfg machineId kv c.opPtrArr
  .ok (x.1, enqueueResponses (storeResps base c.micaRespArr 0 (x.2.map (·.2))) 0 c.reqs)

/-! ## The requests of a pass -/

/-- The operations of some requests. -/
def totalOps (reqs : List (H × ℕ)) : ℕ := (reqs.map (·.2)).sum

/-- The operations in front of request `i`. -/
def opsBefore (reqs : List (H × ℕ)) (i : ℕ) : ℕ := totalOps (reqs.take i)

/-- `req_handler` counts every operation it collects. -/
theorem collect_totalOps {cfg : Config} {c c' : Context H} {msgs : List (H × Bytes × ℕ)}
    (hc : collect cfg c msgs = .ok c') (h : totalOps c.reqs = c.opPtrArr.length) :
    totalOps c'.reqs = c'.opPtrArr.length := by
  induction msgs generalizing c with
  | nil =>
    cases hc
    exact h
  | cons m msgs ih =>
    obtain ⟨c₁, h₁, hc⟩ := bind_eq_ok.1 hc
    refine ih hc ?_
    simp only [reqHandler] at h₁
    split at h₁
    · cases h₁
      simp only [totalOps, List.map_append, List.sum_append, List.length_append] at h ⊢
      rw [h]
      rfl
    · cases h₁

/-- Every operation of the batch belongs to a request. -/
theorem exists_request {reqs : List (H × ℕ)} {g : ℕ} (hg : g < totalOps reqs) :
    ∃ i j h n, reqs[i]? = some (h, n) ∧ j < n ∧ g = opsBefore reqs i + j := by
  induction reqs generalizing g with
  | nil => exact absurd hg (Nat.not_lt_zero g)
  | cons r reqs ih =>
    have ht : totalOps (r :: reqs) = r.2 + totalOps reqs := List.sum_cons
    by_cases hr : g < r.2
    · exact ⟨0, g, r.1, r.2, rfl, hr, (Nat.zero_add g).symm⟩
    · obtain ⟨i, j, h, n, hi, hj, he⟩ := ih (show g - r.2 < totalOps reqs by omega)
      have hs : opsBefore (r :: reqs) (i + 1) = r.2 + opsBefore reqs i := List.sum_cons
      exact ⟨i + 1, j, h, n, hi, hj, by omega⟩

/-! ## The entries of the array -/

/-- `b` is a `mica_resp` with the fields of `r`. -/
structure Entry (base : ℕ) (r : KvResp) (b : Bytes) : Prop where
  type : b 0 = respCode r.type
  valLen : b 1 = r.valLen
  valPtr : Bytes.Agree 8 (b.drop 8) (Bytes.le (r.valPtr.elim 0 (base + ·)))

theorem Entry.congr {base : ℕ} {r : KvResp} {a b : Bytes} (h : Entry base r b) (hab : Bytes.Agree sizeofMicaResp a b) :
    Entry base r a where
  type := (hab 0 (by decide)).trans h.type
  valLen := (hab 1 (by decide)).trans h.valLen
  valPtr := (hab.drop (Nat.le_refl 16)).trans h.valPtr

theorem entry_storeResp (base : ℕ) (arr : Bytes) (i : ℕ) (r : KvResp) :
    Entry base r ((storeResp base arr i r).drop (sizeofMicaResp * i)) := by
  have hhead : Bytes.Agree 2 ((storeResp base arr i r).drop (sizeofMicaResp * i))
      fun k => if k = 0 then respCode r.type else r.valLen :=
    (Bytes.drop_write_of_disjoint (.inl (by omega))).trans (Bytes.agree_drop_write _ _ _ _)
  refine ⟨hhead 0 (by omega), hhead 1 (by omega), ?_⟩
  rw [Bytes.drop_drop]
  exact Bytes.agree_drop_write _ _ _ _

theorem storeResps_before {base i k : ℕ} {arr : Bytes} {rs : List KvResp} (h : k < i) :
    Bytes.Agree sizeofMicaResp ((storeResps base arr i rs).drop (sizeofMicaResp * k)) (arr.drop (sizeofMicaResp * k)) := by
  induction rs generalizing arr i with
  | nil => exact .refl _ _
  | cons r rs ih =>
    refine (ih (Nat.lt_succ_of_lt h)).trans ?_
    unfold storeResp sizeofMicaResp
    exact (Bytes.drop_write_of_disjoint (.inl (by omega))).trans (Bytes.drop_write_of_disjoint (.inl (by omega)))

/-- Each response is at its index. -/
theorem entry_storeResps {base g : ℕ} (arr : Bytes) (i : ℕ) {rs : List KvResp} {r : KvResp} (h : rs[g]? = some r) :
    Entry base r ((storeResps base arr i rs).drop (sizeofMicaResp * (i + g))) := by
  induction rs generalizing arr i g with
  | nil => cases h
  | cons r' rs ih =>
    cases g with
    | zero =>
      cases h
      exact (entry_storeResp base arr i r).congr (storeResps_before (Nat.lt_succ_self i))
    | succ g =>
      rw [show i + (g + 1) = i + 1 + g by omega]
      exact ih _ _ h

theorem enqueueResponses_get {arr : Bytes} {offset i n : ℕ} {h : H} {reqs : List (H × ℕ)} (hi : reqs[i]? = some (h, n)) :
    (enqueueResponses arr offset reqs)[i]? =
      some (h, (arr.drop (offset + sizeofMicaResp * opsBefore reqs i)).toList (n * sizeofMicaResp)) := by
  induction reqs generalizing offset i with
  | nil => cases hi
  | cons r reqs ih =>
    cases i with
    | zero =>
      cases hi
      rfl
    | succ i =>
      have hs : opsBefore (r :: reqs) (i + 1) = r.2 + opsBefore reqs i := List.sum_cons
      rw [hs, Nat.mul_add, Nat.mul_comm _ r.2, ← Nat.add_assoc]
      exact ih hi

/-- The part of a response that belongs to one operation of the request. -/
def part (msg : List UInt8) (j : ℕ) : List UInt8 := (msg.drop (sizeofMicaResp * j)).take sizeofMicaResp

variable {cfg : Config} {machineId : UInt8} {base : ℕ} {kv kv' : MicaKv} {c : Context H} {ys : List (Bytes × KvResp)}
  {out : List (H × List UInt8)} {i j n : ℕ} {h : H} {y : Bytes × KvResp}

/-- The part of an operation is its entry of the array. -/
theorem drainBatch_part (hb : micaBatchOpCrcw cfg machineId kv c.opPtrArr = .ok (kv', ys))
    (hd : drainBatch cfg machineId base kv c = .ok (kv', out)) (hi : c.reqs[i]? = some (h, n)) (hj : j < n)
    (hy : ys[opsBefore c.reqs i + j]? = some y) :
    ∃ msg b, out[i]? = some (h, msg) ∧ part msg j = b.toList sizeofMicaResp ∧ Entry base y.2 b := by
  obtain ⟨x, hx, he⟩ := bind_eq_ok.1 hd
  cases hx.symm.trans hb
  obtain ⟨-, rfl⟩ := Prod.mk.inj (Except.ok.inj he)
  have hr : (ys.map (·.2))[opsBefore c.reqs i + j]? = some y.2 := by
    rw [List.getElem?_map, hy]
    rfl
  refine ⟨_, _, enqueueResponses_get hi, ?_, entry_storeResps c.micaRespArr 0 hr⟩
  have hle : sizeofMicaResp ≤ n * sizeofMicaResp - sizeofMicaResp * j := by
    unfold sizeofMicaResp
    omega
  rw [part, Bytes.drop_toList, Bytes.take_toList _ hle, Bytes.drop_drop, Nat.zero_add, Nat.zero_add, Nat.mul_add]

/-- **The value is not sent**: for every GET that hits, in every batch of requests, the part of
the response that belongs to it is the type, the length and the address of the value on the
worker, and does not have the value. -/
theorem value_not_sent {arr : Bytes} {msgs : List (H × Bytes × ℕ)} {g : ℕ}
    (hc : collect cfg (.begin arr) msgs = .ok c) (hb : micaBatchOpCrcw cfg machineId kv c.opPtrArr = .ok (kv', ys))
    (hd : drainBatch cfg machineId base kv c = .ok (kv', out)) (hy : ys[g]? = some y) (ht : y.2.type = .getSuccess) :
    ∃ i j h n msg p, c.reqs[i]? = some (h, n) ∧ j < n ∧ g = opsBefore c.reqs i + j ∧ out[i]? = some (h, msg) ∧
      y.2.valPtr = some p ∧ (part msg j)[0]? = some 113 ∧ (part msg j)[1]? = some y.2.valLen ∧
      (part msg j).drop 8 = (Bytes.le (base + p)).toList 8 ∧
      ¬ (kv'.htLog.drop p).toList cfg.herdValueSize <:+: part msg j := by
  obtain ⟨hg, -⟩ := List.getElem?_eq_some_iff.1 hy
  rw [Backend.length_of_batch hb, ← collect_totalOps hc rfl] at hg
  obtain ⟨i, j, h, n, hi, hj, rfl⟩ := exists_request hg
  obtain ⟨msg, b, hmsg, hpart, hent⟩ := drainBatch_part hb hd hi hj hy
  obtain ⟨p, hp⟩ := Backend.valPtr_of_batch hb (List.mem_of_getElem? hy) ht
  have htype := hent.type
  have hptr := hent.valPtr
  rw [ht] at htype
  rw [hp] at hptr
  refine ⟨i, j, h, n, msg, p, hi, hj, rfl, hmsg, hp, ?_⟩
  rw [hpart]
  refine ⟨(Bytes.getElem?_toList b (by decide)).trans (congrArg some htype),
    (Bytes.getElem?_toList b (by decide)).trans (congrArg some hent.valLen), ?_, fun hin => ?_⟩
  · rw [Bytes.drop_toList]
    exact Bytes.toList_congr hptr
  · -- a value has 32 bytes at least, and the entry has 16
    have hle := hin.length_le
    have hge := cfg.herdValueSize_ge
    rw [Bytes.length_toList, Bytes.length_toList, sizeofMicaResp] at hle
    omega

end

/-- The pass that has received one message with one GET. -/
def oneGet : Context Unit := ⟨fun _ => 0, [getRequest 0], [((), 1)]⟩

theorem collect_oneGet : collect .shipped (.begin fun _ => 0) [((), getRequest 0, herdGetReqSize)] = .ok oneGet := by
  have hs : splitOps .shipped (getRequest 0) herdGetReqSize 0 = [getRequest 0] := by
    rw [splitOps, if_pos (by decide), splitOps, if_neg (by decide), Bytes.drop_zero]
  simp only [collect, reqHandler, hs]
  rfl

/-- `MICA_RESP_GET_SUCCESS`, 32 bytes, at offset 18 of a log at address `2 ^ 20`. -/
def getResponse : List UInt8 := [113, 32, 0, 0, 0, 0, 0, 0, 18, 0, 16, 0, 0, 0, 0, 0]

/-- The store has one value or another under the key, and the response to a GET is the same. -/
theorem remote_read_sends_pointer :
    collect .shipped (.begin fun _ => 0) [((), getRequest 0, herdGetReqSize)] = .ok oneGet ∧
    ∀ v ∈ [1, 2],
      answers ((micaCrcw .shipped 0).run (storeAfter (2 ^ 30) [putRequest 0 v]) oneGet.opPtrArr) =
        some [⟨.getSuccess, some (List.replicate 32 v)⟩] ∧
      (drainBatch .shipped 0 (2 ^ 20) (storeAfter (2 ^ 30) [putRequest 0 v]) oneGet).toOption.map (·.2) =
        some [((), getResponse)] :=
  ⟨collect_oneGet, by decide +kernel⟩

/-- One GET that hits. -/
theorem value_not_sent_one_get :
    ∃ i j h n msg p, oneGet.reqs[i]? = some (h, n) ∧ j < n ∧ 0 = opsBefore oneGet.reqs i + j ∧
      [((), getResponse)][i]? = some (h, msg) ∧ some 18 = some p ∧ (part msg j)[0]? = some 113 ∧
      (part msg j)[1]? = some 32 ∧ (part msg j).drop 8 = (Bytes.le (2 ^ 20 + p)).toList 8 ∧
      ¬ ((storeAfter (2 ^ 30) [putRequest 0 1]).htLog.drop p).toList Config.shipped.herdValueSize <:+: part msg j := by
  have hb : micaBatchOpCrcw .shipped 0 (storeAfter (2 ^ 30) [putRequest 0 1]) oneGet.opPtrArr =
      .ok (storeAfter (2 ^ 30) [putRequest 0 1], [(getRequest 0, ⟨.getSuccess, 32, some 18⟩)]) := rfl
  have hd : drainBatch .shipped 0 (2 ^ 20) (storeAfter (2 ^ 30) [putRequest 0 1]) oneGet =
      .ok (storeAfter (2 ^ 30) [putRequest 0 1], [((), getResponse)]) := bind_eq_ok.2 ⟨_, hb, rfl⟩
  have hy : [(getRequest 0, (⟨.getSuccess, 32, some 18⟩ : KvResp))][0]? = some (getRequest 0, ⟨.getSuccess, 32, some 18⟩) :=
    rfl
  exact value_not_sent collect_oneGet hb hd hy rfl

end CcKvs.Worker
