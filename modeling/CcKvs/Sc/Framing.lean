/-
One iteration's hot writes on their way to another machine: collected by
`perform_broadcasts_SC`, packed by `broadcast_cache_ops`, read back by
`req_cache` (`client-sc.c`). The sender packs them `HERD_PUT_REQ_SIZE` bytes
apart and the receiver reads them `sizeof(struct cache_op)` bytes apart, so
only a message of one write arrives as it was sent.
-/
import CcKvs.Layout

namespace CcKvs.Sc

open Bytes

/-- The hot writes in `ClientContext`: what the pointers in `cbatch` point at, `cidx` of
them, and `creq_length`. -/
structure CacheBatch where
  cbatch : List Bytes
  creqLength : ℕ

def CacheBatch.cidx (c : CacheBatch) : ℕ := c.cbatch.length

def addCacheOp (op : Bytes) (requestLength : ℕ) (c : CacheBatch) : Except Fault CacheBatch :=
  if c.cidx < cacheBatchSize then .ok ⟨c.cbatch ++ [op], requestLength⟩ else .error .cacheBatchFull

/-- An operation that `cache_batch_op_sc` left for broadcasting. -/
def IsHot (op : Bytes) : Bool := Opcode.ofByte (op 16) == .brc

/-- `ops[op_i].opcode = CACHE_OP_UPD` -/
def setUpd (op : Bytes) : Bytes := Function.update op 16 113

/-- The loop of `perform_broadcasts_SC` over the operations of an iteration. -/
def performBroadcasts (cfg : Config) : List Bytes → CacheBatch → Except Fault (List Bytes × CacheBatch)
  | [], c => .ok ([], c)
  | op :: ops, c =>
    if IsHot op then do
      let c ← addCacheOp (setUpd op) cfg.herdPutReqSize c
      let (ops, c) ← performBroadcasts cfg ops c
      .ok (setUpd op :: ops, c)
    else do
      let (ops, c) ← performBroadcasts cfg ops c
      .ok (op :: ops, c)

/-- The packet of `broadcast_cache_ops` and its length, built in the fresh `buffer`. -/
def packet (c : CacheBatch) (buffer : Bytes) : Option (Bytes × ℕ) :=
  if c.cidx = 0 then none
  else some (gather buffer 0 (c.cbatch.map (·, c.creqLength)), c.cidx * c.creqLength)

/-- The operations `req_cache` hands to `cache_batch_op_sc_with_cache_op`, read from
`update_ops` after the packet was copied there. -/
def reqCache (cfg : Config) (updateOps : Bytes) (msg : Bytes × ℕ) : List CacheOp :=
  let updates := msg.2 / cfg.herdPutReqSize
  let updateOps := updateOps.memcpy msg.1 msg.2
  (List.range updates).map fun I => .ofBytes (updateOps.drop (I * cfg.sizeofCacheOp))

/-- The writes of an iteration with operations `ops` are collected, and whatever is in the
sender's fresh buffer and the receiver's `update_ops`, they are read as they were sent. -/
def RoundTrips (cfg : Config) (ops : Vector Bytes cacheBatchSize) : Prop :=
  ∃ ops' c, performBroadcasts cfg ops.toList ⟨[], 0⟩ = .ok (ops', c) ∧
    ∀ buffer updateOps msg, packet c buffer = some msg →
      List.Forall₂ (CacheOp.Same cfg.herdValueSize) (reqCache cfg updateOps msg) (c.cbatch.map .ofBytes)

/-- The hot writes among the operations, as they are sent. -/
def hotWrites (ops : List Bytes) : List Bytes := (ops.filter IsHot).map setUpd

/-! ## The sender -/

theorem hotWrites_length_le (ops : List Bytes) : (hotWrites ops).length ≤ ops.length := by
  rw [hotWrites, List.length_map]
  exact List.length_filter_le _ _

/-- While they fit, all hot writes are collected, in order. -/
theorem performBroadcasts_ok (cfg : Config) (ops : List Bytes) (c : CacheBatch)
    (hfit : c.cidx + (hotWrites ops).length ≤ cacheBatchSize) :
    ∃ ops' c', performBroadcasts cfg ops c = .ok (ops', c') ∧ c'.cbatch = c.cbatch ++ hotWrites ops ∧
      (c'.creqLength = cfg.herdPutReqSize ∨ hotWrites ops = [] ∧ c' = c) := by
  induction ops generalizing c with
  | nil => exact ⟨[], c, rfl, by simp [hotWrites], .inr ⟨rfl, rfl⟩⟩
  | cons op ops ih =>
    by_cases hot : IsHot op
    · have hw : hotWrites (op :: ops) = setUpd op :: hotWrites ops := by simp [hotWrites, hot]
      rw [hw, List.length_cons] at hfit
      have hadd : addCacheOp (setUpd op) cfg.herdPutReqSize c =
          .ok ⟨c.cbatch ++ [setUpd op], cfg.herdPutReqSize⟩ := if_pos (by omega)
      obtain ⟨ops', c', hrun, hb, hl⟩ := ih ⟨c.cbatch ++ [setUpd op], cfg.herdPutReqSize⟩ (by
        simp only [CacheBatch.cidx, List.length_append, List.length_singleton] at hfit ⊢
        omega)
      refine ⟨setUpd op :: ops', c', ?_, ?_, .inl ?_⟩
      · simp only [performBroadcasts, hot, if_true, hadd, hrun, bind, Except.bind]
      · rw [hb, hw, List.append_assoc, List.singleton_append]
      · rcases hl with hl | ⟨_, rfl⟩
        · exact hl
        · rfl
    · have hw : hotWrites (op :: ops) = hotWrites ops := by simp [hotWrites, hot]
      rw [hw] at hfit ⊢
      obtain ⟨ops', c', hrun, hb, hl⟩ := ih c hfit
      refine ⟨op :: ops', c', ?_, hb, hl⟩
      simp only [performBroadcasts, hot, if_false, hrun, bind, Except.bind, Bool.false_eq_true]

/-- What the loop leaves of the operations. -/
theorem performBroadcasts_ops {cfg : Config} {ops ops' : List Bytes} {c c' : CacheBatch}
    (h : performBroadcasts cfg ops c = .ok (ops', c')) : ops' = ops.map fun op => if IsHot op then setUpd op else op := by
  induction ops generalizing ops' c with
  | nil =>
    cases h
    rfl
  | cons op ops ih =>
    unfold performBroadcasts at h
    split at h
    · next hot =>
      obtain ⟨c₁, -, h⟩ := bind_eq_ok.1 h
      obtain ⟨⟨ops₁, c₂⟩, hrest, he⟩ := bind_eq_ok.1 h
      cases he
      rw [List.map_cons, if_pos hot, ih hrest]
    · next hot =>
      obtain ⟨⟨ops₁, c₂⟩, hrest, he⟩ := bind_eq_ok.1 h
      cases he
      rw [List.map_cons, if_neg hot, ih hrest]

/-- Each write stands in the packet at its multiple of the request length. -/
theorem agree_packet {c : CacheBatch} {buffer : Bytes} {msg : Bytes × ℕ} {l r : List Bytes} {op : Bytes}
    (hm : packet c buffer = some msg) (hc : c.cbatch = l ++ op :: r) :
    Agree c.creqLength (msg.1.drop (l.length * c.creqLength)) op := by
  have hne : c.cidx ≠ 0 := by simp [CacheBatch.cidx, hc]
  rw [packet, if_neg hne, Option.some.injEq] at hm
  have ht : total (l.map (·, c.creqLength)) = l.length * c.creqLength := by
    simp [total, Function.comp_def]
  have h : Agree c.creqLength ((gather buffer 0 (l.map (·, c.creqLength) ++
      (op, c.creqLength) :: r.map (·, c.creqLength))).drop (0 + total (l.map (·, c.creqLength)))) op :=
    agree_gather
  rw [Nat.zero_add, ht] at h
  rw [← hm, hc, List.map_append, List.map_cons]
  exact h

theorem packet_size {c : CacheBatch} {buffer : Bytes} {msg : Bytes × ℕ} (hm : packet c buffer = some msg) :
    msg.2 = c.cidx * c.creqLength := by
  unfold packet at hm
  split at hm
  · cases hm
  · cases hm; rfl

/-! ## The receiver -/

variable {cfg : Config}

theorem reqCache_eq {updateOps : Bytes} {msg : Bytes × ℕ} {n : ℕ} (hs : msg.2 = n * cfg.herdPutReqSize) :
    reqCache cfg updateOps msg =
      (List.range n).map fun I => .ofBytes ((updateOps.memcpy msg.1 msg.2).drop (I * cfg.sizeofCacheOp)) := by
  have hpos : 0 < cfg.herdPutReqSize := by rw [cfg.herdPutReqSize_eq]; unfold micaOpMetadata; omega
  rw [reqCache, hs, Nat.mul_div_cancel _ hpos]

/-- The first write of a packet is read as it was sent. -/
theorem reqCache_first {updateOps : Bytes} {msg : Bytes × ℕ} {op : Bytes}
    (hs : cfg.herdPutReqSize ≤ msg.2) (hop : Agree cfg.herdPutReqSize msg.1 op) :
    CacheOp.Same cfg.herdValueSize (.ofBytes ((updateOps.memcpy msg.1 msg.2).drop (0 * cfg.sizeofCacheOp)))
      (.ofBytes op) := by
  refine CacheOp.same_of_agree fun i hi => ?_
  rw [← cfg.herdPutReqSize_eq] at hi
  simp only [Bytes.drop, Nat.zero_mul, Nat.zero_add]
  rw [memcpy_of_lt (by omega), hop i hi]

/-- The last value byte of the last of several writes is read from behind the packet. -/
theorem reqCache_last_stale {updateOps msg : Bytes} {n : ℕ} (hn : 1 ≤ n) :
    (CacheOp.ofBytes ((updateOps.memcpy msg ((n + 1) * cfg.herdPutReqSize)).drop (n * cfg.sizeofCacheOp))).value
      (cfg.herdValueSize - 1) =
    updateOps (n * cfg.sizeofCacheOp + (micaOpMetadata + (cfg.herdValueSize - 1))) := by
  have hv := cfg.herdValueSize_ge
  have hstride := cfg.sizeofCacheOp_eq
  have hp := cfg.herdPutReqSize_eq
  show updateOps.memcpy msg _ _ = _
  refine memcpy_of_le ?_
  rw [hstride, Nat.mul_add, Nat.succ_mul]
  omega

/-! ## Both together -/

/-- What lies behind a packet of several writes shows in the last one read. -/
theorem not_read_of_many {c : CacheBatch} {n : ℕ} (hlen : c.creqLength = cfg.herdPutReqSize)
    (hc : c.cidx = n + 1) (hn : 1 ≤ n) :
    ∃ buffer updateOps msg, packet c buffer = some msg ∧
      ¬ List.Forall₂ (CacheOp.Same cfg.herdValueSize) (reqCache cfg updateOps msg) (c.cbatch.map .ofBytes) := by
  have hn' : n < c.cbatch.length := by rw [← CacheBatch.cidx, hc]; omega
  let sent := (CacheOp.ofBytes (c.cbatch.get ⟨n, hn'⟩)).value (cfg.herdValueSize - 1)
  -- `update_ops` is never cleared, so it may hold a byte that is not the one sent
  let updateOps : Bytes := fun _ => sent + 1
  let msg := (gather (fun _ => 0) 0 (c.cbatch.map (·, c.creqLength)), c.cidx * c.creqLength)
  refine ⟨fun _ => 0, updateOps, msg, if_neg (by omega), fun hall => ?_⟩
  have hs : msg.2 = (n + 1) * cfg.herdPutReqSize := by rw [← hlen, ← hc]
  rw [reqCache_eq hs, List.forall₂_iff_get] at hall
  have hval := (hall.2 n (by simp) (by simpa using hn')).value (cfg.herdValueSize - 1)
    (by have := cfg.herdValueSize_ge; omega)
  simp only [List.get_eq_getElem, List.getElem_map, List.getElem_range, hs] at hval
  rw [reqCache_last_stale hn] at hval
  exact absurd hval (by simp [updateOps, sent])

/-- A single write is read as it was sent. -/
theorem read_of_one {c : CacheBatch} {op : Bytes} (hlen : c.creqLength = cfg.herdPutReqSize)
    (hc : c.cbatch = [op]) {buffer updateOps : Bytes} {msg : Bytes × ℕ} (hm : packet c buffer = some msg) :
    List.Forall₂ (CacheOp.Same cfg.herdValueSize) (reqCache cfg updateOps msg) (c.cbatch.map .ofBytes) := by
  have hs : msg.2 = 1 * cfg.herdPutReqSize := by rw [packet_size hm, hlen, CacheBatch.cidx, hc]; rfl
  have hop : Agree cfg.herdPutReqSize msg.1 op := by
    have h := agree_packet (l := []) hm hc
    rw [hlen, List.length_nil, Nat.zero_mul] at h
    intro i hi
    rw [← h i hi, Bytes.drop, Nat.zero_add]
  rw [reqCache_eq hs, hc]
  exact .cons (reqCache_first (by omega) hop) .nil

/-- What `perform_broadcasts_SC` leaves for `broadcast_cache_ops` at the end of an iteration. -/
theorem performBroadcasts_all (cfg : Config) (ops : Vector Bytes cacheBatchSize) :
    ∃ ops' c, performBroadcasts cfg ops.toList ⟨[], 0⟩ = .ok (ops', c) ∧ c.cbatch = hotWrites ops.toList ∧
      (c.creqLength = cfg.herdPutReqSize ∨ hotWrites ops.toList = []) := by
  have hle := hotWrites_length_le ops.toList
  rw [Vector.length_toList] at hle
  obtain ⟨ops', c, hrun, hb, hl⟩ := performBroadcasts_ok cfg ops.toList ⟨[], 0⟩ (by simpa [CacheBatch.cidx])
  exact ⟨ops', c, hrun, hb, hl.imp_right And.left⟩

theorem not_roundTrips_of_many {ops : Vector Bytes cacheBatchSize}
    (hmany : 2 ≤ (ops.toList.filter IsHot).length) : ¬ RoundTrips cfg ops := by
  rw [← List.length_map (f := setUpd), ← hotWrites] at hmany
  obtain ⟨ops', c, hrun, hb, hl⟩ := performBroadcasts_all cfg ops
  intro ⟨ops'', c'', hrun', hread⟩
  rw [hrun] at hrun'
  cases hrun'
  obtain ⟨n, hn⟩ : ∃ n, (hotWrites ops.toList).length = n + 1 := ⟨(hotWrites ops.toList).length - 1, by omega⟩
  have hl : c.creqLength = cfg.herdPutReqSize := hl.resolve_right fun h => by
    rw [h] at hn
    cases hn
  obtain ⟨buffer, updateOps, msg, hm, hne⟩ := not_read_of_many hl (by rw [CacheBatch.cidx, hb, hn]) (by omega)
  exact hne (hread buffer updateOps msg hm)

theorem roundTrips_of_le_one {ops : Vector Bytes cacheBatchSize}
    (hone : (ops.toList.filter IsHot).length ≤ 1) : RoundTrips cfg ops := by
  rw [← List.length_map (f := setUpd), ← hotWrites] at hone
  obtain ⟨ops', c, hrun, hb, hl⟩ := performBroadcasts_all cfg ops
  refine ⟨ops', c, hrun, fun buffer updateOps msg hm => ?_⟩
  match hw : hotWrites ops.toList with
  | [] =>
    rw [hw] at hb
    simp [packet, CacheBatch.cidx, hb] at hm
  | [op] =>
    rw [hw] at hb hl
    exact read_of_one (hl.resolve_right (by simp)) hb hm
  | _ :: _ :: _ =>
    rw [hw] at hone
    simp at hone

/-- **A broadcast of hot writes arrives as it was sent exactly if it is of at most one.** -/
theorem broadcast_roundTrips_iff (cfg : Config) (ops : Vector Bytes cacheBatchSize) :
    RoundTrips cfg ops ↔ (ops.toList.filter IsHot).length ≤ 1 := by
  constructor
  · intro h
    by_contra hmany
    exact not_roundTrips_of_many (by omega) h
  · exact roundTrips_of_le_one

/-- A hot write of the byte 1 to the key `key`, with version 2. -/
def hotOnes (key : UInt8) : Bytes := fun i =>
  if i = 4 then 2 else if i = 8 then key else if i = 16 then 116 else if i = 17 then 32
  else if micaOpMetadata ≤ i then 1 else 0

/-- An iteration that starts with two hot writes and has no other. -/
def twoHot : Vector Bytes cacheBatchSize :=
  ⟨(hotOnes 7 :: hotOnes 9 :: List.replicate (cacheBatchSize - 2) fun _ => 0).toArray, by
    simp only [List.size_toArray, List.length_cons, List.length_replicate]
    rfl⟩

/-- The second of two writes is lost: its key is read out of its own value. -/
theorem two_hot_writes_misread : ¬ RoundTrips .shipped twoHot := by
  refine not_roundTrips_of_many ?_
  have h7 : IsHot (hotOnes 7) := by decide
  have h9 : IsHot (hotOnes 9) := by decide
  simp only [twoHot, Vector.toList_mk, List.filter_cons, h7, h9, if_true, List.length_cons]
  omega

/-- The keys the receiver reads from the two writes, against those sent. -/
example : (packet ⟨[hotOnes 7, hotOnes 9], Config.shipped.herdPutReqSize⟩ fun _ => 0).map
    (fun msg => (reqCache .shipped (fun _ => 0) msg).map (·.key)) = some [7, 0x0101010101010101] := by
  decide +kernel

end CcKvs.Sc
