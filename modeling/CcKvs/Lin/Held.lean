/-
Where a message is between the network and `coh_message_count`. It is polled into
`update_ops` or `inv_ops`; the last ACK of a write waits in the ring
`ack_bcast_ops` and a successful INV in a slot of `inv_to_send_ops`. No slot that
is still needed is written over, since polling stops in time, and no cache
function changes the `cid` that says whose message it was: so a machine holds as
many messages of a sender as before, except when it polls one and when it turns
what it has counted over to `forge_credits_LIN`.
-/
import CcKvs.Lin.Credits

namespace CcKvs

/-- Opcode and `cid`: which channel an operation came on, and from whom. -/
def CacheOp.sig (op : CacheOp) : Opcode × UInt8 := (op.opcode, op.keyMeta.cid)

/-- What a round of a cache function keeps of the operation. -/
theorem Cache.serve_op {cache cache' : Cache} {body : Hit → Except Fault Hit} {op op' : CacheOp} {resp resp' : MicaResp}
    {P : CacheOp → Prop} (hop : P op) (hbody : ∀ h h', h.op = op → body h = .ok h' → P h'.op)
    (hok : cache.serve body op resp = .ok (cache', op', resp')) : P op' := by
  unfold Cache.serve at hok
  split at hok
  · cases hok
    exact hop
  · split at hok
    · cases hok
      exact hop
    · next kv _ =>
      obtain ⟨h, hh, he⟩ := bind_eq_ok.1 hok
      cases he
      exact hbody _ h rfl hh

theorem serve_sig {m : ℕ} {cache cache' : Cache} {op op' : CacheOp} {resp resp' : MicaResp}
    (hok : cache.serve (linNonStallingSessionsWithCacheOp m) op resp = .ok (cache', op', resp')) : op'.sig = op.sig := by
  refine Cache.serve_op (P := fun x => x.sig = op.sig) rfl (fun h h' hop hh => ?_) hok
  have hsame : h'.op = h.op := by
    unfold linNonStallingSessionsWithCacheOp at hh
    split at hh
    · exact linUpd_op hh
    · exact linAck_op hh
    · cases hh
      rfl
    · cases hh
  rw [hsame, hop]

theorem serve_small_cid {m : ℕ} {cache cache' : Cache} {op op' : CacheOp} {resp resp' : MicaResp}
    (hok : cache.serve (linNonStallingSessionsWithSmallCacheOp m) op resp = .ok (cache', op', resp')) :
    op'.keyMeta.cid = op.keyMeta.cid := by
  refine Cache.serve_op (P := fun x => x.keyMeta.cid = op.keyMeta.cid) rfl (fun h h' hop hh => ?_) hok
  unfold linNonStallingSessionsWithSmallCacheOp at hh
  split at hh
  · rw [linInv_op hh, hop]
  · cases hh

namespace Lin

open Function

/-! ## Messages in the buffers -/

/-- The message came on channel `vc` from machine `s`. -/
def carries (vc : Vc) (s : ℕ) (x : Opcode × UInt8) : Bool := Vc.ofOpcode x.1 = some vc ∧ x.2.toNat = s

theorem carries_iff {vc : Vc} {s : ℕ} {x : Opcode × UInt8} :
    carries vc s x = true ↔ Vc.ofOpcode x.1 = some vc ∧ x.2.toNat = s := by
  simp [carries]

theorem ite_carries {vc v : Vc} {s : ℕ} {op : CacheOp} (hv : Vc.ofOpcode op.opcode = some v) :
    (if carries vc s op.sig = true then 1 else 0) = if vc = v ∧ op.keyMeta.cid.toNat = s then 1 else 0 := by
  have hiff : carries vc s op.sig = true ↔ vc = v ∧ op.keyMeta.cid.toNat = s := by
    rw [carries_iff, CacheOp.sig, hv, Option.some.injEq, @eq_comm Vc]
  simp only [hiff]

namespace Client

variable {c c' : Client} {valLen : UInt8} {op : CacheOp}

/-- Updates and acknowledgements polled and not seen by the bookkeeping yet. -/
def polled (c : Client) : List (Opcode × UInt8) := (List.range' c.kept (c.updateOpsI - c.kept)).map fun i => (c.updateOps i).sig

/-- Where the last ACKs came from whose updates are not sent yet. -/
def queued (c : Client) : List ℕ :=
  (List.range c.ackSize).map fun i => (c.ackBcastOps ((c.ackPopPtr + i) % bcastToCacheBatch)).keyMeta.cid.toNat

/-- The last ACKs whose updates are not sent yet, in the order of the ring. -/
def pending (c : Client) : List CacheOp :=
  (List.range c.ackSize).map fun i => c.ackBcastOps ((c.ackPopPtr + i) % bcastToCacheBatch)

theorem queued_eq (c : Client) : c.queued = c.pending.map fun op => op.keyMeta.cid.toNat := by
  rw [queued, pending, List.map_map]
  rfl

def isAck (x : Opcode × UInt8) : Bool := x.1 = .ack

/-- The counters are in order, and there is room in the ring for all acknowledgements polled. -/
structure Ring (c : Client) : Prop where
  order : c.kept ≤ c.served ∧ c.served ≤ c.updateOpsI
  popPtr : c.ackPopPtr < bcastToCacheBatch
  pushPtr : c.ackPushPtr = (c.ackPopPtr + c.ackSize) % bcastToCacheBatch
  room : c.ackSize + c.polled.countP isAck ≤ bcastToCacheBatch
  acks : c.served = 0 → c.ackOpsI = c.polled.countP isAck
  kind : ∀ x ∈ c.polled, x.1 = .upd ∨ x.1 = .ack

theorem copyReq_sig (valLen : UInt8) (slot req : CacheOp) : (copyReq valLen slot req).sig = req.sig := by
  unfold copyReq
  split <;> rfl

theorem polled_pollCoherence (hle : c.kept ≤ c.updateOpsI) : (c.pollCoherence valLen op).polled = c.polled ++ [op.sig] := by
  have hlen : c.updateOpsI + 1 - c.kept = c.updateOpsI - c.kept + 1 := by omega
  have hlast : c.kept + 1 * (c.updateOpsI - c.kept) = c.updateOpsI := by omega
  simp only [polled, pollCoherence, hlen, List.range'_concat, List.map_append, List.map_cons, List.map_nil, hlast,
    update_self, copyReq_sig]
  congr 1
  refine List.map_congr_left fun i hi => ?_
  rw [List.mem_range'_1] at hi
  rw [update_of_ne (by omega)]

theorem polled_serve {resp : MicaResp} (hs : op.sig = (c.updateOps c.served).sig) : (c.serve op resp).polled = c.polled := by
  refine List.map_congr_left fun i _ => ?_
  show (update c.updateOps c.served op i).sig = _
  by_cases he : i = c.served
  · rw [he, update_self, hs]
  · rw [update_of_ne he]

theorem polled_cons (hlt : c.kept < c.updateOpsI) :
    c.polled = (c.updateOps c.kept).sig :: { c with kept := c.kept + 1 }.polled := by
  have hlen : c.updateOpsI - c.kept = c.updateOpsI - (c.kept + 1) + 1 := by omega
  simp only [polled, hlen, List.range'_succ, List.map_cons]

/-- The bookkeeping takes the first operation. -/
theorem polled_bookkeeping (hlt : c.kept < c.updateOpsI) (hok : c.bookkeeping valLen = .ok c') :
    c.polled = (c.updateOps c.kept).sig :: c'.polled := by
  rw [polled_cons hlt]
  rcases bookkeeping_cases hok with ⟨-, rfl⟩ | ⟨-, rfl⟩ <;> rfl

theorem pending_push (h : c.Ring) (hlt : c.ackSize < bcastToCacheBatch) (x : CacheOp) :
    pending { c with
      kept := c.kept + 1
      ackBcastOps := update c.ackBcastOps c.ackPushPtr x
      ackPushPtr := (c.ackPushPtr + 1) % bcastToCacheBatch
      ackSize := c.ackSize + 1 } = c.pending ++ [x] := by
  simp only [pending, List.range_succ, List.map_append, List.map_cons, List.map_nil, ← h.pushPtr, update_self]
  congr 1
  refine List.map_congr_left fun i hi => ?_
  have hpop := h.popPtr
  rw [List.mem_range] at hi
  rw [update_of_ne]
  rw [h.pushPtr]
  unfold bcastToCacheBatch at *
  omega

theorem pending_pop {N : ℕ} {m : Fin N} (h : c.Ring) (hpos : 0 < c.ackSize) :
    c.pending = c.ackBcastOps c.ackPopPtr :: (c.forgeUpd m).pending := by
  obtain ⟨k, hk⟩ := Nat.exists_eq_succ_of_ne_zero hpos.ne'
  have hroom := h.room
  have hpop := h.popPtr
  simp only [pending, forgeUpd, hk, List.range_succ_eq_map, List.map_cons, List.map_map, Nat.add_zero,
    Nat.mod_eq_of_lt hpop, Nat.succ_sub_one]
  congr 1
  refine List.map_congr_left fun i hi => ?_
  rw [List.mem_range] at hi
  have hidx : ((c.ackPopPtr + 1) % bcastToCacheBatch + i) % bcastToCacheBatch = (c.ackPopPtr + (i + 1)) % bcastToCacheBatch := by
    rw [Nat.mod_add_mod, Nat.add_assoc, Nat.add_comm 1]
  rw [hidx, update_of_ne]
  · rfl
  · unfold bcastToCacheBatch at *
    omega

theorem queued_push (h : c.Ring) (hlt : c.ackSize < bcastToCacheBatch) (x : CacheOp) :
    queued { c with
      kept := c.kept + 1
      ackBcastOps := update c.ackBcastOps c.ackPushPtr x
      ackPushPtr := (c.ackPushPtr + 1) % bcastToCacheBatch
      ackSize := c.ackSize + 1 } = c.queued ++ [x.keyMeta.cid.toNat] := by
  rw [queued_eq, queued_eq, pending_push h hlt, List.map_append]
  rfl

theorem queued_pop {N : ℕ} {m : Fin N} (h : c.Ring) (hpos : 0 < c.ackSize) :
    c.queued = (c.ackBcastOps c.ackPopPtr).keyMeta.cid.toNat :: (c.forgeUpd m).queued := by
  rw [queued_eq, queued_eq, pending_pop h hpos, List.map_cons]

theorem Ring.poll (h : c.Ring) (hp : c.CanPoll) (hk : op.opcode = .upd ∨ op.opcode = .ack) :
    (c.pollCoherence valLen op).Ring := by
  obtain ⟨h0, -, hfull⟩ := hp
  have hacks := h.acks h0
  have hroom := h.room
  have hpolled : (c.pollCoherence valLen op).polled = c.polled ++ [op.sig] := polled_pollCoherence (h.order.1.trans h.order.2)
  have hcount : (c.pollCoherence valLen op).polled.countP isAck =
      c.polled.countP isAck + if op.opcode = .ack then 1 else 0 := by
    rw [hpolled, List.countP_append, List.countP_singleton]
    by_cases hop : op.opcode = .ack <;> simp [isAck, CacheOp.sig, hop]
  refine ⟨⟨h.order.1, h.order.2.trans (Nat.le_succ _)⟩, h.popPtr, h.pushPtr, ?_, fun _ => ?_, ?_⟩
  · rw [hcount]
    show c.ackSize + _ ≤ _
    split <;> omega
  · rw [hcount]
    show (if op.opcode = .ack then c.ackOpsI + 1 else c.ackOpsI) = _
    split <;> omega
  · rw [hpolled]
    intro x hx
    rcases List.mem_append.1 hx with hx | hx
    · exact h.kind x hx
    · rw [List.mem_singleton.1 hx]
      exact hk

theorem Ring.serve (h : c.Ring) {resp : MicaResp} (hlt : c.served < c.updateOpsI)
    (hs : op.sig = (c.updateOps c.served).sig) : (c.serve op resp).Ring := by
  have hpolled : (c.serve op resp).polled = c.polled := polled_serve hs
  refine ⟨⟨h.order.1.trans (Nat.le_succ _), hlt⟩, h.popPtr, h.pushPtr, ?_, fun h0 => ?_, ?_⟩
  · rw [hpolled]
    exact h.room
  · cases h0
  · rw [hpolled]
    exact h.kind

theorem Ring.keep (h : c.Ring) (hlt : c.kept < c.served) (hok : c.bookkeeping valLen = .ok c') : c'.Ring := by
  have hcons := polled_bookkeeping (hlt.trans_le h.order.2) hok
  have hroom := h.room
  have hkind := h.kind
  rw [hcons] at hroom hkind
  obtain ⟨hfirst, hkind⟩ := List.forall_mem_cons.1 hkind
  rw [List.countP_cons] at hroom
  have hne : c.served = 0 → False := by omega
  rcases bookkeeping_cases hok with ⟨-, rfl⟩ | ⟨⟨hu, -⟩, rfl⟩
  · exact ⟨⟨hlt, h.order.2⟩, h.popPtr, h.pushPtr, by simp only; omega, fun h0 => (hne h0).elim, hkind⟩
  · refine ⟨⟨hlt, h.order.2⟩, h.popPtr, ?_, ?_, fun h0 => (hne h0).elim, hkind⟩
    · show (c.ackPushPtr + 1) % bcastToCacheBatch = (c.ackPopPtr + (c.ackSize + 1)) % bcastToCacheBatch
      rw [h.pushPtr, Nat.mod_add_mod, Nat.add_assoc]
    · have hack : isAck (c.updateOps c.kept).sig = true := by simpa [isAck] using hfirst.resolve_left hu
      rw [hack, if_pos rfl] at hroom
      show c.ackSize + 1 + _ ≤ _
      rwa [Nat.add_assoc, Nat.add_comm 1]

theorem Ring.next (h : c.Ring) :
    Ring { c with updateOpsI := 0, served := 0, kept := 0, ackOpsI := 0 } := by
  have hroom := h.room
  exact ⟨⟨le_rfl, le_rfl⟩, h.popPtr, h.pushPtr, (Nat.le_add_right _ _).trans hroom, fun _ => rfl, by simp [polled]⟩

theorem Ring.forge {N : ℕ} {m : Fin N} (h : c.Ring) (hpos : 0 < c.ackSize) : (c.forgeUpd m).Ring := by
  have hroom := h.room
  refine ⟨h.order, Nat.mod_lt _ (by decide), ?_, ?_, h.acks, h.kind⟩
  · simp only [forgeUpd, h.pushPtr, Nat.mod_add_mod]
    congr 1
    omega
  · show c.ackSize - 1 + List.countP isAck c.polled ≤ _
    omega

end Client

/-! ## What a machine holds -/

/-- A table with one entry changed. -/
theorem table_update {β : Type} (t : Vc → ℕ → β) (vc : Vc) (i : ℕ) (x : β) (vc' : Vc) (j : ℕ) :
    update t vc (update (t vc) i x) vc' j = if vc' = vc ∧ i = j then x else t vc' j := by
  by_cases hv : vc' = vc
  · subst hv
    by_cases hj : i = j
    · subst hj
      simp
    · simp [hj, Ne.symm hj]
  · simp [hv]

theorem bump_apply (t : Vc → ℕ → ℕ) (vc : Vc) (i : ℕ) (vc' : Vc) (j : ℕ) :
    bump t vc i vc' j = t vc' j + if vc' = vc ∧ i = j then 1 else 0 := by
  rw [bump, table_update]
  split
  · next he => rw [he.1, he.2]
  · rfl

/-- The slots of `inv_to_send_ops` with property `P`. -/
def slotsWith (P : CacheOp → Prop) [DecidablePred P] (slots : ℕ → CacheOp) : ℕ :=
  ((Finset.range bcastToCacheBatch).filter fun i => P (slots i)).card

/-- Counting slots, with one of them written over. -/
theorem slotsWith_update (P : CacheOp → Prop) [DecidablePred P] (slots : ℕ → CacheOp) {i : ℕ} (hi : i < bcastToCacheBatch)
    (x : CacheOp) :
    slotsWith P (update slots i x) + (if P (slots i) then 1 else 0) = slotsWith P slots + if P x then 1 else 0 := by
  have hmem : i ∈ Finset.range bcastToCacheBatch := Finset.mem_range.2 hi
  have hrest : ∑ j ∈ (Finset.range bcastToCacheBatch).erase i, (if P (update slots i x j) then 1 else 0) =
      ∑ j ∈ (Finset.range bcastToCacheBatch).erase i, if P (slots j) then 1 else 0 :=
    Finset.sum_congr rfl fun j hj => by rw [update_of_ne (Finset.ne_of_mem_erase hj)]
  rw [slotsWith, slotsWith, Finset.card_filter, Finset.card_filter, ← Finset.add_sum_erase _ _ hmem,
    ← Finset.add_sum_erase _ (fun j => if P (slots j) then 1 else 0) hmem, hrest, update_self]
  omega

namespace Node

variable {n n' : Node} {valLen : UInt8} {op : CacheOp} {vc : Vc} {s : ℕ}

/-- The marked slots of `inv_to_send_ops` whose INV came from `s`. -/
def marked (n : Node) (s : ℕ) : ℕ := slotsWith (fun op => op.opcode = .brc ∧ op.keyMeta.cid.toNat = s) n.invToSendOps

/-- Where the INVs polled came from. -/
def invSenders (n : Node) : List ℕ :=
  n.invServed.map (fun x => x.1.keyMeta.cid.toNat) ++ n.invOps.map fun op => op.keyMeta.cid.toNat

/-- Messages the bookkeeping has seen and whose room is still taken. -/
def waiting (n : Node) : Vc → ℕ → ℕ
  | .ack, s => n.client.queued.count s
  | .inv, s => n.invSenders.count s + n.marked s
  | .upd, _ => 0

/-- Messages from machine `s` on channel `vc` that were received and not turned over to `seen`. -/
def held (n : Node) (vc : Vc) (s : ℕ) : ℕ :=
  n.client.polled.countP (carries vc s) + n.waiting vc s + n.cohMessageCount vc s

/-- What keeps the buffers from being written over. -/
structure Sound (n : Node) : Prop where
  ring : n.client.Ring
  size : n.invSize = slotsWith (fun op => op.opcode = .brc) n.invToSendOps
  room : n.invSize + n.invOps.length + n.invServed.length ≤ bcastToCacheBatch
  seen : ∀ vc s, n.seen vc s < creditsInMessage

theorem Sound.pollUpdate (h : n.Sound) (hp : n.client.CanPoll) (hk : op.opcode = .upd ∨ op.opcode = .ack) :
    Sound { n with client := n.client.pollCoherence valLen op } ∧ ∀ vc s,
      held { n with client := n.client.pollCoherence valLen op } vc s = n.held vc s + if carries vc s op.sig then 1 else 0 := by
  refine ⟨⟨h.ring.poll hp hk, h.size, h.room, h.seen⟩, fun vc s => ?_⟩
  have hpolled : (n.client.pollCoherence valLen op).polled = n.client.polled ++ [op.sig] :=
    Client.polled_pollCoherence (h.ring.order.1.trans h.ring.order.2)
  have hwait : waiting { n with client := n.client.pollCoherence valLen op } vc s = n.waiting vc s := by cases vc <;> rfl
  simp only [held, hpolled, hwait, List.countP_append, List.countP_singleton]
  omega

theorem Sound.serveUpdate (h : n.Sound) {resp : MicaResp} (hlt : n.client.served < n.client.updateOpsI)
    (hs : op.sig = (n.client.updateOps n.client.served).sig) :
    Sound { n with client := n.client.serve op resp } ∧ ∀ vc s,
      held { n with client := n.client.serve op resp } vc s = n.held vc s := by
  refine ⟨⟨h.ring.serve hlt hs, h.size, h.room, h.seen⟩, fun vc s => ?_⟩
  have hpolled : (n.client.serve op resp).polled = n.client.polled := Client.polled_serve hs
  have hwait : waiting { n with client := n.client.serve op resp } vc s = n.waiting vc s := by cases vc <;> rfl
  simp only [held, hpolled, hwait]

/-- Where the bookkeeping puts an update or acknowledgement that it takes. -/
theorem Sound.keepUpdate (h : n.Sound) (hlt : n.client.kept < n.client.served)
    (hok : n.updatesAndAcksBookkeeping valLen = .ok n') : n'.Sound ∧ ∀ vc s, n'.held vc s = n.held vc s := by
  obtain ⟨c, hc, he⟩ := bind_eq_ok.1 hok
  cases he
  refine ⟨⟨h.ring.keep hlt hc, h.size, h.room, h.seen⟩, fun vc s => ?_⟩
  have hcons := Client.polled_bookkeeping (hlt.trans_le h.ring.order.2) hc
  have hkind := h.ring.kind
  have hroom := h.ring.room
  rw [hcons] at hkind hroom
  obtain ⟨hfirst, -⟩ := List.forall_mem_cons.1 hkind
  rw [List.countP_cons] at hroom
  simp only [held, hcons, List.countP_cons]
  rcases Client.bookkeeping_cases hc with ⟨hor, rfl⟩ | ⟨⟨hu, hl⟩, rfl⟩
  · have hwait (t) : waiting { n with client := { n.client with kept := n.client.kept + 1 }, cohMessageCount := t } vc s =
        n.waiting vc s := by cases vc <;> rfl
    rw [hwait]
    by_cases hu : (n.client.updateOps n.client.kept).opcode = .upd
    · rw [if_pos hu, bump_apply, ite_carries (by rw [hu]; rfl)]
      omega
    · have hl := hor.resolve_left hu
      rw [if_neg hu, if_neg hl, bump_apply, ite_carries (congrArg Vc.ofOpcode (hfirst.resolve_left hu))]
      omega
  · have hack : (n.client.updateOps n.client.kept).opcode = .ack := hfirst.resolve_left hu
    have hlt' : n.client.ackSize < bcastToCacheBatch := by
      rw [show Client.isAck (n.client.updateOps n.client.kept).sig = true by simp [Client.isAck, CacheOp.sig, hack], if_pos rfl] at hroom
      omega
    rw [if_neg hu, if_pos hl, ite_carries (by rw [hack]; rfl)]
    cases vc with
    | ack =>
      have hq := Client.queued_push h.ring hlt' { n.client.updateOps n.client.kept with valLen := valLen }
      simp only [waiting, hq, List.count_append, List.count_singleton, beq_iff_eq, true_and]
      omega
    | inv => rfl
    | upd => rfl

theorem Sound.nextUpdates (h : n.Sound) (he : n.client.kept = n.client.updateOpsI) :
    Sound { n with client := { n.client with updateOpsI := 0, served := 0, kept := 0, ackOpsI := 0 } } ∧ ∀ vc s,
      held { n with client := { n.client with updateOpsI := 0, served := 0, kept := 0, ackOpsI := 0 } } vc s = n.held vc s := by
  refine ⟨⟨h.ring.next, h.size, h.room, h.seen⟩, fun vc s => ?_⟩
  have hpolled : n.client.polled = [] := by simp [Client.polled, he]
  have hwait : waiting { n with client := { n.client with updateOpsI := 0, served := 0, kept := 0, ackOpsI := 0 } } vc s =
      n.waiting vc s := by cases vc <;> rfl
  simp only [held, hwait, hpolled]
  rfl

theorem Sound.forgeUpd {N : ℕ} {m : Fin N} (h : n.Sound) (hpos : 0 < n.client.ackSize) :
    (n.forgeUpd m).Sound ∧ ∀ vc s, (n.forgeUpd m).held vc s = n.held vc s := by
  refine ⟨⟨h.ring.forge hpos, h.size, h.room, h.seen⟩, fun vc s => ?_⟩
  have hpolled : (n.forgeUpd m).client.polled = n.client.polled := rfl
  have hcount : (n.forgeUpd m).cohMessageCount vc s = _ := bump_apply _ _ _ _ _
  simp only [held, hpolled, hcount]
  cases vc with
  | ack =>
    have hq := Client.queued_pop (m := m) h.ring hpos
    have hrest : (n.forgeUpd m).client.queued = (n.client.forgeUpd m).queued := rfl
    simp only [waiting, hrest, hq, List.count_cons, beq_iff_eq, true_and]
    omega
  | inv => rfl
  | upd => rfl

/-! ### Invalidations -/

theorem Sound.pollInv (h : n.Sound) (hk : op.opcode = .inv) (hs : n.invServed = [])
    (hfull : n.invSize + n.invOps.length ≠ bcastToCacheBatch) :
    Sound { n with invOps := n.invOps ++ [op] } ∧ ∀ vc s,
      held { n with invOps := n.invOps ++ [op] } vc s = n.held vc s + if carries vc s op.sig then 1 else 0 := by
  have hroom := h.room
  rw [hs, List.length_nil, Nat.add_zero] at hroom
  refine ⟨⟨h.ring, h.size, ?_, h.seen⟩, fun vc s => ?_⟩
  · simp only [hs, List.length_append, List.length_cons, List.length_nil]
    omega
  · rw [ite_carries (by rw [hk]; rfl)]
    cases vc with
    | ack => simp [held, waiting]
    | upd => simp [held, waiting]
    | inv =>
      have hsenders : invSenders { n with invOps := n.invOps ++ [op] } = n.invSenders ++ [op.keyMeta.cid.toNat] := by
        simp [invSenders]
      have hmarked : marked { n with invOps := n.invOps ++ [op] } s = n.marked s := rfl
      simp only [held, waiting, hsenders, hmarked, List.count_append, List.count_singleton, beq_iff_eq, true_and]
      omega

theorem Sound.serveInv (h : n.Sound) {op' : CacheOp} {type : RespType} {l : List CacheOp} (hl : n.invOps = op :: l)
    (hcid : op'.keyMeta.cid = op.keyMeta.cid) :
    Sound { n with invOps := l, invServed := n.invServed ++ [(op', type)] } ∧ ∀ vc s,
      held { n with invOps := l, invServed := n.invServed ++ [(op', type)] } vc s = n.held vc s := by
  have hroom := h.room
  rw [hl, List.length_cons] at hroom
  refine ⟨⟨h.ring, h.size, ?_, h.seen⟩, fun vc s => ?_⟩
  · simp only [List.length_append, List.length_cons, List.length_nil]
    omega
  · cases vc with
    | ack => rfl
    | upd => rfl
    | inv =>
      have hsenders : invSenders { n with invOps := l, invServed := n.invServed ++ [(op', type)] } = n.invSenders := by
        simp [invSenders, hl, hcid]
      have hmarked : marked { n with invOps := l, invServed := n.invServed ++ [(op', type)] } s = n.marked s := rfl
      simp only [held, waiting, hsenders, hmarked]

/-- While not all slots are marked the search finds one that is not. -/
theorem exists_invSlot (h : n.Sound) (hlt : n.invSize < bcastToCacheBatch) : ∃ i, (List.range bcastToCacheBatch).find?
    (fun i => (n.invToSendOps ((n.invPushPtr + i) % bcastToCacheBatch)).opcode ≠ .brc) = some i := by
  refine Option.ne_none_iff_exists'.1 fun hnone => ?_
  have hall : ∀ j < bcastToCacheBatch, (n.invToSendOps j).opcode = .brc := fun j hj => by
    -- the search goes once round the buffer
    have hmem : (j + bcastToCacheBatch - n.invPushPtr % bcastToCacheBatch) % bcastToCacheBatch ∈ List.range bcastToCacheBatch :=
      List.mem_range.2 (Nat.mod_lt _ (by decide))
    have hidx : (n.invPushPtr + (j + bcastToCacheBatch - n.invPushPtr % bcastToCacheBatch) % bcastToCacheBatch) %
        bcastToCacheBatch = j := by
      unfold bcastToCacheBatch at *
      omega
    simpa [hidx] using List.find?_eq_none.1 hnone _ hmem
  rw [h.size, slotsWith, Finset.filter_true_of_mem fun j hj => hall j (Finset.mem_range.1 hj), Finset.card_range] at hlt
  exact lt_irrefl _ hlt

theorem invSlot_free (h : n.Sound) (hlt : n.invSize < bcastToCacheBatch) :
    n.invSlot < bcastToCacheBatch ∧ (n.invToSendOps n.invSlot).opcode ≠ .brc := by
  obtain ⟨i, hi⟩ := exists_invSlot h hlt
  unfold invSlot
  rw [hi]
  exact ⟨Nat.mod_lt _ (by decide), by simpa using List.find?_some hi⟩

/-- A successful INV goes to a slot that is free; the room of another one is counted. -/
theorem Sound.invsBookkeeping (h : n.Sound) (hlt : n.invSize + n.invOps.length + n.invServed.length < bcastToCacheBatch)
    (op : CacheOp) (type : RespType) :
    (n.invsBookkeeping op type).Sound ∧ ∀ vc s, (n.invsBookkeeping op type).held vc s =
      n.held vc s + if vc = .inv ∧ op.keyMeta.cid.toNat = s then 1 else 0 := by
  unfold Node.invsBookkeeping
  split
  · refine ⟨⟨h.ring, h.size, h.room, h.seen⟩, fun vc s => ?_⟩
    show n.client.polled.countP (carries vc s) + n.waiting vc s + bump _ _ _ vc s = _
    rw [bump_apply, ← Nat.add_assoc]
    rfl
  · obtain ⟨hslot, hfree⟩ := invSlot_free h (by omega)
    refine ⟨⟨h.ring, ?_, ?_, h.seen⟩, fun vc s => ?_⟩
    · have hcard := slotsWith_update (fun x : CacheOp => x.opcode = .brc) n.invToSendOps hslot { op with opcode := .brc }
      rw [if_neg hfree, if_pos rfl, ← h.size, Nat.add_zero] at hcard
      exact hcard.symm
    · simp only
      omega
    · cases vc with
      | ack => rfl
      | upd => rfl
      | inv =>
        have hcard := slotsWith_update (fun x : CacheOp => x.opcode = .brc ∧ x.keyMeta.cid.toNat = s) n.invToSendOps hslot
          { op with opcode := .brc }
        rw [if_neg fun hb => hfree hb.1, Nat.add_zero] at hcard
        simp only [true_and] at hcard
        simp only [held, waiting, marked, hcard, true_and]
        show n.client.polled.countP _ + (n.invSenders.count s + _) + n.cohMessageCount .inv s = _
        omega

theorem Sound.keepInv (h : n.Sound) {type : RespType} {l} (hl : n.invServed = (op, type) :: l) :
    (Node.invsBookkeeping { n with invServed := l } op type).Sound ∧ ∀ vc s,
      (Node.invsBookkeeping { n with invServed := l } op type).held vc s = n.held vc s := by
  have hroom := h.room
  rw [hl, List.length_cons] at hroom
  have hs : Sound { n with invServed := l } := ⟨h.ring, h.size, by simp only; omega, h.seen⟩
  obtain ⟨hsound, hheld⟩ := hs.invsBookkeeping (by simp only; omega) op type
  refine ⟨hsound, fun vc s => ?_⟩
  rw [hheld]
  cases vc with
  | ack => rfl
  | upd => rfl
  | inv =>
    have hsenders : n.invSenders = op.keyMeta.cid.toNat :: invSenders { n with invServed := l } := by simp [invSenders, hl]
    have hmarked : marked { n with invServed := l } s = n.marked s := rfl
    simp only [held, waiting, hsenders, hmarked, List.count_cons, beq_iff_eq, true_and]
    omega

/-- The slot of an INV is free once its ACK is sent. -/
theorem Sound.sendAck {N : ℕ} {m : Fin N} {i : ℕ} (h : n.Sound) (hi : i < bcastToCacheBatch)
    (hb : (n.invToSendOps i).opcode = .brc) : (n.sendAck m i).Sound ∧ ∀ vc s, (n.sendAck m i).held vc s = n.held vc s := by
  have hroom := h.room
  have hsent : ((outgoing m .ack (n.invToSendOps i)).opcode = .brc) = False := by simp [outgoing]
  have hsize := slotsWith_update (fun x : CacheOp => x.opcode = .brc) n.invToSendOps hi (outgoing m .ack (n.invToSendOps i))
  simp only [hb, hsent, if_true, if_false, Nat.add_zero, ← h.size] at hsize
  refine ⟨⟨h.ring, ?_, ?_, h.seen⟩, fun vc s => ?_⟩
  · show n.invSize - 1 = _
    exact Nat.sub_eq_of_eq_add hsize.symm
  · show n.invSize - 1 + n.invOps.length + n.invServed.length ≤ _
    omega
  · show n.client.polled.countP (carries vc s) + _ + bump _ _ _ vc s = _
    rw [bump_apply]
    cases vc with
    | ack => rfl
    | upd => rfl
    | inv =>
      have hcard := slotsWith_update (fun x : CacheOp => x.opcode = .brc ∧ x.keyMeta.cid.toNat = s) n.invToSendOps hi
        (outgoing m .ack (n.invToSendOps i))
      simp only [hb, hsent, false_and, true_and, if_false, Nat.add_zero] at hcard
      have hm : (n.sendAck m i).marked s + (if (n.invToSendOps i).keyMeta.cid.toNat = s then 1 else 0) = n.marked s := hcard
      simp only [waiting, true_and]
      show _ + (n.invSenders.count s + (n.sendAck m i).marked s) + _ = _ + (n.invSenders.count s + n.marked s) + _
      omega

theorem spendAll_held {N : ℕ} (n : Node) (v vc : Vc) (s : ℕ) : (n.spendAll N v).held vc s = n.held vc s := by
  cases vc <;> rfl

theorem receiveCredits_held {N : ℕ} (n : Node) (imm : ℕ) (vc : Vc) (s : ℕ) :
    (n.receiveCredits N imm).held vc s = n.held vc s := by
  cases vc <;> rfl

/-- What was counted is no longer held. -/
theorem Sound.spendAll (h : n.Sound) (N : ℕ) (v : Vc) :
    (n.spendAll N v).Sound ∧ ∀ vc s, (n.spendAll N v).held vc s = n.held vc s :=
  ⟨⟨h.ring, h.size, h.room, h.seen⟩, n.spendAll_held v⟩

theorem Sound.receiveCredits (h : n.Sound) (N imm : ℕ) :
    (n.receiveCredits N imm).Sound ∧ ∀ vc s, (n.receiveCredits N imm).held vc s = n.held vc s :=
  ⟨⟨h.ring, h.size, h.room, h.seen⟩, n.receiveCredits_held imm⟩

theorem sendCredits_held (n : Node) (x : Forged) (vc : Vc) (s : ℕ) :
    (n.sendCredits x).held vc s + n.cohMessageCount vc s = n.held vc s := by
  have hwait : (n.sendCredits x).waiting vc s = n.waiting vc s := by cases vc <;> rfl
  simp only [held, hwait]
  rfl

end Node

end Lin

end CcKvs
