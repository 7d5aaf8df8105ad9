/-
Nothing is lost in the queues of a linearizable client. One lemma for each call
of the loop says what it does to the pool and the ring; a run is the sum of
them: an INV that succeeded is in the pool until its ACK is sent, and the
writes whose last ACK is in go through the ring first in, first out.

The assertion on the slot that the ring fills next is a different matter. It
holds in every run exactly if the memory that `malloc` returned has the opcode
`CACHE_OP_ACK` in no slot of the ring.
-/
import CcKvs.Lin.Queues

namespace CcKvs.Lin

open Function

namespace Node

variable {N : ℕ} {m : Fin N} {valLen : UInt8} {n n' : Node} {op : CacheOp}

/-- The INVs in the pool that came from a machine, about a write. -/
def awaits (n : Node) (x : ℕ × UInt64 × UInt32) : ℕ := slotsWith (fun op => op.opcode = .brc ∧ op.origin = x) n.invToSendOps

/-- The slots of the ring that are not in use do not look like acknowledgements. -/
def Free (n : Node) : Prop :=
  ∀ i, n.client.ackSize ≤ i → i < bcastToCacheBatch →
    (n.client.ackBcastOps ((n.client.ackPopPtr + i) % bcastToCacheBatch)).opcode ≠ .ack

/-- Pool and ring are as before. -/
structure SameQueues (n n' : Node) : Prop where
  ackBcastOps : n'.client.ackBcastOps = n.client.ackBcastOps
  ackPopPtr : n'.client.ackPopPtr = n.client.ackPopPtr
  ackSize : n'.client.ackSize = n.client.ackSize
  invToSendOps : n'.invToSendOps = n.invToSendOps

theorem SameQueues.refl (n : Node) : SameQueues n n := ⟨rfl, rfl, rfl, rfl⟩

theorem SameQueues.after {n₁ n₂ n₃ : Node} (h : SameQueues n₂ n₃) (h' : SameQueues n₁ n₂) : SameQueues n₁ n₃ :=
  ⟨h.ackBcastOps.trans h'.ackBcastOps, h.ackPopPtr.trans h'.ackPopPtr, h.ackSize.trans h'.ackSize,
    h.invToSendOps.trans h'.invToSendOps⟩

theorem SameQueues.pending (h : SameQueues n n') : n'.client.pending = n.client.pending := by
  simp only [Client.pending, h.ackBcastOps, h.ackPopPtr, h.ackSize]

theorem SameQueues.awaits (h : SameQueues n n') (x : ℕ × UInt64 × UInt32) : n'.awaits x = n.awaits x := by
  rw [Node.awaits, Node.awaits, h.invToSendOps]

theorem SameQueues.free (h : SameQueues n n') (hf : n.Free) : n'.Free := by
  intro i hi hlt
  rw [h.ackBcastOps, h.ackPopPtr]
  exact hf i (h.ackSize ▸ hi) hlt

theorem Free.of_client (hf : n.Free) (hc : n'.client = n.client) : n'.Free := by
  intro i
  rw [hc]
  exact hf i

/-! ## Polling -/

theorem Sound.fresh (h : n.Sound) : n.fresh.Sound := by
  have hroom := h.room
  exact ⟨h.ring.next, h.size, by simp only [Node.fresh, List.length_nil]; omega, h.seen⟩

/-- Polling leaves room for what is polled. -/
theorem pollCoherenceLin_spec (valLen : UInt8) {reqs : List CacheOp} {polled : ℕ} (h : n.Sound) (h0 : n.client.served = 0)
    (hs : n.invServed = []) (hle : n.client.updateOpsI ≤ polled) (hreqs : ∀ req ∈ reqs, CoherenceMessage N req) :
    (n.pollCoherenceLin valLen polled reqs).Sound ∧ (n.pollCoherenceLin valLen polled reqs).client.served = 0 ∧
      (n.pollCoherenceLin valLen polled reqs).client.kept = n.client.kept ∧
      (n.pollCoherenceLin valLen polled reqs).invServed = [] ∧ SameQueues n (n.pollCoherenceLin valLen polled reqs) := by
  induction reqs generalizing n polled with
  | nil => exact ⟨h, h0, rfl, hs, .refl n⟩
  | cons req reqs ih =>
    have hreq := hreqs req (by simp)
    have hrest : ∀ r ∈ reqs, CoherenceMessage N r := fun r hr => hreqs r (by simp [hr])
    rw [pollCoherenceLin]
    split
    · next hlt =>
      split
      · next hinv =>
        split
        · exact ⟨h, h0, rfl, hs, .refl n⟩
        · next hfull =>
          obtain ⟨hsound, hserved, hkept, hinvs, hsame⟩ := ih (h.pollInv hinv hs hfull).1 h0 hs (hle.trans (Nat.le_succ _)) hrest
          exact ⟨hsound, hserved, hkept, hinvs, hsame.after ⟨rfl, rfl, rfl, rfl⟩⟩
      · next hinv =>
        split
        · exact ⟨h, h0, rfl, hs, .refl n⟩
        · next hfull =>
          have hkind : req.opcode = .upd ∨ req.opcode = .ack := by
            rcases hreq.opcode with ho | ho | ho
            · exact .inl ho
            · exact .inr ho
            · exact absurd ho hinv
          obtain ⟨hsound, hserved, hkept, hinvs, hsame⟩ :=
            ih (h.pollUpdate ⟨h0, by omega, hfull⟩ hkind).1 h0 hs (Nat.succ_le_succ hle) hrest
          exact ⟨hsound, hserved, hkept, hinvs, hsame.after ⟨rfl, rfl, rfl, rfl⟩⟩
    · exact ⟨h, h0, rfl, hs, .refl n⟩

/-! ## Updates and acknowledgements -/

theorem serveUpdates_spec (resps : ℕ → MicaResp) {k : ℕ} (h : n.Sound) (hk : n.client.served + k ≤ n.client.updateOpsI) :
    (n.serveUpdates resps k).Sound ∧ (n.serveUpdates resps k).client.served = n.client.served + k ∧
      (n.serveUpdates resps k).client.kept = n.client.kept ∧ (n.serveUpdates resps k).invServed = n.invServed ∧
      SameQueues n (n.serveUpdates resps k) := by
  induction k generalizing n with
  | zero => exact ⟨h, rfl, rfl, rfl, .refl n⟩
  | succ k ih =>
    have hserve : Sound { n with client := n.client.serve (n.client.updateOps n.client.served) (resps n.client.served) } :=
      (h.serveUpdate (by omega : n.client.served < n.client.updateOpsI) rfl).1
    obtain ⟨hsound, hserved, hkept, hinvs, hsame⟩ := ih hserve (by simp only [Client.serve]; omega)
    refine ⟨hsound, ?_, hkept, hinvs, hsame.after ⟨rfl, rfl, rfl, rfl⟩⟩
    rw [serveUpdates, hserved]
    simp only [Client.serve]
    omega

/-- A round puts a last acknowledgement at the end of the ring. -/
theorem keepUpdate_spec (h : n.Sound) (hlt : n.client.kept < n.client.served)
    (hok : n.updatesAndAcksBookkeeping valLen = .ok n') :
    n'.Sound ∧ n'.client.served = n.client.served ∧ n'.client.kept = n.client.kept + 1 ∧ n'.invServed = n.invServed ∧
      n'.client.pending.map CacheOp.subject = n.client.pending.map CacheOp.subject ++ n.completes.map CacheOp.subject ∧
      n'.invToSendOps = n.invToSendOps := by
  refine ⟨(h.keepUpdate hlt hok).1, ?_⟩
  have hroom := h.ring.room
  obtain ⟨c, hc, he⟩ := bind_eq_ok.1 hok
  cases he
  have hcons := Client.polled_bookkeeping (hlt.trans_le h.ring.order.2) hc
  have hkind := h.ring.kind
  rw [hcons] at hkind hroom
  obtain ⟨hfirst, -⟩ := List.forall_mem_cons.1 hkind
  rw [List.countP_cons] at hroom
  rcases Client.bookkeeping_cases hc with ⟨hor, rfl⟩ | ⟨⟨hu, hl⟩, rfl⟩
  · have hnone : n.completes = [] := if_neg fun hb => hor.elim hb.1 fun hne => hne hb.2
    rw [hnone]
    exact ⟨rfl, rfl, rfl, (List.append_nil _).symm, rfl⟩
  · have hone : n.completes = [n.client.updateOps n.client.kept] := if_pos ⟨hu, hl⟩
    have hack : Client.isAck (n.client.updateOps n.client.kept).sig = true := by
      simpa [Client.isAck] using hfirst.resolve_left hu
    rw [hack, if_pos rfl] at hroom
    refine ⟨rfl, rfl, rfl, ?_, rfl⟩
    show (Client.pending _).map _ = _
    rw [Client.pending_push h.ring (by omega), List.map_append, hone]
    rfl

theorem keepUpdates_spec {k : ℕ} {l : List CacheOp} (h : n.Sound) (hk : n.client.kept + k ≤ n.client.served)
    (hok : n.keepUpdates valLen k = .ok (n', l)) :
    n'.Sound ∧ n'.invServed = n.invServed ∧
      n'.client.pending.map CacheOp.subject = n.client.pending.map CacheOp.subject ++ l.map CacheOp.subject ∧
      n'.invToSendOps = n.invToSendOps := by
  induction k generalizing n l with
  | zero =>
    cases hok
    exact ⟨h, rfl, (List.append_nil _).symm, rfl⟩
  | succ k ih =>
    obtain ⟨n₁, h₁, hok⟩ := bind_eq_ok.1 hok
    obtain ⟨⟨n₂, l₂⟩, h₂, hok⟩ := bind_eq_ok.1 hok
    cases hok
    obtain ⟨hsound, hserved, hkept, hinvs, hpending, hpool⟩ := keepUpdate_spec h (by omega) h₁
    obtain ⟨hsound', hinvs', hpending', hpool'⟩ := ih hsound (by omega) h₂
    refine ⟨hsound', hinvs'.trans hinvs, ?_, hpool'.trans hpool⟩
    rw [hpending', hpending, List.map_append, List.append_assoc]

/-! ## The assertion -/

/-- While the slots not in use do not look like acknowledgements, a round returns. -/
theorem keepUpdate_free (valLen : UInt8) (h : n.Sound) (hf : n.Free) (hlt : n.client.kept < n.client.served) :
    ∃ n', n.updatesAndAcksBookkeeping valLen = .ok n' ∧ n'.Free := by
  have hbook : ∃ c, n.client.bookkeeping valLen = .ok c := by
    unfold Client.bookkeeping
    dsimp only
    split
    · exact ⟨_, rfl⟩
    · next hu =>
      split
      · -- the ring has room, so its next slot is one of those that are not in use
        have hroom := h.ring.room
        rw [Client.polled_cons (hlt.trans_le h.ring.order.2), List.countP_cons] at hroom
        have hkind := h.ring.kind _ (Client.polled_cons (hlt.trans_le h.ring.order.2) ▸ List.mem_cons_self)
        have hack : Client.isAck (n.client.updateOps n.client.kept).sig = true := by
          simpa [Client.isAck] using hkind.resolve_left hu
        rw [hack, if_pos rfl] at hroom
        have hslot := hf n.client.ackSize (Nat.le_refl _) (by omega)
        rw [← h.ring.pushPtr] at hslot
        rw [if_neg hslot]
        exact ⟨_, rfl⟩
      · exact ⟨_, rfl⟩
  obtain ⟨c, hc⟩ := hbook
  refine ⟨_, bind_eq_ok.2 ⟨c, hc, rfl⟩, ?_⟩
  have hpop := h.ring.popPtr
  have hpush := h.ring.pushPtr
  rcases Client.bookkeeping_cases hc with ⟨-, rfl⟩ | ⟨-, rfl⟩
  · exact hf
  · intro i hi hlt'
    have hne : (n.client.ackPopPtr + i) % bcastToCacheBatch ≠ n.client.ackPushPtr := by
      simp only at hi
      rw [hpush]
      unfold bcastToCacheBatch at *
      omega
    show (update n.client.ackBcastOps n.client.ackPushPtr _ _).opcode ≠ _
    rw [update_of_ne hne]
    exact hf i (by simp only at hi; omega) hlt'

theorem keepUpdates_free {k : ℕ} (h : n.Sound) (hf : n.Free) (hk : n.client.kept + k ≤ n.client.served) :
    ∃ n' l, n.keepUpdates valLen k = .ok (n', l) ∧ n'.Free := by
  induction k generalizing n with
  | zero => exact ⟨n, [], rfl, hf⟩
  | succ k ih =>
    obtain ⟨n₁, h₁, hf₁⟩ := keepUpdate_free valLen h hf (by omega)
    obtain ⟨hsound, hserved, hkept, -⟩ := keepUpdate_spec h (by omega) h₁
    obtain ⟨n₂, l₂, h₂, hf₂⟩ := ih hsound hf₁ (by omega)
    exact ⟨n₂, _, bind_eq_ok.2 ⟨n₁, h₁, bind_eq_ok.2 ⟨_, h₂, rfl⟩⟩, hf₂⟩

theorem updates_spec {resps : ℕ → MicaResp} {l : List CacheOp} (h : n.Sound) (h0 : n.client.served = 0 ∧ n.client.kept = 0)
    (hok : n.updates valLen resps = .ok (n', l)) :
    n'.Sound ∧ n'.invServed = n.invServed ∧
      n'.client.pending.map CacheOp.subject = n.client.pending.map CacheOp.subject ++ l.map CacheOp.subject ∧
      ∀ x, n'.awaits x = n.awaits x := by
  obtain ⟨hsound₁, hserved, hkept, hinvs₁, hsame⟩ :=
    serveUpdates_spec resps (k := n.client.updateOpsI) h (by rw [h0.1, Nat.zero_add])
  obtain ⟨hsound, hinvs, hpending, hpool⟩ := keepUpdates_spec hsound₁ (by omega) hok
  refine ⟨hsound, hinvs.trans hinvs₁, by rw [hpending, hsame.pending], fun x => ?_⟩
  rw [← hsame.awaits x, awaits, awaits, hpool]

theorem updates_free (valLen : UInt8) (resps : ℕ → MicaResp) (h : n.Sound) (h0 : n.client.served = 0 ∧ n.client.kept = 0)
    (hf : n.Free) : ∃ n' l, n.updates valLen resps = .ok (n', l) ∧ n'.Free := by
  obtain ⟨hsound, hserved, hkept, -, hsame⟩ :=
    serveUpdates_spec resps (k := n.client.updateOpsI) h (by rw [h0.1, Nat.zero_add])
  exact keepUpdates_free hsound (hsame.free hf) (by omega)

/-- The assertion looks at the slots that the last acknowledgements of a batch go to. -/
theorem keepUpdates_asserts {k : ℕ} {l : List CacheOp} (hk : k ≤ bcastToCacheBatch) (hpush : n.client.ackPushPtr < bcastToCacheBatch)
    (hlast : ∀ j, n.client.kept ≤ j → j < n.client.kept + k →
      (n.client.updateOps j).opcode ≠ .upd ∧ (n.client.updateResp j).type = .lastAckSuccess)
    (hok : n.keepUpdates valLen k = .ok (n', l)) (j : ℕ) (hj : j < k) :
    (n.client.ackBcastOps ((n.client.ackPushPtr + j) % bcastToCacheBatch)).opcode ≠ .ack := by
  induction k generalizing n l j with
  | zero => exact absurd hj (Nat.not_lt_zero j)
  | succ k ih =>
    obtain ⟨hu, hl⟩ := hlast n.client.kept le_rfl (by omega)
    obtain ⟨n₁, h₁, hrest⟩ := bind_eq_ok.1 hok
    obtain ⟨⟨n₂, l₂⟩, h₂, hn⟩ := bind_eq_ok.1 hrest
    obtain ⟨c, hc, he⟩ := bind_eq_ok.1 h₁
    have hclient : n₁.client = c := by rw [← Except.ok.inj he]
    cases hn
    have hfirst : (n.client.ackBcastOps n.client.ackPushPtr).opcode ≠ .ack := by
      intro hack
      rw [Client.bookkeeping, if_neg hu, if_pos hl, if_pos hack] at hc
      cases hc
    rcases Client.bookkeeping_cases hc with ⟨hor, -⟩ | ⟨-, rfl⟩
    · exact absurd hl (hor.resolve_left hu)
    · rcases j with _ | j
      · rwa [Nat.add_zero, Nat.mod_eq_of_lt hpush]
      · -- the slots before this one are not the same slot, so it is as it was
        have hslot := ih (by omega) (by rw [hclient]; exact Nat.mod_lt _ (by decide)) (fun i hi hi' => by
          rw [hclient] at hi hi' ⊢
          exact hlast i (Nat.le_of_succ_le hi) (by simp only at hi'; omega)) h₂ j (by omega)
        rw [hclient] at hslot
        have hindex : ((n.client.ackPushPtr + 1) % bcastToCacheBatch + j) % bcastToCacheBatch =
            (n.client.ackPushPtr + (j + 1)) % bcastToCacheBatch := by
          rw [Nat.mod_add_mod, Nat.add_assoc, Nat.add_comm 1]
        have hne : (n.client.ackPushPtr + (j + 1)) % bcastToCacheBatch ≠ n.client.ackPushPtr := by
          unfold bcastToCacheBatch at *
          omega
        rw [hindex] at hslot
        exact update_of_ne hne (_ : CacheOp) n.client.ackBcastOps ▸ hslot

theorem serveUpdates_client (resps : ℕ → MicaResp) (k : ℕ) :
    (n.serveUpdates resps k).client.updateOps = n.client.updateOps ∧
      (n.serveUpdates resps k).client.ackPushPtr = n.client.ackPushPtr ∧
      ∀ j, (n.serveUpdates resps k).client.updateResp j =
        if n.client.served ≤ j ∧ j < n.client.served + k then resps j else n.client.updateResp j := by
  induction k generalizing n with
  | zero => exact ⟨rfl, rfl, fun j => (if_neg (by omega)).symm⟩
  | succ k ih =>
    obtain ⟨hops, hpush, hresp⟩ :=
      ih (n := { n with client := n.client.serve (n.client.updateOps n.client.served) (resps n.client.served) })
    refine ⟨hops.trans (update_eq_self _ _), hpush, fun j => ?_⟩
    rw [serveUpdates, hresp]
    simp only [Client.serve, update_apply]
    grind

theorem updates_asserts {resps : ℕ → MicaResp} {l : List CacheOp} (h : n.Sound) (h0 : n.client.served = 0 ∧ n.client.kept = 0)
    (hle : n.client.updateOpsI ≤ bcastToCacheBatch) (hops : ∀ j < n.client.updateOpsI, (n.client.updateOps j).opcode ≠ .upd)
    (hresps : ∀ j, (resps j).type = .lastAckSuccess) (hok : n.updates valLen resps = .ok (n', l)) (j : ℕ)
    (hj : j < n.client.updateOpsI) :
    (n.client.ackBcastOps ((n.client.ackPushPtr + j) % bcastToCacheBatch)).opcode ≠ .ack := by
  obtain ⟨hops', hpush, hresp⟩ := serveUpdates_client (n := n) resps n.client.updateOpsI
  obtain ⟨hsound, -, hkept, -, hsame⟩ :=
    serveUpdates_spec resps (k := n.client.updateOpsI) h (by rw [h0.1, Nat.zero_add])
  have hptr : (n.serveUpdates resps n.client.updateOpsI).client.ackPushPtr < bcastToCacheBatch := by
    rw [hsound.ring.pushPtr]
    exact Nat.mod_lt _ (by decide)
  have hslot := keepUpdates_asserts hle hptr (fun i _ hi => ?_) hok j hj
  · rwa [hsame.ackBcastOps, hpush] at hslot
  · rw [hkept, h0.2, Nat.zero_add] at hi
    rw [hops', hresp, if_pos (by omega)]
    exact ⟨hops i hi, hresps i⟩

/-- A batch of acknowledgements from an empty queue is polled as a whole. -/
theorem pollCoherenceLin_acks (valLen : UInt8) {req : CacheOp} {p k : ℕ} (hreq : req.opcode = .ack) (hsize : n.client.ackSize = 0)
    (hp : n.client.updateOpsI = p) (hacks : n.client.ackOpsI = p) (hk : p + k ≤ bcastToCacheBatch)
    (hops : ∀ j < p, (n.client.updateOps j).opcode = .ack) :
    (n.pollCoherenceLin valLen p (List.replicate k req)).client.updateOpsI = p + k ∧
      ∀ j < p + k, ((n.pollCoherenceLin valLen p (List.replicate k req)).client.updateOps j).opcode = .ack := by
  induction k generalizing n p with
  | zero => exact ⟨hp, hops⟩
  | succ k ih =>
    have hinv : req.opcode ≠ .inv := by rw [hreq]; decide
    have hupd : req.opcode ≠ .upd := by rw [hreq]; decide
    rw [List.replicate_succ, pollCoherenceLin, if_pos (by omega), if_neg hinv, if_neg (by omega), Nat.add_comm k,
      ← Nat.add_assoc]
    refine ih (n := { n with client := n.client.pollCoherence valLen req }) hsize (congrArg (· + 1) hp) ?_ (by omega)
      fun j hj => ?_
    · simp only [Client.pollCoherence, if_pos hreq, hacks]
    · simp only [Client.pollCoherence, update_apply, copyReq, if_neg hupd]
      split
      · exact hreq
      · exact hops j (by omega)

/-! ## Invalidations -/

/-- A slot that is written over. -/
theorem awaits_update {i : ℕ} (hi : i < bcastToCacheBatch) (op : CacheOp) (x : ℕ × UInt64 × UInt32) :
    slotsWith (fun op => op.opcode = .brc ∧ op.origin = x) (update n.invToSendOps i op) +
        (if (n.invToSendOps i).opcode = .brc ∧ (n.invToSendOps i).origin = x then 1 else 0) =
      n.awaits x + if op.opcode = .brc ∧ op.origin = x then 1 else 0 :=
  slotsWith_update (fun op => op.opcode = .brc ∧ op.origin = x) n.invToSendOps hi op

/-- A round of the bookkeeping puts an INV that succeeded into a slot of its own. -/
theorem keepInv_spec {type : RespType} {l : List (CacheOp × RespType)} (h : n.Sound) (hl : n.invServed = (op, type) :: l) :
    (Node.invsBookkeeping { n with invServed := l } op type).Sound ∧
      (Node.invsBookkeeping { n with invServed := l } op type).client = n.client ∧
      (Node.invsBookkeeping { n with invServed := l } op type).invServed = l ∧
      (type = .invSuccess → n.invBackPressureWrong = false) ∧
      ∀ x, (Node.invsBookkeeping { n with invServed := l } op type).awaits x =
        n.awaits x + if type = .invSuccess ∧ op.origin = x then 1 else 0 := by
  refine ⟨(h.keepInv hl).1, ?_⟩
  have hroom := h.room
  rw [hl, List.length_cons] at hroom
  have hs : Sound { n with invServed := l } := ⟨h.ring, h.size, by simp only; omega, h.seen⟩
  obtain ⟨hslot, hfree⟩ := invSlot_free hs (by simp only; omega)
  unfold Node.invsBookkeeping
  split
  · next hne =>
    refine ⟨rfl, rfl, fun ht => absurd ht hne, fun x => ?_⟩
    rw [if_neg fun hb => hne hb.1, Nat.add_zero]
    exact SameQueues.awaits ⟨rfl, rfl, rfl, rfl⟩ x
  · next ht =>
    refine ⟨rfl, rfl, fun _ => ?_, fun x => ?_⟩
    · obtain ⟨i, hi⟩ := exists_invSlot h (by omega)
      exact congrArg Option.isNone hi
    · have hcount := awaits_update (n := n) hslot { op with opcode := .brc } x
      rw [if_neg fun hb => hfree hb.1, Nat.add_zero] at hcount
      have hmark : ({ op with opcode := .brc } : CacheOp).opcode = .brc ∧ ({ op with opcode := .brc } : CacheOp).origin = x ↔
          type = .invSuccess ∧ op.origin = x := by
        simp only [true_and, not_not.1 ht]
        rfl
      rw [if_congr hmark rfl rfl] at hcount
      exact hcount

theorem keepInvs_spec {l : List (CacheOp × RespType)} (h : n.Sound) (hl : n.invServed = l) :
    (n.keepInvs l).1.Sound ∧ (n.keepInvs l).1.client = n.client ∧ (n.keepInvs l).1.invServed = [] ∧ (n.keepInvs l).2 = 0 ∧
      ∀ x, (n.keepInvs l).1.awaits x = n.awaits x + l.countP fun y => y.2 = .invSuccess ∧ y.1.origin = x := by
  induction l generalizing n with
  | nil => exact ⟨h, rfl, hl, rfl, fun x => (Nat.add_zero _).symm⟩
  | cons y l ih =>
    obtain ⟨op, type⟩ := y
    obtain ⟨hsound, hclient, hserved, hright, hawaits⟩ := keepInv_spec h hl
    obtain ⟨hsound', hclient', hserved', hzero, hawaits'⟩ := ih hsound hserved
    refine ⟨hsound', hclient'.trans hclient, hserved', ?_, fun x => ?_⟩
    · show (keepInvs l _).2 + _ = 0
      rw [hzero, if_neg]
      rintro ⟨ht, hwrong⟩
      rw [hright ht] at hwrong
      cases hwrong
    · show (keepInvs l _).1.awaits x = _
      rw [hawaits', hawaits, List.countP_cons]
      simp only [decide_eq_true_eq]
      omega

/-- The cache keeps what an INV is about. -/
theorem answered_origin (type : RespType) (op : CacheOp) : (answered type op).origin = op.origin := by
  unfold answered
  split <;> rfl

theorem count_taken (l : List (CacheOp × RespType)) (x : ℕ × UInt64 × UInt32) :
    ((l.filterMap fun y => if y.2 = .invSuccess then some y.1 else none).map CacheOp.origin).count x =
      (l.map fun y => (answered y.2 y.1, y.2)).countP fun y => y.2 = .invSuccess ∧ y.1.origin = x := by
  induction l with
  | nil => rfl
  | cons y l ih =>
    by_cases ht : y.2 = .invSuccess
    · simp only [List.filterMap_cons, ht, if_true, List.map_cons, List.count_cons, List.countP_cons, ih, true_and,
        answered_origin, beq_iff_eq, decide_eq_true_eq]
    · simp only [List.filterMap_cons, List.map_cons, List.countP_cons, ih, ht, false_and, decide_false,
        Bool.false_eq_true, if_false, Nat.add_zero]

/-- The INVs that the cache takes go into the pool. -/
theorem invs_spec (types : ℕ → RespType) (h : n.Sound) (hs : n.invServed = []) :
    (n.invs types).1.Sound ∧ (n.invs types).1.client = n.client ∧ (n.invs types).1.invServed = [] ∧ (n.invs types).2 = 0 ∧
      ∀ x, (n.invs types).1.awaits x = n.awaits x + ((n.taken types).map CacheOp.origin).count x := by
  have hroom := h.room
  rw [hs, List.length_nil, Nat.add_zero] at hroom
  have hserve : Sound { n with
      invOps := [], invServed := (n.invAnswers types).map fun x => (answered x.2 x.1, x.2) } := by
    refine ⟨h.ring, h.size, ?_, h.seen⟩
    simp only [invAnswers, List.length_nil, List.length_map, List.length_mapIdx]
    omega
  obtain ⟨hsound, hclient, hserved, hzero, hawaits⟩ := keepInvs_spec hserve rfl
  refine ⟨hsound, hclient, hserved, hzero, fun x => ?_⟩
  rw [taken, count_taken]
  exact hawaits x

/-! ## Broadcasts -/

/-- Marking the head of the ring changes its opcode only. -/
theorem markHead_spec (h : n.Sound) (t : ℕ → UInt8) : (n.markHead.withCredits .upd t).Sound ∧
    (n.markHead.withCredits .upd t).client.pending.map CacheOp.subject = n.client.pending.map CacheOp.subject ∧
    (n.Free → (n.markHead.withCredits .upd t).Free) := by
  have hslot (j : ℕ) : (n.markHead.client.ackBcastOps j).subject = (n.client.ackBcastOps j).subject := by
    show (update n.client.ackBcastOps n.client.ackPopPtr _ j).subject = _
    by_cases hj : j = n.client.ackPopPtr
    · rw [hj, update_self]
      rfl
    · rw [update_of_ne hj]
  refine ⟨⟨⟨h.ring.order, h.ring.popPtr, h.ring.pushPtr, h.ring.room, h.ring.acks, h.ring.kind⟩, h.size, h.room, h.seen⟩, ?_, ?_⟩
  · rw [Client.pending, Client.pending, List.map_map, List.map_map]
    exact List.map_congr_left fun i _ => hslot _
  · intro hf i hi hlt
    show (update n.client.ackBcastOps n.client.ackPopPtr _ _).opcode ≠ _
    by_cases hj : (n.client.ackPopPtr + i) % bcastToCacheBatch = n.client.ackPopPtr
    · rw [show (n.markHead.withCredits .upd t).client.ackPopPtr = n.client.ackPopPtr from rfl, hj, update_self]
      simp
    · rw [show (n.markHead.withCredits .upd t).client.ackPopPtr = n.client.ackPopPtr from rfl, update_of_ne hj]
      exact hf i hi hlt

/-- An update leaves the ring at its head. -/
theorem forgeUpd_spec (h : n.Sound) (hpos : 0 < n.client.ackSize) : ((n.forgeUpd m).spendAll N .upd).Sound ∧
    n.client.pending.map CacheOp.subject =
      (n.client.nextUpd m).subject :: ((n.forgeUpd m).spendAll N .upd).client.pending.map CacheOp.subject ∧
    (n.Free → ((n.forgeUpd m).spendAll N .upd).Free) := by
  obtain ⟨hring, hsize, hroom, hseen⟩ := (h.forgeUpd (m := m) hpos).1
  refine ⟨⟨hring, hsize, hroom, hseen⟩, ?_, ?_⟩
  · rw [Client.pending_pop (m := m) h.ring hpos, List.map_cons]
    rfl
  · intro hf i hi hlt
    have hpop := h.ring.popPtr
    have hle := h.ring.room
    have hsize : n.client.ackSize - 1 ≤ i := hi
    show (update n.client.ackBcastOps n.client.ackPopPtr (n.client.nextUpd m)
      (((n.client.ackPopPtr + 1) % bcastToCacheBatch + i) % bcastToCacheBatch)).opcode ≠ _
    by_cases hlast : i = bcastToCacheBatch - 1
    · -- the slot that was sent is the last one behind the new head
      have hj : ((n.client.ackPopPtr + 1) % bcastToCacheBatch + i) % bcastToCacheBatch = n.client.ackPopPtr := by
        unfold bcastToCacheBatch at *
        omega
      rw [hj, update_self]
      simp [Client.nextUpd, outgoing]
    · have hj : ((n.client.ackPopPtr + 1) % bcastToCacheBatch + i) % bcastToCacheBatch =
          (n.client.ackPopPtr + (i + 1)) % bcastToCacheBatch := by
        rw [Nat.mod_add_mod, Nat.add_assoc, Nat.add_comm 1]
      rw [hj, update_of_ne (by unfold bcastToCacheBatch at *; omega)]
      exact hf (i + 1) (by omega) (by omega)

/-- What is broadcast is the front of the ring, as far as the credits go. -/
theorem broadcastUpds_spec (polls : ℕ → ℕ → UInt8) {k : ℕ} (h : n.Sound) (hk : k ≤ n.client.ackSize) :
    (n.broadcastUpds m polls k).1.Sound ∧ (n.broadcastUpds m polls k).1.invServed = n.invServed ∧
      (n.broadcastUpds m polls k).1.invToSendOps = n.invToSendOps ∧
      n.client.pending.map CacheOp.subject = (n.broadcastUpds m polls k).2.map CacheOp.subject ++
        (n.broadcastUpds m polls k).1.client.pending.map CacheOp.subject ∧
      (∀ u ∈ (n.broadcastUpds m polls k).2, u.opcode = .upd) ∧
      ((n.broadcastUpds m polls k).2.length = k ∨ ¬ (n.broadcastUpds m polls k).1.EnoughCredits m .upd) ∧
      (n.Free → (n.broadcastUpds m polls k).1.Free) := by
  induction k generalizing n with
  | zero => exact ⟨h, rfl, rfl, rfl, by simp [broadcastUpds], .inl rfl, id⟩
  | succ k ih =>
    obtain ⟨hmark, hpending, hfree⟩ := markHead_spec h (polls k)
    have hsize : (n.markHead.withCredits .upd (polls k)).client.ackSize = n.client.ackSize := rfl
    simp only [broadcastUpds]
    split
    · obtain ⟨hforge, hpop, hfree'⟩ := forgeUpd_spec (m := m) hmark (by omega)
      obtain ⟨hsound, hserved, hpool, hrest, hupds, hlen, hfree''⟩ := ih hforge (by
        show k ≤ n.client.ackSize - 1
        omega)
      refine ⟨hsound, hserved, hpool, ?_, ?_, ?_, fun hf => hfree'' (hfree' (hfree hf))⟩
      · rw [← hpending, hpop, hrest, List.map_cons, List.cons_append]
      · intro u hu
        rcases List.mem_cons.1 hu with rfl | hu
        · rfl
        · exact hupds u hu
      · exact hlen.imp_left fun hl => congrArg (· + 1) hl
    · next hno => exact ⟨hmark, rfl, rfl, hpending.symm, by simp, .inr hno, hfree⟩

/-! ## Acknowledgements -/

/-- What an ACK is about, and the machine it is for. -/
def addressed (y : ℕ × CacheOp) : ℕ × UInt64 × UInt32 := (y.1, y.2.subject)

/-- An INV leaves the pool with its ACK. -/
theorem sendAck_awaits {i : ℕ} (hi : i < bcastToCacheBatch) (hb : (n.invToSendOps i).opcode = .brc) (x : ℕ × UInt64 × UInt32) :
    n.awaits x = (n.sendAck m i).awaits x + if (n.invToSendOps i).origin = x then 1 else 0 := by
  have hcount := awaits_update (n := n) hi (outgoing m .ack (n.invToSendOps i)) x
  have hsent : ¬ ((outgoing m .ack (n.invToSendOps i)).opcode = .brc ∧ (outgoing m .ack (n.invToSendOps i)).origin = x) := by
    simp [outgoing]
  simp only [hb, true_and, if_neg hsent, Nat.add_zero] at hcount
  exact hcount.symm

theorem sendAcks_spec (polls : ℕ → ℕ → UInt8) {is : List ℕ} (h : n.Sound) (his : ∀ i ∈ is, i < bcastToCacheBatch) :
    (n.sendAcks m polls is).1.Sound ∧ (n.sendAcks m polls is).1.client = n.client ∧
      (n.sendAcks m polls is).1.invServed = n.invServed ∧
      (∀ x, n.awaits x = ((n.sendAcks m polls is).2.map addressed).count x + (n.sendAcks m polls is).1.awaits x) ∧
      (∀ y ∈ (n.sendAcks m polls is).2, y.2.opcode = .ack) ∧
      ∀ i, ((n.sendAcks m polls is).1.invToSendOps i).opcode = .brc →
        (n.sendAcks m polls is).1.invToSendOps i = n.invToSendOps i ∧
          (i ∈ is → polls i (n.invToSendOps i).keyMeta.cid.toNat = 0) := by
  induction is generalizing n with
  | nil => exact ⟨h, rfl, rfl, fun x => (Nat.zero_add _).symm, by simp [sendAcks], fun i _ => ⟨rfl, by simp⟩⟩
  | cons i is ih =>
    have hi := his i (by simp)
    have hrest : ∀ j ∈ is, j < bcastToCacheBatch := fun j hj => his j (by simp [hj])
    simp only [sendAcks]
    split
    · next hb =>
      obtain ⟨hsound, hclient, hserved, hcount, hacks, hleft⟩ := ih h hrest
      refine ⟨hsound, hclient, hserved, hcount, hacks, fun j hj => ⟨(hleft j hj).1, ?_⟩⟩
      intro hmem
      rcases List.mem_cons.1 hmem with rfl | hmem
      · exact absurd ((hleft j hj).1 ▸ hj) hb
      · exact (hleft j hj).2 hmem
    · next hb =>
      have hb' : (n.invToSendOps i).opcode = .brc := not_not.1 hb
      have hpoll : (n.withCredits .ack (polls i)).Sound := ⟨h.ring, h.size, h.room, h.seen⟩
      split
      · next h0 =>
        obtain ⟨hsound, hclient, hserved, hcount, hacks, hleft⟩ := ih hpoll hrest
        refine ⟨hsound, hclient, hserved, hcount, hacks, fun j hj => ⟨(hleft j hj).1, ?_⟩⟩
        intro hmem
        rcases List.mem_cons.1 hmem with rfl | hmem
        · simpa [withCredits] using h0
        · exact (hleft j hj).2 hmem
      · obtain ⟨hsound, hclient, hserved, hcount, hacks, hleft⟩ :=
          ih (hpoll.sendAck (m := m) hi hb').1 hrest
        have hother (j : ℕ) (hj : j ≠ i) :
            ((n.withCredits .ack (polls i)).sendAck m i).invToSendOps j = n.invToSendOps j := update_of_ne hj _ _
        have hself : ((n.withCredits .ack (polls i)).sendAck m i).invToSendOps i = outgoing m .ack (n.invToSendOps i) :=
          update_self _ _ _
        refine ⟨hsound, hclient, hserved, fun x => ?_, ?_, fun j hj => ?_⟩
        · have hsend := sendAck_awaits (m := m) (n := n.withCredits .ack (polls i)) hi hb' x
          have hn : (n.withCredits .ack (polls i)).awaits x = n.awaits x := SameQueues.awaits ⟨rfl, rfl, rfl, rfl⟩ x
          rw [← hn, hsend, hcount, List.map_cons, List.count_cons]
          simp only [beq_iff_eq]
          rw [show addressed (((n.withCredits .ack (polls i)).invToSendOps i).keyMeta.cid.toNat,
            outgoing m .ack ((n.withCredits .ack (polls i)).invToSendOps i)) =
              ((n.withCredits .ack (polls i)).invToSendOps i).origin from rfl]
          omega
        · intro y hy
          rcases List.mem_cons.1 hy with rfl | hy
          · rfl
          · exact hacks y hy
        · have hji : j ≠ i := by
            rintro rfl
            rw [(hleft j hj).1, hself] at hj
            simp [outgoing] at hj
          rw [(hleft j hj).1, hother j hji]
          refine ⟨rfl, fun hmem => ?_⟩
          have hzero := (hleft j hj).2 ((List.mem_cons.1 hmem).resolve_left hji)
          rwa [hother j hji] at hzero

end Node

/-! ## Runs -/

section

variable {N : ℕ} {m : Fin N} {valLen : UInt8} {s₀ s s' : ClientLoop} {cs : List QueueCall} {c : QueueCall}

/-- What every call keeps. -/
structure Kept (cs : List QueueCall) (s : ClientLoop) : Prop where
  sound : s.node.Sound
  invServed : s.node.invServed = []
  updates : s.phase = .updates → s.node.client.served = 0 ∧ s.node.client.kept = 0
  complaints : ∀ c ∈ cs, c.complaints = 0
  taken : ∀ x, ((cs.flatMap QueueCall.taken).map CacheOp.origin).count x =
    ((cs.flatMap QueueCall.acked).map Node.addressed).count x + s.node.awaits x
  acks : ∀ y ∈ cs.flatMap QueueCall.acked, y.2.opcode = .ack
  completed : (cs.flatMap QueueCall.completed).map CacheOp.subject =
    (cs.flatMap QueueCall.updated).map CacheOp.subject ++ s.node.client.pending.map CacheOp.subject
  upds : ∀ u ∈ cs.flatMap QueueCall.updated, u.opcode = .upd

theorem ClientLoop.Init.kept (h : s₀.Init) : Kept [] s₀ := by
  have hpolled : s₀.node.client.polled = [] := by simp [Client.polled, h.counters.1]
  have hempty (P : CacheOp → Prop) [DecidablePred P] (hP : ∀ i, ¬ P (s₀.node.invToSendOps i)) :
      slotsWith P s₀.node.invToSendOps = 0 := by
    rw [slotsWith, Finset.filter_false_of_mem fun i _ => hP i, Finset.card_empty]
  refine ⟨⟨⟨?_, ?_, ?_, ?_, ?_, ?_⟩, ?_, ?_, ?_⟩, h.invOps.2, fun _ => ⟨h.counters.2.1, h.counters.2.2.1⟩, by simp, ?_, by simp, ?_,
    by simp⟩
  · rw [h.counters.1, h.counters.2.1, h.counters.2.2.1]
    exact ⟨le_rfl, le_rfl⟩
  · rw [h.ring.2.1]
    decide
  · rw [h.ring.1, h.ring.2.1, h.ring.2.2]
    rfl
  · rw [hpolled, h.ring.2.2]
    exact Nat.zero_le _
  · rw [hpolled]
    exact fun _ => h.counters.2.2.2
  · rw [hpolled]
    simp
  · rw [h.invSize, hempty _ h.invToSendOps]
  · rw [h.invSize, h.invOps.1, h.invOps.2]
    exact Nat.zero_le _
  · intro vc i
    rw [h.seen]
    decide
  · intro x
    rw [Node.awaits, hempty _ fun i hb => h.invToSendOps i hb.1]
    rfl
  · simp [Client.pending, h.ring.2.2]

theorem mem_pool (i : ℕ) (hi : i ∈ List.range bcastToCacheBatch) : i < bcastToCacheBatch := List.mem_range.1 hi

/-- What a call adds to pool and ring is what the run adds. -/
theorem Kept.snoc (h : Kept cs s) (hsound : s'.node.Sound) (hserved : s'.node.invServed = [])
    (hupdates : s'.phase = .updates → s'.node.client.served = 0 ∧ s'.node.client.kept = 0) (h0 : c.complaints = 0)
    (htaken : ∀ x, s.node.awaits x + (c.taken.map CacheOp.origin).count x =
      (c.acked.map Node.addressed).count x + s'.node.awaits x)
    (hacks : ∀ y ∈ c.acked, y.2.opcode = .ack)
    (hcompleted : s.node.client.pending.map CacheOp.subject ++ c.completed.map CacheOp.subject =
      c.updated.map CacheOp.subject ++ s'.node.client.pending.map CacheOp.subject)
    (hupds : ∀ u ∈ c.updated, u.opcode = .upd) : Kept (cs ++ [c]) s' := by
  refine ⟨hsound, hserved, hupdates, ?_, fun x => ?_, ?_, ?_, ?_⟩
  · intro d hd
    rcases List.mem_append.1 hd with hd | hd
    · exact h.complaints d hd
    · rw [List.mem_singleton.1 hd, h0]
  · have hbefore := h.taken x
    have hcall := htaken x
    simp only [List.flatMap_append, List.flatMap_singleton, List.map_append, List.count_append]
    omega
  · intro y hy
    rw [List.flatMap_append, List.flatMap_singleton] at hy
    exact (List.mem_append.1 hy).elim (h.acks y) (hacks y)
  · simp only [List.flatMap_append, List.flatMap_singleton, List.map_append]
    rw [h.completed, List.append_assoc, hcompleted, List.append_assoc]
  · intro u hu
    rw [List.flatMap_append, List.flatMap_singleton] at hu
    exact (List.mem_append.1 hu).elim (h.upds u) (hupds u)

/-- A call that neither takes INVs nor sends ACKs. -/
theorem QueueCall.quiet (htaken : c.taken = []) (hacked : c.acked = []) {a b : ℕ} (h : b = a) (x : ℕ × UInt64 × UInt32) :
    a + (c.taken.map CacheOp.origin).count x = (c.acked.map Node.addressed).count x + b := by
  rw [htaken, hacked, h]
  simp

theorem Kept.step (h : Kept cs s) (hst : ClientLoop.Step m valLen s c s') : Kept (cs ++ [c]) s' := by
  cases hst with
  | @poll n reqs hreqs =>
    obtain ⟨hsound, hzero, hkept, hserved, hsame⟩ :=
      Node.pollCoherenceLin_spec valLen h.sound.fresh rfl h.invServed (Nat.le_refl 0) hreqs
    have hqueues := hsame.after (⟨rfl, rfl, rfl, rfl⟩ : Node.SameQueues n n.fresh)
    refine h.snoc hsound hserved (fun _ => ⟨hzero, hkept⟩) rfl (fun x => QueueCall.quiet rfl rfl (hqueues.awaits x) x)
      (by simp [QueueCall.acked]) ?_ (by simp [QueueCall.updated])
    rw [hqueues.pending]
    exact List.append_nil _
  | @updates n n' resps l hok =>
    obtain ⟨hsound, hinvs, hpending, hawaits⟩ := Node.updates_spec h.sound (h.updates rfl) hok
    refine h.snoc hsound (hinvs.trans h.invServed) (by simp) rfl (fun x => QueueCall.quiet rfl rfl (hawaits x) x)
      (by simp [QueueCall.acked]) ?_ (by simp [QueueCall.updated])
    exact hpending.symm
  | @invs n types =>
    obtain ⟨hsound, hclient, hserved, hzero, hawaits⟩ := Node.invs_spec types h.sound h.invServed
    refine h.snoc hsound hserved (by simp) hzero (fun x => ?_) (by simp [QueueCall.acked]) ?_ (by simp [QueueCall.updated])
    · rw [hawaits]
      simp [QueueCall.taken, QueueCall.acked]
    · rw [hclient]
      exact List.append_nil _
  | @broadcasts n polls =>
    obtain ⟨hsound, hserved, hpool, hpending, hupds, -⟩ :=
      Node.broadcastUpds_spec (m := m) polls h.sound (Nat.le_refl _)
    have hawaits (x) : (n.broadcastUpds m polls n.client.ackSize).1.awaits x = n.awaits x := by
      rw [Node.awaits, Node.awaits, hpool]
    refine h.snoc hsound (hserved.trans h.invServed) (by simp) rfl (fun x => QueueCall.quiet rfl rfl (hawaits x) x)
      (by simp [QueueCall.acked]) ?_ hupds
    exact (List.append_nil _).trans hpending
  | @acks n polls hpos =>
    have hspec := Node.sendAcks_spec (n := n) (m := m) polls h.sound mem_pool
    generalize n.sendAcks m polls (List.range bcastToCacheBatch) = r at hspec ⊢
    obtain ⟨hsound, hclient, hserved, hcount, hacks, -⟩ := hspec
    refine h.snoc hsound (hserved.trans h.invServed) (by simp) rfl (fun x => ?_) hacks ?_ (by simp [QueueCall.updated])
    · simp only [QueueCall.taken, QueueCall.acked, List.map_nil, List.count_nil, Nat.add_zero]
      exact hcount x
    · simp only [QueueCall.completed, QueueCall.updated, List.map_nil, List.append_nil, List.nil_append, hclient]
  | @noAcks n polls h0 =>
    exact h.snoc h.sound h.invServed (by simp) rfl (fun x => QueueCall.quiet rfl rfl rfl x) (by simp [QueueCall.acked])
      (List.append_nil _) (by simp [QueueCall.updated])

theorem kept_of_run (hrun : (clientLoop m valLen).Run s₀ cs s) : Kept cs s :=
  hrun.invariant Kept (fun h => h.kept) fun _ h hst => h.step hst

/-- The slots outside the ring are never left with the opcode of an acknowledgement, unless
they had it from the start. -/
theorem free_of_run (hfree : ∀ i < bcastToCacheBatch, (s₀.node.client.ackBcastOps i).opcode ≠ .ack)
    (hrun : (clientLoop m valLen).Run s₀ cs s) : s.node.Free := by
  refine hrun.invariant (fun _ s => s.node.Free) (fun _ i _ _ => hfree _ (Nat.mod_lt _ (by decide))) ?_
  intro es s c s' hrun hf hst
  have h := kept_of_run hrun
  cases hst with
  | @poll n reqs hreqs =>
    obtain ⟨-, -, -, -, hsame⟩ :=
      Node.pollCoherenceLin_spec valLen h.sound.fresh rfl h.invServed (Nat.le_refl 0) hreqs
    exact (hsame.after (⟨rfl, rfl, rfl, rfl⟩ : Node.SameQueues n n.fresh)).free hf
  | @updates n n' resps l hok =>
    obtain ⟨n₁, l₁, hok₁, hf₁⟩ := Node.updates_free valLen resps h.sound (h.updates rfl) hf
    cases hok.symm.trans hok₁
    exact hf₁
  | @invs n types => exact hf.of_client (Node.invs_spec types h.sound h.invServed).2.1
  | @broadcasts n polls => exact (Node.broadcastUpds_spec polls h.sound (Nat.le_refl _)).2.2.2.2.2.2 hf
  | @acks n polls hpos =>
    have hspec := Node.sendAcks_spec (n := n) (m := m) polls h.sound mem_pool
    generalize n.sendAcks m polls (List.range bcastToCacheBatch) = r at hspec ⊢
    exact hf.of_client hspec.2.1
  | @noAcks n polls h0 => exact hf

/-- The sizes are right, the search and the assertion succeed, and what was taken and not yet
sent is in the pool or in the ring. Nothing is kept for which there were credits. -/
structure Lossless (m : Fin N) (valLen : UInt8) (cs : List QueueCall) (s : ClientLoop) : Prop where
  invSize : s.node.invSize = slotsWith (fun op => op.opcode = .brc) s.node.invToSendOps ∧ s.node.invSize ≤ bcastToCacheBatch
  ackSize : s.node.client.ackPushPtr = (s.node.client.ackPopPtr + s.node.client.ackSize) % bcastToCacheBatch ∧
    s.node.client.ackSize ≤ bcastToCacheBatch
  found : ∀ c ∈ cs, c.complaints = 0
  asserted : s.phase = .updates → ∀ resps, ∃ r, s.node.updates valLen resps = .ok r
  /-- As many INVs were taken from a machine about a write as ACKs went there and wait in the pool. -/
  taken : ∀ x, ((cs.flatMap QueueCall.taken).map CacheOp.origin).count x =
    ((cs.flatMap QueueCall.acked).map Node.addressed).count x + s.node.awaits x
  acks : ∀ y ∈ cs.flatMap QueueCall.acked, y.2.opcode = .ack
  acked : ∀ polls l, cs.getLast? = some (.acks polls l) → ∀ i < bcastToCacheBatch,
    (s.node.invToSendOps i).opcode = .brc → polls i (s.node.invToSendOps i).keyMeta.cid.toNat = 0
  /-- The writes completed are those broadcast and then those in the ring, in this order. -/
  completed : (cs.flatMap QueueCall.completed).map CacheOp.subject =
    (cs.flatMap QueueCall.updated).map CacheOp.subject ++ s.node.client.pending.map CacheOp.subject
  upds : ∀ u ∈ cs.flatMap QueueCall.updated, u.opcode = .upd
  updated : ∀ polls l, cs.getLast? = some (.broadcasts polls l) →
    s.node.client.ackSize = 0 ∨ ¬ s.node.EnoughCredits m .upd

theorem acked_of_run (hrun : (clientLoop m valLen).Run s₀ cs s) (polls l) (hlast : cs.getLast? = some (.acks polls l)) :
    ∀ i < bcastToCacheBatch, (s.node.invToSendOps i).opcode = .brc →
      polls i (s.node.invToSendOps i).keyMeta.cid.toNat = 0 := by
  cases hrun with
  | nil => simp at hlast
  | snoc hrun hst =>
    have h := kept_of_run hrun
    rw [List.getLast?_concat, Option.some_inj] at hlast
    subst hlast
    intro i hi
    cases hst with
    | @acks n polls hpos =>
      have hspec := Node.sendAcks_spec (n := n) (m := m) polls h.sound mem_pool
      generalize n.sendAcks m polls (List.range bcastToCacheBatch) = r at hspec ⊢
      intro hb
      obtain ⟨hsame, hzero⟩ := hspec.2.2.2.2.2 i hb
      rw [hsame]
      exact hzero (List.mem_range.2 hi)
    | @noAcks n polls h0 =>
      intro hb
      have hnone := Finset.filter_eq_empty_iff.1 (Finset.card_eq_zero.1 (h.sound.size.symm.trans h0)) (Finset.mem_range.2 hi)
      exact absurd hb hnone

theorem updated_of_run (hrun : (clientLoop m valLen).Run s₀ cs s) (polls l)
    (hlast : cs.getLast? = some (.broadcasts polls l)) :
    s.node.client.ackSize = 0 ∨ ¬ s.node.EnoughCredits m .upd := by
  cases hrun with
  | nil => simp at hlast
  | snoc hrun hst =>
    have h := kept_of_run hrun
    rw [List.getLast?_concat, Option.some_inj] at hlast
    subst hlast
    cases hst with
    | @broadcasts n polls =>
      obtain ⟨-, -, -, hpending, -, hall, -⟩ :=
        Node.broadcastUpds_spec (n := n) (m := m) polls h.sound (Nat.le_refl _)
      refine hall.imp (fun hlen => ?_) id
      show (n.broadcastUpds m polls n.client.ackSize).1.client.ackSize = 0
      have hcount := congrArg List.length hpending
      simp only [List.length_append, List.length_map, Client.pending, List.length_range] at hcount
      omega

theorem lossless_of_run (hfree : ∀ i < bcastToCacheBatch, (s₀.node.client.ackBcastOps i).opcode ≠ .ack)
    (hrun : (clientLoop m valLen).Run s₀ cs s) : Lossless m valLen cs s := by
  have h := kept_of_run hrun
  refine ⟨⟨h.sound.size, ?_⟩, ⟨h.sound.ring.pushPtr, ?_⟩, h.complaints, fun hphase resps => ?_, h.taken, h.acks,
    acked_of_run hrun, h.completed, h.upds, updated_of_run hrun⟩
  · have := h.sound.room
    omega
  · have := h.sound.ring.room
    omega
  · obtain ⟨n', l, hok, -⟩ := Node.updates_free valLen resps h.sound (h.updates hphase) (free_of_run hfree hrun)
    exact ⟨_, hok⟩

/-- An ACK from the first machine. -/
def someAck : CacheOp := ⟨⟨.valid, 0, 0, 0, 0⟩, 0, .ack, 0, fun _ => 0⟩

/-- In the first iteration `i + 1` writes may complete, and their updates take the first slots of the ring. -/
theorem ackBcastOps_of_lossless (h₀ : s₀.Init)
    (h : ∀ cs s, (clientLoop m valLen).Run s₀ cs s → Lossless m valLen cs s) (i : ℕ) (hi : i < bcastToCacheBatch) :
    (s₀.node.client.ackBcastOps i).opcode ≠ .ack := by
  obtain ⟨phase, n⟩ := s₀
  obtain rfl : phase = .poll := h₀.phase
  have hreqs : ∀ req ∈ List.replicate (i + 1) someAck, CoherenceMessage N req := by
    intro req hreq
    rw [List.eq_of_mem_replicate hreq]
    exact ⟨.inr (.inl rfl), m.pos⟩
  have hrun := (Lts.Run.nil (L := clientLoop m valLen) h₀).snoc (ClientLoop.Step.poll (n := n) _ hreqs)
  obtain ⟨hsound, hserved, hkept, -, hsame⟩ :=
    Node.pollCoherenceLin_spec (n := n.fresh) valLen h₀.kept.sound.fresh rfl h₀.invOps.2 (Nat.le_refl 0) hreqs
  obtain ⟨hlen, hops⟩ := Node.pollCoherenceLin_acks (n := n.fresh) valLen (p := 0) (k := i + 1)
    (rfl : someAck.opcode = .ack) h₀.ring.2.2 rfl rfl (by omega) (by simp)
  rw [Nat.zero_add] at hlen hops
  obtain ⟨⟨n', l⟩, hok⟩ := (h _ _ hrun).asserted rfl fun _ => ⟨.lastAckSuccess, 0, none⟩
  have hslot := Node.updates_asserts hsound ⟨hserved, hkept⟩ (by omega) (fun j hj => ?_) (fun _ => rfl) hok i (by omega)
  · have hpush := hsound.ring.pushPtr
    have hpop : n.fresh.client.ackPopPtr = 0 := h₀.ring.2.1
    have hsize : n.fresh.client.ackSize = 0 := h₀.ring.2.2
    rw [hsame.ackPopPtr, hsame.ackSize, hpop, hsize] at hpush
    rwa [hsame.ackBcastOps, hpush, Nat.zero_add, Nat.zero_mod, Nat.zero_add, Nat.mod_eq_of_lt hi] at hslot
  · rw [hops j (by omega)]
    decide

/-- The queues of a client lose nothing, in any run, exactly if none of the bytes that `malloc`
returned for `ack_bcast_ops` reads as the opcode of an acknowledgement: `setup_coh_ops` does not
clear them, and the assertion of `updates_and_acks_bookkeeping` takes such a slot for a full queue. -/
theorem queues_lossless_iff (h₀ : s₀.Init) :
    (∀ cs s, (clientLoop m valLen).Run s₀ cs s → Lossless m valLen cs s) ↔
      ∀ i < bcastToCacheBatch, (s₀.node.client.ackBcastOps i).opcode ≠ .ack :=
  ⟨ackBcastOps_of_lossless h₀, fun hfree _ _ hrun => lossless_of_run hfree hrun⟩

end

/-- A client before its first iteration, with `slot` in every slot of `ack_bcast_ops`. -/
def ClientLoop.start (slot : CacheOp) : ClientLoop where
  phase := .poll
  node :=
    { client := ⟨fun _ => slot, fun _ => ⟨.empty, 0, none⟩, 0, 0, 0, 0, fun _ => slot, 0, 0, 0⟩
      invOps := []
      invServed := []
      invToSendOps := fun _ => { slot with opcode := .other 120 }
      invPushPtr := 0
      invSize := 0
      cohMessageCount := fun _ _ => 0
      credits := fun _ _ => 60
      seen := fun _ _ => 0 }

theorem ClientLoop.start_init (slot : CacheOp) : (ClientLoop.start slot).Init :=
  ⟨rfl, ⟨rfl, rfl, rfl, rfl⟩, ⟨rfl, rfl, rfl⟩, ⟨rfl, rfl⟩, fun _ => by simp [start], rfl, fun _ _ => rfl⟩

/-- Where `malloc` returned zeroed memory, nothing is lost. -/
theorem queues_lossless_iff_zeroed : (ClientLoop.start { someAck with opcode := .other 0 }).Init ∧
    ∀ cs s, (clientLoop (0 : Fin 4) 1).Run (.start { someAck with opcode := .other 0 }) cs s → Lossless (0 : Fin 4) 1 cs s := by
  have hinit := ClientLoop.start_init { someAck with opcode := .other 0 }
  exact ⟨hinit, (queues_lossless_iff hinit).2 fun _ _ => by simp [ClientLoop.start]⟩

/-- A write completes in the first iteration, and the empty queue is taken for a full one. -/
theorem queue_taken_for_full : ∃ s, (clientLoop (0 : Fin 4) 1).Run (.start someAck) [.poll [someAck]] s ∧
    s.phase = .updates ∧ s.node.client.ackSize = 0 ∧
      s.node.updates 1 (fun _ => ⟨.lastAckSuccess, 0, none⟩) = .error .ackQueueFull := by
  refine ⟨_, (Lts.Run.nil (ClientLoop.start_init someAck)).snoc (.poll [someAck] ?_), rfl, rfl, rfl⟩
  intro req hreq
  rw [List.mem_singleton.1 hreq]
  exact ⟨.inr (.inl rfl), by decide⟩

end CcKvs.Lin
