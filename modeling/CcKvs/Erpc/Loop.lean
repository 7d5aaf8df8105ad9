/-
The event loops of the two ends, and what they keep over a whole run, whatever
the network does.
-/
import CcKvs.Erpc.Session
import Mathlib

namespace CcKvs.Erpc

variable {D : ℕ} {G : Calls} {i : ℕ} {log : List Event} {p : Pkt} {c : Client} {s : Sys} {r : Request} {m : Msg}

/-- `process_credit_stall_queue_st`: the slots of the queue that get a credit send. -/
theorem processStallq_keeps (u : Bool) : ∀ (l : List ℕ) {s : Sys}, Inv D s log → Queued s.client → l.Nodup →
    (∀ i ∈ l, i < sessionReqWindow ∧ (s.client.slots i).txMsgbuf.isSome ∧ (s.client.slots i).numTx = 0 ∧
      (s.client.slots i).numRx = 0 ∧ i ∉ s.client.stallq) → 0 < D →
    ∃ c, processStallq D u l s.client = .ok c ∧ Inv D { s with client := c } log ∧ Queued c
  | [], s, h, hq, _, _, _ => ⟨s.client, rfl, h, hq⟩
  | i :: l, s, h, hq, hn, hl, hD => by
    obtain ⟨hil, hn'⟩ := List.nodup_cons.1 hn
    obtain ⟨hi, htx, h0, h0', hnot⟩ := hl i List.mem_cons_self
    rw [processStallq]
    by_cases hpos : 0 < s.client.credits
    · rw [if_pos hpos]
      obtain ⟨G, hG⟩ := h.slots i hi
      obtain ⟨r, hb⟩ := hG.client.busy htx
      have hpend : (s.client.slots i).numTx < r.pkts D := by
        rw [h0]
        exact Chunks.count_pos hD _
      obtain ⟨k, ps, x, hkick, _, h2, h3, h4, h5, h6, h7⟩ :=
        kickReq_spec u hG hb hpos (h.shared.unanswered_le hi) hpend
      have hk : kick D u i s.client = kickReq D u i s.client := by
        rw [kick, hb.buf]
        exact if_pos hpend
      rw [hk, hkick]
      have hinv := h.clientQuiet i ps (h.shared.setSlot hi (unanswered_sent h3 h4 hb.le h2) (by rw [h5]) hnot)
        (fun j hj => by simp [hj]) rfl (fun p hp => by rw [h6 p hp]; exact hG.numbers.slot)
        ⟨G, by simpa only [Client.setSlot_slots, Function.update_self] using h7⟩
      refine processStallq_keeps u l hinv ⟨hq.full, hq.valid⟩ hn' ?_ hD
      intro j hj
      have hne : j ≠ i := by
        rintro rfl
        exact hil hj
      simpa [hne] using hl j (List.mem_cons_of_mem _ hj)
    · rw [if_neg hpos]
      have hshared : Shared { s.client with stallq := s.client.stallq ++ [i] } := by
        refine ⟨h.shared.credits, h.shared.freeNodup, h.shared.free, ?_, ?_⟩
        · exact List.nodup_append.2 ⟨h.shared.stallNodup, List.nodup_singleton _, by
            rintro a ha b hb rfl
            exact hnot (List.mem_singleton.1 hb ▸ ha)⟩
        · intro j hj
          rcases List.mem_append.1 hj with hj | hj
          · exact h.shared.stalled j hj
          · rw [List.mem_singleton.1 hj]
            exact ⟨hi, htx, h0, h0'⟩
      refine processStallq_keeps u l (s := { s with client := { s.client with stallq := s.client.stallq ++ [i] } })
        ⟨hshared, h.slots⟩ ⟨hq.full, hq.valid⟩ hn' ?_ hD
      intro j hj
      obtain ⟨a1, a2, a3, a4, a5⟩ := hl j (List.mem_cons_of_mem _ hj)
      refine ⟨a1, a2, a3, a4, ?_⟩
      intro hmem
      rcases List.mem_append.1 hmem with hmem | hmem
      · exact a5 hmem
      · rw [List.mem_singleton.1 hmem] at hj
        exact hil hj

theorem processCreditStallQueue_keeps (hD : 0 < D) (u : Bool) (h : Inv D s log) (hq : Queued s.client) :
    ∃ c, processCreditStallQueue D u s.client = .ok c ∧ Inv D { s with client := c } log ∧ Queued c := by
  have hshared : Shared { s.client with stallq := [] } :=
    ⟨h.shared.credits, h.shared.freeNodup, h.shared.free, List.nodup_nil, by simp⟩
  refine processStallq_keeps u s.client.stallq (s := { s with client := { s.client with stallq := [] } }) ⟨hshared, h.slots⟩
    ⟨hq.full, hq.valid⟩ h.shared.stallNodup ?_ hD
  intro i hi
  obtain ⟨h1, h2, h3, h4⟩ := h.shared.stalled i hi
  exact ⟨h1, h2, h3, h4, by simp⟩

/-- A slot with a packet in the wheel has a request. -/
theorem ClientOk.busy_of_wheel {down : List Pkt} {x : ClientSlot} (h : ClientOk D G down x) {n : ℕ} (hn : n ∈ x.wheel) :
    ∃ r, Busy D G down x r := by
  refine h.busy (Option.isSome_iff_ne_none.2 fun hnone => ?_)
  rw [(h.idle hnone).2] at hn
  cases hn

/-- A packet leaves the wheel and is posted. -/
theorem reapOne_keeps (h : Inv D s log) (hi : i < sessionReqWindow) {n : ℕ} (hn : n ∈ (s.client.slots i).wheel) :
    ∃ c, reapOne D i n s.client = .ok c ∧ Inv D (s.clientBurst c) log ∧ c.backlog = s.client.backlog ∧
      c.freeVec = s.client.freeVec := by
  obtain ⟨G, hG⟩ := h.slots i hi
  obtain ⟨r, hb⟩ := hG.client.busy_of_wheel hn
  obtain ⟨hlo, hhi, hlt⟩ := hb.wheel n hn
  have hok : reapOne D i n s.client = .ok ({ s.client with
      txBatch := s.client.txBatch ++ [(r.buf (s.client.slots i).curReqNum).pkt D n] }.setSlot i
        ((s.client.slots i).leaveWheel n)) := by
    have hreq : n < (r.buf (s.client.slots i).curReqNum).numPkts D := hlt
    rw [reapOne, hb.buf]
    dsimp only
    rw [if_pos hreq]
  refine ⟨_, hok, ?_, rfl, rfl⟩
  refine h.clientPosts i [(r.buf (s.client.slots i).curReqNum).pkt D n] ?_ ?_ rfl ?_ ⟨G, ?_⟩
  · exact h.shared.setSlot hi rfl Iff.rfl (h.shared.not_stalled (.inr (Nat.zero_lt_of_lt hhi)))
  · intro j hj
    simp [hj]
  · intro p hp
    rw [List.mem_singleton.1 hp]
    exact hG.numbers.slot
  · simp only [Client.setSlot_slots, Function.update_self]
    have h1 := (hG.leaveWheel hb hn).burst (List.append_nil _).symm
    have hps : ∀ p ∈ [(r.buf (s.client.slots i).curReqNum).pkt D n], UpPkt D G p ∧
        p.reqNum = ((s.client.slots i).leaveWheel n).curReqNum ∧ p.pktNum < ((s.client.slots i).leaveWheel n).numTx := by
      intro p hp
      rw [List.mem_singleton.1 hp]
      exact ⟨.req _ r n hb.known hlt, rfl, by rw [pktNum_buf]; exact hhi⟩
    have h2 := h1.wire rfl hps
    rw [List.append_assoc] at h2
    exact h2

/-- Nothing was sent, and the batch is posted. -/
theorem Inv.clientDrain (h : Inv D s log) : Inv D (s.clientBurst s.client) log := by
  refine ⟨h.shared.withBatch [], ?_⟩
  intro j hj
  obtain ⟨G, hG⟩ := h.slots j hj
  exact ⟨G, by simpa only [Sys.net, Sys.clientBurst, mine_append, mine_nil] using hG.burst (List.append_nil _).symm⟩

/-- What is not answered is sent again, at least as much as before. -/
theorem kick_again (u : Bool) (h : Inv D s log) (hi : i < sessionReqWindow)
    (htx : (s.client.slots i).txMsgbuf.isSome) (hlt : (s.client.slots i).numRx < (s.client.slots i).numTx)
    (hwheel : (s.client.slots i).wheel = [])
    (hc : c = { s.client with credits := s.client.credits + ((s.client.slots i).numTx - (s.client.slots i).numRx) }.setSlot i
      (s.client.slots i).rolledBack) :
    ∃ c', kick D u i c = .ok c' ∧ Inv D (s.clientBurst c') log ∧ c'.backlog = s.client.backlog ∧
      c'.freeVec = s.client.freeVec := by
  obtain ⟨G, hG⟩ := h.slots i hi
  obtain ⟨r, hb⟩ := hG.client.busy htx
  have hcr := h.shared.unanswered_le hi
  rw [ClientSlot.unanswered] at hcr
  have hnot := h.shared.not_stalled (.inr (Nat.zero_lt_of_lt hlt))
  have hx : c.slots i = (s.client.slots i).rolledBack := by
    rw [hc]
    exact Function.update_self ..
  have hbuf : (s.client.slots i).rolledBack.txMsgbuf = some (r.buf (s.client.slots i).curReqNum) := hb.buf
  have hcredits : c.credits = s.client.credits + ((s.client.slots i).numTx - (s.client.slots i).numRx) := by
    rw [hc]
    rfl
  have hpos : 0 < c.credits := by omega
  -- the ledger after `k` packets are sent from where the answers stop
  have hshared : ∀ {k : ℕ} {y : ClientSlot} {batch : List Pkt}, k ≤ c.credits → y.numTx = (s.client.slots i).numRx + k →
      y.numRx = (s.client.slots i).numRx → y.txMsgbuf = (s.client.slots i).txMsgbuf →
      Shared { c.setSlot i y with credits := c.credits - k, txBatch := batch } := by
    intro k y batch hk h1 h2 h3
    have hbal : c.credits - k + y.unanswered = s.client.credits + (s.client.slots i).unanswered := by
      rw [ClientSlot.unanswered, ClientSlot.unanswered, h1, h2]
      omega
    have hset : Shared { s.client.setSlot i y with credits := c.credits - k, txBatch := batch } :=
      h.shared.setSlot hi hbal (by rw [h3]) hnot
    subst hc
    exact ⟨by simpa [Client.unanswered, Client.setSlot] using hset.credits, hset.freeNodup, by simpa [Client.setSlot] using hset.free,
      hset.stallNodup, by simpa [Client.setSlot] using hset.stalled⟩
  have hothers : ∀ (y : ClientSlot) j, j ≠ i → (c.setSlot i y).slots j = s.client.slots j := by
    intro y j hj
    rw [hc]
    simp [hj]
  have hbatch : c.txBatch = s.client.txBatch := by
    rw [hc]
    rfl
  have hback : c.backlog = s.client.backlog := by
    rw [hc]
    rfl
  have hfree : c.freeVec = s.client.freeVec := by
    rw [hc]
    rfl
  have hslot : (s.client.slots i).curReqNum % sessionReqWindow = i := hG.numbers.slot
  have hroll : (s.client.slots i).rolledBack.numTx = (s.client.slots i).numRx := rfl
  rw [kick, hx, hbuf]
  dsimp only
  by_cases hreq : (s.client.slots i).numRx < r.pkts D
  · have hpend : (s.client.slots i).rolledBack.numTx < (r.buf (s.client.slots i).curReqNum).numPkts D := hreq
    have hsent : (s.client.slots i).numTx ≤ r.pkts D := by
      cases hb.stage with
      | sending _ h2 => exact h2
      | receiving _ _ h2 _ _ _ _ _ => omega
    rw [if_pos hpend]
    obtain ⟨k, hk, hkick⟩ := kickReq_eq (D := D) u hx hbuf hpos
    rw [show (r.buf (s.client.slots i).curReqNum).numPkts D = r.pkts D from rfl, hroll] at hk
    rw [hroll] at hkick
    have hle : (s.client.slots i).numTx ≤ (s.client.slots i).numRx + k := by omega
    rcases hkick with hkick | hkick
    · refine ⟨_, hkick, ?_, hback, hfree⟩
      refine h.clientPosts i _ (hshared (by omega) rfl rfl rfl) (hothers _) (by rw [← hbatch]) ?_ ⟨G, ?_⟩
      · intro p hp
        obtain ⟨n, _, _, rfl⟩ := mem_map_pkt hp
        exact hslot
      · simp only [Client.setSlot_slots, Function.update_self]
        exact hG.resend hb hle (by omega) (by omega)
    · refine ⟨_, hkick, ?_, hback, hfree⟩
      refine h.clientPosts i [] (hshared (by omega) rfl rfl rfl) (hothers _) ?_ (by simp) ⟨G, ?_⟩
      · rw [List.append_nil]
        exact hbatch
      · simp only [Client.setSlot_slots, Function.update_self, List.append_nil]
        exact hG.resendWheel hb hle (by omega) (by omega) hwheel
  · have hno : ¬ (s.client.slots i).rolledBack.numTx < (r.buf (s.client.slots i).curReqNum).numPkts D := hreq
    obtain ⟨m, hm, hsize, hnum, hmore⟩ := hb.stage.response (Nat.le_of_not_lt hreq)
    have hpkts : (s.client.slots i).respMsgbuf.numPkts D = m.pkts D := by
      rw [MsgBuffer.numPkts, hsize]
      rfl
    have hwire : wirePkts D (r.buf (s.client.slots i).curReqNum) (s.client.slots i).respMsgbuf = r.pkts D + m.pkts D - 1 := by
      rw [wirePkts, hpkts]
      rfl
    have hsent : (s.client.slots i).numTx + 1 ≤ r.pkts D + m.pkts D := by
      cases hb.stage with
      | sending h1 _ => omega
      | receiving m' h1 _ _ h4 _ _ _ =>
        rw [hm] at h1
        cases h1
        exact h4
    rw [if_neg hno]
    obtain ⟨k, hk, hkick⟩ := kickRfr_eq (a := (s.client.slots i).respMsgbuf) hx rfl hbuf hpos (Nat.le_of_not_lt hreq)
      (by rw [hwire]; exact (by omega : (s.client.slots i).numRx < r.pkts D + m.pkts D - 1))
    rw [hroll, hwire] at hk
    rw [hroll] at hkick
    refine ⟨_, hkick, ?_, hback, hfree⟩
    refine h.clientPosts i _ (hshared (by omega) rfl rfl rfl) (hothers _) (by rw [← hbatch]) ?_ ⟨G, ?_⟩
    · intro p hp
      obtain ⟨n, _, _, rfl⟩ := mem_map_rfr hp
      rw [show (rfrPkt (s.client.slots i).respMsgbuf n).reqNum = (s.client.slots i).respMsgbuf.reqNum from rfl, hnum]
      exact hslot
    · simp only [Client.setSlot_slots, Function.update_self]
      exact hG.resendRfr hb (Nat.le_of_not_lt hreq) (by omega) (by omega) (by omega)

/-- `pkt_loss_retransmit_st`, and the batch is posted. -/
theorem pktLossRetransmit_keeps (u : Bool) (h : Inv D s log) (hi : i < sessionReqWindow)
    (htx : (s.client.slots i).txMsgbuf.isSome) :
    ∃ c, pktLossRetransmit D u i s.client = .ok c ∧ Inv D (s.clientBurst c) log ∧ c.backlog = s.client.backlog ∧
      c.freeVec = s.client.freeVec := by
  obtain ⟨G, hG⟩ := h.slots i hi
  obtain ⟨r, hb⟩ := hG.client.busy htx
  have hcr := h.shared.unanswered_le hi
  rw [ClientSlot.unanswered] at hcr
  rw [pktLossRetransmit]
  dsimp only
  rw [if_neg (by rw [hb.buf]; simp), if_neg (by omega)]
  by_cases hdelta : (s.client.slots i).numTx - (s.client.slots i).numRx = 0
  · rw [if_pos hdelta]
    exact ⟨_, rfl, h.clientDrain, rfl, rfl⟩
  · rw [if_neg hdelta, if_neg (h.shared.not_stalled (.inr (by omega)))]
    by_cases hwheel : 0 < (s.client.slots i).wheelCount
    · rw [if_pos hwheel]
      exact ⟨_, rfl, h.clientDrain, rfl, rfl⟩
    · rw [if_neg hwheel]
      have hnil : (s.client.slots i).wheel = [] := by
        rw [hG.client.count] at hwheel
        exact List.eq_nil_of_length_eq_zero (by omega)
      exact kick_again u h hi htx (by omega) hnil rfl

/-- `do_tx_burst_st` at the client. -/
theorem Inv.postClient (h : Inv D s log) (n : ℕ) :
    Inv D { s with client := { s.client with txBatch := s.client.txBatch.drop n }, up := s.up ++ s.client.txBatch.take n } log := by
  refine ⟨h.shared.withBatch _, ?_⟩
  intro j hj
  obtain ⟨G, hG⟩ := h.slots j hj
  have hsplit : (s.net j).batch = mine j (s.client.txBatch.take n) ++ mine j (s.client.txBatch.drop n) := by
    rw [← mine_append, List.take_append_drop]
    rfl
  exact ⟨G, by simpa only [Sys.net, mine_append] using hG.burst hsplit⟩

/-- `do_tx_burst_st` at the server. -/
theorem Inv.postServer (h : Inv D s log) (n : ℕ) :
    Inv D { s with server := { s.server with txBatch := s.server.txBatch.drop n }, down := s.down ++ s.server.txBatch.take n }
      log := by
  refine ⟨h.shared, ?_⟩
  intro j hj
  obtain ⟨G, hG⟩ := h.slots j hj
  have hsplit : (s.net j).replies = mine j (s.server.txBatch.take n) ++ mine j (s.server.txBatch.drop n) := by
    rw [← mine_append, List.take_append_drop]
    rfl
  exact ⟨G, by simpa only [Sys.net, mine_append] using hG.serverBurst hsplit⟩

theorem serverDid_client (s : Sys) (o : Outcome) : (s.serverDid o).client = s.client := by
  unfold Sys.serverDid
  split <;> rfl

/-- The server has dealt with one slot. -/
theorem Inv.serverDid (h : Inv D s log) {o : Outcome}
    (hd : Did D (s.net i) i (s.client.slots i) (ofSlot i log) s.server o) : Inv D (s.serverDid o) (log ++ o.events) := by
  obtain ⟨hothers, hevents, ps, G, hbatch, hps, hslot⟩ := hd
  refine ⟨by rw [serverDid_client]; exact h.shared, ?_⟩
  intro j hj
  by_cases hji : j = i
  · subst hji
    refine ⟨G, ?_⟩
    rw [ofSlot_append, ofSlot_self hevents]
    cases hdrain : o.drain with
    | true =>
      rw [hdrain] at hslot
      simpa [Sys.serverDid, hdrain, Sys.net, Net.answer, hbatch, mine_self hps] using hslot
    | false =>
      rw [hdrain] at hslot
      simpa [Sys.serverDid, hdrain, Sys.net, Net.answer, hbatch, mine_self hps] using hslot
  · obtain ⟨G', hG'⟩ := h.slots j hj
    rw [ofSlot_append, ofSlot_other hevents hji, List.append_nil]
    cases hdrain : o.drain with
    | true =>
      have hburst := hG'.serverBurst (List.append_nil _).symm
      exact ⟨G', by simpa [Sys.serverDid, hdrain, Sys.net, hbatch, mine_other hps hji, hothers j hji] using hburst⟩
    | false =>
      exact ⟨G', by simpa [Sys.serverDid, hdrain, Sys.net, hbatch, mine_other hps hji, hothers j hji] using hG'⟩

theorem serverComp_keeps (hD : 0 < D) (fresh : Bytes) (h : Inv D s log) (hp : p ∈ s.up) :
    ∃ o, serverComp D fresh p s.server = .ok o ∧ Inv D (s.serverDid o) (log ++ o.events) := by
  obtain ⟨G, hG⟩ := h.slots _ (reqNum_mod_lt p)
  have hmem : p ∈ (s.net (p.reqNum % sessionReqWindow)).up := mem_mine.2 ⟨hp, rfl⟩
  obtain ⟨o, hok, hd⟩ := serverComp_did hD fresh hG hmem
  exact ⟨o, hok, h.serverDid hd⟩

theorem enqueueResponse_keeps (hD : 0 < D) (h : Inv D s log) (hi : i < sessionReqWindow)
    (hty : (s.server.slots i).reqType ≠ invalidReqType) (m : Msg) :
    ∃ o, enqueueResponse D i m s.server = .ok o ∧ Inv D (s.serverDid o) (log ++ o.events) := by
  obtain ⟨G, hG⟩ := h.slots i hi
  obtain ⟨o, hok, hd⟩ := enqueueResponse_did hD hG hty m
  exact ⟨o, hok, h.serverDid hd⟩

/-- Every step keeps what holds of the session. -/
theorem Step.keeps (hD : 0 < D) {s' : Sys} {es : List Event} (hst : Step D s es s') (h : Inv D s log) (hq : Queued s.client) :
    Inv D s' (log ++ es) ∧ Queued s'.client := by
  cases hst with
  | enqueue u r hr hok =>
    obtain ⟨c, es', hok', hinv, hq'⟩ := enqueueRequest_keeps hD u h hq hr
    rw [hok] at hok'
    cases hok'
    exact ⟨hinv, hq'⟩
  | clientRecv u hp hok =>
    obtain ⟨c, es', hok', hinv, hq'⟩ := clientComp_keeps hD u h hq hp
    rw [hok] at hok'
    cases hok'
    exact ⟨hinv, hq'⟩
  | stallQueue u hok =>
    obtain ⟨c, hok', hinv, hq'⟩ := processCreditStallQueue_keeps hD u h hq
    rw [hok] at hok'
    cases hok'
    rw [List.append_nil]
    exact ⟨hinv, hq'⟩
  | reap i n hi hn hok =>
    obtain ⟨c, hok', hinv, hb, hf⟩ := reapOne_keeps h hi hn
    rw [hok] at hok'
    cases hok'
    rw [List.append_nil]
    exact ⟨hinv, hq.congr hb hf⟩
  | retransmit u i hi htx hok =>
    obtain ⟨c, hok', hinv, hb, hf⟩ := pktLossRetransmit_keeps u h hi htx
    rw [hok] at hok'
    cases hok'
    rw [List.append_nil]
    exact ⟨hinv, hq.congr hb hf⟩
  | clientBurst n =>
    rw [List.append_nil]
    exact ⟨h.postClient n, hq.congr rfl rfl⟩
  | serverRecv fresh hp hok =>
    obtain ⟨o, hok', hinv⟩ := serverComp_keeps hD fresh h hp
    rw [hok] at hok'
    cases hok'
    exact ⟨hinv, by rw [serverDid_client]; exact hq⟩
  | respond i m hi hty hok =>
    obtain ⟨o, hok', hinv⟩ := enqueueResponse_keeps hD h hi hty m
    rw [hok] at hok'
    cases hok'
    exact ⟨hinv, by rw [serverDid_client]; exact hq⟩
  | serverBurst n =>
    rw [List.append_nil]
    exact ⟨h.postServer n, hq⟩

/-! ## Runs -/

theorem initial_inv (b b' : MsgBuffer) : Inv D ⟨.initial b, .initial b', [], []⟩ [] := by
  refine ⟨⟨?_, List.nodup_range, ?_, List.nodup_nil, by simp [Client.initial]⟩, ?_⟩
  · simp [Client.initial, Client.unanswered, ClientSlot.unanswered]
  · intro i
    simp [Client.initial]
  · intro i hi
    refine ⟨⟨fun _ => none, fun _ => none⟩, ⟨?_, ?_, ?_, ?_, ?_, ?_⟩⟩
    · exact ⟨Nat.mod_eq_of_lt hi, .inl rfl, fun _ => rfl, by simp, by simp⟩
    · exact ⟨List.nodup_nil, rfl, by simp [Client.initial], fun _ => ⟨rfl, rfl⟩, by simp [Client.initial], by simp⟩
    · exact .fresh rfl rfl rfl rfl
    · constructor <;> simp [Sys.net, Client.initial]
    · constructor <;> simp [Sys.net, Server.initial]
    · exact ⟨.idle, .idle rfl, .nil rfl⟩

/-- What holds of the session holds along every run. -/
theorem inv_of_run (hD : 0 < D) {s₀ : Sys} {es : List (List Event)} (h : (system D).Run s₀ es s) :
    Inv D s es.flatten ∧ Queued s.client := by
  refine h.of_restrict.invariant (fun es s => Inv D s es.flatten ∧ Queued s.client) ?_ ?_
  · rintro ⟨b, b', rfl⟩
    exact ⟨initial_inv b b', by simp [Client.initial], by simp [Client.initial]⟩
  · rintro es s e s' _ ⟨hinv, hq⟩ hst
    rw [List.flatten_append, List.flatten_singleton]
    exact Step.keeps hD hst hinv hq

end CcKvs.Erpc
