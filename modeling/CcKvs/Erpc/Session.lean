/-
Every function of the client does what it should in a session where all is well:
it meets no assertion, and all is well afterwards.
-/
import CcKvs.Erpc.Ledger
import Mathlib

namespace CcKvs.Erpc

variable {D : ℕ} {G : Calls} {net : Net} {i : ℕ} {v : ServerSlot} {log : List Event} {p : Pkt} {c : Client} {s : Sys}
  {r : Request} {m : Msg}

theorem Shared.withBatch (h : Shared c) (b : List Pkt) : Shared { c with txBatch := b } :=
  ⟨h.credits, h.freeNodup, h.free, h.stallNodup, h.stalled⟩

theorem Queued.congr {c' : Client} (h : Queued c) (hb : c'.backlog = c.backlog) (hf : c'.freeVec = c.freeVec) : Queued c' where
  full := by
    rw [hb, hf]
    exact h.full
  valid := by
    rw [hb]
    exact h.valid

/-- The client has dealt with slot `i` and with no other. -/
theorem Inv.clientStep (h : Inv D s log) (i : ℕ) {c' : Client} {es : List Event} (ps : List Pkt) (hshared : Shared c')
    (hothers : ∀ j, j ≠ i → c'.slots j = s.client.slots j) (hbatch : c'.txBatch = s.client.txBatch ++ ps)
    (hps : ∀ p ∈ ps, p.reqNum % sessionReqWindow = i) (hes : ∀ e ∈ es, e.reqNum % sessionReqWindow = i)
    (hslot : ∃ G, SlotInv D G { s.net i with batch := (s.net i).batch ++ ps } i (c'.slots i) (s.server.slots i)
      (ofSlot i log ++ es)) : Inv D { s with client := c' } (log ++ es) := by
  refine ⟨hshared, ?_⟩
  intro j hj
  by_cases hji : j = i
  · subst hji
    rw [ofSlot_append, ofSlot_self hes]
    simpa only [Sys.net, hbatch, mine_append, mine_self hps] using hslot
  · rw [ofSlot_append, ofSlot_other hes hji, List.append_nil, hothers j hji]
    simpa only [Sys.net, hbatch, mine_append, mine_other hps hji, List.append_nil] using h.slots j hj

/-- As before, and the application has seen nothing. -/
theorem Inv.clientQuiet (h : Inv D s log) (i : ℕ) {c' : Client} (ps : List Pkt) (hshared : Shared c')
    (hothers : ∀ j, j ≠ i → c'.slots j = s.client.slots j) (hbatch : c'.txBatch = s.client.txBatch ++ ps)
    (hps : ∀ p ∈ ps, p.reqNum % sessionReqWindow = i)
    (hslot : ∃ G, SlotInv D G { s.net i with batch := (s.net i).batch ++ ps } i (c'.slots i) (s.server.slots i)
      (ofSlot i log)) : Inv D { s with client := c' } log := by
  rw [← List.append_nil log]
  refine h.clientStep i ps hshared hothers hbatch hps (by simp) ?_
  rwa [List.append_nil]

/-- As before, and the client has posted its batch. -/
theorem Inv.clientPosts (h : Inv D s log) (i : ℕ) {c' : Client} (ps : List Pkt) (hshared : Shared c')
    (hothers : ∀ j, j ≠ i → c'.slots j = s.client.slots j) (hbatch : c'.txBatch = s.client.txBatch ++ ps)
    (hps : ∀ p ∈ ps, p.reqNum % sessionReqWindow = i)
    (hslot : ∃ G, SlotInv D G { s.net i with up := (s.net i).up ++ ((s.net i).batch ++ ps), batch := [] } i (c'.slots i)
      (s.server.slots i) (ofSlot i log)) : Inv D (s.clientBurst c') log := by
  refine ⟨hshared.withBatch [], ?_⟩
  intro j hj
  by_cases hji : j = i
  · subst hji
    simpa only [Sys.net, Sys.clientBurst, hbatch, mine_append, mine_self hps, mine_nil] using hslot
  · obtain ⟨G, hG⟩ := h.slots j hj
    have hburst := hG.burst (List.append_nil _).symm
    refine ⟨G, ?_⟩
    simpa only [Sys.net, Sys.clientBurst, hbatch, mine_append, mine_other hps hji, List.append_nil, mine_nil, hothers j hji]
      using hburst

/-! ## Sending -/

/-- Each packet sent costs a credit. -/
theorem unanswered_sent {x y : ClientSlot} {k cr : ℕ} (htx : x.numTx = y.numTx + k) (hrx : x.numRx = y.numRx)
    (hle : y.numRx ≤ y.numTx) (hk : k ≤ cr) : cr - k + x.unanswered = cr + y.unanswered := by
  rw [ClientSlot.unanswered, ClientSlot.unanswered, htx, hrx]
  omega

/-- What `kick_req_st` does when there is a credit: the packets go into the batch or into the wheel. -/
theorem kickReq_eq (u : Bool) {x : ClientSlot} {b : MsgBuffer} (hx : c.slots i = x) (htx : x.txMsgbuf = some b)
    (hpos : 0 < c.credits) :
    ∃ k, k = min c.credits (b.numPkts D - x.numTx) ∧
      (kickReq D u i c = .ok { c.setSlot i (x.sent k) with
          credits := c.credits - k
          txBatch := c.txBatch ++ (List.range' x.numTx k).map (b.pkt D) } ∨
        kickReq D u i c = .ok { c.setSlot i ((x.sent k).enqueueWheelReq (List.range' x.numTx k)) with
          credits := c.credits - k }) := by
  refine ⟨_, rfl, ?_⟩
  rw [kickReq, hx, htx]
  dsimp only
  rw [if_neg hpos.ne']
  by_cases hbypass : x.wheelCount = 0 ∧ u = true
  · rw [if_pos hbypass]
    exact .inl rfl
  · rw [if_neg hbypass]
    exact .inr rfl

/-- `kick_req_st` sends packets of the request, at least one when one is pending. -/
theorem kickReq_spec (u : Bool) (h : SlotInv D G net i (c.slots i) v log) (hb : Busy D G net.down (c.slots i) r)
    (hpos : 0 < c.credits) (hcr : c.credits + (c.slots i).unanswered ≤ sessionCredits)
    (hpend : (c.slots i).numTx < r.pkts D) :
    ∃ k ps x, kickReq D u i c = .ok { c.setSlot i x with credits := c.credits - k, txBatch := c.txBatch ++ ps } ∧
      0 < k ∧ k ≤ c.credits ∧ x.numTx = (c.slots i).numTx + k ∧ x.numRx = (c.slots i).numRx ∧
      x.txMsgbuf = (c.slots i).txMsgbuf ∧ (∀ p ∈ ps, p.reqNum = (c.slots i).curReqNum) ∧
      SlotInv D G { net with batch := net.batch ++ ps } i x v log := by
  have hle := hb.le
  rw [ClientSlot.unanswered] at hcr
  obtain ⟨k, hk, hkick⟩ := kickReq_eq (D := D) u rfl hb.buf hpos
  rw [show (r.buf (c.slots i).curReqNum).numPkts D = r.pkts D from rfl] at hk
  have hk1 : (c.slots i).numTx + k ≤ r.pkts D := by omega
  have hk2 : (c.slots i).numTx + k ≤ (c.slots i).numRx + sessionCredits := by omega
  rcases hkick with hkick | hkick
  · refine ⟨k, _, _, hkick, by omega, by omega, rfl, rfl, rfl, ?_, h.post hb hk1 hk2⟩
    intro p hp
    obtain ⟨n, _, _, rfl⟩ := mem_map_pkt hp
    rfl
  · refine ⟨k, [], ((c.slots i).sent k).enqueueWheelReq (List.range' (c.slots i).numTx k), ?_, by omega, by omega, rfl, rfl, rfl,
      by simp, ?_⟩
    · rw [hkick, List.append_nil]
      rfl
    · rw [List.append_nil]
      exact h.postWheel hb hk1 hk2

/-- A slot that the stall queue holds has a request in it and has sent nothing. -/
theorem Shared.not_stalled (h : Shared c) (hx : (c.slots i).txMsgbuf = none ∨ 0 < (c.slots i).numTx) : i ∉ c.stallq := by
  intro hin
  obtain ⟨_, h1, h2, _⟩ := h.stalled i hin
  rcases hx with hx | hx
  · rw [hx] at h1
    cases h1
  · omega

/-- `enqueue_request` while a slot is free. -/
theorem enqueueRequest_free (hD : 0 < D) (u : Bool) (h : Inv D s log) {free : List ℕ} (hfree : s.client.freeVec = i :: free)
    (hr : r.reqType ≠ invalidReqType) :
    ∃ c q, enqueueRequest D u r s.client = .ok (c, [.call q r]) ∧ Inv D { s with client := c } (log ++ [.call q r]) ∧
      c.backlog = s.client.backlog ∧ c.freeVec = free := by
  obtain ⟨hi, htx⟩ := (h.shared.free i).1 (by rw [hfree]; exact List.mem_cons_self)
  obtain ⟨G, hG⟩ := h.slots i hi
  have hacc := hG.accept hD htx hr
  have hidle : (s.client.slots i).unanswered = 0 := by
    rw [ClientSlot.unanswered, (hG.client.idle htx).1, Nat.sub_self]
  have hnot := h.shared.not_stalled (.inl htx)
  have hslot : (s.client.slots i).curReqNum % sessionReqWindow = i := hG.numbers.slot
  have hcall : ∀ e ∈ [Event.call ((s.client.slots i).curReqNum + sessionReqWindow) r], e.reqNum % sessionReqWindow = i := by
    intro e he
    rw [List.mem_singleton.1 he, Event.reqNum, Nat.add_mod_right]
    exact hslot
  rw [enqueueRequest, hfree]
  simp only [htx, Option.isSome_none, Bool.false_eq_true, if_false]
  by_cases hcr : 0 < s.client.credits
  · rw [if_pos hcr]
    have hshared := h.shared.accept hfree (x := (s.client.slots i).accept r) rfl rfl rfl hidle (.inl rfl)
    generalize hc₁ : ({ s.client.setSlot i ((s.client.slots i).accept r) with freeVec := free } : Client) = c₁ at *
    have hx₁ : c₁.slots i = (s.client.slots i).accept r := by
      rw [← hc₁]
      exact Function.update_self ..
    have hshared₁ : Shared c₁ := by
      rw [← hc₁]
      exact hshared
    rw [← hx₁] at hacc
    obtain ⟨r', hb⟩ := hacc.client.busy (by rw [hx₁]; rfl)
    have hpend : (c₁.slots i).numTx < r'.pkts D := by
      rw [hx₁]
      exact Chunks.count_pos hD _
    have hpos : 0 < c₁.credits := by
      rw [← hc₁]
      exact hcr
    obtain ⟨k, ps, x, hkick, h1, h2, h3, h4, h5, h6, h7⟩ :=
      kickReq_spec u hacc hb hpos (hshared₁.unanswered_le hi) hpend
    rw [hkick]
    refine ⟨_, _, rfl, h.clientStep i ps ?_ ?_ ?_ ?_ hcall ⟨G.call ((s.client.slots i).curReqNum + sessionReqWindow) r, ?_⟩, ?_, ?_⟩
    · refine hshared₁.setSlot hi (unanswered_sent h3 h4 hb.le h2) (by rw [h5]) ?_
      rw [← hc₁]
      exact hnot
    · intro j hj
      simp [← hc₁, hj]
    · rw [← hc₁]
      rfl
    · intro p hp
      rw [h6 p hp, hx₁, ClientSlot.accept, Nat.add_mod_right]
      exact hslot
    · simp only [Client.setSlot_slots, Function.update_self]
      exact h7
    · rw [← hc₁]
      rfl
    · rw [← hc₁]
      rfl
  · rw [if_neg hcr]
    refine ⟨_, _, rfl, h.clientStep i [] ?_ ?_ (List.append_nil _).symm (by simp) hcall ⟨G.call ((s.client.slots i).curReqNum + sessionReqWindow) r, ?_⟩, rfl, rfl⟩
    · exact h.shared.accept hfree rfl rfl rfl hidle (.inr rfl)
    · intro j hj
      simp [hj]
    · simp only [Client.setSlot_slots, Function.update_self, List.append_nil]
      exact hacc

/-- `enqueue_request`. -/
theorem enqueueRequest_keeps (hD : 0 < D) (u : Bool) (h : Inv D s log) (hq : Queued s.client) (hr : r.reqType ≠ invalidReqType) :
    ∃ c es, enqueueRequest D u r s.client = .ok (c, es) ∧ Inv D { s with client := c } (log ++ es) ∧ Queued c := by
  cases hfree : s.client.freeVec with
  | nil =>
    have hok : enqueueRequest D u r s.client = .ok ({ s.client with backlog := s.client.backlog ++ [r] }, []) := by
      unfold enqueueRequest
      split
      · rfl
      · next hcons =>
        rw [hfree] at hcons
        cases hcons
    refine ⟨_, [], hok, ?_, ?_⟩
    · rw [List.append_nil]
      exact ⟨⟨h.shared.credits, h.shared.freeNodup, h.shared.free, h.shared.stallNodup, h.shared.stalled⟩, h.slots⟩
    · refine ⟨fun _ => hfree, ?_⟩
      intro r' hr'
      rcases List.mem_append.1 hr' with hr' | hr'
      · exact hq.valid r' hr'
      · rw [List.mem_singleton.1 hr']
        exact hr
  | cons i free =>
    obtain ⟨c, q, hok, hinv, hback, _⟩ := enqueueRequest_free hD u h hfree hr
    have hempty : s.client.backlog = [] := by
      by_contra hne
      rw [hq.full hne] at hfree
      cases hfree
    refine ⟨c, _, hok, hinv, ?_, ?_⟩
    · intro hne
      rw [hback] at hne
      exact absurd hempty hne
    · intro r' hr'
      rw [hback, hempty] at hr'
      cases hr'

/-! ## Receiving -/

theorem reqNum_mod_lt (p : Pkt) : p.reqNum % sessionReqWindow < sessionReqWindow := Nat.mod_lt _ sessionReqWindow_pos

/-- The slot that a packet for the client is for. -/
theorem Inv.down_slot (h : Inv D s log) (hp : p ∈ s.down) :
    ∃ G, SlotInv D G (s.net (p.reqNum % sessionReqWindow)) (p.reqNum % sessionReqWindow)
        (s.client.slots (p.reqNum % sessionReqWindow)) (s.server.slots (p.reqNum % sessionReqWindow))
        (ofSlot (p.reqNum % sessionReqWindow) log) ∧
      p ∈ (s.net (p.reqNum % sessionReqWindow)).down ∧ DownPkt D G p ∧
      ¬ (s.client.slots (p.reqNum % sessionReqWindow)).curReqNum < p.reqNum := by
  obtain ⟨G, hG⟩ := h.slots _ (reqNum_mod_lt p)
  have hmem : p ∈ (s.net (p.reqNum % sessionReqWindow)).down := mem_mine.2 ⟨hp, rfl⟩
  have hcontent := hG.down.content p (.inl hmem)
  obtain ⟨r, hr⟩ := hcontent.known
  exact ⟨G, hG, hmem, hcontent, Nat.not_lt.2 (hG.numbers.called hr).2.2.1⟩

theorem ClientSlot.inOrder.lt {x : ClientSlot} (ho : x.inOrder p) : x.numRx < x.numTx := by
  have := ho.2.2.1
  rwa [ho.2.1] at this

/-- A packet taken in gives its credit back. -/
theorem unanswered_take {x y : ClientSlot} {cr : ℕ} (htx : x.numTx = y.numTx) (hrx : x.numRx = y.numRx + 1)
    (hlt : y.numRx < y.numTx) : cr + 1 + x.unanswered = cr + y.unanswered := by
  rw [ClientSlot.unanswered, ClientSlot.unanswered, htx, hrx]
  omega

theorem Shared.credits_lt (h : Shared c) (hi : i < sessionReqWindow) (hlt : (c.slots i).numRx < (c.slots i).numTx) :
    ¬ sessionCredits ≤ c.credits := by
  have := h.unanswered_le hi
  rw [ClientSlot.unanswered] at this
  omega

/-- `process_expl_cr_st`. -/
theorem processExplCr_keeps (u : Bool) (h : Inv D s log) (hp : p ∈ s.down) (ht : p.pktType = .explCr) :
    ∃ c, processExplCr D u (p.reqNum % sessionReqWindow) p s.client = .ok c ∧ Inv D { s with client := c } log ∧
      c.backlog = s.client.backlog ∧ c.freeVec = s.client.freeVec := by
  have hi := reqNum_mod_lt p
  obtain ⟨G, hG, hmem, _, hfuture⟩ := h.down_slot hp
  generalize p.reqNum % sessionReqWindow = i at *
  rw [processExplCr]
  simp only [if_neg hfuture]
  by_cases ho : (s.client.slots i).inOrder p
  · have hlt := ho.lt
    obtain ⟨r, hb⟩ := hG.busy_of_lt hlt
    obtain ⟨htake, hbusy⟩ := hG.takeCr hb hmem ho ht
    have hnot := h.shared.not_stalled (.inr (Nat.zero_lt_of_lt hlt))
    have hcr := h.shared.credits_lt hi hlt
    have hx₁ : (s.client.takeIn i).slots i = (s.client.slots i).received := Function.update_self ..
    have hshared : Shared (s.client.takeIn i) :=
      h.shared.setSlot hi (unanswered_take rfl rfl hlt) Iff.rfl hnot
    rw [if_neg (not_not.2 ho), if_neg hcr, hb.buf]
    dsimp only
    by_cases hpend : (s.client.slots i).numTx < ((r.buf (s.client.slots i).curReqNum).numPkts D)
    · rw [if_pos hpend]
      rw [← hx₁] at htake hbusy
      have hpend' : ((s.client.takeIn i).slots i).numTx < r.pkts D := by
        rw [hx₁]
        exact hpend
      obtain ⟨k, ps, x, hkick, h1, h2, h3, h4, h5, h6, h7⟩ :=
        kickReq_spec u htake hbusy (Nat.succ_pos _) (hshared.unanswered_le hi) hpend'
      refine ⟨_, hkick, ?_, rfl, rfl⟩
      refine h.clientQuiet i ps (hshared.setSlot hi (unanswered_sent h3 h4 hbusy.le h2) (by rw [h5]) hnot) ?_ rfl ?_ ⟨G, ?_⟩
      · intro j hj
        simp [Client.takeIn, hj]
      · intro p' hp'
        rw [h6 p' hp', hx₁]
        exact hG.numbers.slot
      · simp only [Client.setSlot_slots, Function.update_self]
        exact h7
    · rw [if_neg hpend]
      refine ⟨_, rfl, ?_, rfl, rfl⟩
      refine h.clientQuiet i [] hshared ?_ (List.append_nil _).symm (by simp) ⟨G, ?_⟩
      · intro j hj
        simp [Client.takeIn, hj]
      · rw [hx₁]
        simpa only [List.append_nil] using htake
  · rw [if_pos ho]
    exact ⟨_, rfl, h, rfl, rfl⟩

/-- The end of a call. The response is complete, the slot is given back, and if a request waits
in the backlog it gets the slot at once. -/
theorem finishResp_keeps (hD : 0 < D) (u : Bool) (h : Inv D s log) (hq : Queued s.client) (hi : i < sessionReqWindow)
    (hlt : (s.client.slots i).numRx < (s.client.slots i).numTx) {y : ClientSlot}
    (hc : c = { s.client.setSlot i y with credits := s.client.credits + 1 }) (hwheel : y.wheelCount = 0)
    (htx : y.numTx = (s.client.slots i).numTx) (hrx : y.numRx = (s.client.slots i).numRx + 1)
    (hbusy : (s.client.slots i).txMsgbuf ≠ none)
    (hslot : ∃ G, SlotInv D G (s.net i) i y.freed (s.server.slots i)
      (ofSlot i log ++ [.done y.curReqNum y.tag y.respMsgbuf.bytes])) :
    ∃ c' es, finishResp D u i c = .ok (c', es) ∧ Inv D { s with client := c' } (log ++ es) ∧ Queued c' := by
  have hyi : c.slots i = y := by
    rw [hc]
    exact Function.update_self ..
  have hnum : y.curReqNum % sessionReqWindow = i := by
    obtain ⟨G, hG⟩ := hslot
    exact hG.numbers.slot
  have hnot := h.shared.not_stalled (.inr (Nat.zero_lt_of_lt hlt))
  -- the client with the slot given back
  have hdone : Inv D { s with client := c.release i } (log ++ [.done y.curReqNum y.tag y.respMsgbuf.bytes]) := by
    rw [Client.release, hyi]
    refine h.clientStep i [] ?_ ?_ ?_ (by simp) ?_ ?_
    · have hcr : s.client.credits + 1 + y.freed.unanswered =
          s.client.credits + (s.client.slots i).unanswered := unanswered_take htx hrx hlt
      have hrel := h.shared.release hi rfl hcr hbusy hnot
      subst hc
      exact ⟨by simpa [Client.unanswered, Client.setSlot] using hrel.credits, hrel.freeNodup, by simpa [Client.setSlot] using hrel.free,
        hrel.stallNodup, by simpa [Client.setSlot] using hrel.stalled⟩
    · intro j hj
      subst hc
      simp [hj]
    · subst hc
      exact (List.append_nil _).symm
    · intro e he
      rw [List.mem_singleton.1 he]
      exact hnum
    · obtain ⟨G, hG⟩ := hslot
      refine ⟨G, ?_⟩
      simpa only [Client.setSlot_slots, Function.update_self, List.append_nil] using hG
  have hback : c.backlog = s.client.backlog := by
    subst hc
    rfl
  have hfreeVec : c.freeVec = s.client.freeVec := by
    subst hc
    rfl
  unfold finishResp
  simp only [hyi, hwheel, ne_eq, not_true_eq_false, if_false]
  split
  · next hnil =>
    refine ⟨_, _, rfl, hdone, ?_, ?_⟩
    · intro hne
      exact absurd hnil hne
    · intro r hr
      rw [show (c.release i).backlog = [] from hnil] at hr
      cases hr
  · next r rest hcons =>
    rw [hback] at hcons
    have hempty : s.client.freeVec = [] := hq.full (by rw [hcons]; exact List.cons_ne_nil _ _)
    rw [if_neg (by simp [Client.release, hfreeVec, hempty])]
    have hvalid : r.reqType ≠ invalidReqType := hq.valid r (by rw [hcons]; exact List.mem_cons_self)
    obtain ⟨c', q, hok, hinv, hb', hf'⟩ := enqueueRequest_free hD u hdone rfl hvalid
    rw [hok]
    refine ⟨_, _, rfl, ?_, ?_, ?_⟩
    · have := hinv
      rw [List.append_assoc] at this
      exact ⟨⟨this.shared.credits, this.shared.freeNodup, this.shared.free, this.shared.stallNodup, this.shared.stalled⟩, this.slots⟩
    · intro _
      exact hf'.trans (hfreeVec.trans hempty)
    · intro r' hr'
      have hmem := List.mem_of_mem_tail hr'
      rw [hb'] at hmem
      exact hq.valid r' (hback ▸ hmem)

/-- `kick_rfr_st` once the first response packet is there. -/
theorem kickRfr_eq {x : ClientSlot} {a b : MsgBuffer} (hx : c.slots i = x) (ha : x.respMsgbuf = a) (htx : x.txMsgbuf = some b)
    (hpos : 0 < c.credits) (hlo : b.numPkts D ≤ x.numRx) (hhi : x.numRx < wirePkts D b a) :
    ∃ k, k = min c.credits (wirePkts D b a - x.numTx) ∧
      kickRfr D i c = .ok { c.setSlot i (x.sent k) with
        credits := c.credits - k
        txBatch := c.txBatch ++ (List.range' x.numTx k).map (rfrPkt a) } := by
  refine ⟨_, rfl, ?_⟩
  rw [kickRfr, hx, htx, ha]
  dsimp only
  rw [if_neg hpos.ne', if_neg (Nat.not_lt.2 hlo), if_neg (Nat.not_le.2 hhi)]
  rfl

theorem takeIn_setSlot (c : Client) (i : ℕ) (y : ClientSlot) :
    (c.takeIn i).setSlot i y = { c.setSlot i y with credits := c.credits + 1 } := by
  simp [Client.takeIn, Client.setSlot]

/-- `process_resp_one_st` for a response of one packet. -/
theorem processSmallResp_keeps (hD : 0 < D) (u : Bool) (h : Inv D s log) (hq : Queued s.client) (hi : i < sessionReqWindow)
    (hG : SlotInv D G (s.net i) i (s.client.slots i) (s.server.slots i) (ofSlot i log))
    (hb : Busy D G (s.net i).down (s.client.slots i) r) (hmem : p ∈ (s.net i).down) (ho : (s.client.slots i).inOrder p)
    (ht : p.pktType = .resp) (hs : p.msgSize ≤ D) {c : Client}
    (hc : c = (s.client.takeIn i).setSlot i ((s.client.slots i).received.withResp
      { (s.client.slots i).respMsgbuf.takeHeader p with
        data := (s.client.slots i).respMsgbuf.data.write 0 p.data p.msgSize })) :
    ∃ c' es, finishResp D u i c = .ok (c', es) ∧ Inv D { s with client := c' } (log ++ es) ∧ Queued c' := by
  obtain ⟨m, n, hm, hn, hnum, hpkt⟩ := hG.respPkt hD hb hmem ho ht
  have hsize : p.msgSize = m.size := congrArg Pkt.msgSize hpkt
  have hone : m.pkts D = 1 := Chunks.count_of_le (hsize ▸ hs)
  obtain rfl : n = 0 := by omega
  have hlast : (s.client.slots i).numRx + 2 = r.pkts D + m.pkts D := by omega
  have hdata : p.data = m.data := by
    rw [congrArg Pkt.data hpkt]
    simp [MsgBuffer.pkt, Msg.respBuf, Bytes.drop_zero]
  obtain ⟨_, hwheel⟩ := hG.nothing_left hb ho hm hlast (by omega)
  rw [takeIn_setSlot] at hc
  have hagree : Bytes.Agree m.size ((s.client.slots i).respMsgbuf.data.write 0 p.data p.msgSize) m.data := by
    intro j hj
    rw [Bytes.write, if_pos ⟨Nat.zero_le _, by omega⟩, hdata, Nat.sub_zero]
  refine finishResp_keeps hD u h hq hi ho.lt hc ?_ rfl rfl hb.ne_none ⟨G, hG.finish hD hb hmem ho ht hm hlast hsize hagree⟩
  exact hG.client.count.trans (by rw [hwheel]; rfl)

/-- The response buffer is sized by the first response packet, and holds what came before. -/
theorem Busy.respBuf {down : List Pkt} {x : ClientSlot} (hb : Busy D G down x r) (ho : x.inOrder p) {n : ℕ} (hm : G.resp x.curReqNum = some m) (hnum : x.numRx + 1 = r.pkts D + n) (hpos : 0 < r.pkts D)
    (hpkt : p = (m.respBuf r.reqType (r.pkts D) x.curReqNum).pkt D n) {b : MsgBuffer}
    (hbuf : b = if p.pktNum = r.pkts D - 1 then x.respMsgbuf.takeHeader p else x.respMsgbuf) :
    b.size = m.size ∧ b.reqNum = x.curReqNum ∧ Chunks.Filled D n m.size b.data m.data := by
  have hpn : p.pktNum = x.numRx := ho.2.1
  by_cases hn : n = 0
  · subst hn
    rw [if_pos (by omega)] at hbuf
    subst hbuf
    exact ⟨congrArg Pkt.msgSize hpkt, ho.1, Chunks.filled_zero _ _ _⟩
  · rw [if_neg (by omega)] at hbuf
    subst hbuf
    cases hb.stage with
    | sending h1 _ => omega
    | receiving m' h1 _ _ _ h5 h6 h7 =>
      rw [hm] at h1
      cases h1
      rw [show x.numRx + 1 - r.pkts D = n by omega] at h7
      exact ⟨h5, h6, h7⟩

/-- Either all packets were asked for, or `kick_rfr_st` asks for more. -/
theorem kickRfr_or_not {x : ClientSlot} {a b : MsgBuffer} (hx : c.slots i = x) (ha : x.respMsgbuf = a)
    (htx : x.txMsgbuf = some b) (hpos : 0 < c.credits) (hlo : b.numPkts D ≤ x.numRx) (hhi : x.numRx < wirePkts D b a)
    (hle : x.numTx ≤ wirePkts D b a) :
    ∃ k, k ≤ c.credits ∧ x.numTx + k ≤ wirePkts D b a ∧
      (if x.numTx ≠ wirePkts D b a then kickRfr D i c else .ok c) =
        .ok { c.setSlot i (x.sent k) with
          credits := c.credits - k
          txBatch := c.txBatch ++ (List.range' x.numTx k).map (rfrPkt a) } := by
  by_cases hall : x.numTx = wirePkts D b a
  · refine ⟨0, Nat.zero_le _, hle, ?_⟩
    rw [if_neg (not_not.2 hall), ← hx]
    simp [Client.setSlot, ClientSlot.sent]
  · obtain ⟨k, hk, hok⟩ := kickRfr_eq hx ha htx hpos hlo hhi
    exact ⟨k, by omega, by omega, by rw [if_pos hall, hok]⟩

theorem storeResp_eq {u : Bool} {a b : MsgBuffer} {x : ClientSlot} {n : ℕ} (hx : c.slots i = x) (ha : x.respMsgbuf = a)
    (hidx : respNtoi p.pktNum (b.numPkts D) = n) :
    storeResp D u i p b c =
      if x.numRx ≠ wirePkts D b a then .ok (c.setSlot i (x.withResp (copyDataToMsgbuf D a n p)), [])
      else finishResp D u i (c.setSlot i (x.withResp (copyDataToMsgbuf D a n p))) := by
  rw [storeResp, hx, ha, hidx]

/-- The response packet of a response with more to come. -/
theorem storeResp_more (hG : SlotInv D G (s.net i) i (s.client.slots i) (s.server.slots i) (ofSlot i log)) (h : Inv D s log)
    (hi : i < sessionReqWindow) (hb : Busy D G (s.net i).down (s.client.slots i) r) (hmem : p ∈ (s.net i).down)
    (ho : (s.client.slots i).inOrder p) (ht : p.pktType = .resp) (hm : G.resp (s.client.slots i).curReqNum = some m) {n : ℕ}
    (hnum : (s.client.slots i).numRx + 1 = r.pkts D + n) (hmore : n + 1 < m.pkts D) {b : MsgBuffer} (hsize : b.size = m.size)
    (hreq : b.reqNum = (s.client.slots i).curReqNum) (hfill : Chunks.Filled D (n + 1) m.size (copyDataToMsgbuf D b n p).data m.data)
    {k : ℕ} (hk : k ≤ s.client.credits + 1) (hk' : (s.client.slots i).numTx + k + 1 ≤ r.pkts D + m.pkts D) :
    Inv D { s with client := { s.client.setSlot i (((s.client.slots i).received.withResp (copyDataToMsgbuf D b n p)).sent k) with
      credits := s.client.credits + 1 - k
      txBatch := s.client.txBatch ++ (List.range' (s.client.slots i).numTx k).map (rfrPkt b) } } log := by
  have hlt := ho.lt
  have hcr := h.shared.unanswered_le hi
  rw [ClientSlot.unanswered] at hcr
  have hsize' : (copyDataToMsgbuf D b n p).size = m.size := hsize
  have hreq' : (copyDataToMsgbuf D b n p).reqNum = (s.client.slots i).curReqNum := hreq
  obtain ⟨htake, hbusy⟩ := hG.takeResp hb hmem ho ht hm hnum hmore hsize' hreq' hfill
  have hpkts : (copyDataToMsgbuf D b n p).numPkts D = m.pkts D := by
    rw [MsgBuffer.numPkts, hsize']
    rfl
  have hrx : r.pkts D ≤ ((s.client.slots i).received.withResp (copyDataToMsgbuf D b n p)).numRx := by
    rw [show ((s.client.slots i).received.withResp (copyDataToMsgbuf D b n p)).numRx = (s.client.slots i).numRx + 1 from rfl]
    omega
  have hsent := htake.postRfr hbusy (k := k) hrx (by rw [← hpkts] at hk'; exact hk') (by
    have : (s.client.slots i).numTx + k ≤ (s.client.slots i).numRx + 1 + sessionCredits := by omega
    exact this)
  refine h.clientQuiet i _ ?_ ?_ rfl ?_ ⟨G, ?_⟩
  · refine h.shared.setSlot hi ?_ Iff.rfl (h.shared.not_stalled (.inr (Nat.zero_lt_of_lt hlt)))
    have : s.client.credits + 1 - k + ((s.client.slots i).numTx + k - ((s.client.slots i).numRx + 1)) =
        s.client.credits + ((s.client.slots i).numTx - (s.client.slots i).numRx) := by omega
    exact this
  · intro j hj
    simp [hj]
  · intro p' hp'
    obtain ⟨j, _, _, rfl⟩ := mem_map_rfr hp'
    rw [show (rfrPkt b j).reqNum = b.reqNum from rfl, hreq]
    exact hG.numbers.slot
  · simp only [Client.setSlot_slots, Function.update_self]
    exact hsent

/-- `process_resp_one_st` for a packet of a response of several packets. -/
theorem processLargeResp_keeps (hD : 0 < D) (u : Bool) (h : Inv D s log) (hq : Queued s.client) (hi : i < sessionReqWindow)
    (hG : SlotInv D G (s.net i) i (s.client.slots i) (s.server.slots i) (ofSlot i log))
    (hb : Busy D G (s.net i).down (s.client.slots i) r) (hmem : p ∈ (s.net i).down) (ho : (s.client.slots i).inOrder p)
    (ht : p.pktType = .resp) :
    ∃ c' es, processLargeResp D u i p (s.client.takeIn i) = .ok (c', es) ∧ Inv D { s with client := c' } (log ++ es) ∧
      Queued c' := by
  obtain ⟨m, n, hm, hn, hnum, hpkt⟩ := hG.respPkt hD hb hmem ho ht
  have hpos : 0 < r.pkts D := Chunks.count_pos hD _
  have hpn : p.pktNum = (s.client.slots i).numRx := ho.2.1
  have hlt := ho.lt
  have hidx : respNtoi p.pktNum ((r.buf (s.client.slots i).curReqNum).numPkts D) = n := by
    rw [respNtoi, show (r.buf (s.client.slots i).curReqNum).numPkts D = r.pkts D from rfl]
    omega
  have hx₁ : (s.client.takeIn i).slots i = (s.client.slots i).received := Function.update_self ..
  have htx₁ : (s.client.slots i).received.txMsgbuf = some (r.buf (s.client.slots i).curReqNum) := hb.buf
  rw [processLargeResp, hx₁, htx₁]
  dsimp only
  generalize hbuf : (if p.pktNum = (r.buf (s.client.slots i).curReqNum).numPkts D - 1 then
    (s.client.slots i).received.respMsgbuf.takeHeader p else (s.client.slots i).received.respMsgbuf) = b
  obtain ⟨hbs, hbq, hbf⟩ := hb.respBuf ho hm hnum hpos hpkt hbuf.symm
  have hfill : Chunks.Filled D (n + 1) m.size (copyDataToMsgbuf D b n p).data m.data :=
    filled_copy (congrArg Pkt.msgSize hpkt) (congrArg Pkt.data hpkt) hbf
  have hwire : wirePkts D (r.buf (s.client.slots i).curReqNum) b = r.pkts D + m.pkts D - 1 := by
    rw [wirePkts, MsgBuffer.numPkts, MsgBuffer.numPkts, hbs]
    rfl
  have hnumRx : (s.client.slots i).received.numRx = (s.client.slots i).numRx + 1 := rfl
  have hnumTx : (s.client.slots i).received.numTx = (s.client.slots i).numTx := rfl
  have hx₂ : ((s.client.takeIn i).setSlot i ((s.client.slots i).received.withResp b)).slots i =
      (s.client.slots i).received.withResp b := Function.update_self ..
  have hc₂ : (s.client.takeIn i).setSlot i ((s.client.slots i).received.withResp b) =
      { s.client.setSlot i ((s.client.slots i).received.withResp b) with credits := s.client.credits + 1 } :=
    takeIn_setSlot ..
  by_cases hlast : n + 1 = m.pkts D
  · -- the last packet: nothing is left to ask for
    have hend : (s.client.slots i).numRx + 2 = r.pkts D + m.pkts D := by omega
    obtain ⟨htx, hwheel⟩ := hG.nothing_left hb ho hm hend (by omega)
    have hagree : Bytes.Agree m.size (copyDataToMsgbuf D b n p).data m.data := by
      rw [hlast] at hfill
      exact hfill.all hD
    rw [if_neg (by rw [hwire, hnumTx]; omega)]
    have hall : ¬ ((s.client.slots i).received.withResp b).numRx ≠ wirePkts D (r.buf (s.client.slots i).curReqNum) b := by
      rw [hwire, show ((s.client.slots i).received.withResp b).numRx = (s.client.slots i).numRx + 1 from rfl]
      omega
    dsimp only [Except.bind]
    rw [storeResp_eq (a := b) hx₂ rfl hidx, if_neg hall]
    have hc : ((s.client.takeIn i).setSlot i ((s.client.slots i).received.withResp b)).setSlot i
        (((s.client.slots i).received.withResp b).withResp (copyDataToMsgbuf D b n p)) =
        { s.client.setSlot i ((s.client.slots i).received.withResp (copyDataToMsgbuf D b n p)) with
          credits := s.client.credits + 1 } := by
      rw [hc₂]
      simp [Client.setSlot, ClientSlot.withResp]
    refine finishResp_keeps hD u h hq hi hlt hc ?_ rfl rfl hb.ne_none ⟨G, hG.finish hD hb hmem ho ht hm hend hbs hagree⟩
    exact hG.client.count.trans (by rw [hwheel]; rfl)
  · have hmore : n + 1 < m.pkts D := by omega
    have hroom : (s.client.slots i).numTx + 1 ≤ r.pkts D + m.pkts D := by
      cases hb.stage with
      | sending h1 h2 => omega
      | receiving m' h1 _ _ h4 _ _ _ =>
        rw [hm] at h1
        cases h1
        exact h4
    have hbuf₂ : ((s.client.slots i).received.withResp b).txMsgbuf = some (r.buf (s.client.slots i).curReqNum) := hb.buf
    have hlo : r.pkts D ≤ (s.client.slots i).numRx + 1 := by omega
    have hhi : (s.client.slots i).numRx + 1 < wirePkts D (r.buf (s.client.slots i).curReqNum) b := by omega
    have hle : (s.client.slots i).numTx ≤ wirePkts D (r.buf (s.client.slots i).curReqNum) b := by omega
    obtain ⟨k, hk1, hk2, hok⟩ := kickRfr_or_not (a := b) hx₂ rfl hbuf₂ (Nat.succ_pos _) hlo hhi hle
    have hk2' : (s.client.slots i).numTx + k ≤ wirePkts D (r.buf (s.client.slots i).curReqNum) b := hk2
    have hinv := storeResp_more hG h hi hb hmem ho ht hm hnum hmore hbs hbq hfill hk1 (by omega)
    have hok' : (if (s.client.slots i).received.numTx ≠ wirePkts D (r.buf (s.client.slots i).curReqNum) b then
        kickRfr D i ((s.client.takeIn i).setSlot i ((s.client.slots i).received.withResp b))
        else .ok ((s.client.takeIn i).setSlot i ((s.client.slots i).received.withResp b))) = _ := hok
    have hgo : (((s.client.slots i).received.withResp b).sent k).numRx ≠ wirePkts D (r.buf (s.client.slots i).curReqNum) b := by
      rw [show (((s.client.slots i).received.withResp b).sent k).numRx = (s.client.slots i).numRx + 1 from rfl]
      omega
    rw [hok']
    dsimp only [Except.bind]
    rw [storeResp_eq (a := b) (Function.update_self ..) rfl hidx, if_pos hgo]
    refine ⟨_, [], rfl, ?_, ?_⟩
    · rw [List.append_nil]
      convert hinv using 2
      rw [hc₂]
      simp [Client.setSlot, ClientSlot.withResp, ClientSlot.sent, ClientSlot.received]
    · exact ⟨hq.full, hq.valid⟩

/-- `process_resp_one_st`. -/
theorem processRespOne_keeps (hD : 0 < D) (u : Bool) (h : Inv D s log) (hq : Queued s.client) (hp : p ∈ s.down)
    (ht : p.pktType = .resp) :
    ∃ c es, processRespOne D u (p.reqNum % sessionReqWindow) p s.client = .ok (c, es) ∧
      Inv D { s with client := c } (log ++ es) ∧ Queued c := by
  have hi := reqNum_mod_lt p
  obtain ⟨G, hG, hmem, _, hfuture⟩ := h.down_slot hp
  generalize p.reqNum % sessionReqWindow = i at *
  rw [processRespOne]
  simp only [if_neg hfuture]
  by_cases ho : (s.client.slots i).inOrder p
  · obtain ⟨r, hb⟩ := hG.busy_of_lt ho.lt
    have hx₁ : (s.client.takeIn i).slots i = (s.client.slots i).received := Function.update_self ..
    rw [if_neg (not_not.2 ho), if_neg (h.shared.credits_lt hi ho.lt)]
    by_cases hs : p.msgSize ≤ D
    · rw [if_pos hs, hx₁]
      exact processSmallResp_keeps hD u h hq hi hG hb hmem ho ht hs rfl
    · rw [if_neg hs]
      exact processLargeResp_keeps hD u h hq hi hG hb hmem ho ht
  · rw [if_pos ho]
    refine ⟨_, [], rfl, ?_, hq⟩
    rw [List.append_nil]
    exact h

/-- `process_comps_st` at the client never fails, and keeps what holds of the session. -/
theorem clientComp_keeps (hD : 0 < D) (u : Bool) (h : Inv D s log) (hq : Queued s.client) (hp : p ∈ s.down) :
    ∃ c es, clientComp D u p s.client = .ok (c, es) ∧ Inv D { s with client := c } (log ++ es) ∧ Queued c := by
  obtain ⟨G, _, _, hcontent, _⟩ := h.down_slot hp
  have htype : p.pktType = .resp ∨ p.pktType = .explCr := by
    cases hcontent with
    | resp _ _ _ _ _ _ _ => exact .inl rfl
    | cr _ _ ht _ _ => exact .inr ht
  unfold clientComp
  rcases htype with ht | ht
  · simp only [ht]
    exact processRespOne_keeps hD u h hq hp ht
  · simp only [ht]
    obtain ⟨c, hok, hinv, hb, hf⟩ := processExplCr_keeps u h hp ht
    rw [hok]
    refine ⟨c, [], rfl, ?_, ?_⟩
    · rw [List.append_nil]
      exact hinv
    · exact hq.congr hb hf

end CcKvs.Erpc
