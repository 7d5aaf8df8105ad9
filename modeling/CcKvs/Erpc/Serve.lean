/-
What the server does to a slot keeps what holds of the slot.
-/
import CcKvs.Erpc.Moves
import Mathlib

namespace CcKvs.Erpc

variable {D : ℕ} {G : Calls} {net : Net} {i : ℕ} {x : ClientSlot} {v : ServerSlot} {log : List Event} {p : Pkt}
  {r : Request} {m : Msg}

/-! ## Where the server stands -/

/-- The packets of a request that the server has not seen are those of the client's current one. -/
theorem SlotInv.next_request (h : SlotInv D G net i x v log) {q : ℕ} (hq : G.req q = some r) (hlt : v.curReqNum < q) :
    q = x.curReqNum ∧ q = v.curReqNum + sessionReqWindow ∧ v.reqBuried = true ∧ x.txMsgbuf ≠ none ∧ G.resp q = none := by
  obtain ⟨hslot, _, hle, _⟩ := h.numbers.called hq
  rcases h.numbers.close with hc | ⟨hc, hx⟩
  · omega
  · have heq : q = x.curReqNum := by
      refine eq_of_mod_eq (k := sessionReqWindow) (m := v.curReqNum + 1) (c := x.curReqNum + 1) ?_ ?_ ?_ ?_
      · omega
      · omega
      · omega
      · rw [hslot, h.numbers.slot]
    refine ⟨heq, heq.trans hc.symm, h.numbers.settled (.inr hc), ?_, ?_⟩
    · intro hn
      rw [hn] at hx
      cases hx
    · cases hm : G.resp q with
      | none => rfl
      | some m =>
        have := (h.numbers.answered hm).1
        omega

theorem ServerOk.reqType_of_buried (h : ServerOk D G i v) (hb : v.reqBuried = true) : v.reqType = invalidReqType := by
  cases h with
  | fresh _ _ _ ht => exact ht
  | storing _ _ _ _ hb' _ _ _ _ _ => rw [hb] at hb'; cases hb'
  | handling _ _ _ _ hb' _ _ _ => rw [hb] at hb'; cases hb'
  | answered _ _ _ _ _ _ ht _ _ _ => exact ht

/-- A server that holds a request is at the client's current one. -/
theorem SlotInv.server_current (h : SlotInv D G net i x v log) (hb : v.reqBuried = false) :
    v.curReqNum = x.curReqNum ∧ x.txMsgbuf ≠ none := by
  have hns : ¬ (x.txMsgbuf = none ∨ v.curReqNum + sessionReqWindow = x.curReqNum) := by
    intro hs
    rw [h.numbers.settled hs] at hb
    cases hb
  rw [not_or] at hns
  rcases h.numbers.close with hc | ⟨hc, _⟩
  · exact ⟨hc, hns.1⟩
  · exact absurd hc hns.2

/-- Before the first request the server's number is none of a request. -/
theorem SlotInv.not_fresh (h : SlotInv D G net i x v log) {q : ℕ} (hq : G.req q = some r) : q ≠ i := by
  have hi : i < sessionReqWindow := by
    rw [← h.numbers.slot]
    exact Nat.mod_lt _ sessionReqWindow_pos
  have := (h.numbers.called hq).2.1
  omega

/-- A request number that the server is at is of one of three kinds. -/
theorem SlotInv.server_cases (h : SlotInv D G net i x v log) (hr : G.req v.curReqNum = some r) :
    (0 < v.numRx ∧ v.numRx < r.pkts D ∧ v.reqBuried = false ∧ v.txMsgbuf = none ∧ v.reqType = invalidReqType ∧
      G.resp v.curReqNum = none ∧ v.reqMsgbuf.size = r.msg.size ∧
      Chunks.Filled D v.numRx r.msg.size v.reqMsgbuf.data r.msg.data) ∨
    (v.numRx = r.pkts D ∧ v.reqBuried = false ∧ v.txMsgbuf = none ∧ v.reqType = r.reqType ∧ G.resp v.curReqNum = none ∧
      v.reqMsgbuf.size = r.msg.size) ∨
    ∃ m, G.resp v.curReqNum = some m ∧ v.txMsgbuf = some (m.respBuf r.reqType (r.pkts D) v.curReqNum) ∧
      r.pkts D ≤ v.numRx ∧ v.numRx + 1 ≤ r.pkts D + m.pkts D ∧ v.savNumReqPkts = r.pkts D := by
  cases h.server with
  | fresh h1 _ _ _ => exact absurd h1 (h.not_fresh hr)
  | storing r' h1 h2 h3 h4 h5 h6 h7 h8 h9 =>
    rw [hr] at h1
    cases h1
    exact .inl ⟨h6, h7, h4, h3, h5, h2, h8, h9⟩
  | handling r' h1 h2 h3 h4 h5 h6 h7 =>
    rw [hr] at h1
    cases h1
    exact .inr (.inl ⟨h6, h4, h3, h5, h2, h7⟩)
  | answered r' m h1 h2 h3 _ _ h6 h7 h8 =>
    rw [hr] at h1
    cases h1
    exact .inr (.inr ⟨m, h2, h3, h6, h7, h8⟩)

/-- When a new request arrives, the old response has left the batch: the client had all of it. -/
theorem SlotInv.no_old_reply (hD : 0 < D) (h : SlotInv D G net i x v log) (hlt : v.curReqNum < x.curReqNum) :
    ∀ p ∈ net.replies, p.pktType ≠ .resp := by
  intro p hp ht
  have hcur := h.down.current p hp ht
  have hun := h.down.unposted p hp ht
  cases h.down.content p (.inr hp) with
  | resp q r m n hq hm hn =>
    obtain rfl : q = v.curReqNum := hcur
    obtain ⟨m', hm', hposted⟩ := h.client.finished hq (.inl hlt)
    rw [hm] at hm'
    cases hm'
    have hpos : 0 < r.pkts D := Chunks.count_pos hD _
    obtain ⟨p', hp', ht', hq', hn'⟩ := hposted (r.pkts D - 1 + n) ⟨by omega, by omega⟩
    exact hun p' hp' ht' hq' hn'
  | cr _ _ ht' _ _ =>
    rw [ht] at ht'
    cases ht'

/-! ## Replies -/

theorem ClientOk.down_mono {down down' : List Pkt} (h : ClientOk D G down x) (hd : ∀ p ∈ down, p ∈ down') :
    ClientOk D G down' x :=
  { h with
    busy := by
      intro hx
      obtain ⟨r, hb⟩ := h.busy hx
      exact ⟨r, { hb with receipts := hb.receipts.mono (fun _ => id) hd }⟩
    finished := by
      intro q r hq hlt
      obtain ⟨m, hm, hposted⟩ := h.finished hq hlt
      exact ⟨m, hm, hposted.mono (fun _ => id) hd⟩ }

/-- A credit return for a packet that was posted. -/
theorem SlotInv.addCr (h : SlotInv D G net i x v log) (hp : p ∈ net.up) (hr : G.req p.reqNum = some r)
    (hn : p.pktNum + 1 < r.pkts D) : SlotInv D G { net with replies := net.replies ++ [crPkt p] } i x v log :=
  { h with
    down :=
      { content := by
          intro p' hp'
          rw [List.mem_append, ← or_assoc] at hp'
          rcases hp' with hp' | hp'
          · exact h.down.content p' hp'
          · rw [List.mem_singleton.1 hp']
            exact .cr _ r rfl hr hn
        cause := by
          intro p' hp'
          rw [List.mem_append, ← or_assoc] at hp'
          rcases hp' with hp' | hp'
          · exact h.down.cause p' hp'
          · rw [List.mem_singleton.1 hp']
            exact ⟨p, hp, rfl, rfl⟩
        heard := h.down.heard
        below := by
          intro p' hp' ht
          rw [List.mem_append, ← or_assoc] at hp'
          rcases hp' with hp' | hp'
          · exact h.down.below p' hp' ht
          · rw [List.mem_singleton.1 hp'] at ht
            cases ht
        current := by
          intro p' hp' ht
          rcases List.mem_append.1 hp' with hp' | hp'
          · exact h.down.current p' hp' ht
          · rw [List.mem_singleton.1 hp'] at ht
            cases ht
        unposted := by
          intro p' hp' ht
          rcases List.mem_append.1 hp' with hp' | hp'
          · exact h.down.unposted p' hp' ht
          · rw [List.mem_singleton.1 hp'] at ht
            cases ht
        distinct := by
          refine List.pairwise_append.2 ⟨h.down.distinct, List.pairwise_singleton _ _, ?_⟩
          intro a _ b hb _ ht
          rw [List.mem_singleton.1 hb] at ht
          cases ht } }

/-- A response packet of the response the slot holds, posted for the first time. -/
theorem DownOk.addResp {vcur numRx : ℕ} {up down replies : List Pkt} {n : ℕ} (h : DownOk D G vcur numRx up down replies)
    (hr : G.req vcur = some r) (hm : G.resp vcur = some m) (hn : n < m.pkts D)
    (hlt : r.pkts D - 1 + n < numRx)
    (hnew : ∀ p, p ∈ down ∨ p ∈ replies → p.pktType = .resp → p.reqNum = vcur → p.pktNum ≠ r.pkts D - 1 + n) :
    DownOk D G vcur numRx up down (replies ++ [(m.respBuf r.reqType (r.pkts D) vcur).pkt D n]) where
  content := by
    intro p' hp'
    rw [List.mem_append, ← or_assoc] at hp'
    rcases hp' with hp' | hp'
    · exact h.content p' hp'
    · rw [List.mem_singleton.1 hp']
      exact .resp vcur r m n hr hm hn
  cause := by
    intro p' hp'
    rw [List.mem_append, ← or_assoc] at hp'
    rcases hp' with hp' | hp'
    · exact h.cause p' hp'
    · rw [List.mem_singleton.1 hp']
      exact h.heard _ hlt
  heard := h.heard
  below := by
    intro p' hp' ht hq
    rw [List.mem_append, ← or_assoc] at hp'
    rcases hp' with hp' | hp'
    · exact h.below p' hp' ht hq
    · rw [List.mem_singleton.1 hp']
      exact hlt
  current := by
    intro p' hp' ht
    rcases List.mem_append.1 hp' with hp' | hp'
    · exact h.current p' hp' ht
    · rw [List.mem_singleton.1 hp']
      rfl
  unposted := by
    intro p' hp' ht q hq htq hcur
    rcases List.mem_append.1 hp' with hp' | hp'
    · exact h.unposted p' hp' ht q hq htq hcur
    · rw [List.mem_singleton.1 hp']
      exact hnew q (.inl hq) htq hcur
  distinct := by
    refine List.pairwise_append.2 ⟨h.distinct, List.pairwise_singleton _ _, ?_⟩
    intro a ha b hb hta _
    rw [List.mem_singleton.1 hb]
    exact hnew a (.inr ha) hta (h.current a ha hta)

/-- `do_tx_burst_st` posts what waits in the server's batch, or the front of it. -/
theorem SlotInv.serverBurst (h : SlotInv D G net i x v log) {l t : List Pkt} (hl : net.replies = l ++ t) :
    SlotInv D G { net with down := net.down ++ l, replies := t } i x v log := by
  have hmem : ∀ p, p ∈ net.down ++ l ∨ p ∈ t → p ∈ net.down ∨ p ∈ net.replies := by
    intro p hp
    rw [hl]
    simp only [List.mem_append] at hp ⊢
    tauto
  have ht : ∀ p ∈ t, p ∈ net.replies := by
    intro p hp
    rw [hl]
    exact List.mem_append_right _ hp
  refine ⟨h.numbers, h.client.down_mono fun _ => List.mem_append_left _, h.server, h.up, ?_, h.lived⟩
  have hd := h.down.distinct
  rw [hl, List.pairwise_append] at hd
  refine ⟨fun p hp => h.down.content p (hmem p hp), fun p hp => h.down.cause p (hmem p hp), h.down.heard,
    fun p hp => h.down.below p (hmem p hp), fun p hp => h.down.current p (ht p hp), ?_, hd.2.1⟩
  intro p hp htp q hq htq hcur
  rcases List.mem_append.1 hq with hq | hq
  · exact h.down.unposted p (ht p hp) htp q hq htq hcur
  · exact hd.2.2 q hq p hp htq htp

/-- A packet of the response that was posted before is posted again, when none waits. -/
theorem SlotInv.wireResp (h : SlotInv D G net i x v log) (hrep : net.replies = []) {n : ℕ} (hr : G.req v.curReqNum = some r)
    (hm : G.resp v.curReqNum = some m) (hn : n < m.pkts D) (hlt : r.pkts D - 1 + n < v.numRx) :
    SlotInv D G { net with down := net.down ++ [(m.respBuf r.reqType (r.pkts D) v.curReqNum).pkt D n] } i x v log := by
  refine ⟨h.numbers, h.client.down_mono fun _ => List.mem_append_left _, h.server, h.up, ?_, h.lived⟩
  refine ⟨?_, ?_, h.down.heard, ?_, h.down.current, ?_, h.down.distinct⟩
  · intro p hp
    rw [List.mem_append] at hp
    rcases hp with (hp | hp) | hp
    · exact h.down.content p (.inl hp)
    · rw [List.mem_singleton.1 hp]
      exact .resp _ r m n hr hm hn
    · exact h.down.content p (.inr hp)
  · intro p hp
    rw [List.mem_append] at hp
    rcases hp with (hp | hp) | hp
    · exact h.down.cause p (.inl hp)
    · rw [List.mem_singleton.1 hp]
      exact h.down.heard _ hlt
    · exact h.down.cause p (.inr hp)
  · intro p hp ht hq
    rw [List.mem_append] at hp
    rcases hp with (hp | hp) | hp
    · exact h.down.below p (.inl hp) ht hq
    · rw [List.mem_singleton.1 hp]
      exact hlt
    · exact h.down.below p (.inr hp) ht hq
  · intro p hp
    rw [hrep] at hp
    cases hp

/-- The response is sent again at once, with whatever waits in the batch. -/
theorem SlotInv.resendResp (h : SlotInv D G net i x v log) {n : ℕ} (hr : G.req v.curReqNum = some r)
    (hm : G.resp v.curReqNum = some m) (hn : n < m.pkts D) (hlt : r.pkts D - 1 + n < v.numRx) :
    SlotInv D G
      { net with
        down := net.down ++ (net.replies ++ [(m.respBuf r.reqType (r.pkts D) v.curReqNum).pkt D n])
        replies := [] } i x v log := by
  have h1 := h.serverBurst (List.append_nil net.replies).symm
  simpa only [List.append_assoc] using h1.wireResp rfl hr hm hn hlt

/-! ## Packets of a request -/

/-- The first packet of the next request. -/
theorem SlotInv.arrive (hD : 0 < D) (h : SlotInv D G net i x v log) (hp : p ∈ net.up) (hr : G.req p.reqNum = some r)
    (hlt : v.curReqNum < p.reqNum) (hn : p.pktNum = 0) {v' : ServerSlot} (hserver : ServerOk D G i v')
    (hcur : v'.curReqNum = p.reqNum) (hrx : v'.numRx = 1) {log' : List Event}
    (hlived : Lived G i x.curReqNum x.txMsgbuf v'.curReqNum v'.reqType log') : SlotInv D G net i x v' log' := by
  have hW := sessionReqWindow_pos
  obtain ⟨hx, _, _, htx, hresp⟩ := h.next_request hr hlt
  have hold := h.no_old_reply hD (hx ▸ hlt)
  refine ⟨⟨h.numbers.slot, .inl (hcur.trans hx), ?_, h.numbers.called, ?_⟩, h.client, hserver, h.up, ?_, hlived⟩
  · rintro (hs | hs)
    · exact absurd hs htx
    · omega
  · intro q m hq
    obtain ⟨h1, h2⟩ := h.numbers.answered hq
    exact ⟨by omega, h2⟩
  · refine ⟨h.down.content, h.down.cause, ?_, ?_, fun p' hp' ht => absurd ht (hold p' hp'), fun p' hp' ht => absurd ht (hold p' hp'),
      h.down.distinct⟩
    · intro n hn'
      exact ⟨p, hp, hcur.symm, by omega⟩
    · intro p' hp' ht hq
      cases h.down.content p' hp' with
      | resp q r' m n _ hm _ =>
        obtain rfl : q = p.reqNum := hq.trans hcur
        rw [hresp] at hm
        cases hm
      | cr _ _ ht' _ _ =>
        rw [ht] at ht'
        cases ht'

/-- The next packet of the request the server is at. -/
theorem SlotInv.advance (h : SlotInv D G net i x v log) (hp : p ∈ net.up) (hq : p.reqNum = v.curReqNum)
    (hn : p.pktNum = v.numRx) {v' : ServerSlot} (hserver : ServerOk D G i v') (hcur : v'.curReqNum = v.curReqNum)
    (hrx : v'.numRx = v.numRx + 1) (hburied : v'.reqBuried = v.reqBuried) {log' : List Event}
    (hlived : Lived G i x.curReqNum x.txMsgbuf v.curReqNum v'.reqType log') : SlotInv D G net i x v' log' := by
  refine ⟨?_, h.client, hserver, h.up, ?_, ?_⟩
  · rw [hcur, hburied]
    exact h.numbers
  · rw [hcur, hrx]
    refine { h.down with heard := ?_, below := ?_ }
    · intro n hn'
      by_cases hlt : n < v.numRx
      · exact h.down.heard n hlt
      · exact ⟨p, hp, hq, by omega⟩
    · intro p' hp' ht hq'
      exact Nat.lt_succ_of_lt (h.down.below p' hp' ht hq')
  · rw [hcur]
    exact hlived

theorem InPhase.eq_called {cur vcur : ℕ} {tx : Option MsgBuffer} {ty : UInt8} {ph : Phase} (h : InPhase G cur tx vcur ty ph)
    (hx : tx ≠ none) (hr : G.req cur = some r) (hm : G.resp cur = none) (hv : vcur = cur → ty = invalidReqType) :
    ph = .called r := by
  cases h with
  | idle h' => exact absurd h' hx
  | called _ _ h1 _ _ =>
    rw [hr] at h1
    cases h1
    rfl
  | handled _ _ _ _ h1 h2 => exact absurd (hv h1) h2
  | answered _ _ _ _ h2 =>
    rw [hm] at h2
    cases h2

theorem InPhase.eq_handled {cur vcur : ℕ} {tx : Option MsgBuffer} {ty : UInt8} {ph : Phase} (h : InPhase G cur tx vcur ty ph)
    (hx : tx ≠ none) (hr : G.req cur = some r) (hm : G.resp cur = none) (hv : vcur = cur) (ht : ty ≠ invalidReqType) :
    ph = .handled r := by
  cases h with
  | idle h' => exact absurd h' hx
  | called _ _ _ _ h1 => exact absurd (h1 hv) ht
  | handled _ _ h1 _ _ _ =>
    rw [hr] at h1
    cases h1
    rfl
  | answered _ _ _ _ h2 =>
    rw [hm] at h2
    cases h2

/-- The handler runs, with the request's type and bytes. -/
theorem Lived.handle {cur vcur vcur' : ℕ} {tx : Option MsgBuffer} {ty ty' : UInt8} (h : Lived G i cur tx vcur ty log)
    (hx : tx ≠ none) (hr : G.req cur = some r) (hm : G.resp cur = none) (hv : vcur = cur → ty = invalidReqType)
    (hv' : vcur' = cur) (ht : ty' = r.reqType) (hty : r.reqType ≠ invalidReqType) :
    Lived G i cur tx vcur' ty' (log ++ [.handle cur r.reqType r.msg.bytes]) := by
  obtain ⟨ph, hph, hrun⟩ := h
  obtain rfl := hph.eq_called hx hr hm hv
  refine ⟨.handled r, .handled r (Option.isSome_iff_ne_none.2 hx) hr hm hv' ?_, hrun.snoc (.handle cur r)⟩
  rw [ht]
  exact hty

/-- Nothing that the application sees has happened: the request is not all there yet. -/
theorem Lived.store {cur vcur vcur' : ℕ} {tx : Option MsgBuffer} {ty ty' : UInt8} (h : Lived G i cur tx vcur ty log)
    (hx : tx ≠ none) (hr : G.req cur = some r) (hm : G.resp cur = none) (hv : vcur = cur → ty = invalidReqType)
    (ht : ty' = invalidReqType) : Lived G i cur tx vcur' ty' log := by
  obtain ⟨ph, hph, hrun⟩ := h
  obtain rfl := hph.eq_called hx hr hm hv
  exact ⟨.called r, .called r (Option.isSome_iff_ne_none.2 hx) hr hm fun _ => ht, hrun⟩

/-! ## The functions of the server -/

/-- The packets of a slot after the server has made `ps`, and drained its batch or not. -/
def Net.answer (net : Net) (drain : Bool) (ps : List Pkt) : Net :=
  if drain then { net with down := net.down ++ (net.replies ++ ps), replies := [] }
  else { net with replies := net.replies ++ ps }

/-- The server has dealt with slot `i` and with no other, and what holds of the slot still does. -/
structure Did (D : ℕ) (net : Net) (i : ℕ) (x : ClientSlot) (log : List Event) (s : Server) (o : Outcome) : Prop where
  others : ∀ j, j ≠ i → o.server.slots j = s.slots j
  events : ∀ e ∈ o.events, e.reqNum % sessionReqWindow = i
  posted : ∃ ps G, o.server.txBatch = s.txBatch ++ ps ∧ (∀ p ∈ ps, p.reqNum % sessionReqWindow = i) ∧
    SlotInv D G (net.answer o.drain ps) i x (o.server.slots i) (log ++ o.events)

variable {s : Server}

/-- A packet is dropped. -/
theorem Did.nothing (h : SlotInv D G net i x (s.slots i) log) : Did D net i x log s ⟨s, false, []⟩ where
  others _ _ := rfl
  events := by simp
  posted := by
    refine ⟨[], G, (List.append_nil _).symm, by simp, ?_⟩
    simpa [Net.answer] using h

/-- A response packet is sent again. -/
theorem Did.again (h : SlotInv D G net i x (s.slots i) log) {n : ℕ} (hr : G.req (s.slots i).curReqNum = some r)
    (hm : G.resp (s.slots i).curReqNum = some m) (hn : n < m.pkts D) (hlt : r.pkts D - 1 + n < (s.slots i).numRx) :
    Did D net i x log s ⟨s.post ((m.respBuf r.reqType (r.pkts D) (s.slots i).curReqNum).pkt D n), true, []⟩ where
  others _ _ := rfl
  events := by simp
  posted := by
    refine ⟨[(m.respBuf r.reqType (r.pkts D) (s.slots i).curReqNum).pkt D n], G, rfl, ?_, ?_⟩
    · intro p hp
      rw [List.mem_singleton.1 hp]
      exact (h.numbers.called hr).1
    · simpa [Net.answer] using h.resendResp hr hm hn hlt

theorem Request.pkts_eq_one {D : ℕ} {r : Request} (h : r.msg.size ≤ D) : r.pkts D = 1 := Chunks.count_of_le h

/-- The packet that a request packet is. -/
theorem UpPkt.of_req (h : UpPkt D G p) (ht : p.pktType = .req) :
    ∃ r, G.req p.reqNum = some r ∧ p.pktNum < r.pkts D ∧ p = (r.buf p.reqNum).pkt D p.pktNum := by
  cases h with
  | req q r n hq hn =>
    rw [pktNum_buf]
    exact ⟨r, hq, hn, rfl⟩
  | rfr _ _ _ ht' _ _ _ _ =>
    rw [ht] at ht'
    cases ht'

/-- A request of one packet. -/
theorem processSmallReq_did (hD : 0 < D) (h : SlotInv D G net i x (s.slots i) log) (hp : p ∈ net.up) (ht : p.pktType = .req)
    (hs : p.msgSize ≤ D) : ∃ o, processSmallReq D i p s = .ok o ∧ Did D net i x log s o := by
  obtain ⟨r, hr, hn, hpkt⟩ := (h.up.content p (.inl hp)).of_req ht
  have hsize : p.msgSize = r.msg.size := congrArg Pkt.msgSize hpkt
  have hone : r.pkts D = 1 := Request.pkts_eq_one (hsize ▸ hs)
  have hzero : p.pktNum = 0 := by omega
  unfold processSmallReq
  rcases lt_trichotomy p.reqNum (s.slots i).curReqNum with hlt | heq | hgt
  · rw [if_pos hlt.le, if_pos hlt]
    exact ⟨_, rfl, .nothing h⟩
  · rw [if_pos heq.le, if_neg (by omega)]
    rw [heq] at hr
    rcases h.server_cases hr with ⟨h1, h2, _⟩ | ⟨_, _, htx, _⟩ | ⟨m, hm, htx, hle, _, _⟩
    · omega
    · rw [htx]
      exact ⟨_, rfl, .nothing h⟩
    · rw [htx]
      exact ⟨_, rfl, .again h hr hm (Chunks.count_pos hD _) (by omega)⟩
  · obtain ⟨hx, hnext, hburied, htx, hresp⟩ := h.next_request hr hgt
    have hinv := h.server.reqType_of_buried hburied
    have hvalid := (h.numbers.called hr).2.2.2
    have hbytes : p.data.toList p.msgSize = r.msg.bytes := by
      rw [hpkt, hzero]
      simp [MsgBuffer.pkt, Request.buf, Msg.bytes, Bytes.drop_zero]
    have hty : p.reqType = r.reqType := congrArg Pkt.reqType hpkt
    rw [if_neg (by omega), if_neg (by simpa using hnext), if_neg (by simp [hburied]), if_neg (by simpa using hinv)]
    refine ⟨_, rfl, fun j hj => by simp [hj], ?_, [], G, (List.append_nil _).symm, by simp, ?_⟩
    · intro e he
      rw [List.mem_singleton.1 he]
      exact (h.numbers.called hr).1
    · simp only [Server.setSlot_slots, Function.update_self]
      have hlived := h.lived.handle htx (hx ▸ hr) (hx ▸ hresp) (fun hv => absurd hv (by omega)) hx hty hvalid
      have hserver : ServerOk D G i
          { (s.slots i).begin p with reqType := p.reqType, reqMsgbuf := p.buffer p.data, reqBuried := false } :=
        .handling r hr hresp rfl rfl hty hone.symm hsize
      have harrive := h.arrive hD hp hr hgt hzero hserver rfl rfl hlived
      rw [hbytes, hty, hx]
      rw [hty] at harrive
      simpa [Net.answer] using harrive

/-- The next packet of a request of several packets, `v₀` being the slot that is ready for it. -/
theorem storeLargeReq_did (hD : 0 < D) (h : SlotInv D G net i x (s.slots i) log) (hp : p ∈ net.up)
    (hr : G.req p.reqNum = some r) (hn : p.pktNum < r.pkts D) (hpkt : p = (r.buf p.reqNum).pkt D p.pktNum)
    (hx : p.reqNum = x.curReqNum) (htx : x.txMsgbuf ≠ none) (hresp : G.resp p.reqNum = none)
    (hinv : (s.slots i).curReqNum = x.curReqNum → (s.slots i).reqType = invalidReqType) {v₀ : ServerSlot}
    (hcur : v₀.curReqNum = p.reqNum) (hrx : v₀.numRx = p.pktNum + 1) (hnone : v₀.txMsgbuf = none)
    (hburied : v₀.reqBuried = false) (hty : v₀.reqType = invalidReqType) (hsize : v₀.reqMsgbuf.size = r.msg.size)
    (hfill : Chunks.Filled D p.pktNum r.msg.size v₀.reqMsgbuf.data r.msg.data)
    (hgo : ∀ {v' : ServerSlot} {log' : List Event}, ServerOk D G i v' → v'.curReqNum = v₀.curReqNum → v'.numRx = v₀.numRx →
      v'.reqBuried = v₀.reqBuried → Lived G i x.curReqNum x.txMsgbuf v'.curReqNum v'.reqType log' →
      SlotInv D G net i x v' log') :
    ∃ o, storeLargeReq D i p v₀ s = .ok o ∧ Did D net i x log s o := by
  have hnum : v₀.reqMsgbuf.numPkts D = r.pkts D := by rw [MsgBuffer.numPkts, hsize, Request.pkts]
  have hslot := (h.numbers.called hr).1
  have hfill' := filled_copy (b := v₀.reqMsgbuf) (congrArg Pkt.msgSize hpkt) (congrArg Pkt.data hpkt) hfill
  have hsize' : (copyDataToMsgbuf D v₀.reqMsgbuf p.pktNum p).size = r.msg.size := hsize
  unfold storeLargeReq
  by_cases hlast : p.pktNum + 1 = r.pkts D
  · -- the last packet: no credit return, the response is the answer
    have hvalid := (h.numbers.called hr).2.2.2
    have hbytes : (copyDataToMsgbuf D v₀.reqMsgbuf p.pktNum p).bytes = r.msg.bytes := by
      rw [MsgBuffer.bytes, hsize', Msg.bytes]
      rw [hlast] at hfill'
      exact Bytes.toList_congr (hfill'.all hD)
    have hreq : p.reqType = r.reqType := congrArg Pkt.reqType hpkt
    have hmid : ¬ p.pktNum ≠ v₀.reqMsgbuf.numPkts D - 1 := by omega
    have hall : ¬ v₀.numRx ≠ v₀.reqMsgbuf.numPkts D := by omega
    rw [if_neg hmid, if_neg hall, if_neg (not_not.2 hty)]
    refine ⟨_, rfl, fun j hj => by simp [hj], ?_, [], G, (List.append_nil _).symm, by simp, ?_⟩
    · intro e he
      rw [List.mem_singleton.1 he]
      exact hslot
    · have hlived := h.lived.handle htx (hx ▸ hr) (hx ▸ hresp) hinv (hcur.trans hx) hreq hvalid
      have hserver : ServerOk D G i
          { v₀ with reqMsgbuf := copyDataToMsgbuf D v₀.reqMsgbuf p.pktNum p, reqType := p.reqType } := by
        refine .handling r ?_ ?_ hnone hburied hreq (hrx.trans hlast) hsize'
        · rwa [hcur]
        · rwa [hcur]
      have hres := hgo hserver rfl rfl rfl hlived
      simp only [Server.setSlot_slots, Function.update_self, hbytes, hreq, hx] at hres ⊢
      simpa [Net.answer] using hres
  · have hmid : p.pktNum ≠ v₀.reqMsgbuf.numPkts D - 1 := by omega
    have hall : v₀.numRx ≠ v₀.reqMsgbuf.numPkts D := by omega
    rw [if_pos hmid, if_pos hall]
    refine ⟨_, rfl, fun j hj => by simp [hj], by simp, [crPkt p], G, rfl, ?_, ?_⟩
    · intro p' hp'
      rw [List.mem_singleton.1 hp']
      exact hslot
    · have hlived : Lived G i x.curReqNum x.txMsgbuf v₀.curReqNum v₀.reqType log :=
        h.lived.store htx (hx ▸ hr) (hx ▸ hresp) hinv hty
      have hserver : ServerOk D G i { v₀ with reqMsgbuf := copyDataToMsgbuf D v₀.reqMsgbuf p.pktNum p } := by
        refine .storing r ?_ ?_ hnone hburied hty ?_ ?_ hsize' ?_
        · rwa [hcur]
        · rwa [hcur]
        · dsimp only
          omega
        · dsimp only
          omega
        · rw [hrx]
          exact hfill'
      have hres := (hgo hserver rfl rfl rfl hlived).addCr hp hr (by omega)
      simpa [Net.answer] using hres

/-- A packet of a request of several packets that is not the next. -/
theorem reorderedLargeReq_did (hD : 0 < D) (h : SlotInv D G net i x (s.slots i) log) (hp : p ∈ net.up)
    (hr : G.req p.reqNum = some r) (hn : p.pktNum < r.pkts D) (hpkt : p = (r.buf p.reqNum).pkt D p.pktNum)
    (hno : ¬ (p.reqNum = (s.slots i).curReqNum ∧ p.pktNum = (s.slots i).numRx)) :
    Did D net i x log s (reorderedLargeReq D i p s) := by
  have hsize : dataSizeToNumPkts D p.msgSize = r.pkts D := congrArg (dataSizeToNumPkts D) (congrArg Pkt.msgSize hpkt)
  unfold reorderedLargeReq
  by_cases hold : p.reqNum ≠ (s.slots i).curReqNum ∨ (s.slots i).numRx < p.pktNum
  · rw [if_pos hold]
    exact .nothing h
  · rw [if_neg hold]
    rw [not_or, not_not] at hold
    obtain ⟨heq, hle⟩ := hold
    have hlt : p.pktNum < (s.slots i).numRx := by
      have : p.pktNum ≠ (s.slots i).numRx := fun he => hno ⟨heq, he⟩
      omega
    by_cases hlast : p.pktNum + 1 = r.pkts D
    · rw [if_neg (by omega)]
      rw [heq] at hr
      rcases h.server_cases hr with ⟨_, h2, _⟩ | ⟨_, _, htx, _⟩ | ⟨m, hm, htx, hle', _, _⟩
      · omega
      · rw [htx]
        exact .nothing h
      · rw [htx]
        exact .again h hr hm (Chunks.count_pos hD _) (by omega)
    · rw [if_pos (by omega)]
      refine ⟨fun _ _ => rfl, by simp, [crPkt p], G, rfl, ?_, ?_⟩
      · intro p' hp'
        rw [List.mem_singleton.1 hp']
        exact (h.numbers.called hr).1
      · simpa [Net.answer] using h.addCr hp hr (by omega)

/-- A packet of a request of several packets. -/
theorem processLargeReqOne_did (hD : 0 < D) (fresh : Bytes) (h : SlotInv D G net i x (s.slots i) log) (hp : p ∈ net.up)
    (ht : p.pktType = .req) : ∃ o, processLargeReqOne D fresh i p s = .ok o ∧ Did D net i x log s o := by
  obtain ⟨r, hr, hn, hpkt⟩ := (h.up.content p (.inl hp)).of_req ht
  have hsize : p.msgSize = r.msg.size := congrArg Pkt.msgSize hpkt
  unfold processLargeReqOne
  by_cases hsame : p.reqNum = (s.slots i).curReqNum ∧ p.pktNum = (s.slots i).numRx
  · rw [if_pos (.inl hsame)]
    obtain ⟨heq, hnum⟩ := hsame
    have hr' := hr
    rw [heq] at hr'
    rcases h.server_cases hr' with ⟨h1, h2, hb, htx, hty, hresp, hsz, hfill⟩ | ⟨h1, _⟩ | ⟨m, _, _, h1, _⟩
    · obtain ⟨hcur, hx⟩ := h.server_current hb
      rw [if_neg (by omega)]
      refine storeLargeReq_did hD h hp hr hn hpkt (heq.trans hcur) hx (heq ▸ hresp) (fun _ => hty) heq.symm ?_ htx hb hty hsz ?_ ?_
      · exact congrArg (· + 1) hnum.symm
      · rw [hnum]
        exact hfill
      · intro v' log' h4 h1 h2 h3 h5
        have h1' : v'.curReqNum = (s.slots i).curReqNum := h1
        rw [h1'] at h5
        exact h.advance hp heq hnum h4 h1 h2 h3 h5
    · omega
    · omega
  · by_cases hnext : p.reqNum = (s.slots i).curReqNum + sessionReqWindow ∧ p.pktNum = 0
    · have hW := sessionReqWindow_pos
      have hlt : (s.slots i).curReqNum < p.reqNum := by omega
      obtain ⟨hx, _, hburied, htx, hresp⟩ := h.next_request hr hlt
      rw [if_pos (.inr hnext), if_pos hnext.2, if_neg (by simp [hburied])]
      refine storeLargeReq_did hD h hp hr hn hpkt hx htx hresp (fun hc => absurd hc (by omega)) rfl ?_ rfl rfl
        (h.server.reqType_of_buried hburied) hsize ?_ ?_
      · rw [hnext.2]
        rfl
      · rw [hnext.2]
        exact Chunks.filled_zero _ _ _
      · intro v' log' h4 h1 h2 _ h5
        exact h.arrive hD hp hr hlt hnext.2 h4 h1 h2 h5
    · rw [if_neg (not_or.2 ⟨hsame, hnext⟩)]
      exact ⟨_, rfl, reorderedLargeReq_did hD h hp hr hn hpkt hsame⟩

/-! ## Responses -/

theorem ClientOk.answer {down : List Pkt} (h : ClientOk D G down x) {q : ℕ} (hq : G.resp q = none) :
    ClientOk D (G.answer q m) down x := by
  have hle := Calls.le_answer (m := m) hq
  refine { h with busy := ?_, finished := ?_ }
  · intro hx
    obtain ⟨r, hb⟩ := h.busy hx
    refine ⟨r, { hb with stage := ?_ }⟩
    cases hb.stage with
    | sending h1 h2 => exact .sending h1 h2
    | receiving m' h1 h2 h3 h4 h5 h6 h7 => exact .receiving m' (hle.resp h1) h2 h3 h4 h5 h6 h7
  · intro q' r hq' hlt
    obtain ⟨m', hm', hposted⟩ := h.finished hq' hlt
    exact ⟨m', hle.resp hm', hposted⟩

/-- The handler's response is handed over. -/
theorem Lived.respond {cur vcur : ℕ} {tx : Option MsgBuffer} {ty ty' : UInt8} (h : Lived G i cur tx vcur ty log)
    (hx : tx ≠ none) (hr : G.req cur = some r) (hm : G.resp cur = none) (hv : vcur = cur) (ht : ty ≠ invalidReqType) :
    Lived (G.answer cur m) i cur tx vcur ty' (log ++ [.respond cur m]) := by
  obtain ⟨ph, hph, hrun⟩ := h
  obtain rfl := hph.eq_handled hx hr hm hv ht
  exact ⟨.answered r m, .answered r m (Option.isSome_iff_ne_none.2 hx) hr (G.answer_resp_self m), hrun.snoc (.respond cur r m)⟩

/-- `enqueue_response` for a request whose handler has run. -/
theorem enqueueResponse_did (hD : 0 < D) (h : SlotInv D G net i x (s.slots i) log)
    (hty : (s.slots i).reqType ≠ invalidReqType) (m : Msg) :
    ∃ o, enqueueResponse D i m s = .ok o ∧ Did D net i x log s o := by
  cases h.server with
  | fresh _ _ _ ht => exact absurd ht hty
  | storing _ _ _ _ _ ht _ _ _ _ => exact absurd ht hty
  | answered _ _ _ _ _ _ ht _ _ _ => exact absurd ht hty
  | handling r hr hresp htx hburied ht hrx hsize =>
    obtain ⟨hcur, hx⟩ := h.server_current hburied
    have hle := Calls.le_answer (m := m) hresp
    have hnum : (s.slots i).reqMsgbuf.numPkts D = r.pkts D := by rw [MsgBuffer.numPkts, hsize, Request.pkts]
    have hpos : 0 < r.pkts D := Chunks.count_pos hD _
    have hm : 0 < m.pkts D := Chunks.count_pos hD _
    have hslot := (h.numbers.called hr).1
    -- no packet of the response exists yet
    have hnone : ∀ p, p ∈ net.down ∨ p ∈ net.replies → p.pktType = .resp → p.reqNum ≠ (s.slots i).curReqNum := by
      intro p hp htp hq
      cases h.down.content p hp with
      | resp q r' m' n _ hm' _ =>
        obtain rfl : q = (s.slots i).curReqNum := hq
        rw [hresp] at hm'
        cases hm'
      | cr _ _ ht' _ _ =>
        rw [htp] at ht'
        cases ht'
    unfold enqueueResponse
    rw [if_neg (by simp [htx]), if_neg hty, hnum, ht]
    refine ⟨_, rfl, fun j hj => by simp [hj], ?_, [(m.respBuf r.reqType (r.pkts D) (s.slots i).curReqNum).pkt D 0],
      G.answer (s.slots i).curReqNum m, rfl, ?_, ?_⟩
    · intro e he
      rw [List.mem_singleton.1 he]
      exact hslot
    · intro p hp
      rw [List.mem_singleton.1 hp]
      exact hslot
    · simp only [Server.post_slots, Server.setSlot_slots, Function.update_self, Net.answer, Bool.false_eq_true, if_false]
      refine ⟨⟨h.numbers.slot, h.numbers.close, fun _ => rfl, h.numbers.called, ?_⟩, h.client.answer hresp, ?_, ?_, ?_, ?_⟩
      · intro q m' hq
        by_cases hne : q = (s.slots i).curReqNum
        · exact ⟨hne.le, by rw [hne, Calls.answer_req, hr]; rfl⟩
        · rw [Calls.answer_resp_of_ne G m hne] at hq
          exact h.numbers.answered hq
      · exact .answered r m hr (G.answer_resp_self m) rfl rfl rfl hrx.ge (by dsimp only; omega) rfl
      · exact { h.up with content := fun p hp => (h.up.content p hp).mono hle }
      · refine DownOk.addResp { h.down with content := fun p hp => (h.down.content p hp).mono hle } hr
          (G.answer_resp_self m) hm ?_ ?_
        · dsimp only
          omega
        · intro p hp htp hq
          exact absurd hq (hnone p hp htp)
      · rw [hcur] at hr hresp ⊢
        exact hcur ▸ h.lived.respond hx hr hresp hcur hty

/-- The next response packet is asked for, and goes out for the first time. -/
theorem SlotInv.nextResp (hD : 0 < D) (h : SlotInv D G net i x v log) (hp : p ∈ net.up) (hr : G.req v.curReqNum = some r)
    (hm : G.resp v.curReqNum = some m) (heq : p.reqNum = v.curReqNum) (hnum : p.pktNum = v.numRx) {n : ℕ}
    (hn : r.pkts D - 1 + n = v.numRx) (hlt : n < m.pkts D) :
    SlotInv D G { net with replies := net.replies ++ [(m.respBuf r.reqType (r.pkts D) v.curReqNum).pkt D n] } i x
      v.count log := by
  have hserver : ServerOk D G i v.count := by
    cases h.server with
    | fresh h' _ _ _ => exact absurd h' (h.not_fresh hr)
    | storing _ _ h' _ _ _ _ _ _ _ => rw [hm] at h'; cases h'
    | handling _ _ h' _ _ _ _ _ => rw [hm] at h'; cases h'
    | answered r' m' a1 a2 a3 a4 a5 a6 a7 a8 =>
      rw [hr] at a1
      cases a1
      rw [hm] at a2
      cases a2
      have hpos : 0 < r.pkts D := Chunks.count_pos hD _
      have hroom : v.numRx + 1 + 1 ≤ r.pkts D + m.pkts D := by omega
      exact .answered r m hr hm a3 a4 a5 (Nat.le_succ_of_le a6) hroom a8
  have hadv := h.advance hp heq hnum hserver rfl rfl rfl h.lived
  refine { hadv with down := hadv.down.addResp hr hm hlt ?_ ?_ }
  · rw [hn]
    exact Nat.lt_succ_self _
  · intro p' hp' htp hq
    have := h.down.below p' hp' htp hq
    omega

/-- A request for a response packet. -/
theorem processRfr_did (hD : 0 < D) (h : SlotInv D G net i x (s.slots i) log) (hp : p ∈ net.up) (ht : p.pktType = .rfr) :
    ∃ o, processRfr D i p s = .ok o ∧ Did D net i x log s o := by
  cases h.up.content p (.inl hp) with
  | req q r n _ _ => cases ht
  | rfr _ r m _ hr hm hlo hhi =>
    have hpos : 0 < r.pkts D := Chunks.count_pos hD _
    have hle := (h.numbers.answered hm).1
    have hidx : r.pkts D - 1 + respNtoi p.pktNum (r.pkts D) = p.pktNum := by
      rw [respNtoi]
      omega
    have hfuture : ¬ (s.slots i).curReqNum < p.reqNum := by omega
    by_cases heq : p.reqNum = (s.slots i).curReqNum
    · rw [heq] at hr hm
      rcases h.server_cases hr with ⟨_, _, _, _, _, hn, _⟩ | ⟨_, _, _, _, hn, _⟩ | ⟨m', hm', htx, h1, h2, hsav⟩
      · rw [hm] at hn
        cases hn
      · rw [hm] at hn
        cases hn
      · rw [hm] at hm'
        cases hm'
        by_cases hnum : p.pktNum = (s.slots i).numRx
        · refine ⟨⟨(s.setSlot i (s.slots i).count).post
              ((m.respBuf r.reqType (r.pkts D) (s.slots i).curReqNum).pkt D (respNtoi p.pktNum (r.pkts D))), false, []⟩, ?_,
            fun j hj => by simp [hj], by simp, [_], G, rfl, ?_, ?_⟩
          · rw [processRfr, if_neg hfuture, if_pos ⟨heq, hnum⟩, htx, hsav]
          · intro p' hp'
            rw [List.mem_singleton.1 hp']
            exact (h.numbers.called hr).1
          · have hnext := h.nextResp hD hp hr hm heq hnum (hidx.trans hnum) (by omega)
            simpa [Net.answer] using hnext
        · have hno : ¬ (p.reqNum = (s.slots i).curReqNum ∧ p.pktNum = (s.slots i).numRx) := fun h' => hnum h'.2
          rw [processRfr, if_neg hfuture, if_neg hno]
          by_cases hlt : (s.slots i).numRx < p.pktNum
          · rw [if_pos (.inr hlt)]
            exact ⟨_, rfl, .nothing h⟩
          · rw [if_neg (by omega), htx, hsav]
            exact ⟨_, rfl, .again h hr hm (by omega) (by omega)⟩
    · have hno : ¬ (p.reqNum = (s.slots i).curReqNum ∧ p.pktNum = (s.slots i).numRx) := fun h' => heq h'.1
      rw [processRfr, if_neg hfuture, if_neg hno, if_pos (.inl (by omega))]
      exact ⟨_, rfl, .nothing h⟩

/-- `process_comps_st` at the server never fails, and keeps what holds of the slot. -/
theorem serverComp_did (hD : 0 < D) (fresh : Bytes) (h : SlotInv D G net i x (s.slots i) log) (hp : p ∈ net.up) :
    ∃ o, serverComp D fresh p s = .ok o ∧ Did D net i x log s o := by
  obtain ⟨r, hr⟩ := (h.up.content p (.inl hp)).known
  have hslot := (h.numbers.called hr).1
  have htype : p.pktType = .req ∨ p.pktType = .rfr := by
    cases h.up.content p (.inl hp) with
    | req _ _ _ _ _ => exact .inl rfl
    | rfr _ _ _ ht _ _ _ _ => exact .inr ht
  unfold serverComp
  rw [hslot]
  rcases htype with ht | ht
  · simp only [ht]
    by_cases hs : p.msgSize ≤ D
    · rw [if_pos hs]
      exact processSmallReq_did hD h hp ht hs
    · rw [if_neg hs]
      exact processLargeReqOne_did hD fresh h hp ht
  · simp only [ht]
    exact processRfr_did hD h hp ht

end CcKvs.Erpc
