/-
What the client does to a slot keeps what holds of the slot.
-/
import CcKvs.Erpc.Slot
import Mathlib

namespace CcKvs.Erpc

variable {D : ℕ} {G G' : Calls} {net : Net} {i : ℕ} {x : ClientSlot} {v : ServerSlot} {log : List Event} {p : Pkt}

theorem sessionReqWindow_pos : 0 < sessionReqWindow := by decide

/-- Packet `n` of a message, copied to its place. -/
theorem filled_copy {b : MsgBuffer} {n size : ℕ} {msg : Bytes} (hsize : p.msgSize = size) (hdata : p.data = msg.drop (n * D))
    (hfill : Chunks.Filled D n size b.data msg) : Chunks.Filled D (n + 1) size (copyDataToMsgbuf D b n p).data msg := by
  have hcopy : (copyDataToMsgbuf D b n p).data = b.data.write (n * D) (msg.drop (n * D)) (min D (size - n * D)) := by
    rw [copyDataToMsgbuf, hsize, hdata]
  rw [hcopy]
  exact hfill.write

/-- `G'` knows the calls that `G` knows. -/
structure Calls.Le (G G' : Calls) : Prop where
  req : ∀ {q r}, G.req q = some r → G'.req q = some r
  resp : ∀ {q m}, G.resp q = some m → G'.resp q = some m

theorem Calls.le_call {q : ℕ} {r : Request} (h : G.req q = none) : G.Le (G.call q r) where
  req := by
    intro q' r' h'
    have hne : q' ≠ q := by
      rintro rfl
      rw [h] at h'
      cases h'
    rwa [Calls.call_req_of_ne G r hne]
  resp h' := h'

theorem Calls.le_answer {q : ℕ} {m : Msg} (h : G.resp q = none) : G.Le (G.answer q m) where
  req h' := h'
  resp := by
    intro q' m' h'
    have hne : q' ≠ q := by
      rintro rfl
      rw [h] at h'
      cases h'
    rwa [Calls.answer_resp_of_ne G m hne]

theorem UpPkt.known (h : UpPkt D G p) : ∃ r, G.req p.reqNum = some r := by
  cases h with
  | req q r n hq _ => exact ⟨r, hq⟩
  | rfr _ r m _ hq _ _ _ => exact ⟨r, hq⟩

theorem DownPkt.known (h : DownPkt D G p) : ∃ r, G.req p.reqNum = some r := by
  cases h with
  | resp q r m n hq _ _ => exact ⟨r, hq⟩
  | cr _ r _ hq _ => exact ⟨r, hq⟩

theorem UpPkt.mono (hG : G.Le G') (h : UpPkt D G p) : UpPkt D G' p := by
  cases h with
  | req q r n hq hn => exact .req q r n (hG.req hq) hn
  | rfr _ r m ht hq hm h1 h2 => exact .rfr p r m ht (hG.req hq) (hG.resp hm) h1 h2

theorem DownPkt.mono (hG : G.Le G') (h : DownPkt D G p) : DownPkt D G' p := by
  cases h with
  | resp q r m n hq hm hn => exact .resp q r m n (hG.req hq) (hG.resp hm) hn
  | cr _ r ht hq hn => exact .cr p r ht (hG.req hq) hn

theorem Posted.mono {down down' : List Pkt} {q : ℕ} {P Q : ℕ → Prop} (h : Posted down q P) (hQ : ∀ n, Q n → P n)
    (hd : ∀ p ∈ down, p ∈ down') : Posted down' q Q := by
  intro n hn
  obtain ⟨p, hp, h'⟩ := h n (hQ n hn)
  exact ⟨p, hd p hp, h'⟩

theorem Busy.ne_none {down : List Pkt} {r : Request} (hb : Busy D G down x r) : x.txMsgbuf ≠ none := by
  rw [hb.buf]
  exact Option.some_ne_none _

/-- A slot with something unanswered has a request in it. -/
theorem SlotInv.busy_of_lt (h : SlotInv D G net i x v log) (hlt : x.numRx < x.numTx) : ∃ r, Busy D G net.down x r := by
  apply h.client.busy
  by_contra hx
  have hi := (h.client.idle (by simpa using hx)).1
  omega

/-! ## Sending -/

theorem DownOk.up_mono {vcur numRx : ℕ} {up up' down replies : List Pkt} (h : DownOk D G vcur numRx up down replies)
    (hup : ∀ p ∈ up, p ∈ up') : DownOk D G vcur numRx up' down replies :=
  { h with
    cause := by
      intro p hp
      obtain ⟨p', hp', he⟩ := h.cause p hp
      exact ⟨p', hup p' hp', he⟩
    heard := by
      intro n hn
      obtain ⟨p', hp', he⟩ := h.heard n hn
      exact ⟨p', hup p' hp', he⟩ }

/-- The count of packets sent goes up. -/
theorem SlotInv.raise (h : SlotInv D G net i x v log) {r : Request} (hb : Busy D G net.down x r) {t : ℕ} (ht : x.numTx ≤ t)
    (hw : t ≤ x.numRx + sessionCredits) (hs : Stage D G x.curReqNum t x.numRx x.respMsgbuf r) :
    SlotInv D G net i { x with numTx := t } v log where
  numbers := h.numbers
  client :=
    { nodup := h.client.nodup
      count := h.client.count
      bits := h.client.bits
      idle := fun hx => absurd hx hb.ne_none
      busy := by
        intro _
        refine ⟨r, { hb with le := le_trans hb.le ht, window := hw, stage := hs, wheel := ?_ }⟩
        intro n hn
        obtain ⟨h1, h2, h3⟩ := hb.wheel n hn
        exact ⟨h1, lt_of_lt_of_le h2 ht, h3⟩
      finished := h.client.finished }
  server := h.server
  up :=
    { h.up with
      below := fun p hp hq => lt_of_lt_of_le (h.up.below p hp hq) ht }
  down := h.down
  lived := h.lived

/-- Packets of the current request that were never posted go into the batch. -/
theorem SlotInv.addBatch (h : SlotInv D G net i x v log) {r : Request} (hb : Busy D G net.down x r) {ps : List Pkt}
    (hps : ∀ p ∈ ps, UpPkt D G p ∧ p.reqNum = x.curReqNum ∧ p.pktNum < x.numTx ∧ x.numRx ≤ p.pktNum ∧ p.pktNum ∉ x.wheel)
    (hnew : ∀ p ∈ ps, ∀ p', p' ∈ net.up ∨ p' ∈ net.batch → p'.reqNum = x.curReqNum → p'.pktNum ≠ p.pktNum)
    (hn : (ps.map Pkt.pktNum).Nodup) :
    SlotInv D G { net with batch := net.batch ++ ps } i x v log where
  numbers := h.numbers
  client := h.client
  server := h.server
  up :=
    { content := by
        intro p hp
        rw [List.mem_append, ← or_assoc] at hp
        rcases hp with hp | hp
        · exact h.up.content p hp
        · exact (hps p hp).1
      below := by
        intro p hp hq
        rw [List.mem_append, ← or_assoc] at hp
        rcases hp with hp | hp
        · exact h.up.below p hp hq
        · exact (hps p hp).2.2.1
      current := by
        intro p hp
        rcases List.mem_append.1 hp with hp | hp
        · exact h.up.current p hp
        · obtain ⟨_, h1, _, h2, h3⟩ := hps p hp
          exact ⟨h1, by simp [hb.buf], h2, h3⟩
      unposted := by
        intro p hp p' hp' hq
        rcases List.mem_append.1 hp with hp | hp
        · exact h.up.unposted p hp p' hp' hq
        · exact hnew p hp p' (.inl hp') hq
      nodup := by
        rw [List.map_append, List.nodup_append]
        refine ⟨h.up.nodup, hn, ?_⟩
        intro a ha b hb' hab
        obtain ⟨p, hp, rfl⟩ := List.mem_map.1 ha
        obtain ⟨p', hp', rfl⟩ := List.mem_map.1 hb'
        exact hnew p' hp' p (.inr hp) (h.up.current p hp).1 hab }
  down := h.down
  lived := h.lived

/-- Packets of the current request go into the wheel. -/
theorem SlotInv.addWheel (h : SlotInv D G net i x v log) {r : Request} (hb : Busy D G net.down x r) {ns : List ℕ}
    (hns : ∀ n ∈ ns, x.numRx ≤ n ∧ n < x.numTx ∧ n < r.pkts D) (hn : ns.Nodup) (hw : ∀ n ∈ ns, n ∉ x.wheel)
    (hbatch : ∀ p ∈ net.batch, p.pktNum ∉ ns) :
    SlotInv D G net i (x.enqueueWheelReq ns) v log where
  numbers := h.numbers
  client :=
    { nodup := List.nodup_append.2 ⟨h.client.nodup, hn, fun a ha b hb' hab => hw b hb' (hab ▸ ha)⟩
      count := by simp [ClientSlot.enqueueWheelReq, h.client.count]
      bits := by
        intro j
        have hbit := h.client.bits j
        simp only [ClientSlot.enqueueWheelReq, Bool.or_eq_true, hbit, List.any_eq_true, beq_iff_eq, List.mem_append]
        constructor
        · rintro (⟨n, hn, he⟩ | ⟨n, hn, he⟩)
          · exact ⟨n, .inl hn, he⟩
          · exact ⟨n, .inr hn, he⟩
        · rintro ⟨n, hn | hn, he⟩
          · exact .inl ⟨n, hn, he⟩
          · exact .inr ⟨n, hn, he⟩
      idle := fun hx => absurd hx hb.ne_none
      busy := by
        intro _
        refine ⟨r, { known := hb.known, buf := hb.buf, tag := hb.tag, le := hb.le, window := hb.window, stage := hb.stage,
                     receipts := hb.receipts, wheel := ?_ }⟩
        intro n hn'
        rcases List.mem_append.1 hn' with hn' | hn'
        · exact hb.wheel n hn'
        · exact hns n hn'
      finished := h.client.finished }
  server := h.server
  up :=
    { h.up with
      current := by
        intro p hp
        obtain ⟨h1, h2, h3, h4⟩ := h.up.current p hp
        refine ⟨h1, h2, h3, ?_⟩
        intro hm
        rcases List.mem_append.1 hm with hm | hm
        · exact h4 hm
        · exact hbatch p hp hm }
  down := h.down
  lived := h.lived

/-- Packets of the current request are posted, when none waits in the batch. -/
theorem SlotInv.wire (h : SlotInv D G net i x v log) (hbatch : net.batch = []) {ps : List Pkt}
    (hps : ∀ p ∈ ps, UpPkt D G p ∧ p.reqNum = x.curReqNum ∧ p.pktNum < x.numTx) :
    SlotInv D G { net with up := net.up ++ ps } i x v log where
  numbers := h.numbers
  client := h.client
  server := h.server
  up :=
    { content := by
        intro p hp
        rw [List.mem_append] at hp
        rcases hp with (hp | hp) | hp
        · exact h.up.content p (.inl hp)
        · exact (hps p hp).1
        · exact h.up.content p (.inr hp)
      below := by
        intro p hp hq
        rw [List.mem_append] at hp
        rcases hp with (hp | hp) | hp
        · exact h.up.below p (.inl hp) hq
        · exact (hps p hp).2.2
        · exact h.up.below p (.inr hp) hq
      current := h.up.current
      unposted := by
        intro p hp
        rw [hbatch] at hp
        cases hp
      nodup := h.up.nodup }
  down := h.down.up_mono fun _ => List.mem_append_left _
  lived := h.lived

/-- `do_tx_burst_st` posts what waits in the batch, or the front of it. -/
theorem SlotInv.burst (h : SlotInv D G net i x v log) {l r : List Pkt} (hl : net.batch = l ++ r) :
    SlotInv D G { net with up := net.up ++ l, batch := r } i x v log where
  numbers := h.numbers
  client := h.client
  server := h.server
  up :=
    { content := by
        intro p hp
        apply h.up.content p
        rw [hl]
        simp only [List.mem_append] at hp ⊢
        tauto
      below := by
        intro p hp
        apply h.up.below p
        rw [hl]
        simp only [List.mem_append] at hp ⊢
        tauto
      current := by
        intro p hp
        exact h.up.current p (by rw [hl]; exact List.mem_append_right _ hp)
      unposted := by
        intro p hp p' hp' hq
        rcases List.mem_append.1 hp' with hp' | hp'
        · exact h.up.unposted p (by rw [hl]; exact List.mem_append_right _ hp) p' hp' hq
        · have hn := h.up.nodup
          rw [hl, List.map_append, List.nodup_append] at hn
          exact hn.2.2 _ (List.mem_map_of_mem hp') _ (List.mem_map_of_mem hp)
      nodup := by
        have hn := h.up.nodup
        rw [hl, List.map_append, List.nodup_append] at hn
        exact hn.2.1 }
  down := h.down.up_mono fun _ => List.mem_append_left _
  lived := h.lived

/-- Packets in the wheel are told apart by their place in `in_wheel`. -/
theorem eq_of_mod_eq {a b c m k : ℕ} (ha : m ≤ a ∧ a < c) (hb : m ≤ b ∧ b < c) (hc : c ≤ m + k) (h : a % k = b % k) : a = b := by
  have hlt : ∀ {a b : ℕ}, m ≤ a ∧ a < c → m ≤ b ∧ b < c → a ≤ b → a % k = b % k → a = b := by
    intro a b ha hb hle he
    have hd : (b - a) % k = 0 := Nat.sub_mod_eq_zero_of_mod_eq he.symm
    rw [Nat.mod_eq_of_lt (by omega)] at hd
    omega
  rcases le_total a b with hle | hle
  · exact hlt ha hb hle h
  · exact (hlt hb ha hle h.symm).symm

/-- A packet leaves the wheel. -/
theorem SlotInv.leaveWheel (h : SlotInv D G net i x v log) {r : Request} (hb : Busy D G net.down x r) {n : ℕ} (hn : n ∈ x.wheel) :
    SlotInv D G net i (x.leaveWheel n) v log where
  numbers := h.numbers
  client :=
    { nodup := h.client.nodup.erase n
      count := by simp [ClientSlot.leaveWheel, h.client.count, List.length_erase_of_mem hn]
      bits := by
        intro j
        dsimp only [ClientSlot.leaveWheel]
        by_cases hj : j = n % sessionCredits
        · subst hj
          rw [Function.update_self]
          constructor
          · intro hf
            cases hf
          · rintro ⟨n', hn', he⟩
            obtain ⟨hne, hmem⟩ := (h.client.nodup.mem_erase_iff).1 hn'
            obtain ⟨a1, a2, _⟩ := hb.wheel n hn
            obtain ⟨b1, b2, _⟩ := hb.wheel n' hmem
            exact absurd (eq_of_mod_eq ⟨b1, b2⟩ ⟨a1, a2⟩ hb.window he) hne
        · rw [Function.update_of_ne hj, h.client.bits j]
          constructor
          · rintro ⟨n', hn', he⟩
            refine ⟨n', (h.client.nodup.mem_erase_iff).2 ⟨?_, hn'⟩, he⟩
            rintro rfl
            exact hj he.symm
          · rintro ⟨n', hn', he⟩
            exact ⟨n', List.mem_of_mem_erase hn', he⟩
      idle := fun hx => absurd hx hb.ne_none
      busy := by
        intro _
        refine ⟨r, { known := hb.known, buf := hb.buf, tag := hb.tag, le := hb.le, window := hb.window, stage := hb.stage,
                     receipts := hb.receipts, wheel := ?_ }⟩
        intro n' hn'
        exact hb.wheel n' (List.mem_of_mem_erase hn')
      finished := h.client.finished }
  server := h.server
  up :=
    { h.up with
      current := by
        intro p hp
        obtain ⟨h1, h2, h3, h4⟩ := h.up.current p hp
        exact ⟨h1, h2, h3, fun hm => h4 (List.mem_of_mem_erase hm)⟩ }
  down := h.down
  lived := h.lived

theorem Busy.raise {down : List Pkt} {r : Request} (hb : Busy D G down x r) {t : ℕ} (ht : x.numTx ≤ t)
    (hw : t ≤ x.numRx + sessionCredits) (hs : Stage D G x.curReqNum t x.numRx x.respMsgbuf r) :
    Busy D G down { x with numTx := t } r :=
  { hb with
    le := le_trans hb.le ht
    window := hw
    stage := hs
    wheel := fun n hn => ⟨(hb.wheel n hn).1, lt_of_lt_of_le (hb.wheel n hn).2.1 ht, (hb.wheel n hn).2.2⟩ }

section Kick

variable {cur numTx numRx t : ℕ} {resp : MsgBuffer} {r : Request}

theorem Stage.of_le_pkts (h : Stage D G cur numTx numRx resp r) (ht : t ≤ r.pkts D) : Stage D G cur t numRx resp r := by
  cases h with
  | sending h1 _ => exact .sending h1 ht
  | receiving m h1 h2 h3 _ h5 h6 h7 => exact .receiving m h1 h2 h3 (by omega) h5 h6 h7

/-- With the first response packet there, the response's length is known. -/
theorem Stage.response (h : Stage D G cur numTx numRx resp r) (hrx : r.pkts D ≤ numRx) :
    ∃ m, G.resp cur = some m ∧ resp.size = m.size ∧ resp.reqNum = cur ∧ numRx + 1 < r.pkts D + m.pkts D := by
  cases h with
  | sending h1 _ => omega
  | receiving m h1 _ h3 _ h5 h6 _ => exact ⟨m, h1, h5, h6, h3⟩

theorem Stage.of_le_wire (h : Stage D G cur numTx numRx resp r) (hrx : r.pkts D ≤ numRx)
    (ht : t + 1 ≤ r.pkts D + resp.numPkts D) : Stage D G cur t numRx resp r := by
  cases h with
  | sending h1 _ => omega
  | receiving m h1 h2 h3 _ h5 h6 h7 =>
    have hm : m.pkts D = resp.numPkts D := by rw [Msg.pkts, MsgBuffer.numPkts, h5]
    exact .receiving m h1 h2 h3 (by omega) h5 h6 h7

end Kick

/-- Request packets and requests for response packets, as a kick makes them. -/
theorem mem_map_pkt {b : MsgBuffer} {a k : ℕ} (h : p ∈ (List.range' a k).map (b.pkt D)) :
    ∃ n, a ≤ n ∧ n < a + k ∧ p = b.pkt D n := by
  obtain ⟨n, hn, rfl⟩ := List.mem_map.1 h
  rw [List.mem_range'_1] at hn
  exact ⟨n, hn.1, hn.2, rfl⟩

theorem mem_map_rfr {b : MsgBuffer} {a k : ℕ} (h : p ∈ (List.range' a k).map (rfrPkt b)) :
    ∃ n, a ≤ n ∧ n < a + k ∧ p = rfrPkt b n := by
  obtain ⟨n, hn, rfl⟩ := List.mem_map.1 h
  rw [List.mem_range'_1] at hn
  exact ⟨n, hn.1, hn.2, rfl⟩

theorem pktNum_buf (r : Request) (q n : ℕ) : ((r.buf q).pkt D n).pktNum = n := Nat.zero_add n

theorem nodup_map_pkt (r : Request) (q a k : ℕ) : (((List.range' a k).map ((r.buf q).pkt D)).map Pkt.pktNum).Nodup := by
  have hid : Pkt.pktNum ∘ (r.buf q).pkt D = id := funext (pktNum_buf r q)
  rw [List.map_map, hid, List.map_id]
  exact List.nodup_range'

theorem nodup_map_rfr (b : MsgBuffer) (a k : ℕ) : (((List.range' a k).map (rfrPkt b)).map Pkt.pktNum).Nodup := by
  have hid : Pkt.pktNum ∘ rfrPkt b = id := rfl
  rw [List.map_map, hid, List.map_id]
  exact List.nodup_range'

section Kick

variable {r : Request} {k : ℕ}

/-- `kick_req_st` past the wheel. -/
theorem SlotInv.post (h : SlotInv D G net i x v log) (hb : Busy D G net.down x r) (hk : x.numTx + k ≤ r.pkts D)
    (hw : x.numTx + k ≤ x.numRx + sessionCredits) :
    SlotInv D G { net with batch := net.batch ++ (List.range' x.numTx k).map ((r.buf x.curReqNum).pkt D) } i
      (x.sent k) v log := by
  have hs := hb.stage.of_le_pkts hk
  have hle : x.numTx ≤ x.numTx + k := Nat.le_add_right _ _
  refine (h.raise hb hle hw hs).addBatch (hb.raise hle hw hs) ?_ ?_ (nodup_map_pkt r _ _ _)
  · intro p hp
    obtain ⟨n, h1, h2, rfl⟩ := mem_map_pkt hp
    rw [pktNum_buf]
    refine ⟨.req _ r n hb.known (by omega), rfl, h2, le_trans hb.le h1, ?_⟩
    intro hm
    have := (hb.wheel n hm).2.1
    omega
  · intro p hp p' hp' hq
    obtain ⟨n, h1, _, rfl⟩ := mem_map_pkt hp
    have := h.up.below p' hp' hq
    rw [pktNum_buf]
    omega

/-- `kick_req_st` into the wheel. -/
theorem SlotInv.postWheel (h : SlotInv D G net i x v log) (hb : Busy D G net.down x r) (hk : x.numTx + k ≤ r.pkts D)
    (hw : x.numTx + k ≤ x.numRx + sessionCredits) :
    SlotInv D G net i ((x.sent k).enqueueWheelReq (List.range' x.numTx k)) v log := by
  have hs := hb.stage.of_le_pkts hk
  have hle : x.numTx ≤ x.numTx + k := Nat.le_add_right _ _
  refine (h.raise hb hle hw hs).addWheel (hb.raise hle hw hs) ?_ List.nodup_range' ?_ ?_
  · intro n hn
    rw [List.mem_range'_1] at hn
    exact ⟨le_trans hb.le hn.1, hn.2, by omega⟩
  · intro n hn hm
    rw [List.mem_range'_1] at hn
    have := (hb.wheel n hm).2.1
    omega
  · intro p hp hm
    rw [List.mem_range'_1] at hm
    have := h.up.below p (.inr hp) (h.up.current p hp).1
    omega

/-- A request for a packet of the response that is being received. -/
theorem Busy.upPkt_rfr {down : List Pkt} (hb : Busy D G down x r) (hrx : r.pkts D ≤ x.numRx) {n : ℕ} (hn : x.numRx ≤ n)
    (hk : n + 1 < r.pkts D + x.respMsgbuf.numPkts D) :
    UpPkt D G (rfrPkt x.respMsgbuf n) ∧ (rfrPkt x.respMsgbuf n).reqNum = x.curReqNum := by
  obtain ⟨m, hm, hsize, hnum, _⟩ := hb.stage.response hrx
  have hpk : m.pkts D = x.respMsgbuf.numPkts D := by rw [Msg.pkts, MsgBuffer.numPkts, hsize]
  have hq : (rfrPkt x.respMsgbuf n).reqNum = x.curReqNum := hnum
  refine ⟨.rfr _ r m rfl ?_ ?_ (le_trans hrx hn) ?_, hq⟩
  · rw [hq]
    exact hb.known
  · rw [hq]
    exact hm
  · rw [hpk]
    exact hk

/-- `kick_rfr_st`. -/
theorem SlotInv.postRfr (h : SlotInv D G net i x v log) (hb : Busy D G net.down x r) (hrx : r.pkts D ≤ x.numRx)
    (hk : x.numTx + k + 1 ≤ r.pkts D + x.respMsgbuf.numPkts D) (hw : x.numTx + k ≤ x.numRx + sessionCredits) :
    SlotInv D G { net with batch := net.batch ++ (List.range' x.numTx k).map (rfrPkt x.respMsgbuf) } i
      (x.sent k) v log := by
  have hs := hb.stage.of_le_wire hrx hk
  have hle : x.numTx ≤ x.numTx + k := Nat.le_add_right _ _
  refine (h.raise hb hle hw hs).addBatch (hb.raise hle hw hs) ?_ ?_ (nodup_map_rfr _ _ _)
  · intro p hp
    obtain ⟨n, h1, h2, rfl⟩ := mem_map_rfr hp
    obtain ⟨hup, hq⟩ := hb.upPkt_rfr hrx (le_trans hb.le h1) (by omega)
    refine ⟨hup, hq, h2, le_trans hb.le h1, ?_⟩
    intro hm
    have : n < x.numTx := (hb.wheel n hm).2.1
    omega
  · intro p hp p' hp' hq
    obtain ⟨n, h1, _, rfl⟩ := mem_map_rfr hp
    have := h.up.below p' hp' hq
    have : (rfrPkt x.respMsgbuf n).pktNum = n := rfl
    omega

/-! ## Sending again

A roll-back ends with at least as many packets sent as before, and what is sent is posted at
once or goes through the wheel, which was empty. -/

theorem SlotInv.resend (h : SlotInv D G net i x v log) (hb : Busy D G net.down x r) (hle : x.numTx ≤ x.numRx + k)
    (hk : x.numRx + k ≤ r.pkts D) (hw : k ≤ sessionCredits) :
    SlotInv D G { net with up := net.up ++ (net.batch ++ (List.range' x.numRx k).map ((r.buf x.curReqNum).pkt D)), batch := [] }
      i (x.rolledBack.sent k) v log := by
  have hs := hb.stage.of_le_pkts hk
  have h1 := (h.raise hb hle (by omega) hs).burst (List.append_nil net.batch).symm
  have hps : ∀ p ∈ (List.range' x.numRx k).map ((r.buf x.curReqNum).pkt D),
      UpPkt D G p ∧ p.reqNum = x.curReqNum ∧ p.pktNum < x.numRx + k := by
    intro p hp
    obtain ⟨n, h3, h4, rfl⟩ := mem_map_pkt hp
    exact ⟨.req _ r n hb.known (by omega), rfl, by rw [pktNum_buf]; exact h4⟩
  have h2 := h1.wire rfl hps
  rw [List.append_assoc] at h2
  exact h2

theorem SlotInv.resendWheel (h : SlotInv D G net i x v log) (hb : Busy D G net.down x r) (hle : x.numTx ≤ x.numRx + k)
    (hk : x.numRx + k ≤ r.pkts D) (hw : k ≤ sessionCredits) (hwheel : x.wheel = []) :
    SlotInv D G { net with up := net.up ++ net.batch, batch := [] } i
      ((x.rolledBack.sent k).enqueueWheelReq (List.range' x.numRx k)) v log := by
  have hs := hb.stage.of_le_pkts hk
  have h1 := (h.raise hb hle (by omega) hs).burst (List.append_nil net.batch).symm
  refine h1.addWheel (hb.raise hle (by omega) hs) ?_ List.nodup_range' ?_ ?_
  · intro n hn
    rw [List.mem_range'_1] at hn
    exact ⟨hn.1, hn.2, by omega⟩
  · intro n _ hm
    rw [show x.wheel = [] from hwheel] at hm
    cases hm
  · intro p hp
    cases hp

theorem SlotInv.resendRfr (h : SlotInv D G net i x v log) (hb : Busy D G net.down x r) (hrx : r.pkts D ≤ x.numRx)
    (hle : x.numTx ≤ x.numRx + k) (hk : x.numRx + k + 1 ≤ r.pkts D + x.respMsgbuf.numPkts D) (hw : k ≤ sessionCredits) :
    SlotInv D G { net with up := net.up ++ (net.batch ++ (List.range' x.numRx k).map (rfrPkt x.respMsgbuf)), batch := [] } i
      (x.rolledBack.sent k) v log := by
  have hs := hb.stage.of_le_wire hrx hk
  have h1 := (h.raise hb hle (by omega) hs).burst (List.append_nil net.batch).symm
  have hps : ∀ p ∈ (List.range' x.numRx k).map (rfrPkt x.respMsgbuf),
      UpPkt D G p ∧ p.reqNum = x.curReqNum ∧ p.pktNum < x.numRx + k := by
    intro p hp
    obtain ⟨n, h3, h4, rfl⟩ := mem_map_rfr hp
    obtain ⟨hup, hq⟩ := hb.upPkt_rfr hrx h3 (by omega)
    exact ⟨hup, hq, h4⟩
  have h2 := h1.wire rfl hps
  rw [List.append_assoc] at h2
  exact h2

end Kick

/-! ## A new request -/

theorem ServerOk.call (h : ServerOk D G i v) {q : ℕ} {r : Request} (hq : G.req q = none) : ServerOk D (G.call q r) i v := by
  have hle := Calls.le_call (r := r) hq
  cases h with
  | fresh h1 h2 h3 h4 => exact .fresh h1 h2 h3 h4
  | storing r' h1 h2 h3 h4 h5 h6 h7 h8 h9 => exact .storing r' (hle.req h1) h2 h3 h4 h5 h6 h7 h8 h9
  | handling r' h1 h2 h3 h4 h5 h6 h7 => exact .handling r' (hle.req h1) h2 h3 h4 h5 h6 h7
  | answered r' m h1 h2 h3 h4 h5 h6 h7 h8 => exact .answered r' m (hle.req h1) h2 h3 h4 h5 h6 h7 h8

theorem InPhase.eq_idle {cur vcur : ℕ} {tx : Option MsgBuffer} {ty : UInt8} {ph : Phase} (h : InPhase G cur tx vcur ty ph)
    (hx : tx = none) : ph = .idle := by
  subst hx
  cases h with
  | idle _ => rfl
  | called _ hs _ _ _ => cases hs
  | handled _ hs _ _ _ _ => cases hs
  | answered _ _ hs _ _ => cases hs

/-- A request gets a free slot. -/
theorem SlotInv.accept (hD : 0 < D) (h : SlotInv D G net i x v log) (hx : x.txMsgbuf = none) {r : Request}
    (hr : r.reqType ≠ invalidReqType) :
    SlotInv D (G.call (x.curReqNum + sessionReqWindow) r) net i (x.accept r) v
      (log ++ [.call (x.curReqNum + sessionReqWindow) r]) := by
  have hW := sessionReqWindow_pos
  have hnone : G.req (x.curReqNum + sessionReqWindow) = none := by
    cases hq : G.req (x.curReqNum + sessionReqWindow) with
    | none => rfl
    | some r' =>
      have := (h.numbers.called hq).2.2.1
      omega
  have hle := Calls.le_call (r := r) hnone
  have hcur : v.curReqNum = x.curReqNum := by
    rcases h.numbers.close with hc | ⟨_, hc⟩
    · exact hc
    · rw [hx] at hc
      cases hc
  have hunanswered : G.resp (x.curReqNum + sessionReqWindow) = none := by
    cases hq : G.resp (x.curReqNum + sessionReqWindow) with
    | none => rfl
    | some m =>
      have := (h.numbers.answered hq).1
      omega
  have hself := G.call_req_self (q := x.curReqNum + sessionReqWindow) r
  have hother : ∀ {q r'}, (G.call (x.curReqNum + sessionReqWindow) r).req q = some r' → q ≠ x.curReqNum + sessionReqWindow →
      G.req q = some r' := by
    intro q r' hq hne
    rwa [Calls.call_req_of_ne G r hne] at hq
  have hpkts : 0 < r.pkts D := Chunks.count_pos hD _
  obtain ⟨hidle, hwheel⟩ := h.client.idle hx
  -- a packet of the new request has not been made yet
  have hnotyet : ∀ p, p ∈ net.up ∨ p ∈ net.batch → p.reqNum ≠ x.curReqNum + sessionReqWindow := by
    intro p hp hq
    obtain ⟨r', hr'⟩ := (h.up.content p hp).known
    rw [hq, hnone] at hr'
    cases hr'
  have hbatch : ∀ p, p ∉ net.batch := by
    intro p hp
    have := (h.up.current p hp).2.1
    rw [hx] at this
    cases this
  refine ⟨?_, ?_, h.server.call hnone, ?_, ?_, ?_⟩
  · refine ⟨?_, .inr ⟨?_, rfl⟩, fun _ => h.numbers.settled (.inl hx), ?_, ?_⟩
    · rw [ClientSlot.accept, Nat.add_mod_right]
      exact h.numbers.slot
    · rw [ClientSlot.accept, hcur]
    · intro q r' hq
      by_cases hne : q = x.curReqNum + sessionReqWindow
      · rw [hne, hself] at hq
        cases hq
        refine ⟨?_, ?_, ?_, hr⟩
        · rw [hne, Nat.add_mod_right]
          exact h.numbers.slot
        · omega
        · exact hne.le
      · obtain ⟨h1, h2, h3, h4⟩ := h.numbers.called (hother hq hne)
        exact ⟨h1, h2, le_trans h3 (Nat.le_add_right _ _), h4⟩
    · intro q m hq
      obtain ⟨h1, h2⟩ := h.numbers.answered hq
      obtain ⟨r', hr'⟩ := Option.isSome_iff_exists.1 h2
      exact ⟨h1, by rw [hle.req hr']; rfl⟩
  · refine ⟨h.client.nodup, h.client.count, h.client.bits, ?_, ?_, ?_⟩
    · intro hn
      cases hn
    · intro _
      refine ⟨r, ⟨hself, rfl, rfl, le_refl _, Nat.zero_le _, .sending hpkts (Nat.zero_le _), ?_, ?_⟩⟩
      · intro n hn
        exact absurd hn.2 (Nat.not_lt_zero n)
      · intro n hn
        rw [show (x.accept r).wheel = [] from hwheel] at hn
        cases hn
    · intro q r' hq hlt
      have hne : q ≠ x.curReqNum + sessionReqWindow := by
        rintro rfl
        rcases hlt with hlt | hlt
        · exact lt_irrefl _ hlt
        · cases hlt
      exact h.client.finished (hother hq hne) (.inr hx)
  · refine ⟨fun p hp => (h.up.content p hp).mono hle, fun p hp hq => absurd hq (hnotyet p hp), ?_, ?_, h.up.nodup⟩
    · intro p hp
      exact absurd hp (hbatch p)
    · intro p hp
      exact absurd hp (hbatch p)
  · exact { h.down with content := fun p hp => (h.down.content p hp).mono hle }
  · obtain ⟨ph, hph, hrun⟩ := h.lived
    obtain rfl := hph.eq_idle hx
    refine ⟨.called r, .called r rfl hself hunanswered ?_, hrun.snoc (.call _ r)⟩
    intro he
    have : v.curReqNum = x.curReqNum + sessionReqWindow := he
    omega

/-! ## Taking in a reply -/

section Take

variable {r : Request} {m : Msg} {n : ℕ} {resp : MsgBuffer}

/-- A packet that has an answer was posted, so it does not wait in the batch. -/
theorem SlotInv.upTake (h : SlotInv D G net i x v log) (hp : p ∈ net.down) (ho : x.inOrder p) :
    UpOk D G x.curReqNum x.txMsgbuf x.numTx (x.numRx + 1) x.wheel net.up net.batch :=
  { h.up with
    current := by
      intro p' hp'
      obtain ⟨h1, h2, h3, h4⟩ := h.up.current p' hp'
      obtain ⟨q, hq, hnum, hpk⟩ := h.down.cause p (.inl hp)
      have hne := h.up.unposted p' hp' q hq (hnum.trans ho.1)
      rw [hpk, ho.2.1] at hne
      exact ⟨h1, h2, by omega, h4⟩ }

/-- Nor is it in the wheel: `in_wheel` was looked up. -/
theorem SlotInv.wheelTake (h : SlotInv D G net i x v log) (hb : Busy D G net.down x r) (ho : x.inOrder p) :
    ∀ n ∈ x.wheel, x.numRx + 1 ≤ n ∧ n < x.numTx ∧ n < r.pkts D := by
  intro n hn
  obtain ⟨h1, h2, h3⟩ := hb.wheel n hn
  have hne : n ≠ x.numRx := by
    rintro rfl
    have hbit : x.inWheel (x.numRx % sessionCredits) = true := (h.client.bits _).2 ⟨_, hn, rfl⟩
    rw [← ho.2.1, ho.2.2.2] at hbit
    cases hbit
  exact ⟨by omega, h2, h3⟩

/-- `process_expl_cr_st` takes in a credit return. -/
theorem SlotInv.takeCr (h : SlotInv D G net i x v log) (hb : Busy D G net.down x r) (hp : p ∈ net.down) (ho : x.inOrder p)
    (ht : p.pktType = .explCr) :
    SlotInv D G net i x.received v log ∧ Busy D G net.down x.received r := by
  have hlt : x.numRx + 1 < r.pkts D := by
    cases h.down.content p (.inl hp) with
    | resp q r' m n _ _ _ => cases ht
    | cr _ r' _ hq hn =>
      rw [ho.1, hb.known] at hq
      cases hq
      rwa [ho.2.1] at hn
  have hpos := ho.2.2.1
  rw [ho.2.1] at hpos
  have hstage : Stage D G x.curReqNum x.numTx (x.numRx + 1) x.respMsgbuf r := by
    cases hb.stage with
    | sending _ h2 => exact .sending hlt h2
    | receiving _ _ h2 _ _ _ _ _ => omega
  have hwindow : x.numTx ≤ x.numRx + 1 + sessionCredits := by
    have := hb.window
    omega
  have hb' : Busy D G net.down x.received r :=
    { hb with
      le := hpos
      window := hwindow
      stage := hstage
      receipts := by
        rintro n ⟨h1, h2⟩
        have : n < x.numRx + 1 := h2
        omega
      wheel := h.wheelTake hb ho }
  refine ⟨⟨h.numbers, ?_, h.server, h.upTake hp ho, h.down, h.lived⟩, hb'⟩
  exact ⟨h.client.nodup, h.client.count, h.client.bits, fun hx => absurd hx hb.ne_none, fun _ => ⟨r, hb'⟩, h.client.finished⟩

/-- What a response packet in order is. -/
theorem SlotInv.respPkt (hD : 0 < D) (h : SlotInv D G net i x v log) (hb : Busy D G net.down x r) (hp : p ∈ net.down)
    (ho : x.inOrder p) (ht : p.pktType = .resp) :
    ∃ m n, G.resp x.curReqNum = some m ∧ n < m.pkts D ∧ x.numRx + 1 = r.pkts D + n ∧
      p = (m.respBuf r.reqType (r.pkts D) x.curReqNum).pkt D n := by
  have hnum := ho.2.1
  have hcur := ho.1
  cases h.down.content p (.inl hp) with
  | resp q r' m n hq hm hn =>
    have hq' : q = x.curReqNum := hcur
    subst hq'
    rw [hb.known] at hq
    cases hq
    have hpos : 0 < r.pkts D := Chunks.count_pos hD _
    have hnum' : r.pkts D - 1 + n = x.numRx := hnum
    exact ⟨m, n, hm, hn, by omega, rfl⟩
  | cr _ _ ht' _ _ =>
    rw [ht] at ht'
    cases ht'

theorem Busy.receipts_take (hb : Busy D G net.down x r) (hp : p ∈ net.down) (ho : x.inOrder p) (ht : p.pktType = .resp) :
    Posted net.down x.curReqNum fun n => r.pkts D ≤ n + 1 ∧ n < x.numRx + 1 := by
  rintro n ⟨h1, h2⟩
  by_cases hn : n < x.numRx
  · exact hb.receipts n ⟨h1, hn⟩
  · obtain rfl : n = x.numRx := by omega
    exact ⟨p, hp, ht, ho.1, ho.2.1⟩

/-- `process_resp_one_st` takes in a response packet that is not the last. -/
theorem SlotInv.takeResp (h : SlotInv D G net i x v log) (hb : Busy D G net.down x r) (hp : p ∈ net.down) (ho : x.inOrder p)
    (ht : p.pktType = .resp) (hm : G.resp x.curReqNum = some m) (hn : x.numRx + 1 = r.pkts D + n)
    (hmore : n + 1 < m.pkts D) (hsize : resp.size = m.size) (hnum : resp.reqNum = x.curReqNum)
    (hfill : Chunks.Filled D (n + 1) m.size resp.data m.data) :
    SlotInv D G net i (x.received.withResp resp) v log ∧ Busy D G net.down (x.received.withResp resp) r := by
  have hpos := ho.2.2.1
  rw [ho.2.1] at hpos
  have hstage : Stage D G x.curReqNum x.numTx (x.numRx + 1) resp r := by
    refine .receiving m hm (by omega) (by omega) ?_ hsize hnum ?_
    · cases hb.stage with
      | sending _ h2 => omega
      | receiving m' h1 _ _ h4 _ _ _ =>
        rw [hm] at h1
        cases h1
        exact h4
    · rwa [show x.numRx + 1 + 1 - r.pkts D = n + 1 by omega]
  have hwindow : x.numTx ≤ x.numRx + 1 + sessionCredits := by
    have := hb.window
    omega
  have hb' : Busy D G net.down (x.received.withResp resp) r :=
    { hb with
      le := hpos
      window := hwindow
      stage := hstage
      receipts := hb.receipts_take hp ho ht
      wheel := h.wheelTake hb ho }
  refine ⟨⟨h.numbers, ?_, h.server, h.upTake hp ho, h.down, h.lived⟩, hb'⟩
  exact ⟨h.client.nodup, h.client.count, h.client.bits, fun hx => absurd hx hb.ne_none, fun _ => ⟨r, hb'⟩, h.client.finished⟩

theorem InPhase.eq_answered {cur vcur : ℕ} {tx : Option MsgBuffer} {ty : UInt8} {ph : Phase} (h : InPhase G cur tx vcur ty ph)
    (hx : tx ≠ none) (hr : G.req cur = some r) (hm : G.resp cur = some m) : ph = .answered r m := by
  cases h with
  | idle h' => exact absurd h' hx
  | called _ _ _ h' _ => rw [hm] at h'; cases h'
  | handled _ _ _ h' _ _ => rw [hm] at h'; cases h'
  | answered _ _ _ h1 h2 =>
    rw [hr] at h1
    rw [hm] at h2
    cases h1
    cases h2
    rfl

/-- A request that is answered is the one the server holds the response of. -/
theorem SlotInv.server_answered (h : SlotInv D G net i x v log) (hm : G.resp x.curReqNum = some m) :
    v.curReqNum = x.curReqNum ∧ v.reqBuried = true := by
  have hW := sessionReqWindow_pos
  have hcur : v.curReqNum = x.curReqNum := by
    have hle := (h.numbers.answered hm).1
    rcases h.numbers.close with hc | ⟨hc, _⟩
    · exact hc
    · omega
  refine ⟨hcur, ?_⟩
  rw [← hcur] at hm
  cases h.server with
  | fresh _ _ hb _ => exact hb
  | storing _ _ h' _ _ _ _ _ _ _ => rw [hm] at h'; cases h'
  | handling _ _ h' _ _ _ _ _ => rw [hm] at h'; cases h'
  | answered _ _ _ _ _ hb _ _ _ _ => exact hb

/-- When the last response packet is taken in, the request has nothing left in the wheel and
nothing that was sent and is not answered. -/
theorem SlotInv.nothing_left (h : SlotInv D G net i x v log) (hb : Busy D G net.down x r) (ho : x.inOrder p)
    (hm : G.resp x.curReqNum = some m) (hlast : x.numRx + 2 = r.pkts D + m.pkts D) (hpos : 0 < m.pkts D) :
    x.numTx = x.numRx + 1 ∧ x.wheel = [] := by
  have hlt := ho.2.2.1
  rw [ho.2.1] at hlt
  have htx : x.numTx = x.numRx + 1 := by
    cases hb.stage with
    | sending h1 h2 => omega
    | receiving m' h1 _ _ h4 _ _ _ =>
      rw [hm] at h1
      cases h1
      omega
  refine ⟨htx, ?_⟩
  rw [List.eq_nil_iff_forall_not_mem]
  intro n hn
  obtain ⟨h1, h2, _⟩ := h.wheelTake hb ho n hn
  omega

/-- `process_resp_one_st` takes in the last response packet. -/
theorem SlotInv.finish (hD : 0 < D) (h : SlotInv D G net i x v log) (hb : Busy D G net.down x r) (hp : p ∈ net.down)
    (ho : x.inOrder p) (ht : p.pktType = .resp) (hm : G.resp x.curReqNum = some m) (hlast : x.numRx + 2 = r.pkts D + m.pkts D)
    (hsize : resp.size = m.size) (hagree : Bytes.Agree m.size resp.data m.data) :
    SlotInv D G net i (x.received.withResp resp).freed v
      (log ++ [.done x.curReqNum x.tag resp.bytes]) := by
  obtain ⟨htx, hwheel⟩ := h.nothing_left hb ho hm hlast (Chunks.count_pos hD _)
  obtain ⟨hcur, hburied⟩ := h.server_answered hm
  have hbytes : resp.bytes = m.bytes := by
    rw [MsgBuffer.bytes, Msg.bytes, hsize]
    exact Bytes.toList_congr hagree
  have hbatch : ∀ p, p ∉ net.batch := by
    intro p' hp'
    have h1 := ((h.upTake hp ho).current p' hp').2.2.1
    have h2 := h.up.below p' (.inr hp') (h.up.current p' hp').1
    omega
  refine ⟨⟨h.numbers.slot, .inl hcur, fun _ => hburied, h.numbers.called, h.numbers.answered⟩, ?_, h.server, ?_, h.down, ?_⟩
  · refine ⟨h.client.nodup, h.client.count, h.client.bits, fun _ => ⟨htx, hwheel⟩, fun hx => (by cases hx), ?_⟩
    intro q r' hq _
    rcases Nat.lt_or_ge q x.curReqNum with hlt | hge
    · exact h.client.finished hq (.inl hlt)
    · obtain rfl : q = x.curReqNum := le_antisymm (h.numbers.called hq).2.2.1 hge
      rw [hb.known] at hq
      cases hq
      refine ⟨m, hm, (hb.receipts_take hp ho ht).mono ?_ fun _ => id⟩
      rintro n ⟨h1, h2⟩
      exact ⟨h1, by omega⟩
  · exact ⟨h.up.content, h.up.below, fun p hp' => absurd hp' (hbatch p), h.up.unposted, h.up.nodup⟩
  · obtain ⟨ph, hph, hrun⟩ := h.lived
    obtain rfl := hph.eq_answered hb.ne_none hb.known hm
    refine ⟨.idle, .idle rfl, hrun.snoc ?_⟩
    rw [hb.tag, hbytes]
    exact .done _ r m

end Take

end CcKvs.Erpc
