/-
Receives for credits are posted in time. A machine returns credits for a channel
after every `CREDITS_IN_MESSAGE` messages that it has freed there. The client
counts its broadcasts of both kinds together, which is not less often for a
machine, and its ACKs to all machines together; and it posts the receives for a
batch before it hands the batch over.
-/
import CcKvs.Lin.Conservation
import CcKvs.Lin.Signals

namespace CcKvs.Lin

open Function

namespace Poster

variable {N : ℕ} {cfg : PostConfig} {m : Fin N} {p : Poster N}

/-- What was handed over, and the receives posted for it. -/
structure Covers (m : Fin N) (p : Poster N) : Prop where
  kinds : ∀ vc ∈ p.bcasts, vc = .inv ∨ vc = .upd
  /-- Every other machine was sent every broadcast. -/
  others : ∀ j, j ≠ m → p.sent j .inv + p.sent j .upd + p.bcasts.length = p.brTx
  own : p.sent m .inv = 0 ∧ p.sent m .upd = 0
  acks : ∑ j, p.sent j .ack + p.acks.length = p.sentAckTx
  /-- The receives that the counters stand for. -/
  recvs : p.recvs + (N - 1) * p.creditRecvCounter + p.ackRecvCounter =
    (N - 1) * (p.brTx / creditsInMessage) + p.sentAckTx / creditsInMessage
  /-- Receives that are not posted are for messages that are not handed over. -/
  bcastRecvs : p.creditRecvCounter + (p.brTx - p.bcasts.length) / creditsInMessage ≤ p.brTx / creditsInMessage
  ackRecvs : p.ackRecvCounter + (p.sentAckTx - p.acks.length) / creditsInMessage ≤ p.sentAckTx / creditsInMessage
  bcastsPosted : ∀ last, p.pc = .bcastSend last → p.creditRecvCounter = 0
  acksPosted : p.pc = .acksSend → p.ackRecvCounter = 0

theorem Covers.init {s : Posting N} (h : s.Init cfg) : s.client.Covers m := by
  refine ⟨by simp [h.bcasts], fun j _ => ?_, ⟨h.sent m .inv, h.sent m .upd⟩, ?_, ?_, ?_, ?_, fun _ _ => h.creditRecvCounter,
    fun _ => h.ackRecvCounter⟩
  · rw [h.sent, h.sent, h.bcasts, h.brTx]
    rfl
  · rw [h.acks, h.sentAckTx]
    simp [h.sent]
  · rw [h.recvs, h.creditRecvCounter, h.ackRecvCounter, h.brTx, h.sentAckTx]
    simp
  · rw [h.creditRecvCounter, h.brTx]
    simp
  · rw [h.ackRecvCounter, h.sentAckTx]
    simp

/-- The counter of receives goes up when a whole message's worth of credits was spent. -/
theorem succ_div_credits (n : ℕ) :
    (n + 1) / creditsInMessage = n / creditsInMessage + if (n + 1) % creditsInMessage = 0 then 1 else 0 := by
  rw [Nat.succ_div]
  simp only [Nat.dvd_iff_mod_eq_zero]

theorem Covers.forgeBcast (h : p.Covers m) {vc : Vc} (hvc : vc = .inv ∨ vc = .upd) :
    (p.forgeBcast cfg vc).Covers m := by
  have hrecvs := h.recvs
  have hbcast := h.bcastRecvs
  have hdiv := succ_div_credits p.brTx
  rw [Poster.forgeBcast, pollIf_eq]
  refine ⟨?_, fun j hj => ?_, h.own, h.acks, ?_, ?_, h.ackRecvs, ?_, ?_⟩
  · simp only [List.mem_append, List.mem_singleton]
    rintro v (hv | rfl)
    · exact h.kinds v hv
    · exact hvc
  · have hothers := h.others j hj
    simp only [List.length_append, List.length_singleton]
    omega
  · simp only
    rw [hdiv]
    split
    · rw [Nat.mul_add, Nat.mul_add]
      omega
    · exact hrecvs
  · simp only [List.length_append, List.length_singleton, Nat.add_sub_add_right]
    rw [hdiv]
    split <;> omega
  · simp only
    intro last hl
    split at hl <;> cases hl
  · simp only
    intro hl
    split at hl <;> cases hl

theorem Covers.postCreditRecvs (h : p.Covers m) (last : Bool) : (p.postCreditRecvs last).Covers m := by
  have hrecvs := h.recvs
  refine ⟨h.kinds, h.others, h.own, h.acks, ?_, ?_, h.ackRecvs, fun _ _ => rfl, by simp [Poster.postCreditRecvs]⟩
  · show p.recvs + (N - 1) * p.creditRecvCounter + (N - 1) * 0 + p.ackRecvCounter = _
    rw [Nat.mul_zero, Nat.add_zero]
    exact hrecvs
  · show 0 + (p.brTx - p.bcasts.length) / creditsInMessage ≤ p.brTx / creditsInMessage
    rw [Nat.zero_add]
    exact Nat.div_le_div_right (Nat.sub_le _ _)

theorem Covers.batchBcasts (h : p.Covers m) {last : Bool} (hpc : p.pc = .bcastSend last) :
    (p.batchBcasts cfg m last).Covers m := by
  have hkinds : p.bcasts.count .inv + p.bcasts.count .upd = p.bcasts.length ∧ p.bcasts.count .ack = 0 := by
    have hk := h.kinds
    generalize p.bcasts = l at hk
    induction l with
    | nil => exact ⟨rfl, rfl⟩
    | cons v l ih =>
      obtain ⟨hsum, hack⟩ := ih fun w hw => hk w (List.mem_cons_of_mem _ hw)
      rcases hk v List.mem_cons_self with rfl | rfl
      · simp only [List.count_cons, List.length_cons]
        simp [hack]
        omega
      · simp only [List.count_cons, List.length_cons]
        simp [hack]
        omega
  refine ⟨by simp [Poster.batchBcasts], fun j hj => ?_, ?_, ?_, h.recvs, ?_, h.ackRecvs, fun _ _ => h.bcastsPosted _ hpc, ?_⟩
  · have hothers := h.others j hj
    simp only [Poster.batchBcasts, if_neg hj, List.length_nil]
    omega
  · simp only [Poster.batchBcasts, if_true]
    exact h.own
  · have hsum : ∑ j, (p.batchBcasts cfg m last).sent j .ack = ∑ j, p.sent j .ack := by
      refine Finset.sum_congr rfl fun j _ => ?_
      simp only [Poster.batchBcasts, hkinds.2, Nat.add_zero, ite_self]
    rw [hsum]
    exact h.acks
  · show p.creditRecvCounter + (p.brTx - 0) / creditsInMessage ≤ _
    rw [h.bcastsPosted _ hpc, Nat.zero_add, Nat.sub_zero]
    exact le_rfl
  · simp only [Poster.batchBcasts]
    cases last <;> simp

theorem Covers.forgeAck (h : p.Covers m) (hpc : p.pc = .acks) (j : Fin N) : (p.forgeAck cfg j).Covers m := by
  have hrecvs := h.recvs
  have hack := h.ackRecvs
  have hdiv := succ_div_credits p.sentAckTx
  rw [Poster.forgeAck, pollIf_eq]
  refine ⟨h.kinds, h.others, h.own, ?_, ?_, h.bcastRecvs, ?_, h.bcastsPosted, by simp [hpc]⟩
  · have hacks := h.acks
    simp only [List.length_append, List.length_singleton]
    omega
  · simp only
    rw [hdiv]
    split <;> omega
  · simp only [List.length_append, List.length_singleton, Nat.add_sub_add_right]
    rw [hdiv]
    split <;> omega

theorem Covers.postAckRecvs (h : p.Covers m) : p.postAckRecvs.Covers m := by
  have hrecvs := h.recvs
  refine ⟨h.kinds, h.others, h.own, h.acks, ?_, h.bcastRecvs, ?_, by simp [Poster.postAckRecvs], fun _ => rfl⟩
  · show p.recvs + p.ackRecvCounter + (N - 1) * p.creditRecvCounter + 0 =
      (N - 1) * (p.brTx / creditsInMessage) + p.sentAckTx / creditsInMessage
    omega
  · show 0 + (p.sentAckTx - p.acks.length) / creditsInMessage ≤ p.sentAckTx / creditsInMessage
    rw [Nat.zero_add]
    exact Nat.div_le_div_right (Nat.sub_le _ _)

theorem sum_countP_fst (l : List (Fin N × Bool)) : ∑ j, l.countP (·.1 = j) = l.length := by
  induction l with
  | nil => simp
  | cons x l ih => simp [List.countP_cons, Finset.sum_add_distrib, ih]

theorem Covers.sendAcks (h : p.Covers m) (hpc : p.pc = .acksSend) : p.sendAcks.Covers m := by
  refine ⟨h.kinds, h.others, h.own, ?_, h.recvs, h.bcastRecvs, ?_, by simp [Poster.sendAcks], by simp [Poster.sendAcks]⟩
  · show ∑ j, (p.sent j .ack + p.acks.countP (·.1 = j)) + 0 = p.sentAckTx
    rw [Finset.sum_add_distrib, sum_countP_fst]
    exact h.acks
  · show p.ackRecvCounter + (p.sentAckTx - 0) / creditsInMessage ≤ _
    rw [h.acksPosted hpc, Nat.zero_add, Nat.sub_zero]
    exact le_rfl

end Poster

namespace Posting

variable {N : ℕ} {cfg : PostConfig} {m : Fin N} {s₀ s s' : Posting N} {es : List PostEvent} {e : PostEvent}

theorem covers_step (hb : s.client.Batches) (h : s.client.Covers m) (hst : Step cfg m s e s') : s'.client.Covers m := by
  cases hst with
  | beginBcasts hpc =>
    have hnil := hb.bcasts (by rw [hpc]; rfl)
    have hle := h.bcastRecvs
    rw [hnil, List.length_nil, Nat.sub_zero] at hle
    have hzero : s.client.creditRecvCounter = 0 := by omega
    rw [← hnil, ← hzero]
    exact ⟨h.kinds, h.others, h.own, h.acks, h.recvs, h.bcastRecvs, h.ackRecvs, by simp, by simp⟩
  | forgeBcast vc hpc hvc => exact h.forgeBcast hvc
  | endBcasts hpc => exact ⟨h.kinds, h.others, h.own, h.acks, h.recvs, h.bcastRecvs, h.ackRecvs, by simp, by simp⟩
  | postCreditRecvs last hpc => exact h.postCreditRecvs last
  | batchBcasts last hpc => exact h.batchBcasts hpc
  | beginAcks hpc =>
    rw [← hb.acks (by rw [hpc]; rfl)]
    exact ⟨h.kinds, h.others, h.own, h.acks, h.recvs, h.bcastRecvs, h.ackRecvs, by simp, by simp⟩
  | forgeAck j hpc hlt => exact h.forgeAck hpc j
  | postAckRecvs hpc => exact h.postAckRecvs
  | sendAcks hpc => exact h.sendAcks hpc
  | beginCredits hpc => exact ⟨h.kinds, h.others, h.own, h.acks, h.recvs, h.bcastRecvs, h.ackRecvs, by simp, by simp⟩
  | forgeCredit hpc hlt =>
    rw [Poster.forgeCredit, Poster.pollIf_eq]
    exact ⟨h.kinds, h.others, h.own, h.acks, h.recvs, h.bcastRecvs, h.ackRecvs, h.bcastsPosted, h.acksPosted⟩
  | sendCredits hpc =>
    exact ⟨h.kinds, h.others, h.own, h.acks, h.recvs, h.bcastRecvs, h.ackRecvs, by simp [Poster.sendCredits],
      by simp [Poster.sendCredits]⟩
  | free j vc hlt => exact h

/-! ## The other machines -/

/-- A machine has sent a credit message for every `CREDITS_IN_MESSAGE` messages of a channel that it
has freed, all of them to the client. -/
structure Answers (m : Fin N) (s : Posting N) : Prop where
  settled : ∀ j : Fin N, Forged.Settled N j (s.peer j)
  toClient : ∀ j, ∀ y ∈ (s.peer j).2, y.1 = m
  freed : ∀ (j : Fin N) vc, Forged.returned N j (s.peer j) vc m = s.freed j vc
  le : ∀ j vc, s.freed j vc ≤ s.client.sent j vc

theorem Answers.init (h : s.Init cfg) : s.Answers m := by
  refine ⟨fun j => ?_, fun j => ?_, fun j vc => ?_, fun j vc => ?_⟩
  · rw [h.peer]
    exact ⟨fun _ _ => (by decide : 0 < creditsInMessage), by simp⟩
  · rw [h.peer]
    simp
  · rw [h.peer, h.freed]
    rfl
  · rw [h.freed]
    exact Nat.zero_le _

/-- The client only ever sends more. -/
theorem sent_le (hst : Step cfg m s e s') (j : Fin N) (vc : Vc) : s.client.sent j vc ≤ s'.client.sent j vc := by
  cases hst with
  | forgeBcast vc' hpc _ => rw [Poster.forgeBcast, Poster.pollIf_eq]
  | batchBcasts last hpc =>
    simp only [Poster.batchBcasts]
    split <;> omega
  | forgeAck j' hpc hlt => rw [Poster.forgeAck, Poster.pollIf_eq]
  | sendAcks hpc =>
    simp only [Poster.sendAcks]
    split <;> omega
  | forgeCredit hpc hlt => rw [Poster.forgeCredit, Poster.pollIf_eq]
  | _ => exact le_rfl

theorem Answers.step (h : s.Answers m) (hst : Step cfg m s e s') : s'.Answers m := by
  have hsent := sent_le hst
  cases hst with
  | free j vc hlt =>
    obtain ⟨hsettled, hret⟩ := forgeOne_spec (Fin.pos j) m vc (h.settled j)
    refine ⟨fun i => ?_, fun i => ?_, fun i v => ?_, fun i v => ?_⟩
    · by_cases hi : i = j
      · rw [hi]
        simp only [update_self]
        exact hsettled
      · simp only [update_of_ne hi]
        exact h.settled i
    · by_cases hi : i = j
      · rw [hi]
        simp only [update_self]
        intro y hy
        unfold forgeOne at hy
        simp only at hy
        split at hy
        · rcases List.mem_append.1 hy with hy | hy
          · exact h.toClient j y hy
          · rw [List.mem_singleton.1 hy]
        · exact h.toClient j y hy
      · simp only [update_of_ne hi]
        exact h.toClient i
    · by_cases hi : i = j
      · rw [hi]
        simp only [update_self, update_apply]
        rw [hret, h.freed]
        simp only [and_true]
        split
        · next hv => rw [hv]
        · rfl
      · simp only [update_of_ne hi]
        exact h.freed i v
    · by_cases hi : i = j
      · rw [hi]
        simp only [update_self, update_apply]
        split
        · next hv =>
          rw [hv]
          exact hlt
        · exact h.le j v
      · simp only [update_of_ne hi]
        exact h.le i v
  | _ => exact ⟨h.settled, h.toClient, h.freed, fun j vc => (h.le j vc).trans (hsent j vc)⟩

/-- The credit messages that a machine can have sent: so many messages of a channel, so many credits. -/
def creditMessages (s : Posting N) (j : Fin N) : ℕ :=
  s.client.sent j .ack / creditsInMessage + s.client.sent j .inv / creditsInMessage + s.client.sent j .upd / creditsInMessage

theorem Answers.length_le (h : s.Answers m) (j : Fin N) : (s.peer j).2.length ≤ s.creditMessages j := by
  have hcount (vc : Vc) : (s.peer j).2.count (m.val, immData N j vc) ≤ s.client.sent j vc / creditsInMessage := by
    rw [Nat.le_div_iff_mul_le (by decide), Nat.mul_comm]
    refine le_trans ?_ (h.le j vc)
    rw [← h.freed]
    exact Nat.le_add_left _ _
  have hne (vc vc' : Vc) (hv : vc ≠ vc') : (m.val, immData N j vc) ≠ (m.val, immData N j vc') := fun he =>
    hv ((immData_inj (Fin.pos j)).1 (Prod.mk.inj he).2)
  have hcard := Multiset.sum_count_eq_card (m := ((s.peer j).2 : Multiset (ℕ × ℕ)))
    (s := {(m.val, immData N j .ack), (m.val, immData N j .inv), (m.val, immData N j .upd)}) ?_
  · rw [Multiset.coe_card, Finset.sum_insert, Finset.sum_pair (hne _ _ (by decide)), Flow.count_coe, Flow.count_coe,
      Flow.count_coe] at hcard
    · have hack := hcount .ack
      have hinv := hcount .inv
      have hupd := hcount .upd
      rw [creditMessages]
      omega
    · simp only [Finset.mem_insert, Finset.mem_singleton, not_or]
      exact ⟨hne _ _ (by decide), hne _ _ (by decide)⟩
  · intro y hy
    obtain ⟨vc, hvc⟩ := (h.settled j).own y hy
    have hy' : y = (m.val, immData N j vc) := Prod.ext (h.toClient j y hy) hvc
    rw [hy']
    cases vc <;> simp

theorem sum_div_le (f : Fin N → ℕ) (d : ℕ) : ∑ j, f j / d ≤ (∑ j, f j) / d := by
  rcases Nat.eq_zero_or_pos d with rfl | hpos
  · simp
  · rw [Nat.le_div_iff_mul_le hpos, Finset.sum_mul]
    exact Finset.sum_le_sum fun j _ => Nat.div_mul_le_self _ _

/-- There are receives for all of them. -/
theorem creditMessages_le (h : s.client.Covers m) : ∑ j, s.creditMessages j ≤ s.client.recvs := by
  have hper (j : Fin N) : s.creditMessages j ≤ s.client.sent j .ack / creditsInMessage +
      if j = m then 0 else (s.client.brTx - s.client.bcasts.length) / creditsInMessage := by
    rw [creditMessages]
    split
    · next he =>
      rw [he, h.own.1, h.own.2, Nat.zero_div]
    · next hne =>
      -- two channels together bring back no more than one with all their messages
      have hsum := h.others j hne
      have hadd : s.client.sent j .inv / creditsInMessage + s.client.sent j .upd / creditsInMessage ≤
          (s.client.sent j .inv + s.client.sent j .upd) / creditsInMessage := Nat.div_add_div_le_add_div
      rw [show s.client.brTx - s.client.bcasts.length = s.client.sent j .inv + s.client.sent j .upd by omega]
      omega
  have hsum := Finset.sum_le_sum fun j (_ : j ∈ Finset.univ) => hper j
  have hacks := sum_div_le (fun j => s.client.sent j .ack) creditsInMessage
  have hothers : ∑ j, (if j = m then 0 else (s.client.brTx - s.client.bcasts.length) / creditsInMessage) =
      (N - 1) * ((s.client.brTx - s.client.bcasts.length) / creditsInMessage) := by
    rw [Finset.sum_ite, Finset.sum_const_zero, Nat.zero_add, Finset.sum_const, smul_eq_mul, Finset.filter_ne',
      Finset.card_erase_of_mem (Finset.mem_univ m), Finset.card_univ, Fintype.card_fin]
  rw [Finset.sum_add_distrib, hothers] at hsum
  have hsent : ∑ j, s.client.sent j .ack = s.client.sentAckTx - s.client.acks.length := by
    have := h.acks
    omega
  rw [hsent] at hacks
  have hrecvs := h.recvs
  have hbcast := Nat.mul_le_mul_left (N - 1) h.bcastRecvs
  have hack := h.ackRecvs
  rw [Nat.mul_add] at hbcast
  omega

/-- **Receives for credits are posted in time.** At every moment the client has posted a receive for
every credit message that the other machines can have sent: `MACHINE_NUM - 1` for every
`CREDITS_IN_MESSAGE` broadcasts, and one for as many ACKs, but for the messages it has only forged. -/
theorem credit_recvs_in_time (h : (posting cfg m).Run s₀ es s) :
    ∑ j, (s.peer j).2.length ≤ ∑ j, s.creditMessages j ∧ ∑ j, s.creditMessages j ≤ s.client.recvs ∧
      s.client.recvs + (N - 1) * s.client.creditRecvCounter + s.client.ackRecvCounter =
        (N - 1) * (s.client.brTx / creditsInMessage) + s.client.sentAckTx / creditsInMessage := by
  have hcovers : s.client.Covers m := h.invariant (fun _ s => s.client.Covers m) Poster.Covers.init fun hr hi hst =>
    covers_step (batches_of_run hr) hi hst
  have hanswers : s.Answers m := h.invariant (fun _ s => s.Answers m) Answers.init fun _ hi hst => hi.step hst
  exact ⟨Finset.sum_le_sum fun j _ => hanswers.length_le j, creditMessages_le hcovers, hcovers.recvs⟩

/-- The client has broadcast `n` INVs, each in a batch of its own, and machine 1 has freed them. -/
structure Rounds (n : ℕ) (s : Posting 2) : Prop where
  pc : s.client.pc = .bcast
  bcasts : s.client.bcasts = []
  brTx : s.client.brTx = n
  creditRecvCounter : s.client.creditRecvCounter = 0
  ackRecvCounter : s.client.ackRecvCounter = 0
  sentAckTx : s.client.sentAckTx = 0
  sent : s.client.sent 1 .inv = n
  freed : s.freed 1 .inv = n

theorem run_rounds (n : ℕ) : ∃ es s, (posting shortPeriods (0 : Fin 2)).Run postingStart es s ∧ s.Rounds n := by
  induction n with
  | zero =>
    have h₀ : (posting shortPeriods (0 : Fin 2)).Run postingStart [] _ := .nil (postingStart_init _)
    exact ⟨_, _, h₀.snoc (.beginBcasts rfl), ⟨rfl, rfl, rfl, rfl, rfl, rfl, rfl, rfl⟩⟩
  | succ n ih =>
    obtain ⟨es, s, hrun, h⟩ := ih
    have hpc : (s.client.forgeBcast shortPeriods .inv).pc = .bcastRecvs false := by
      rw [Poster.forgeBcast, Poster.pollIf_eq]
      simp [h.bcasts, shortPeriods]
    have hsent : (((s.client.forgeBcast shortPeriods .inv).postCreditRecvs false).batchBcasts shortPeriods 0 false).sent 1 .inv = n + 1 := by
      rw [Poster.forgeBcast, Poster.pollIf_eq]
      simp [Poster.batchBcasts, Poster.postCreditRecvs, h.bcasts, h.sent]
    have h₁ := hrun.snoc (.forgeBcast .inv h.pc (.inl rfl))
    have h₂ := h₁.snoc (.postCreditRecvs false hpc)
    have h₃ := h₂.snoc (.batchBcasts false rfl)
    have h₄ := h₃.snoc (.free 1 .inv (by rw [h.freed, hsent]; exact Nat.lt_succ_self n))
    refine ⟨_, _, h₄, rfl, rfl, ?_, rfl, ?_, ?_, hsent, ?_⟩
    · show (s.client.forgeBcast shortPeriods .inv).brTx = n + 1
      rw [Poster.forgeBcast, Poster.pollIf_eq, ← h.brTx]
    · show (s.client.forgeBcast shortPeriods .inv).ackRecvCounter = 0
      rw [Poster.forgeBcast, Poster.pollIf_eq, ← h.ackRecvCounter]
    · show (s.client.forgeBcast shortPeriods .inv).sentAckTx = 0
      rw [Poster.forgeBcast, Poster.pollIf_eq, ← h.sentAckTx]
    · simp only [update_self, h.freed]

/-- After `CREDITS_IN_MESSAGE` INVs one credit message is on its way, and one receive is posted for it. -/
theorem credit_recvs_in_time_one_message : ∃ es s, (posting shortPeriods (0 : Fin 2)).Run postingStart es s ∧
    s.freed 1 .inv = creditsInMessage ∧ (0, immData 2 1 .inv) ∈ (s.peer 1).2 ∧ s.client.recvs = 1 ∧
    ∑ j, (s.peer j).2.length ≤ ∑ j, s.creditMessages j ∧ ∑ j, s.creditMessages j ≤ s.client.recvs := by
  obtain ⟨es, s, hrun, h⟩ := run_rounds creditsInMessage
  have hanswers : s.Answers 0 := hrun.invariant (fun _ s => s.Answers 0) Answers.init fun _ hi hst => hi.step hst
  obtain ⟨hle, hle', hrecvs⟩ := credit_recvs_in_time hrun
  have hreturned : (s.peer 1).1 .inv 0 + creditsInMessage * (s.peer 1).2.count (0, immData 2 1 .inv) = s.freed 1 .inv :=
    hanswers.freed 1 .inv
  have hlt := (hanswers.settled 1).lt .inv 0
  rw [h.brTx, h.creditRecvCounter, h.ackRecvCounter, h.sentAckTx] at hrecvs
  refine ⟨es, s, hrun, h.freed, ?_, hrecvs, hle, hle'⟩
  refine List.count_pos_iff.1 (Nat.pos_of_ne_zero fun hzero => ?_)
  rw [h.freed, hzero] at hreturned
  omega

end Posting

end CcKvs.Lin
