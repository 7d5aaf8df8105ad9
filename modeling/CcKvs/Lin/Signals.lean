/-
Selective signalling never waits for a request that was not handed over. The
requests of each flow are numbered by its counter: the signaled ones that were
handed over are those with a number that is a multiple of the period, and the
completions taken are one for each period, so it is enough that a batch is
shorter than the period. For broadcasts the period has to be longer by two.
-/
import CcKvs.Lib.Signalling
import CcKvs.Lin.Posting

namespace CcKvs.Lin

open Function Signalling

/-- What `main.h` sees to. -/
structure PostConfig.Ok (cfg : PostConfig) : Prop where
  bcast : 1 ≤ cfg.maxBcastBatch
  broadcastSs : cfg.maxBcastBatch + 2 ≤ cfg.broadcastSsBatch
  ackSs : cfg.bcastToCacheBatch < cfg.ackSsBatch
  creditSs : cfg.maxCreditWrs < cfg.creditSsBatch

theorem PostConfig.Ok.pos {cfg : PostConfig} (h : cfg.Ok) :
    0 < cfg.broadcastSsBatch ∧ 0 < cfg.ackSsBatch ∧ 0 < cfg.creditSsBatch := by
  have := h.broadcastSs
  have := h.ackSs
  have := h.creditSs
  omega

namespace PostPc

/-- `perform_broadcasts_LIN` is running. -/
def inBcasts : PostPc → Bool
  | bcast | bcastRecvs _ | bcastSend _ => true
  | _ => false

/-- `send_acks` is running. -/
def inAcks : PostPc → Bool
  | acks | acksSend => true
  | _ => false

end PostPc

namespace Poster

variable {N : ℕ} {cfg : PostConfig} {m : Fin N} {p : Poster N}

theorem pollIf_eq (p : Poster N) (cond : Prop) [Decidable cond] (qp : Qp) :
    p.pollIf cond qp = { p with completions := fun q => p.completions q + if q = qp ∧ cond then 1 else 0 } := by
  have hcomp : (p.pollIf cond qp).completions = fun q => p.completions q + if q = qp ∧ cond then 1 else 0 := by
    funext q
    unfold pollIf
    split
    · next hc =>
      by_cases hq : q = qp
      · simp [hq, hc]
      · simp [hq]
    · next hc => simp [hc]
  rw [← hcomp]
  unfold pollIf
  split <;> rfl

/-- Nothing waits to be handed over outside the call that forged it. -/
structure Batches (p : Poster N) : Prop where
  bcasts : p.pc.inBcasts = false → p.bcasts = []
  acks : p.pc.inAcks = false → p.acks = []
  creditWrs : p.pc ≠ .credits → p.creditWrs = []

/-- The requests handed over and those waiting in a batch, by the counters. -/
structure Signals (cfg : PostConfig) (p : Poster N) : Prop where
  bcasts_le : p.bcasts.length ≤ cfg.maxBcastBatch
  bcasts_lt : p.pc = .bcast → p.bcasts.length < cfg.maxBcastBatch
  brTx : p.bcasts.length ≤ p.brTx
  flag : p.bcasts ≠ [] →
    reports cfg.broadcastSsBatch p.brTx = reports cfg.broadcastSsBatch (p.brTx - p.bcasts.length) + p.bcastSignaled.toNat
  flag_nil : p.bcasts = [] → cfg.inlining → p.bcastSignaled = false
  acks_le : p.acks.length ≤ cfg.bcastToCacheBatch
  acks : Flagged cfg.ackSsBatch p.sentAckTx (p.acks.map (·.2))
  credits_le : p.creditWrs.length ≤ cfg.maxCreditWrs
  credits : Flagged cfg.creditSsBatch p.creditTx p.creditWrs
  signaled : p.signaled .broadcast = reports cfg.broadcastSsBatch (p.brTx - p.bcasts.length) +
    reports cfg.ackSsBatch (p.sentAckTx - p.acks.length)
  signaled_fc : p.signaled .fc = reports cfg.creditSsBatch (p.creditTx - p.creditWrs.length)
  completions : p.completions .broadcast = (p.brTx + 1) / cfg.broadcastSsBatch + p.sentAckTx / cfg.ackSsBatch
  completions_fc : p.completions .fc = p.creditTx / cfg.creditSsBatch

theorem Signals.init {s : Posting N} (hcfg : cfg.Ok) (h : s.Init cfg) : s.client.Signals cfg := by
  have hss := hcfg.broadcastSs
  refine ⟨?_, ?_, ?_, ?_, fun _ => h.bcastSignaled, ?_, ?_, ?_, ?_, ?_, ?_, ?_, ?_⟩
  · simp [h.bcasts]
  · simp [h.pc]
  · simp [h.bcasts]
  · simp [h.bcasts]
  · simp [h.acks]
  · rw [h.acks]
    exact .nil _ _
  · simp [h.creditWrs]
  · rw [h.creditWrs]
    exact .nil _ _
  · rw [h.signaled, h.brTx, h.sentAckTx, Nat.zero_sub, Nat.zero_sub, reports_zero, reports_zero]
  · rw [h.signaled, h.creditTx, Nat.zero_sub, reports_zero]
  · rw [h.completions, h.brTx, h.sentAckTx, Nat.zero_div, Nat.div_eq_of_lt (by omega)]
  · rw [h.completions, h.creditTx, Nat.zero_div]

/-- The client goes on to another place. -/
theorem Signals.move (h : p.Signals cfg) {pc : PostPc} (hlt : pc = .bcast → p.bcasts.length < cfg.maxBcastBatch)
    (recvs creditRecvCounter ackRecvCounter : ℕ) : Signals cfg { p with
      pc := pc, recvs := recvs, creditRecvCounter := creditRecvCounter, ackRecvCounter := ackRecvCounter } :=
  ⟨h.bcasts_le, hlt, h.brTx, h.flag, h.flag_nil, h.acks_le, h.acks, h.credits_le, h.credits, h.signaled, h.signaled_fc,
    h.completions, h.completions_fc⟩

/-! ## Broadcasts -/

/-- No broadcast of the batch is signaled when the next one is. -/
theorem Signals.reports_flagBcast (hcfg : cfg.Ok) (h : p.Signals cfg) (hpc : p.pc = .bcast) :
    reports cfg.broadcastSsBatch (p.brTx + 1) =
      reports cfg.broadcastSsBatch (p.brTx - p.bcasts.length) + (p.flagBcast cfg).toNat := by
  have hlt := h.bcasts_lt hpc
  have hss := hcfg.broadcastSs
  have hpos := hcfg.pos.1
  have hold : reports cfg.broadcastSsBatch p.brTx = reports cfg.broadcastSsBatch (p.brTx - p.bcasts.length) +
      (if cfg.inlining = false ∧ p.bcasts = [] then false else p.bcastSignaled).toNat := by
    by_cases hnil : p.bcasts = []
    · have hclear : (if cfg.inlining = false ∧ p.bcasts = [] then false else p.bcastSignaled) = false := by
        by_cases hin : cfg.inlining = false
        · rw [if_pos ⟨hin, hnil⟩]
        · rw [if_neg fun hb => hin hb.1]
          exact h.flag_nil hnil (by simpa using hin)
      rw [hclear, hnil]
      rfl
    · rw [if_neg fun hb => hnil hb.2, h.flag hnil]
  rw [reports_succ hpos, hold, Poster.flagBcast]
  generalize (if cfg.inlining = false ∧ p.bcasts = [] then false else p.bcastSignaled) = old at hold ⊢
  by_cases hmod : p.brTx % cfg.broadcastSsBatch = 0
  · have hnone := reports_sub_of_mod hpos hmod (by omega : p.bcasts.length < cfg.broadcastSsBatch)
    rw [hold] at hnone
    cases old with
    | false => simp [hmod]
    | true =>
      rw [Bool.toNat_true] at hnone
      omega
  · rw [if_neg hmod, beq_eq_false_iff_ne.2 hmod, Bool.or_false, Nat.add_zero]

theorem Signals.forgeBcast (hcfg : cfg.Ok) (h : p.Signals cfg) (hpc : p.pc = .bcast) (vc : Vc) :
    (p.forgeBcast cfg vc).Signals cfg := by
  have hlt := h.bcasts_lt hpc
  have hbr := h.brTx
  have hlen : (p.bcasts ++ [vc]).length = p.bcasts.length + 1 := by simp
  rw [Poster.forgeBcast, pollIf_eq]
  refine ⟨?_, ?_, ?_, fun _ => ?_, by simp, h.acks_le, h.acks, h.credits_le, h.credits, ?_, h.signaled_fc, ?_, ?_⟩
  · simp only [hlen]
    omega
  · simp only [hlen]
    split
    · simp
    · intro _
      omega
  · simp only [hlen]
    omega
  · simp only [hlen, Nat.add_sub_add_right]
    exact h.reports_flagBcast hcfg hpc
  · simp only [hlen, Nat.add_sub_add_right]
    exact h.signaled
  · simp only [true_and]
    rw [h.completions, succ_div_eq hcfg.pos.1 (p.brTx + 1)]
    show _ + (if (p.brTx + 1) % cfg.broadcastSsBatch = cfg.broadcastSsBatch - 1 then 1 else 0) = _
    omega
  · simp only [reduceCtorEq, false_and, if_false, Nat.add_zero]
    exact h.completions_fc

theorem Signals.batchBcasts (hcfg : cfg.Ok) (h : p.Signals cfg) (m : Fin N) (last : Bool) :
    (p.batchBcasts cfg m last).Signals cfg := by
  have hsig := h.signaled
  refine ⟨Nat.zero_le _, fun _ => hcfg.bcast, Nat.zero_le _, by simp [Poster.batchBcasts], ?_, h.acks_le, h.acks, h.credits_le,
    h.credits, ?_, ?_, h.completions, h.completions_fc⟩
  · intro _ hin
    by_cases hnil : p.bcasts = []
    · simpa [Poster.batchBcasts, hnil] using h.flag_nil hnil hin
    · simp [Poster.batchBcasts, hnil, hin]
  · show (if p.bcasts ≠ [] ∧ p.bcastSignaled = true then update p.signaled .broadcast (p.signaled .broadcast + 1)
      else p.signaled) .broadcast = reports cfg.broadcastSsBatch p.brTx + reports cfg.ackSsBatch (p.sentAckTx - p.acks.length)
    by_cases hnil : p.bcasts = []
    · rw [if_neg fun hb => hb.1 hnil, hsig, hnil]
      rfl
    · rw [h.flag hnil]
      cases hs : p.bcastSignaled with
      | false =>
        rw [if_neg (by simp), hsig]
        rfl
      | true =>
        rw [if_pos ⟨hnil, rfl⟩, update_self, hsig, Bool.toNat_true]
        omega
  · show (if p.bcasts ≠ [] ∧ p.bcastSignaled = true then update p.signaled .broadcast (p.signaled .broadcast + 1)
      else p.signaled) .fc = _
    split
    · rw [update_of_ne (by decide)]
      exact h.signaled_fc
    · exact h.signaled_fc

/-! ## Acknowledgements and credit messages -/

theorem Signals.forgeAck (hcfg : cfg.Ok) (h : p.Signals cfg) (hlt : p.acks.length < cfg.bcastToCacheBatch)
    (j : Fin N) : (p.forgeAck cfg j).Signals cfg := by
  have hlen : (p.acks ++ [(j, p.sentAckTx % cfg.ackSsBatch == 0)]).length = p.acks.length + 1 := by simp
  rw [Poster.forgeAck, pollIf_eq]
  refine ⟨h.bcasts_le, h.bcasts_lt, h.brTx, h.flag, h.flag_nil, ?_, ?_, h.credits_le, h.credits, ?_, h.signaled_fc, ?_, ?_⟩
  · simp only [hlen]
    omega
  · simp only [List.map_append, List.map_singleton]
    exact h.acks.push hcfg.pos.2.1
  · simp only [hlen, Nat.add_sub_add_right]
    exact h.signaled
  · simp only [true_and]
    rw [h.completions, succ_div_eq hcfg.pos.2.1 p.sentAckTx]
    show _ + (if p.sentAckTx % cfg.ackSsBatch = cfg.ackSsBatch - 1 then 1 else 0) = _
    omega
  · simp only [reduceCtorEq, false_and, if_false, Nat.add_zero]
    exact h.completions_fc

theorem Signals.sendAcks (h : p.Signals cfg) : p.sendAcks.Signals cfg := by
  have hflags := h.acks.count
  have hcount : (p.acks.map (·.2)).countP id = p.acks.countP (·.2) := by
    rw [List.countP_map]
    rfl
  rw [List.length_map, hcount] at hflags
  refine ⟨h.bcasts_le, by simp [Poster.sendAcks], h.brTx, h.flag, h.flag_nil, Nat.zero_le _, .nil _ _, h.credits_le, h.credits,
    ?_, ?_, h.completions, h.completions_fc⟩
  · show update p.signaled .broadcast (p.signaled .broadcast + p.acks.countP (·.2)) .broadcast = _ + reports _ p.sentAckTx
    rw [update_self, h.signaled, hflags]
    exact Nat.add_assoc _ _ _
  · show update p.signaled .broadcast (p.signaled .broadcast + p.acks.countP (·.2)) .fc = _
    rw [update_of_ne (by decide)]
    exact h.signaled_fc

theorem Signals.forgeCredit (hcfg : cfg.Ok) (h : p.Signals cfg) (hlt : p.creditWrs.length < cfg.maxCreditWrs) : (p.forgeCredit cfg).Signals cfg := by
  have hlen : (p.creditWrs ++ [p.creditTx % cfg.creditSsBatch == 0]).length = p.creditWrs.length + 1 := by simp
  rw [Poster.forgeCredit, pollIf_eq]
  refine ⟨h.bcasts_le, h.bcasts_lt, h.brTx, h.flag, h.flag_nil, h.acks_le, h.acks, ?_, h.credits.push hcfg.pos.2.2, h.signaled,
    ?_, ?_, ?_⟩
  · simp only [hlen]
    omega
  · simp only [hlen, Nat.add_sub_add_right]
    exact h.signaled_fc
  · simp only [reduceCtorEq, false_and, if_false, Nat.add_zero]
    exact h.completions
  · simp only [true_and]
    rw [h.completions_fc, succ_div_eq hcfg.pos.2.2 p.creditTx]
    rfl

theorem Signals.sendCredits (h : p.Signals cfg) : p.sendCredits.Signals cfg := by
  refine ⟨h.bcasts_le, by simp [Poster.sendCredits], h.brTx, h.flag, h.flag_nil, h.acks_le, h.acks, Nat.zero_le _, .nil _ _, ?_,
    ?_, h.completions, h.completions_fc⟩
  · show update p.signaled .fc (p.signaled .fc + p.creditWrs.countP id) .broadcast = _
    rw [update_of_ne (by decide)]
    exact h.signaled
  · show update p.signaled .fc (p.signaled .fc + p.creditWrs.countP id) .fc = reports _ p.creditTx
    rw [update_self, h.signaled_fc, h.credits.count]

end Poster

/-! ## Runs -/

namespace Posting

variable {N : ℕ} {cfg : PostConfig} {m : Fin N} {s₀ s s' : Posting N} {es : List PostEvent} {e : PostEvent}

theorem batches_step (h : s.client.Batches) (hst : Step cfg m s e s') : s'.client.Batches := by
  cases hst with
  | beginBcasts hpc =>
    exact ⟨fun _ => rfl, fun _ => h.acks (by rw [hpc]; rfl), fun _ => h.creditWrs (by simp [hpc])⟩
  | forgeBcast vc hpc _ =>
    refine ⟨?_, fun _ => ?_, fun _ => ?_⟩
    · rw [Poster.forgeBcast, Poster.pollIf_eq]
      simp only
      split <;> simp [PostPc.inBcasts]
    · rw [Poster.forgeBcast, Poster.pollIf_eq]
      exact h.acks (by rw [hpc]; rfl)
    · rw [Poster.forgeBcast, Poster.pollIf_eq]
      exact h.creditWrs (by simp [hpc])
  | endBcasts hpc =>
    exact ⟨by simp [PostPc.inBcasts], fun _ => h.acks (by rw [hpc]; rfl), fun _ => h.creditWrs (by simp [hpc])⟩
  | postCreditRecvs last hpc =>
    exact ⟨by simp [Poster.postCreditRecvs, PostPc.inBcasts], fun _ => h.acks (by rw [hpc]; rfl),
      fun _ => h.creditWrs (by simp [hpc])⟩
  | batchBcasts last hpc => exact ⟨fun _ => rfl, fun _ => h.acks (by rw [hpc]; rfl), fun _ => h.creditWrs (by simp [hpc])⟩
  | beginAcks hpc => exact ⟨fun _ => h.bcasts (by rw [hpc]; rfl), fun _ => rfl, fun _ => h.creditWrs (by simp [hpc])⟩
  | forgeAck j hpc hlt =>
    rw [Poster.forgeAck, Poster.pollIf_eq]
    exact ⟨fun _ => h.bcasts (by rw [hpc]; rfl), by simp [hpc, PostPc.inAcks], fun _ => h.creditWrs (by simp [hpc])⟩
  | postAckRecvs hpc =>
    exact ⟨fun _ => h.bcasts (by rw [hpc]; rfl), by simp [Poster.postAckRecvs, PostPc.inAcks],
      fun _ => h.creditWrs (by simp [hpc])⟩
  | sendAcks hpc => exact ⟨fun _ => h.bcasts (by rw [hpc]; rfl), fun _ => rfl, fun _ => h.creditWrs (by simp [hpc])⟩
  | beginCredits hpc => exact ⟨fun _ => h.bcasts (by rw [hpc]; rfl), fun _ => h.acks (by rw [hpc]; rfl), fun _ => rfl⟩
  | forgeCredit hpc hlt =>
    rw [Poster.forgeCredit, Poster.pollIf_eq]
    exact ⟨fun _ => h.bcasts (by rw [hpc]; rfl), fun _ => h.acks (by rw [hpc]; rfl), fun hne => absurd hpc hne⟩
  | sendCredits hpc => exact ⟨fun _ => h.bcasts (by rw [hpc]; rfl), fun _ => h.acks (by rw [hpc]; rfl), fun _ => rfl⟩
  | free j vc hlt => exact h

theorem batches_of_run (h : (posting cfg m).Run s₀ es s) : s.client.Batches :=
  h.invariant (fun _ s => s.client.Batches) (fun h₀ => ⟨fun _ => h₀.bcasts, fun _ => h₀.acks, fun _ => h₀.creditWrs⟩)
    fun _ hi hst => batches_step hi hst

theorem signals_step (hcfg : cfg.Ok) (hb : s.client.Batches) (h : s.client.Signals cfg) (hst : Step cfg m s e s') :
    s'.client.Signals cfg := by
  cases hst with
  | beginBcasts hpc =>
    have hnil := hb.bcasts (by rw [hpc]; rfl)
    rw [← hnil]
    exact h.move (fun _ => by rw [hnil]; exact hcfg.bcast) _ _ _
  | forgeBcast vc hpc _ => exact h.forgeBcast hcfg hpc vc
  | endBcasts hpc => exact h.move (by simp) _ _ _
  | postCreditRecvs last hpc => exact h.move (by simp) _ _ _
  | batchBcasts last hpc => exact h.batchBcasts hcfg m last
  | beginAcks hpc =>
    rw [← hb.acks (by rw [hpc]; rfl)]
    exact h.move (by simp) _ _ _
  | forgeAck j hpc hlt => exact h.forgeAck hcfg hlt j
  | postAckRecvs hpc => exact h.move (by simp) _ _ _
  | sendAcks hpc => exact h.sendAcks
  | beginCredits hpc =>
    rw [← hb.creditWrs (by simp [hpc])]
    exact h.move (by simp) _ _ _
  | forgeCredit hpc hlt => exact h.forgeCredit hcfg hlt
  | sendCredits hpc => exact h.sendCredits
  | free j vc hlt => exact h

/-- A step that waits for a completion has one to wait for. -/
theorem poll_lt (hcfg : cfg.Ok) (h : s.client.Signals cfg) {qp : Qp} (hst : Step cfg m s (.poll qp) s') :
    s.client.completions qp < s.client.signaled qp := by
  have hss := hcfg.broadcastSs
  have hackSs := hcfg.ackSs
  have hcreditSs := hcfg.creditSs
  obtain ⟨hpos, hpos', hpos''⟩ := hcfg.pos
  have hacks := div_le_reports (n := s.client.sentAckTx) hpos' (h.acks_le.trans_lt hackSs)
  generalize he : PostEvent.poll qp = e at hst
  have hqp {cond : Prop} [Decidable cond] {qp' : Qp} (h : PostEvent.poll qp = .ofPoll cond qp') : cond ∧ qp = qp' := by
    unfold PostEvent.ofPoll at h
    split at h
    · next hc => exact ⟨hc, PostEvent.poll.inj h⟩
    · cases h
  cases hst with
  | forgeBcast vc hpc _ =>
    obtain ⟨hpolls, rfl⟩ := hqp he
    have hlt := h.bcasts_lt hpc
    have hone := div_lt_reports (k := s.client.bcasts.length + 1) hpos hpolls (by omega)
    rw [Nat.add_sub_add_right] at hone
    rw [h.completions, h.signaled]
    omega
  | forgeAck j hpc hlt =>
    obtain ⟨hpolls, rfl⟩ := hqp he
    have hone := div_lt_reports (k := s.client.acks.length) hpos' hpolls (by omega)
    have hle := div_le_reports (n := s.client.brTx + 1) (k := s.client.bcasts.length + 1) hpos (by have := h.bcasts_le; omega)
    rw [Nat.add_sub_add_right] at hle
    rw [h.completions, h.signaled]
    omega
  | forgeCredit hpc hlt =>
    obtain ⟨hpolls, rfl⟩ := hqp he
    have hone := div_lt_reports (k := s.client.creditWrs.length) hpos'' hpolls (by omega)
    rw [h.completions_fc, h.signaled_fc]
    exact hone
  | _ => cases he

/-- **Selective signalling never waits for an unposted completion.** Whenever `hrd_poll_cq` is
called, more signaled requests were handed over to the queue than completions taken from it. -/
theorem poll_has_completion (hcfg : cfg.Ok) (h : (posting cfg m).Run s₀ es s) (qp : Qp) (s' : Posting N)
    (hst : Step cfg m s (.poll qp) s') : s.client.completions qp < s.client.signaled qp :=
  poll_lt hcfg (h.invariant (fun _ s => s.client.Signals cfg) (Poster.Signals.init hcfg) fun hr hi hst =>
    signals_step hcfg (batches_of_run hr) hi hst) hst

/-- Batches of one, with the shortest periods. -/
def shortPeriods : PostConfig := ⟨true, 1, 1, 1, 3, 2, 2⟩

def postingStart : Posting 2 where
  client := ⟨.idle, 0, [], false, 0, 0, [], 0, 0, [], 0, fun _ _ => 0, fun _ => 0, fun _ => 0⟩
  freed := fun _ _ => 0
  peer := fun _ => (fun _ _ => 0, [])

theorem postingStart_init (cfg : PostConfig) : postingStart.Init cfg :=
  ⟨rfl, rfl, rfl, fun _ => rfl, rfl, rfl, rfl, rfl, rfl, rfl, rfl, fun _ _ => rfl, fun _ => rfl, fun _ => rfl, fun _ _ => rfl,
    fun _ => rfl⟩

/-- The second broadcast waits for the completion of the first. -/
theorem poll_has_completion_second_bcast : ∃ es s s', (posting shortPeriods (0 : Fin 2)).Run postingStart es s ∧
    Step shortPeriods 0 s (.poll .broadcast) s' ∧ s.client.completions .broadcast < s.client.signaled .broadcast := by
  have h₀ : (posting shortPeriods (0 : Fin 2)).Run postingStart [] _ := .nil (postingStart_init _)
  have h₁ := h₀.snoc (.beginBcasts rfl)
  have h₂ := h₁.snoc (.forgeBcast .inv rfl (.inl rfl))
  have h₃ := h₂.snoc (.postCreditRecvs false rfl)
  have h₄ := h₃.snoc (.batchBcasts false rfl)
  have hcfg : shortPeriods.Ok := ⟨by decide, by decide, by decide, by decide⟩
  exact ⟨_, _, _, h₄, .forgeBcast .inv rfl (.inl rfl), poll_has_completion hcfg h₄ .broadcast _ (.forgeBcast .inv rfl (.inl rfl))⟩

end Posting

end CcKvs.Lin
