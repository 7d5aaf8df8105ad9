/-
The assertions of `handle_cold_requests` and of the functions under it, and `exit`
where one of them calls it. What is asserted of a slot can be read off its entries
in `ops`, `resp` and `key_homes` before the call comes to it, apart from the room
that is left for its machine.
-/
import CcKvs.Client.Scan

namespace CcKvs.Client.Scan

open Function Sc Bytes Worker Traced

/-! ## What a slot has -/

def Entry.opcode (x : Entry) : Opcode := .ofByte (x.op 16)

def Entry.is (x : Entry) (t : RespType) : Bool := x.type == t.code

section

variable {N : ℕ} (e : Env N) (x : Entry)

/-- The slot is done with. -/
def Entry.retires : Bool :=
  match e.protocol with
  | .sc => x.is .getSuccess || x.opcode == .upd
  | .lin => x.is .getSuccess || (x.opcode == .inv || x.is .putFail)

/-- The kinds of hits that `cache_hit_bookkeeping_SC` (for client 0) and `_LIN` expect. -/
def Entry.expected : Bool :=
  match e.protocol with
  | .sc => e.localClientId != 0 || (x.is .getSuccess || (x.is .putSuccess || (x.opcode == .upd || x.opcode == .brc)))
  | .lin => x.is .getSuccess || (x.is .putSuccess || (x.is .getStall || (x.is .putStall || (x.is .putFail ||
      (x.opcode == .inv || x.opcode == .brc)))))

/-- The slots that `copy_op_to_next_op` has no message about. -/
def Entry.waits : Bool := x.is .getStall || (x.is .putStall || (x.is .unservedMiss || x.opcode == .brc))

/-- `copy_op_to_next_op` stops: at an opcode whose size it does not know, at the message about a
`resp` type without a text, or at the pointer to `hottest_keys_pointers` if there is none. -/
def Entry.CopyFails (tracks : Bool) : Prop :=
  copySize e.cfg x.opcode = none ∨ (x.waits = false ∧ x.type ∉ namedCodes) ∨
    (x.is .getStall = true ∧ (x.op 18).toNat < hottestKeysToTrack ∧ tracks = false)

/-- `cache_hit_bookkeeping_SC` or `_LIN` stops at the slot. -/
def Entry.HitFails : Prop := x.expected e = false ∨ x.retires e = false ∧ x.CopyFails e (e.protocol == .lin)

instance (tracks : Bool) : Decidable (x.CopyFails e tracks) := inferInstanceAs (Decidable (_ ∨ _))

instance : Decidable (x.HitFails e) := inferInstanceAs (Decidable (_ ∨ _))

end

variable {N : ℕ} (e : Env N) (i : ℕ) (s : Scan)

theorem outcome_respIs (t : RespType) : (respIs i t).outcome s = .ok ((s.slots i).is t, s) := rfl

theorem outcome_respType : (respType i).outcome s = .ok ((s.slots i).type, s) := rfl

theorem outcome_opcode : (opcode i).outcome s = .ok ((s.slots i).opcode, s) := rfl

theorem outcome_opcodeIs (o : Opcode) : (opcodeIs i o).outcome s = .ok ((s.slots i).opcode == o, s) := rfl

theorem outcome_valLen : (valLen i).outcome s = .ok ((s.slots i).op 17, s) := rfl

theorem outcome_value0 : (value0 i).outcome s = .ok ((s.slots i).op 18, s) := rfl

theorem outcome_retires : (retires e i).outcome s = .ok ((s.slots i).retires e, s) := by
  unfold retires Entry.retires
  cases e.protocol with
  | sc => exact outcome_or (outcome_respIs i s _) (outcome_opcodeIs i s _)
  | lin => exact outcome_or (outcome_respIs i s _) (outcome_or (outcome_opcodeIs i s _) (outcome_respIs i s _))

/-! ## Copying -/

theorem outcome_copiedSize :
    (copiedSize e i).outcome s = match copySize e.cfg (s.slots i).opcode with
      | some size => .ok (size, s)
      | none => .error .badOpcode := by
  have hput : (opcodeIs i .brc <||> opcodeIs i .put <||> opcodeIs i .inv <||> opcodeIs i .upd).outcome s = .ok (_, s) :=
    outcome_or (outcome_opcodeIs i s _)
      (outcome_or (outcome_opcodeIs i s _) (outcome_or (outcome_opcodeIs i s _) (outcome_opcodeIs i s _)))
  rw [copiedSize, outcome_bind_ok hput]
  have hget := outcome_opcodeIs i s .get
  cases ho : (s.slots i).opcode with
  | brc | put | inv | upd => rfl
  | get =>
    rw [ho] at hget
    exact outcome_bind_ok hget
  | ack | other =>
    rw [ho] at hget
    exact outcome_bind_ok hget

/-- A message needs texts for the opcode and the `resp` type. -/
theorem outcome_report :
    (report i).outcome s = if (s.slots i).waits = true ∨ (s.slots i).opcode.toByte ∈ namedCodes ∧ (s.slots i).type ∈ namedCodes then
      .ok ((), s) else .error .wrongCode := by
  have hquiet : (respIs i .getStall <||> respIs i .putStall <||> respIs i .unservedMiss <||> opcodeIs i .brc).outcome s =
      .ok ((s.slots i).waits, s) :=
    outcome_or (outcome_respIs i s _) (outcome_or (outcome_respIs i s _) (outcome_or (outcome_respIs i s _) (outcome_opcodeIs i s _)))
  rw [report, outcome_bind_ok hquiet]
  cases (s.slots i).waits with
  | true => rw [if_pos rfl, if_pos (.inl rfl), outcome_pure]
  | false =>
    rw [if_neg Bool.false_ne_true, outcome_bind_ok (outcome_opcode i s), codeToStr]
    by_cases hop : (s.slots i).opcode.toByte ∈ namedCodes
    · rw [if_pos hop, outcome_bind_ok outcome_pure, outcome_bind_ok (outcome_respType i s), codeToStr]
      by_cases ht : (s.slots i).type ∈ namedCodes
      · rw [if_pos ht, if_pos (.inr ⟨hop, ht⟩), outcome_pure]
      · rw [if_neg ht, if_neg (by simp [ht]), outcome_stop]
    · rw [if_neg hop, if_neg (by simp [hop]), outcome_bind_error outcome_stop]

/-- The pointer at a stalled read moves along with it, if there are pointers. -/
theorem outcome_movePointer (tracks : Bool) :
    (movePointer tracks i).outcome s =
      if (s.slots i).is .getStall = true ∧ ((s.slots i).op 18).toNat < hottestKeysToTrack ∧ tracks = false then .error .nullPointer
      else .ok ((), { s with
        hottestKeysPointers :=
          if (s.slots i).is .getStall = true ∧ ((s.slots i).op 18).toNat < hottestKeysToTrack ∧
              s.hottestKeysPointers ((s.slots i).op 18).toNat = i + 1 then
            update s.hottestKeysPointers ((s.slots i).op 18).toNat (s.nextOpI + 1)
          else s.hottestKeysPointers }) := by
  rw [movePointer, outcome_bind_ok (outcome_respIs i s _)]
  cases hstall : (s.slots i).is .getStall with
  | false => simp
  | true =>
    rw [if_pos rfl, outcome_bind_ok (outcome_value0 i s)]
    simp only [true_and]
    by_cases hhot : ((s.slots i).op 18).toNat < hottestKeysToTrack
    · rw [if_pos hhot]
      simp only [hhot, true_and]
      cases tracks with
      | false => rfl
      | true =>
        rw [if_pos rfl, if_neg (by simp), repoint, outcome_change]
        split <;> rfl
    · rw [if_neg hhot]
      simp [hhot]

/-- An operation that can be copied has a text. -/
theorem toByte_mem_namedCodes {cfg : Config} {o : Opcode} (h : copySize cfg o ≠ none) : o.toByte ∈ namedCodes := by
  cases o with
  | ack | other => exact absurd rfl h
  | _ => decide

/-- The memory after `size` bytes of the operation were copied. -/
def copied (i size : ℕ) (s : Scan) : Scan :=
  { s with
    hottestKeysPointers :=
      if (s.slots i).is .getStall = true ∧ ((s.slots i).op 18).toNat < hottestKeysToTrack ∧
          s.hottestKeysPointers ((s.slots i).op 18).toNat = i + 1 then
        update s.hottestKeysPointers ((s.slots i).op 18).toNat (s.nextOpI + 1)
      else s.hottestKeysPointers
    nextSlots := update s.nextSlots s.nextOpI
      ⟨(s.nextSlots s.nextOpI).op.memcpy (s.slots i).op size, (s.slots i).type, (s.slots i).machine⟩
    nextOpI := s.nextOpI + 1 }

theorem outcome_copyOpToNextOp {tracks : Bool} (hf : ¬ (s.slots i).CopyFails e tracks) {size : ℕ}
    (hsize : copySize e.cfg (s.slots i).opcode = some size) :
    (copyOpToNextOp e tracks i).outcome s = .ok ((), s.copied i size) := by
  obtain ⟨-, hmessage, hnull⟩ : _ ∧ ¬ _ ∧ ¬ _ := by simpa only [Entry.CopyFails, not_or] using hf
  have hcopy : copySize e.cfg (s.slots i).opcode ≠ none := by simp [hsize]
  have hop : (s.slots i).opcode.toByte ∈ namedCodes := toByte_mem_namedCodes hcopy
  have hquiet : (s.slots i).waits = true ∨ (s.slots i).opcode.toByte ∈ namedCodes ∧ (s.slots i).type ∈ namedCodes := by
    by_cases hw : (s.slots i).waits = true
    · exact .inl hw
    · exact .inr ⟨hop, by_contra fun ht => hmessage ⟨by simpa using hw, ht⟩⟩
  have hreport := outcome_report i s
  have hsize' := outcome_copiedSize e i s
  have hmove := outcome_movePointer i s tracks
  rw [if_pos hquiet] at hreport
  rw [hsize] at hsize'
  rw [if_neg hnull] at hmove
  rw [copyOpToNextOp, outcome_bind_ok hreport, outcome_bind_ok hsize', outcome_bind_ok hmove]
  exact (outcome_bind_ok outcome_reads).trans ((outcome_bind_ok outcome_reads).trans ((outcome_bind_ok outcome_reads).trans outcome_change))

theorem copyOpToNextOp_stops (tracks : Bool) : (copyOpToNextOp e tracks i).Stops s ↔ (s.slots i).CopyFails e tracks := by
  have hreport := outcome_report i s
  have hsize := outcome_copiedSize e i s
  have hmove := outcome_movePointer i s tracks
  refine ⟨fun hstop => ?_, ?_⟩
  · by_contra hf
    obtain ⟨size, hsize⟩ := Option.ne_none_iff_exists'.1 fun hnone => hf (.inl hnone)
    exact not_stops (outcome_copyOpToNextOp e i s hf hsize) hstop
  -- each part in front of the one that fails returns or fails itself
  intro hf
  unfold copyOpToNextOp
  split at hreport
  · rw [stops_bind hreport]
    cases hcopy : copySize e.cfg (s.slots i).opcode with
    | none =>
      rw [hcopy] at hsize
      exact Stops.bind ⟨_, hsize⟩
    | some size =>
      rw [hcopy] at hsize
      rw [stops_bind hsize]
      rcases hf with hnone | ⟨hw, ht⟩ | hnull
      · rw [hcopy] at hnone
        cases hnone
      · next hquiet => simp [hw, ht] at hquiet
      · rw [if_pos hnull] at hmove
        exact Stops.bind ⟨_, hmove⟩
  · exact Stops.bind ⟨_, hreport⟩

/-! ## Hits -/

theorem outcome_dropPointer :
    (dropPointer i).outcome s = .ok ((), { s with
      hottestKeysPointers :=
        if ((s.slots i).op 18).toNat < hottestKeysToTrack ∧ s.hottestKeysPointers ((s.slots i).op 18).toNat = i + 1 then
          update s.hottestKeysPointers ((s.slots i).op 18).toNat 0
        else s.hottestKeysPointers }) := by
  rw [dropPointer, outcome_bind_ok (outcome_value0 i s)]
  by_cases hhot : ((s.slots i).op 18).toNat < hottestKeysToTrack
  · simp only [hhot, true_and, if_true, repoint, outcome_change]
    split <;> rfl
  · simp [hhot]

/-- To retire a slot nothing is asserted. -/
theorem retire_returns : ∃ s', (retire e i).outcome s = .ok ((), s') := by
  obtain ⟨s₁, hcount⟩ : ∃ s', (countHits e i).outcome s = .ok ((), s') := by
    rw [countHits, outcome_bind_ok (outcome_respIs i s _)]
    split
    · rw [outcome_bind_ok (outcome_valLen i s), addHits, outcome_bind_ok outcome_change]
      split
      · exact ⟨_, outcome_dropPointer i _⟩
      · exact ⟨_, outcome_pure⟩
    · exact ⟨_, outcome_change⟩
  exact ⟨_, (outcome_bind_ok hcount).trans outcome_writes⟩

theorem outcome_expected_sc :
    (respIs i .getSuccess <||> respIs i .putSuccess <||> opcodeIs i .upd <||> opcodeIs i .brc).outcome s =
      .ok ((s.slots i).is .getSuccess || ((s.slots i).is .putSuccess ||
        ((s.slots i).opcode == .upd || (s.slots i).opcode == .brc)), s) :=
  outcome_or (outcome_respIs i s _) (outcome_or (outcome_respIs i s _) (outcome_or (outcome_opcodeIs i s _) (outcome_opcodeIs i s _)))

theorem outcome_expected_lin :
    (respIs i .getSuccess <||> respIs i .putSuccess <||> respIs i .getStall <||> respIs i .putStall <||>
        respIs i .putFail <||> opcodeIs i .inv <||> opcodeIs i .brc).outcome s =
      .ok ((s.slots i).is .getSuccess || ((s.slots i).is .putSuccess || ((s.slots i).is .getStall ||
        ((s.slots i).is .putStall || ((s.slots i).is .putFail ||
          ((s.slots i).opcode == .inv || (s.slots i).opcode == .brc))))), s) :=
  outcome_or (outcome_respIs i s _) (outcome_or (outcome_respIs i s _) (outcome_or (outcome_respIs i s _)
    (outcome_or (outcome_respIs i s _) (outcome_or (outcome_respIs i s _) (outcome_or (outcome_opcodeIs i s _)
      (outcome_opcodeIs i s _))))))

theorem outcome_expect (h : (s.slots i).expected e = true) : (expect e i).outcome s = .ok ((), s) := by
  unfold expect
  unfold Entry.expected at h
  cases hp : e.protocol with
  | sc =>
    simp only [hp] at h
    simp only [outcome_bind_ok (outcome_expected_sc i s)]
    split
    · rfl
    · next hno =>
      have h0 : e.localClientId ≠ 0 := by simpa [hno] using h
      rw [if_neg h0, outcome_pure]
  | lin =>
    simp only [hp] at h
    simp only [outcome_bind_ok (outcome_expected_lin i s), h, if_true, outcome_pure]

theorem expect_stops (h : (s.slots i).expected e = false) : (expect e i).Stops s := by
  unfold expect
  unfold Entry.expected at h
  cases hp : e.protocol with
  | sc =>
    have htest := outcome_expected_sc i s
    simp only [hp] at h
    obtain ⟨h0, hno⟩ := Bool.or_eq_false_iff.1 h
    rw [hno] at htest
    have h0 : e.localClientId = 0 := by simpa using h0
    simp only [stops_bind htest, h0, if_true, Bool.false_eq_true, if_false]
    rw [stops_bind (outcome_opcode i s), stops_bind (outcome_respType i s)]
    exact stops_stop
  | lin =>
    have htest := outcome_expected_lin i s
    simp only [hp] at h
    rw [h] at htest
    simp only [stops_bind htest, Bool.false_eq_true, if_false]
    rw [stops_bind (outcome_opcode i s), codeToStr]
    split
    · rw [stops_bind outcome_pure, stops_bind (outcome_respType i s), codeToStr]
      split
      · rw [stops_bind outcome_pure]
        exact stops_stop
      · exact Stops.bind stops_stop
    · exact Stops.bind stops_stop

theorem hitRound_stops : (hitRound e i).Stops s ↔ (s.slots i).HitFails e := by
  unfold hitRound Entry.HitFails
  cases hexp : (s.slots i).expected e with
  | false => exact iff_of_true (Stops.bind (expect_stops e i s hexp)) (.inl rfl)
  | true =>
    rw [stops_bind (outcome_expect e i s hexp), settle, stops_bind (outcome_retires e i s)]
    cases hret : (s.slots i).retires e with
    | true =>
      obtain ⟨s', hs'⟩ := retire_returns e i s
      exact iff_of_false (not_stops hs') (by simp)
    | false =>
      rw [if_neg Bool.false_ne_true, stops_bind outcome_pure, copyOpToNextOp_stops]
      simp

/-! ## Requests -/

theorem outcome_checkValLen :
    (checkValLen e i).outcome s = if valLenOk e.cfg (s.slots i).op = false then .error .valLen else .ok ((), s) := by
  have htest : (opcodeIs i .get <||> opcodeIs i .put).outcome s = .ok (_, s) :=
    outcome_or (outcome_opcodeIs i s _) (outcome_opcodeIs i s _)
  rw [checkValLen, outcome_bind_ok htest, outcome_bind_ok (outcome_opcodeIs i s _)]
  have hok : valLenOk e.cfg (s.slots i).op =
      ((s.slots i).opcode != .put || ((s.slots i).op 17).toNat == e.cfg.herdValueSize >>> e.cfg.shiftBits) := rfl
  rw [hok]
  by_cases hput : (s.slots i).opcode = .put
  · rw [if_pos (beq_iff_eq.2 hput), outcome_bind_ok (outcome_valLen i s)]
    by_cases hlen : ((s.slots i).op 17).toNat = e.cfg.herdValueSize >>> e.cfg.shiftBits
    · rw [if_pos hlen, if_neg (by simp [hlen]), outcome_pure]
    · rw [if_neg hlen, if_pos (by simp [hput, hlen]), outcome_stop]
  · rw [if_neg (by simpa using hput), if_neg (by simp [hput]), outcome_pure]

theorem addRequest_stops (rm : UInt8) (size : ℕ) : (addRequest rm i size).Stops s ↔ windowSize ≤ (s.batch rm).length := by
  have hlook : (look fun s => addErpcRequest (s.slots i).op size (s.batch rm) : ScanM _).outcome s =
      .ok (addErpcRequest (s.slots i).op size (s.batch rm), s) := outcome_look
  rw [addRequest, stops_bind hlook, addErpcRequest]
  by_cases hroom : (s.batch rm).length < windowSize
  · rw [if_pos hroom]
    exact iff_of_false (not_stops outcome_change) (Nat.not_le.2 hroom)
  · rw [if_neg hroom]
    exact iff_of_true stops_stop (Nat.le_of_not_lt hroom)

theorem handOver_stops (rm : UInt8) (size : ℕ) : (handOver rm i size).Stops s ↔ windowSize ≤ (s.batch rm).length := by
  rw [← addRequest_stops i s rm size]
  by_cases hadd : (addRequest rm i size).Stops s
  · exact iff_of_true (Stops.bind hadd) hadd
  · obtain ⟨_, s₁, hs₁⟩ := exists_of_not_stops hadd
    refine iff_of_false (not_stops ((outcome_bind_ok hs₁).trans ((outcome_bind_ok outcome_change).trans
      ((outcome_bind_ok outcome_writes).trans outcome_pure)))) hadd

/-- A request that is passed over is copied if its opcode has a size. -/
theorem copyFails_request (x : Entry) :
    Entry.CopyFails e ⟨setCltGid e.cltGid x.op, RespType.unservedMiss.code, x.machine⟩ false ↔ copySize e.cfg x.opcode = none := by
  have ho : Entry.opcode ⟨setCltGid e.cltGid x.op, RespType.unservedMiss.code, x.machine⟩ = x.opcode :=
    congrArg Opcode.ofByte (setCltGid_opcode e.cltGid x.op)
  rw [Entry.CopyFails, ho]
  refine or_iff_left ?_
  rintro (⟨hw, -⟩ | ⟨hstall, -⟩)
  · simp [Entry.waits, Entry.is] at hw
  · simp [Entry.is, RespType.code] at hstall

theorem handleLackOfCredits_stops (rm : UInt8) : (handleLackOfCredits e rm i).Stops s ↔ (s.slots i).CopyFails e false := by
  unfold handleLackOfCredits setOutstanding
  rw [stops_bind outcome_change]
  have hcopy := copyOpToNextOp_stops e i
    { s with perWorkerOutstanding := update s.perWorkerOutstanding rm (s.perWorkerOutstanding rm - 1) } false
  rw [← hcopy]
  by_cases hstop : (copyOpToNextOp e false i).Stops
      { s with perWorkerOutstanding := update s.perWorkerOutstanding rm (s.perWorkerOutstanding rm - 1) }
  · exact iff_of_true (Stops.bind hstop) hstop
  · obtain ⟨_, s₁, hs₁⟩ := exists_of_not_stops hstop
    exact iff_of_false (not_stops ((outcome_bind_ok hs₁).trans outcome_look)) hstop

/-- A request for machine `rm` is handed over if the machine takes one more, else it is copied. -/
theorem dispatch_stops (rm : UInt8) (ht : (s.slots i).type = RespType.unservedMiss.code) :
    (dispatch e rm i).Stops s ↔
      if (s.perWorkerOutstanding rm + 1).toNat ≤ kvsBatch then windowSize ≤ (s.batch rm).length
      else copySize e.cfg (s.slots i).opcode = none := by
  let s₁ : Scan := { s with slots := update s.slots i { s.slots i with op := setCltGid e.cltGid (s.slots i).op } }
  let s₂ : Scan := { s₁ with perWorkerOutstanding := update s.perWorkerOutstanding rm (s.perWorkerOutstanding rm + 1) }
  have hop : (op i).outcome s = .ok ((s.slots i).op, s) := outcome_reads
  have hset : (setOp i (setCltGid e.cltGid)).outcome s = .ok ((), s₁) := outcome_writes
  have hout : (setOutstanding rm (· + 1)).outcome s₁ = .ok ((), s₂) := outcome_change
  have hlook : (look fun s => s.perWorkerOutstanding rm : ScanM UInt8).outcome s₂ = .ok (s.perWorkerOutstanding rm + 1, s₂) :=
    congrArg (fun w => Except.ok (w, s₂)) (update_self _ _ s.perWorkerOutstanding)
  have hslot : s₂.slots i = ⟨setCltGid e.cltGid (s.slots i).op, RespType.unservedMiss.code, (s.slots i).machine⟩ := by
    rw [← ht]
    exact update_self i _ _
  unfold dispatch
  rw [stops_bind hop, stops_bind hset, stops_bind hout, stops_bind hlook]
  by_cases hfull : kvsBatch < (s.perWorkerOutstanding rm + 1).toNat
  · rw [if_pos hfull, if_neg (Nat.not_le.2 hfull), handleLackOfCredits_stops, hslot, copyFails_request]
  · rw [if_neg hfull, if_pos (Nat.le_of_not_lt hfull), handOver_stops]

theorem issue_stops :
    (issue e i).Stops s ↔ valLenOk e.cfg (s.slots i).op = false ∨ (s.slots i).machine.toNat = e.machineId ∨
      if (s.perWorkerOutstanding (s.slots i).machine + 1).toNat ≤ kvsBatch then windowSize ≤ (s.batch (s.slots i).machine).length
      else copySize e.cfg (s.slots i).opcode = none := by
  have hval := outcome_checkValLen e i s
  unfold issue
  cases hlen : valLenOk e.cfg (s.slots i).op with
  | false =>
    rw [hlen, if_pos rfl] at hval
    exact iff_of_true (Stops.bind ⟨_, hval⟩) (.inl rfl)
  | true =>
    rw [hlen, if_neg (by simp)] at hval
    let s₁ : Scan := { s with slots := update s.slots i { s.slots i with type := RespType.unservedMiss.code } }
    have hset : (setRespType i .unservedMiss).outcome s = .ok ((), s₁) := outcome_writes
    have hslot : s₁.slots i = { s.slots i with type := RespType.unservedMiss.code } := update_self i _ _
    have hmachine : (machine i).outcome s₁ = .ok ((s.slots i).machine, s₁) := by
      rw [machine, outcome_reads, hslot]
    rw [stops_bind hval, stops_bind hset, stops_bind hmachine]
    by_cases hlocal : (s.slots i).machine.toNat = e.machineId
    · rw [if_pos hlocal]
      exact iff_of_true stops_stop (.inr (.inl hlocal))
    · rw [if_neg hlocal, dispatch_stops e i s₁ _ (by rw [hslot]), hslot]
      simp [hlocal, Entry.opcode, s₁]

end CcKvs.Client.Scan
