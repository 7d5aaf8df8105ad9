/-
What the steps of the clients do to the records of the cache and to the slots
that wait. A record becomes valid by an update or the last acknowledgement only,
and an operation stalls on a record that is not valid; a slot that is carried
over keeps its operation and what the cache said about it.
-/
import CcKvs.Client.Order
import CcKvs.WakeUp.Machine

namespace CcKvs.WakeUp

open Function Client
open Sc (Slot)

/-! ## How a record becomes valid -/

section

variable {h h' g : Hit} {ol : CacheMeta} {ty : RespType} {machineNum machineId : ℕ}

theorem release_state (hok : h.release ol ty = .ok h') : h'.kv.keyMeta.state = ol.state := by
  obtain ⟨ol', ho, he⟩ := bind_eq_ok.1 hok
  cases he
  unfold optikUnlockDecrementVersion at ho
  split at ho
  · cases ho
    rfl
  · cases ho

/-- A read stalls on a record that is not valid, and does not make it valid. -/
theorem linGet_state (hok : linGet h = .ok h') :
    (h'.kv.keyMeta.state = .valid → h.kv.keyMeta.state = .valid) ∧
      (h'.resp.type = .getStall → h'.kv.keyMeta.state ≠ .valid) := by
  obtain ⟨g, hg, he⟩ := bind_eq_ok.1 hok
  cases he
  dsimp only
  unfold Hit.getSwitch at hg
  split at hg
  next hv =>
    cases Hit.readUnlocked_eq hg
    exact ⟨fun _ => hv, by simp [Hit.found]⟩
  next hv =>
    cases Hit.readUnlocked_eq hg
    exact ⟨fun h => h, by simp [hv]⟩
  next hv =>
    cases Hit.readUnlocked_eq hg
    exact ⟨fun h => h, by simp [hv]⟩
  next =>
    obtain ⟨ol, hl, hg⟩ := bind_eq_ok.1 hg
    have hstate := Hit.state_of_optikLock hl
    split at hg
    next hv => exact ⟨fun _ => hstate ▸ hv, by simp [Hit.release_type hg]⟩
    next hv => simp [release_state hg, Hit.release_type hg, hv]
    next hv => simp [release_state hg, Hit.release_type hg, hv]
    next => simp [release_state hg, Hit.release_type hg]
    next => simp [release_state hg, Hit.release_type hg]
    next => cases hg

/-- A write leaves no record valid. -/
theorem linPut_state (hok : linPut machineNum machineId h = .ok h') : h'.kv.keyMeta.state ≠ .valid := by
  simp only [linPut, bind_eq_ok] at hok
  obtain ⟨_, -, ol, -, g, hg, hok⟩ := hok
  have hkv : h'.kv = g.kv := by
    split at hok
    · cases hok
      rfl
    · cases hok
      rfl
  rw [hkv]
  unfold Hit.putSwitch at hg
  split at hg
  · cases hg
    simp [Hit.overlay, optikUnlockWrite]
  · cases hg
    simp [Hit.overlay, optikUnlockWrite]
  next hs =>
    split at hg
    · cases hg
      simp [Hit.overlay, optikUnlockWrite]
    · simp [release_state hg, hs]
  next hs => simp [release_state hg, hs]
  next hs =>
    split at hg
    · cases hg
      simp [Hit.overlay, optikUnlockWrite]
    · split at hg
      · simp [release_state hg, hs]
      · simp [release_state hg, hs]
  · cases hg

theorem linInv_state (hok : linInv machineId h = .ok h') (hv : h'.kv.keyMeta.state = .valid) :
    h.kv.keyMeta.state = .valid := by
  obtain ⟨ol, hl, hok⟩ := bind_eq_ok.1 hok
  obtain ⟨g, hg, he⟩ := bind_eq_ok.1 hok
  cases he
  rw [← Hit.state_of_optikLock hl]
  have hinv : ∀ {greater : Bool} {st : CacheState}, st ≠ .valid → h.invalidate ol greater st = .ok g →
      ol.state = .valid := by
    intro greater st hst hg
    unfold Hit.invalidate at hg
    split at hg
    · obtain ⟨ol', ho, he⟩ := bind_eq_ok.1 hg
      cases he
      unfold optikUnlock at ho
      split at ho
      · cases ho
        exact absurd hv hst
      · cases ho
    · rw [← release_state hg]
      exact hv
  unfold Hit.invSwitch at hg
  split at hg
  next hs => exact hs
  next => exact hinv (by simp) hg
  next => exact hinv (by simp) hg
  next => exact hinv (by simp) hg
  next => exact hinv (by simp) hg
  next => cases hg

theorem linUpd_state (hok : linUpd h = .ok h') (hv : h'.kv.keyMeta.state = .valid) :
    h.kv.keyMeta.state = .valid ∨ h'.resp.type = .updSuccess := by
  simp only [linUpd, bind_eq_ok] at hok
  obtain ⟨_, -, ol, hl, hok⟩ := hok
  split at hok
  · obtain ⟨ol', -, he⟩ := bind_eq_ok.1 hok
    cases he
    exact .inr rfl
  · left
    rw [← Hit.state_of_optikLock hl, ← release_state hok]
    exact hv

theorem linAck_state (hok : linAck machineId h = .ok h') (hv : h'.kv.keyMeta.state = .valid) :
    h.kv.keyMeta.state = .valid ∨ h'.resp.type = .lastAckSuccess := by
  simp only [linAck, bind_eq_ok] at hok
  obtain ⟨ol, hl, hok⟩ := hok
  rw [← Hit.state_of_optikLock hl]
  split at hok
  · split at hok
    · exact .inr (Hit.release_type hok)
    · left
      rw [← hv, release_state hok]
  · left
    rw [← hv, release_state hok]

end

/-! ## What becomes of a slot -/

section

variable {N : ℕ} {e : Env N} {x y z : Slot N}

/-- The operation is the same, and so is what the cache said about it. -/
structure Same (x y : Slot N) : Prop where
  type : y.type = x.type
  key : y.key = x.key
  opcode : y.opcode = x.opcode

theorem Same.refl (x : Slot N) : Same x x := ⟨rfl, rfl, rfl⟩

theorem Same.trans (h : Same x y) (h' : Same y z) : Same x z :=
  ⟨h'.type.trans h.type, h'.key.trans h.key, h'.opcode.trans h.opcode⟩

theorem Same.asleep (h : Same x y) : Asleep y ↔ Asleep x := by rw [Asleep, Asleep, h.type]

/-- An operation that the cache function has a case for; requests to other machines are passed over. -/
def Own (x : Slot N) : Prop := (x.opcode = .get ∨ x.opcode = .put ∨ x.opcode = .brc) ∨ x.type = .unservedMiss

theorem Same.own (h : Same x y) (hx : Own x) : Own y := by rwa [Own, h.type, h.opcode]

section fill

variable {tagged : ℕ → Bool} {t : Client.Trace N} {f f' : Fill N} {c : TraceCommand N}

/-- The slot of a command that was just taken. -/
def Fresh (x : Slot N) : Prop := x.type = .empty ∧ (x.opcode = .get ∨ x.opcode = .put)

theorem Fresh.not_asleep (h : Fresh x) : ¬ Asleep x := by simp [Asleep, h.1]

/-- A round changes no operation that it finds, and adds one at most. -/
theorem round_slot (h : f.round e tagged t c = .ok f') {j : ℕ} (hj : j < f'.i) :
    j < f.i ∧ Same (f.ops j) (f'.ops j) ∨ Fresh (f'.ops j) := by
  rcases Fill.round_cases h with ⟨-, rfl⟩ | ⟨-, -, hget, -, rfl⟩
  · have hi : ((f.prepared e c).taken e tagged t c).i = f.i + 1 := congrArg (· + 1) (Fill.prepared_i f)
    rcases Nat.lt_succ_iff_lt_or_eq.1 (hi ▸ hj) with hlt | rfl
    · rw [taken_of_ne hlt.ne]
      exact .inl ⟨hlt, .refl _⟩
    · right
      obtain ⟨tag, rand, hself⟩ := taken_self e tagged t c f
      rw [hself]
      refine ⟨rfl, ?_⟩
      rw [fillOp_opcode]
      split
      · exact .inr rfl
      · exact .inl rfl
  · have hc := counted_counts (t := t) hget j
    exact .inl ⟨hj, hc.type, hc.key, congrArg Opcode.ofByte (hc.bytes 16 (by omega))⟩

theorem loop_slot {n : ℕ} (h : f.loop e tagged t n = .ok f') {j : ℕ} (hj : j < f'.i) :
    j < f.i ∧ Same (f.ops j) (f'.ops j) ∨ Fresh (f'.ops j) := by
  induction n generalizing f with
  | zero =>
    cases h
    exact .inl ⟨hj, .refl _⟩
  | succ n ih =>
    rw [Fill.loop] at h
    split at h
    · split at h
      · cases h
        exact .inl ⟨hj, .refl _⟩
      · obtain ⟨f₁, hround, hloop⟩ := bind_eq_ok.1 h
        rcases ih hloop with ⟨hj₁, hs⟩ | hf
        · rcases round_slot hround hj₁ with ⟨hj₀, hs₀⟩ | ⟨ht, ho⟩
          · exact .inl ⟨hj₀, hs₀.trans hs⟩
          · exact .inr ⟨hs.type.trans ht, by rwa [hs.opcode]⟩
        · exact .inr hf
    · cases h
      exact .inl ⟨hj, .refl _⟩

end fill

/-! ## Slots that are copied -/

/-- `y` is what is left of slot `x` for the next batch. -/
def Copied (e : Env N) (x y : Slot N) : Prop := Same x y ∧ e.retires x = false ∨ y.type = .unservedMiss

variable {s s' : Cold N} {opI : ℕ} {xs xs' : List (Slot N)}

/-- At most one slot is copied, if any then `x`. -/
def Adds (e : Env N) (x : Slot N) (s s' : Cold N) : Prop :=
  s'.slots = s.slots ∨ ∃ y, s'.slots = s.slots ++ [y] ∧ Copied e x y

theorem copyOpToNextOp_slots (h : s.copyOpToNextOp e opI x = .ok s') : ∃ y, s'.slots = s.slots ++ [y] ∧ Same x y := by
  unfold Cold.copyOpToNextOp at h
  split at h
  · cases h
  · next size hs =>
    split at h
    · cases h
    · cases h
      refine ⟨_, copied_slots s opI x size, ?_⟩
      rw [copied_slot]
      have hcopy := copyOf_of_copySize (s.nextOps s.nextOpI).op hs
      exact ⟨rfl, hcopy.key, hcopy.opcode⟩

theorem settle_slots (h : s.settle e opI x = .ok (y, s')) :
    s'.slots = s.slots ∨ e.retires x = false ∧ ∃ y, s'.slots = s.slots ++ [y] ∧ Same x y := by
  unfold Cold.settle at h
  split at h
  · cases h
    exact .inl rfl
  · next hret =>
    obtain ⟨s₁, hcopy, he⟩ := bind_eq_ok.1 h
    cases he
    exact .inr ⟨by simpa using hret, copyOpToNextOp_slots hcopy⟩

theorem cacheHitBookkeeping_adds (h : s.cacheHitBookkeeping e opI x = .ok (y, s')) : Adds e x s s' := by
  unfold Cold.cacheHitBookkeeping at h
  split at h
  · rcases settle_slots h with hs | ⟨hret, y, hs, hsame⟩
    · exact .inl hs
    · exact .inr ⟨y, hs, .inl ⟨hsame, hret⟩⟩
  · cases h

theorem runThrough_adds (h : s.runThrough e opI x = .ok (y, s')) : Adds e x s s' := by
  unfold Cold.runThrough at h
  split at h
  · cases h
  · rcases settle_slots h with hs | ⟨hret, y, hs, hsame⟩
    · exact .inl hs
    · refine .inr ⟨y, hs, ?_⟩
      cases hm : x.isMiss with
      | true => exact .inr (hsame.type.trans (unserved_type hm))
      | false =>
        rw [unserved_of_hit hm] at hret hsame
        exact .inl ⟨hsame, hret⟩

theorem copy_request_adds (h : s.copyOpToNextOp e opI (e.request x) = .ok s') : Adds e x s s' := by
  obtain ⟨y, hs, hsame⟩ := copyOpToNextOp_slots h
  exact .inr ⟨y, hs, .inr hsame.type⟩

theorem addRequest_adds (h : s.addRequest e y = .ok s') : Adds e x s s' := by
  rw [addRequest_eq h]
  exact .inl rfl

/-- The slots among `xs` that are copied. -/
def AddsAll (e : Env N) (xs : List (Slot N)) (s s' : Cold N) : Prop :=
  ∃ ys, s'.slots = s.slots ++ ys ∧ ys.length ≤ xs.length ∧ ∀ y ∈ ys, ∃ x ∈ xs, Copied e x y

theorem AddsAll.nil : AddsAll e [] s s := ⟨[], by simp⟩

theorem AddsAll.cons {s₁ : Cold N} (h : Adds e x s s₁) (hrest : AddsAll e xs s₁ s') : AddsAll e (x :: xs) s s' := by
  obtain ⟨ys, hys, hle, hmem⟩ := hrest
  have hmem' : ∀ y ∈ ys, ∃ z ∈ x :: xs, Copied e z y := by
    intro y hy
    obtain ⟨z, hz, hc⟩ := hmem y hy
    exact ⟨z, List.mem_cons_of_mem _ hz, hc⟩
  rcases h with hs | ⟨y, hs, hc⟩
  · exact ⟨ys, by rw [hys, hs], by simp only [List.length_cons]; omega, hmem'⟩
  · refine ⟨y :: ys, by rw [hys, hs, List.append_assoc]; rfl, by simpa using hle, ?_⟩
    intro z hz
    rcases List.mem_cons.1 hz with rfl | hz
    · exact ⟨x, by simp, hc⟩
    · exact hmem' z hz

theorem runThroughRestOfOps_adds (h : runThroughRestOfOps e opI xs s = .ok (xs', s')) : AddsAll e xs s s' := by
  induction xs generalizing opI s xs' with
  | nil =>
    cases h
    exact .nil
  | cons x xs ih =>
    obtain ⟨⟨_, s₁⟩, hx, h⟩ := bind_eq_ok.1 h
    obtain ⟨⟨_, s₂⟩, hrest, he⟩ := bind_eq_ok.1 h
    cases he
    exact .cons (runThrough_adds hx) (ih hrest)

theorem handleColdRequests_adds (h : handleColdRequests e opI xs s = .ok (xs', s')) : AddsAll e xs s s' := by
  induction xs generalizing opI s xs' with
  | nil =>
    cases h
    exact .nil
  | cons x xs ih =>
    rw [handleColdRequests] at h
    split at h
    · exact runThroughRestOfOps_adds h
    split at h
    · obtain ⟨⟨_, s₁⟩, hx, h⟩ := bind_eq_ok.1 h
      obtain ⟨⟨_, s₂⟩, hrest, he⟩ := bind_eq_ok.1 h
      cases he
      exact .cons (cacheHitBookkeeping_adds hx) (ih hrest)
    split at h
    · cases h
    split at h
    · cases h
    split at h
    · obtain ⟨s₁, hx, h⟩ := bind_eq_ok.1 h
      split at h
      · obtain ⟨⟨_, s₂⟩, hrest, he⟩ := bind_eq_ok.1 h
        cases he
        exact .cons (copy_request_adds hx) (runThroughRestOfOps_adds hrest)
      · obtain ⟨⟨_, s₂⟩, hrest, he⟩ := bind_eq_ok.1 h
        cases he
        exact .cons (copy_request_adds hx) (ih hrest)
    · obtain ⟨s₁, hx, h⟩ := bind_eq_ok.1 h
      obtain ⟨⟨_, s₂⟩, hrest, he⟩ := bind_eq_ok.1 h
      cases he
      exact .cons (addRequest_adds hx) (ih hrest)

end

/-! ## The calls of the cache -/

def ValidIn (cache : Cache) (k : UInt64) : Prop := ∃ kv, cache k = some kv ∧ kv.keyMeta.state = .valid

section

variable {N : ℕ} {m : Fin N} {f : CacheFun} {cache cache' : Cache} {op op' : CacheOp} {resp resp' : MicaResp} {k : UInt64}

theorem serve_cases (hok : serve m f cache op resp = .ok (cache', op', resp')) :
    (cache' = cache ∧ op' = op ∧ (resp' = resp ∧ f.skips true resp.type = true ∨ resp'.type = .miss)) ∨
    ∃ kv h, cache op.key = some kv ∧ f.body N m ⟨kv, op, resp⟩ = .ok h ∧ cache' = update cache op.key (some h.kv) ∧
      op' = h.op ∧ resp' = h.resp := by
  unfold serve at hok
  split at hok
  · next hs =>
    cases hok
    exact .inl ⟨rfl, rfl, .inl ⟨rfl, hs⟩⟩
  · rcases Cache.serve_ok hok with ⟨hc, ho, hr⟩ | hit
    · refine .inl ⟨hc, ho, hr.imp_left fun hr => ⟨hr.1, ?_⟩⟩
      simp [CacheFun.skips, hr.2]
    · exact .inr hit

theorem validIn_update {kv : CacheOp} {a : UInt64} (h : ValidIn (update cache a (some kv)) k) :
    k = a ∧ kv.keyMeta.state = .valid ∨ ValidIn cache k := by
  obtain ⟨kv', hk, hv⟩ := h
  by_cases he : k = a
  · rw [he, update_self, Option.some.injEq] at hk
    exact .inl ⟨he, hk ▸ hv⟩
  · rw [update_of_ne he] at hk
    exact .inr ⟨kv', hk, hv⟩

/-- The client's own operations make no key valid, and those that stall do on one that is not. -/
theorem probe_valid (ho : op.opcode = .get ∨ op.opcode = .put ∨ op.opcode = .brc)
    (hs : CacheFun.lin.skips true resp.type = false) (hok : serve m .lin cache op resp = .ok (cache', op', resp')) :
    (∀ k, ValidIn cache' k → ValidIn cache k) ∧
      (resp'.type = .getStall ∨ resp'.type = .putStall → ¬ ValidIn cache' op.key) := by
  have hawake : resp.type ≠ .getStall ∧ resp.type ≠ .putStall := by
    simp only [CacheFun.skips, Bool.true_and, Bool.or_eq_false_iff, beq_eq_false_iff_ne] at hs
    exact hs.2
  rcases serve_cases hok with ⟨rfl, -, ⟨-, hskip⟩ | hmiss⟩ | ⟨kv, h, hk, hb, rfl, -, rfl⟩
  · simp [hs] at hskip
  · exact ⟨fun _ h => h, fun hst => by simp [hmiss] at hst⟩
  · have hbody : (h.kv.keyMeta.state = .valid → kv.keyMeta.state = .valid) ∧
        (h.resp.type = .getStall ∨ h.resp.type = .putStall → h.kv.keyMeta.state ≠ .valid) := by
      rcases ho with ho | ho | ho <;> simp only [CacheFun.body, linNonStallingSessions, ho] at hb
      · obtain ⟨hv, hstall⟩ := linGet_state hb
        refine ⟨hv, fun hst => hst.elim hstall fun h => ?_⟩
        rcases (linGet_answer hb).2 with ht | ht <;> simp [ht] at h
      · exact ⟨fun hv => absurd hv (linPut_state hb), fun _ => linPut_state hb⟩
      · cases hb
        exact ⟨fun hv => hv, fun hst => hst.elim (fun h => absurd h hawake.1) fun h => absurd h hawake.2⟩
    refine ⟨fun k hv => ?_, fun hst hv => ?_⟩
    · rcases validIn_update hv with ⟨rfl, hst⟩ | hv
      · exact ⟨kv, hk, hbody.1 hst⟩
      · exact hv
    · obtain ⟨kv', hk', hv'⟩ := hv
      rw [update_self, Option.some.injEq] at hk'
      exact hbody.2 hst (hk' ▸ hv')

theorem probe_opcode (ho : op.opcode = .get ∨ op.opcode = .put ∨ op.opcode = .brc)
    (hok : serve m .lin cache op resp = .ok (cache', op', resp')) :
    op'.opcode = .get ∨ op'.opcode = .put ∨ op'.opcode = .brc := by
  rcases serve_cases hok with ⟨-, rfl, -⟩ | ⟨kv, h, -, hb, -, rfl, -⟩
  · exact ho
  · rcases ho with ho | ho | ho <;> simp only [CacheFun.body, linNonStallingSessions, ho] at hb
    · exact .inl ((linGet_answer hb).1.trans ho)
    · rcases linPut_answer hb with ⟨hbrc, -⟩ | ⟨hsame, -⟩
      · exact .inr (.inr hbrc)
      · exact .inr (.inl ((congrArg CacheOp.opcode hsame).trans ho))
    · cases hb
      exact .inr (.inr ho)

theorem inv_valid (ho : op.opcode = .inv) (hok : serve m .linWithSmallCacheOp cache op resp = .ok (cache', op', resp'))
    (hv : ValidIn cache' k) : ValidIn cache k := by
  rcases serve_cases hok with ⟨rfl, -, -⟩ | ⟨kv, h, hk, hb, rfl, -, rfl⟩
  · exact hv
  · rcases validIn_update hv with ⟨rfl, hst⟩ | hv
    · simp only [CacheFun.body, linNonStallingSessionsWithSmallCacheOp, ho] at hb
      exact ⟨kv, hk, linInv_state hb hst⟩
    · exact hv

/-- A key becomes valid by an update or by the last acknowledgement. -/
theorem coherence_valid (hok : serve m .linWithCacheOp cache op resp = .ok (cache', op', resp')) (hv : ValidIn cache' k) :
    ValidIn cache k ∨
      k = op.key ∧ (op.opcode = .upd ∧ op' = op ∧ resp'.type = .updSuccess ∨ resp'.type = .lastAckSuccess) := by
  rcases serve_cases hok with ⟨rfl, -, -⟩ | ⟨kv, h, hk, hb, rfl, rfl, rfl⟩
  · exact .inl hv
  · rcases validIn_update hv with ⟨rfl, hst⟩ | hv
    · simp only [CacheFun.body, linNonStallingSessionsWithCacheOp] at hb
      split at hb
      next ho =>
        rcases linUpd_state hb hst with hv | ht
        · exact .inl ⟨kv, hk, hv⟩
        · exact .inr ⟨rfl, .inl ⟨ho, linUpd_op hb, ht⟩⟩
      next =>
        rcases linAck_state hb hst with hv | ht
        · exact .inl ⟨kv, hk, hv⟩
        · exact .inr ⟨rfl, .inr ht⟩
      next =>
        cases hb
        exact .inl ⟨kv, hk, hst⟩
      next => cases hb
    · exact .inl hv

end

end CcKvs.WakeUp
