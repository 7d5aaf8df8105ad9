/-
When a batch is filled. A read of one of the hottest keys takes no slot if one
is in the batch already, and a slot counts 256 reads: so `val_len < 255` holds
in every round exactly if the batch is full before any of these keys is read
257 times without a write of it in between. The reads a stalled read brings
along from earlier batches count as well.

A round that takes no slot adds to a count, a round that takes one ends at most
one count, and all counts are bounded; so a loop in which no assertion fails
comes to its end.
-/
import CcKvs.Client.Fill

namespace CcKvs.Client

open Function Sc

section

variable {N : ℕ}

/-! ## Commands -/

/-- Reads of key `k` that are counted in a slot carried over, the first one included. -/
def carriedReads (p : Protocol) (ops : ℕ → Slot N) (hottestKeysPointers : ℕ → ℕ) (k : ℕ) : ℕ :=
  match p with
  | .sc => 0
  | .lin => if hottestKeysPointers k = 0 then 0 else (ops (hottestKeysPointers k - 1)).valLen.toNat + 1

variable (c : ℕ → TraceCommand N) (carried : ℕ → ℕ)

/-- The reads of key `k` since it was last written, at command `n`. -/
def readsSinceWrite (k : ℕ) : ℕ → ℕ
  | 0 => carried k
  | n + 1 =>
    if (c n).keyId = k then
      if (c n).opcode.isRead then readsSinceWrite k n + 1 else 0
    else readsSinceWrite k n

/-- Command `n` is a write, or a read of a key that is not tracked, or the first read of its key
since the key was written. -/
def TakesSlot (n : ℕ) : Prop := (c n).IsTracked → readsSinceWrite c carried (c n).keyId n = 0

instance (n : ℕ) : Decidable (TakesSlot c carried n) := inferInstanceAs (Decidable (_ → _))

/-- Command `n` is one read more than a slot can count. -/
def OneTooMany (n : ℕ) : Prop := (c n).IsTracked ∧ 256 ≤ readsSinceWrite c carried (c n).keyId n


/-- The batch is full before a slot is asked to count a read too many. -/
def FullInTime (nextOpI : ℕ) : Prop :=
  ∀ n, OneTooMany c carried n → cacheBatchSize ≤ nextOpI + Nat.count (TakesSlot c carried) n

variable {c carried} {n k : ℕ}

theorem readsSinceWrite_of_ne (h : (c n).keyId ≠ k) :
    readsSinceWrite c carried k (n + 1) = readsSinceWrite c carried k n := if_neg h

theorem readsSinceWrite_of_read (h : (c n).opcode.isRead = true) :
    readsSinceWrite c carried (c n).keyId (n + 1) = readsSinceWrite c carried (c n).keyId n + 1 := by
  rw [readsSinceWrite, if_pos rfl, if_pos h]

theorem readsSinceWrite_of_write (h : (c n).opcode.isRead = false) :
    readsSinceWrite c carried (c n).keyId (n + 1) = 0 := by
  rw [readsSinceWrite, if_pos rfl, h, if_neg Bool.false_ne_true]

/-- While no slot is asked for too much, none counts more than 256 reads. -/
theorem readsSinceWrite_le (hk : k < hottestKeysToTrack) (h0 : carried k ≤ 256)
    (hn : ∀ m < n, ¬ OneTooMany c carried m) : readsSinceWrite c carried k n ≤ 256 := by
  induction n with
  | zero => exact h0
  | succ n ih =>
    have hle := ih fun m hm => hn m (by omega)
    by_cases hkey : (c n).keyId = k
    · subst hkey
      cases hr : (c n).opcode.isRead with
      | false =>
        rw [readsSinceWrite_of_write hr]
        omega
      | true =>
        have hlt : ¬ 256 ≤ readsSinceWrite c carried (c n).keyId n := fun hge => hn n (by omega) ⟨⟨hk, hr⟩, hge⟩
        rw [readsSinceWrite_of_read hr]
        omega
    · rwa [readsSinceWrite_of_ne hkey]

/-- All reads that are being counted. -/
def counts (c : ℕ → TraceCommand N) (carried : ℕ → ℕ) (n : ℕ) : ℕ :=
  ∑ k ∈ Finset.range hottestKeysToTrack, readsSinceWrite c carried k n

/-- Only the key of the command has another count afterwards. -/
theorem counts_succ (carried : ℕ → ℕ) (h : (c n).keyId < hottestKeysToTrack) :
    counts c carried (n + 1) + readsSinceWrite c carried (c n).keyId n =
      counts c carried n + readsSinceWrite c carried (c n).keyId (n + 1) := by
  have hmem := Finset.mem_range.2 h
  have hrest : ∑ k ∈ (Finset.range hottestKeysToTrack).erase (c n).keyId, readsSinceWrite c carried k (n + 1) =
      ∑ k ∈ (Finset.range hottestKeysToTrack).erase (c n).keyId, readsSinceWrite c carried k n :=
    Finset.sum_congr rfl fun k hk => readsSinceWrite_of_ne (Finset.ne_of_mem_erase hk).symm
  unfold counts
  rw [← Finset.add_sum_erase _ _ hmem, ← Finset.add_sum_erase _ _ hmem, hrest]
  omega

theorem counts_of_untracked (h : ¬ (c n).keyId < hottestKeysToTrack) : counts c carried (n + 1) = counts c carried n :=
  Finset.sum_congr rfl fun _ hk => readsSinceWrite_of_ne fun he => h (he ▸ Finset.mem_range.1 hk)

/-- **Every round is paid for**: by a slot, worth all the reads it can end, or by a read counted. -/
theorem le_slots_add_counts (h0 : ∀ k < hottestKeysToTrack, carried k ≤ 256)
    (hn : ∀ m < n, ¬ OneTooMany c carried m) :
    n ≤ 257 * Nat.count (TakesSlot c carried) n + counts c carried n := by
  induction n with
  | zero => exact Nat.zero_le _
  | succ n ih =>
    have hle := ih fun m hm => hn m (by omega)
    rw [Nat.count_succ]
    by_cases hk : (c n).keyId < hottestKeysToTrack
    · have hsum := counts_succ carried hk
      have hreads : readsSinceWrite c carried (c n).keyId n ≤ 256 :=
        readsSinceWrite_le hk (h0 _ hk) fun m hm => hn m (by omega)
      cases hr : (c n).opcode.isRead with
      | true =>
        rw [readsSinceWrite_of_read hr] at hsum
        split <;> omega
      | false =>
        have htakes : TakesSlot c carried n := fun ht => absurd ht.2 (by simp [hr])
        rw [if_pos htakes]
        omega
    · have htakes : TakesSlot c carried n := fun ht => absurd ht.1 hk
      rw [counts_of_untracked hk, if_pos htakes]
      omega

/-! ## A round -/

namespace Fill

variable {e : Env N} {tagged : ℕ → Bool} {t : Trace N} {s : Fill N} {x : TraceCommand N}

/-- What a round does to the pointers before the command takes a slot. -/
def prepared (e : Env N) (x : TraceCommand N) (s : Fill N) : Fill N :=
  if x.keyId < hottestKeysToTrack then
    if x.opcode.isRead then s.track e x.keyId else s.untrack x.keyId
  else s

theorem prepared_i (s : Fill N) : (s.prepared e x).i = s.i := by
  unfold prepared
  split
  · split <;> rfl
  · rfl

theorem prepared_traceIter (s : Fill N) : (s.prepared e x).traceIter = s.traceIter := by
  unfold prepared
  split
  · split <;> rfl
  · rfl

theorem prepared_ops {j : ℕ} (h : j ≠ s.i) : (s.prepared e x).ops j = s.ops j := by
  unfold prepared
  split
  · split
    · cases hp : e.protocol with
      | sc => simp only [track, hp]
      | lin => simp only [track, hp, update_of_ne h]
    · rfl
  · rfl

theorem prepared_pointers_of_ne (h : x.keyId ≠ k) : (s.prepared e x).hottestKeysPointers k = s.hottestKeysPointers k := by
  unfold prepared
  split
  · split <;> exact update_of_ne h.symm _ _
  · rfl

theorem prepared_pointers (h : x.keyId < hottestKeysToTrack) :
    (s.prepared e x).hottestKeysPointers x.keyId = if x.opcode.isRead then s.i + 1 else 0 := by
  unfold prepared
  rw [if_pos h]
  split <;> exact update_self _ _ _

/-- The slot of a read counts nothing yet. -/
theorem taken_read (s : Fill N) (h : x.opcode.isRead = true) :
    ((s.taken e tagged t x).ops s.i).opcode = .get ∧ ((s.taken e tagged t x).ops s.i).valLen = 0 := by
  have hw : x.opcode.isWrite = false := by rw [TraceOpcode.isWrite_eq, h]; rfl
  rw [taken_ops_self]
  exact ⟨congrArg Opcode.ofByte (Env.fillOp_read hw).1, (Env.fillOp_read hw).2.1⟩

theorem round_takes (h : x.IsTracked → s.hottestKeysPointers x.keyId = 0) :
    s.round e tagged t x = .ok ((s.prepared e x).taken e tagged t x) := by
  unfold round prepared
  split
  · next hk =>
    split
    · next hr => rw [if_pos (h ⟨hk, hr⟩), takeSlot_eq]
    · exact takeSlot_eq _ _ _
  · exact takeSlot_eq _ _ _

theorem round_counts (h : x.IsTracked) (hp : s.hottestKeysPointers x.keyId ≠ 0) :
    s.round e tagged t x = s.countRead t (s.hottestKeysPointers x.keyId - 1) := by
  unfold round
  rw [if_pos h.1, if_pos h.2, if_neg hp]

/-- What a round that returns has done. -/
theorem round_cases {s' : Fill N} (h : s.round e tagged t x = .ok s') :
    (x.IsTracked → s.hottestKeysPointers x.keyId = 0) ∧ s' = (s.prepared e x).taken e tagged t x ∨
      x.IsTracked ∧ s.hottestKeysPointers x.keyId ≠ 0 ∧ (s.ops (s.hottestKeysPointers x.keyId - 1)).opcode = .get ∧
        (s.ops (s.hottestKeysPointers x.keyId - 1)).valLen.toNat < 255 ∧
        s' = s.counted t (s.hottestKeysPointers x.keyId - 1) := by
  by_cases htake : x.IsTracked → s.hottestKeysPointers x.keyId = 0
  · rw [round_takes htake] at h
    exact .inl ⟨htake, (Except.ok.inj h).symm⟩
  · obtain ⟨htracked, hp⟩ := not_forall.1 htake
    rw [round_counts htracked hp, countRead] at h
    split at h
    · cases h
    · next hget =>
      split at h
      · cases h
      · next hroom => exact .inr ⟨htracked, hp, not_not.1 hget, not_le.1 hroom, (Except.ok.inj h).symm⟩

theorem round_traceIter {s' : Fill N} (h : s.round e tagged t x = .ok s') : s'.traceIter = t.advance s.traceIter := by
  rcases round_cases h with ⟨-, rfl⟩ | ⟨-, -, -, -, rfl⟩
  · exact congrArg t.advance (prepared_traceIter s)
  · rfl

/-! ## The counts are the slots' -/

/-- What the pointers and the slots say at command `n`. -/
structure Tracks (c : ℕ → TraceCommand N) (carried : ℕ → ℕ) (n : ℕ) (s : Fill N) : Prop where
  untracked : ∀ k < hottestKeysToTrack, s.hottestKeysPointers k = 0 → readsSinceWrite c carried k n = 0
  tracked : ∀ k < hottestKeysToTrack, s.hottestKeysPointers k ≠ 0 → s.hottestKeysPointers k ≤ s.i ∧
    (s.ops (s.hottestKeysPointers k - 1)).opcode = .get ∧
    (s.ops (s.hottestKeysPointers k - 1)).valLen.toNat + 1 = readsSinceWrite c carried k n
  /-- Keys do not share a slot. -/
  inj : ∀ k < hottestKeysToTrack, ∀ k' < hottestKeysToTrack, s.hottestKeysPointers k ≠ 0 →
    s.hottestKeysPointers k = s.hottestKeysPointers k' → k = k'

theorem Tracks.pointer_eq_zero (h : s.Tracks c carried n) (hk : k < hottestKeysToTrack) :
    s.hottestKeysPointers k = 0 ↔ readsSinceWrite c carried k n = 0 := by
  refine ⟨h.untracked k hk, fun h0 => ?_⟩
  by_contra hp
  have := (h.tracked k hk hp).2.2
  omega

theorem Tracks.taken (h : s.Tracks c carried n) (ht : TakesSlot c carried n) :
    ((s.prepared e (c n)).taken e tagged t (c n)).Tracks c carried (n + 1) := by
  have hi : (s.prepared e (c n)).i = s.i := prepared_i s
  -- the slots that were filled before, and the pointers of the other keys, stay
  have hops (j : ℕ) (hj : j ≠ s.i) : ((s.prepared e (c n)).taken e tagged t (c n)).ops j = s.ops j := by
    exact (taken_ops_of_ne tagged t (hi ▸ hj)).trans (prepared_ops hj)
  refine ⟨fun k hk hp => ?_, fun k hk hp => ?_, fun k hk k' hk' hp he => ?_⟩
  · change (s.prepared e (c n)).hottestKeysPointers k = 0 at hp
    by_cases hkey : (c n).keyId = k
    · subst hkey
      rw [prepared_pointers hk] at hp
      cases hr : (c n).opcode.isRead with
      | false => exact readsSinceWrite_of_write hr
      | true => simp [hr] at hp
    · rw [prepared_pointers_of_ne hkey] at hp
      rw [readsSinceWrite_of_ne hkey]
      exact h.untracked k hk hp
  · change (s.prepared e (c n)).hottestKeysPointers k ≠ 0 at hp
    show (s.prepared e (c n)).hottestKeysPointers k ≤ (s.prepared e (c n)).i + 1 ∧
      (((s.prepared e (c n)).taken e tagged t (c n)).ops ((s.prepared e (c n)).hottestKeysPointers k - 1)).opcode = .get ∧
      (((s.prepared e (c n)).taken e tagged t (c n)).ops
        ((s.prepared e (c n)).hottestKeysPointers k - 1)).valLen.toNat + 1 = _
    rw [hi]
    by_cases hkey : (c n).keyId = k
    · subst hkey
      rw [prepared_pointers hk] at hp ⊢
      cases hr : (c n).opcode.isRead with
      | false => simp [hr] at hp
      | true =>
        obtain ⟨hget, hlen⟩ : _ ∧ _ := taken_read (s.prepared e (c n)) hr
        rw [hi] at hget hlen
        rw [if_pos rfl, Nat.add_sub_cancel, readsSinceWrite_of_read hr, ht ⟨hk, hr⟩, hlen]
        exact ⟨Nat.le_refl _, hget, rfl⟩
    · rw [prepared_pointers_of_ne hkey] at hp ⊢
      obtain ⟨hle, hget, hlen⟩ := h.tracked k hk hp
      rw [hops _ (by omega), readsSinceWrite_of_ne hkey]
      exact ⟨by omega, hget, hlen⟩
  · change (s.prepared e (c n)).hottestKeysPointers k ≠ 0 at hp
    change (s.prepared e (c n)).hottestKeysPointers k = (s.prepared e (c n)).hottestKeysPointers k' at he
    by_cases hkey : (c n).keyId = k
    · by_cases hkey' : (c n).keyId = k'
      · exact hkey.symm.trans hkey'
      · exfalso
        subst hkey
        rw [prepared_pointers_of_ne hkey', prepared_pointers hk] at he
        rw [prepared_pointers hk] at hp
        split at he
        · have := (h.tracked k' hk' (by omega)).1
          omega
        · next hr => exact hp (if_neg hr)
    · by_cases hkey' : (c n).keyId = k'
      · exfalso
        subst hkey'
        rw [prepared_pointers_of_ne hkey] at hp he
        rw [prepared_pointers hk'] at he
        have := (h.tracked k hk hp).1
        split at he <;> omega
      · rw [prepared_pointers_of_ne hkey] at hp he
        rw [prepared_pointers_of_ne hkey'] at he
        exact h.inj k hk k' hk' hp he

theorem Tracks.counted (h : s.Tracks c carried n) (ht : (c n).IsTracked)
    (hp : s.hottestKeysPointers (c n).keyId ≠ 0) (hlt : ¬ OneTooMany c carried n) :
    s.countRead t (s.hottestKeysPointers (c n).keyId - 1) =
        .ok (s.counted t (s.hottestKeysPointers (c n).keyId - 1)) ∧
      (s.counted t (s.hottestKeysPointers (c n).keyId - 1)).Tracks c carried (n + 1) := by
  obtain ⟨hle, hget, hlen⟩ := h.tracked _ ht.1 hp
  have hroom : (s.ops (s.hottestKeysPointers (c n).keyId - 1)).valLen.toNat < 255 := by
    have hreads : ¬ 256 ≤ readsSinceWrite c carried (c n).keyId n := fun hge => hlt ⟨ht, hge⟩
    omega
  have hadd : ((s.ops (s.hottestKeysPointers (c n).keyId - 1)).valLen + 1).toNat =
      (s.ops (s.hottestKeysPointers (c n).keyId - 1)).valLen.toNat + 1 := by
    rw [UInt8.toNat_add]
    exact Nat.mod_eq_of_lt (by simp only [UInt8.reduceToNat]; omega)
  refine ⟨by simp [countRead, hget, hroom], fun k hk hp' => ?_, fun k hk hp' => ?_, h.inj⟩
  · have hkey : (c n).keyId ≠ k := fun hkey => hp (hkey ▸ hp')
    rw [readsSinceWrite_of_ne hkey]
    exact h.untracked k hk hp'
  · by_cases hkey : (c n).keyId = k
    · subst hkey
      refine ⟨hle, ?_, ?_⟩
      · rw [← hget]
        simp [Fill.counted, Slot.opcode]
      · rw [readsSinceWrite_of_read ht.2, ← hlen, ← hadd]
        simp only [Fill.counted, update_self, Slot.valLen]
    · -- another key's slot is another slot
      have hne : s.hottestKeysPointers k - 1 ≠ s.hottestKeysPointers (c n).keyId - 1 := fun he =>
        hkey (h.inj _ ht.1 k hk hp (by have := hp'; change s.hottestKeysPointers k ≠ 0 at this; omega))
      simp only [Fill.counted, update_of_ne hne, readsSinceWrite_of_ne hkey]
      exact h.tracked k hk hp'

theorem Tracks.countRead_error (h : s.Tracks c carried n) (ht : OneTooMany c carried n)
    (hp : s.hottestKeysPointers (c n).keyId ≠ 0) :
    s.countRead t (s.hottestKeysPointers (c n).keyId - 1) = .error .tooManyReads := by
  obtain ⟨-, hget, hlen⟩ := h.tracked _ ht.1.1 hp
  have hfull : 255 ≤ (s.ops (s.hottestKeysPointers (c n).keyId - 1)).valLen.toNat := by
    have := ht.2
    omega
  simp [countRead, hget, hfull]

end Fill

/-! ## The loop -/

variable {t : Trace N}

theorem Trace.getElem?_mod (t : Trace N) (n : ℕ) : t.cmds[n % t.cmds.length]? = some (t.command n) :=
  List.getElem?_eq_getElem _

theorem Trace.advance_mod (t : Trace N) (n : ℕ) : t.advance (n % t.cmds.length) = (n + 1) % t.cmds.length := by
  have hlt := Nat.mod_lt n (List.length_pos_of_ne_nil t.ne)
  rw [← Nat.mod_add_mod]
  unfold advance
  split
  · next hnone =>
    have hend : n % t.cmds.length + 1 = t.cmds.length := by simp at hnone; omega
    rw [hend, Nat.mod_self]
  · next hsome =>
    have hin : n % t.cmds.length + 1 < t.cmds.length := by simpa using hsome
    exact (Nat.mod_eq_of_lt hin).symm

/-- The commands from a position of the trace on. -/
def Trace.commandsFrom (t : Trace N) (traceIter n : ℕ) : TraceCommand N := t.command (traceIter + n)

namespace Fill

variable {e : Env N} {tagged : ℕ → Bool} {s s₀ : Fill N} {traceIter nextOpI : ℕ}

theorem loop_add_one (s : Fill N) (n : ℕ) :
    s.loop e tagged t (n + 1) = s.loop e tagged t n >>= fun s' => s'.loop e tagged t 1 := by
  induction n generalizing s with
  | zero => rfl
  | succ n ih =>
    rw [loop, loop]
    split
    · next hi =>
      cases hc : t.cmds[s.traceIter]? with
      | none =>
        show _ = s.loop e tagged t 1
        rw [loop, if_pos hi, hc]
      | some c =>
        show (s.round e tagged t c >>= fun s' => s'.loop e tagged t (n + 1)) =
          (s.round e tagged t c >>= fun s' => s'.loop e tagged t n) >>= fun s' => s'.loop e tagged t 1
        cases s.round e tagged t c with
        | error f => rfl
        | ok s' => exact ih s'
    · next hi =>
      show _ = s.loop e tagged t 1
      rw [loop, if_neg hi]

/-- The loop goes through `n` commands and not fewer: what one round keeps, it keeps. -/
theorem loop_induct {start : ℕ} (P : ℕ → Fill N → Prop) (hstart : s₀.traceIter = start % t.cmds.length)
    (h0 : P start s₀) (hround : ∀ m s s', P m s → s.i < cacheBatchSize → s.round e tagged t (t.command m) = .ok s' → P (m + 1) s')
    {n : ℕ} (hok : s₀.loop e tagged t n = .ok s)
    (hroom : ∀ m < n, ∀ s', s₀.loop e tagged t m = .ok s' → s'.i < cacheBatchSize) :
    P (start + n) s ∧ s.traceIter = (start + n) % t.cmds.length := by
  induction n generalizing s with
  | zero =>
    cases hok
    exact ⟨h0, hstart⟩
  | succ n ih =>
    rw [loop_add_one] at hok
    obtain ⟨s₁, hs₁, hlast⟩ := bind_eq_ok.1 hok
    obtain ⟨hP, hiter⟩ := ih hs₁ fun m hm => hroom m (by omega)
    have hi := hroom n (by omega) s₁ hs₁
    rw [loop, if_pos hi, hiter, t.getElem?_mod] at hlast
    obtain ⟨s₂, hs₂, he⟩ := bind_eq_ok.1 hlast
    cases he
    refine ⟨hround _ _ _ hP hi hs₂, ?_⟩
    rw [round_traceIter hs₂, hiter, t.advance_mod, Nat.add_assoc]

/-- However long the loop is given, it goes through some number of commands. -/
theorem loop_consumes {start : ℕ} (P : ℕ → Fill N → Prop) (hstart : s₀.traceIter = start % t.cmds.length) (h0 : P start s₀)
    (hround : ∀ m s s', P m s → s.round e tagged t (t.command m) = .ok s' → P (m + 1) s') {rounds : ℕ}
    (hok : s₀.loop e tagged t rounds = .ok s) : ∃ n, P (start + n) s ∧ s.traceIter = (start + n) % t.cmds.length := by
  induction rounds generalizing s with
  | zero =>
    cases hok
    exact ⟨0, h0, hstart⟩
  | succ rounds ih =>
    rw [loop_add_one] at hok
    obtain ⟨s₁, hs₁, hlast⟩ := bind_eq_ok.1 hok
    obtain ⟨n, hP, hiter⟩ := ih hs₁
    rw [loop] at hlast
    split at hlast
    · rw [hiter, t.getElem?_mod] at hlast
      obtain ⟨s₂, hs₂, he⟩ := bind_eq_ok.1 hlast
      cases he
      refine ⟨n + 1, hround _ _ _ hP hs₂, ?_⟩
      rw [round_traceIter hs₂, hiter, t.advance_mod, Nat.add_assoc]
    · cases hlast
      exact ⟨n, hP, hiter⟩

/-- The loop has gone through `n` commands. -/
structure At (t : Trace N) (traceIter nextOpI : ℕ) (carried : ℕ → ℕ) (n : ℕ) (s : Fill N) : Prop where
  i : s.i = nextOpI + Nat.count (TakesSlot (t.commandsFrom traceIter) carried) n
  iter : s.traceIter = (traceIter + n) % t.cmds.length
  tracks : s.Tracks (t.commandsFrom traceIter) carried n

theorem At.advance (h : s.At t traceIter nextOpI carried n) :
    t.advance s.traceIter = (traceIter + (n + 1)) % t.cmds.length := by
  rw [h.iter, t.advance_mod, Nat.add_assoc]

theorem At.round (e : Env N) (tagged : ℕ → Bool) (h : s.At t traceIter nextOpI carried n)
    (hn : ¬ OneTooMany (t.commandsFrom traceIter) carried n) :
    ∃ s', s.round e tagged t (t.commandsFrom traceIter n) = .ok s' ∧ s'.At t traceIter nextOpI carried (n + 1) := by
  by_cases ht : TakesSlot (t.commandsFrom traceIter) carried n
  · refine ⟨_, round_takes fun hr => (h.tracks.pointer_eq_zero hr.1).2 (ht hr), ?_, ?_, h.tracks.taken ht⟩
    · rw [Nat.count_succ, if_pos ht, ← Nat.add_assoc, ← h.i]
      exact congrArg (· + 1) (prepared_i s)
    · refine (congrArg t.advance ?_).trans h.advance
      exact prepared_traceIter s
  · obtain ⟨hr, h0⟩ := not_forall.1 ht
    have hp := mt (h.tracks.pointer_eq_zero hr.1).1 h0
    obtain ⟨hok, htracks⟩ := h.tracks.counted (t := t) hr hp hn
    refine ⟨_, (round_counts hr hp).trans hok, ?_, h.advance, htracks⟩
    rw [Nat.count_succ, if_neg ht]
    exact h.i

theorem At.round_error (h : s.At t traceIter nextOpI carried n) (hn : OneTooMany (t.commandsFrom traceIter) carried n) :
    s.round e tagged t (t.commandsFrom traceIter n) = .error .tooManyReads := by
  have hp : s.hottestKeysPointers (t.commandsFrom traceIter n).keyId ≠ 0 := fun h0 => by
    have := h.tracks.untracked _ hn.1.1 h0
    have := hn.2
    omega
  exact (round_counts hn.1 hp).trans (h.tracks.countRead_error hn hp)

theorem At.loop_succ (h : s.At t traceIter nextOpI carried n) (hi : s.i < cacheBatchSize) (r : ℕ) :
    s.loop e tagged t (r + 1) = s.round e tagged t (t.commandsFrom traceIter n) >>= fun s' => s'.loop e tagged t r := by
  rw [loop, if_pos hi, h.iter, t.getElem?_mod]
  rfl

/-- Rounds that take no slot too many and leave room are all run. -/
theorem At.reach (e : Env N) (tagged : ℕ → Bool) (h : s₀.At t traceIter nextOpI carried 0)
    (hn : ∀ m < n, nextOpI + Nat.count (TakesSlot (t.commandsFrom traceIter) carried) m < cacheBatchSize ∧
      ¬ OneTooMany (t.commandsFrom traceIter) carried m) :
    ∃ s : Fill N, s.At t traceIter nextOpI carried n ∧ ∀ r, s₀.loop e tagged t (n + r) = s.loop e tagged t r := by
  induction n with
  | zero => exact ⟨s₀, h, fun r => by rw [Nat.zero_add]⟩
  | succ n ih =>
    obtain ⟨s, hs, hloop⟩ := ih fun m hm => hn m (by omega)
    obtain ⟨s', hround, hs'⟩ := hs.round e tagged (hn n (by omega)).2
    refine ⟨s', hs', fun r => ?_⟩
    rw [Nat.add_assoc, Nat.add_comm 1 r, hloop, hs.loop_succ (by rw [hs.i]; exact (hn n (by omega)).1), hround]
    rfl

/-- **What the loop depends on.** -/
theorem At.fills_iff (h : s₀.At t traceIter nextOpI carried 0) (hle : nextOpI ≤ cacheBatchSize)
    (hc : ∀ k < hottestKeysToTrack, carried k ≤ 256) :
    (∃ rounds s, s₀.loop e tagged t rounds = .ok s ∧ s.i = cacheBatchSize) ↔
      FullInTime (t.commandsFrom traceIter) carried nextOpI := by
  have hmono {m n : ℕ} (hmn : m ≤ n) := Nat.count_monotone (TakesSlot (t.commandsFrom traceIter) carried) hmn
  constructor
  · rintro ⟨rounds, s, hok, hi⟩ n
    -- the first command that is too much is where the loop fails
    induction n using Nat.strong_induction_on with
    | _ n ih =>
      intro hn
      by_contra hlt
      have hbefore (m : ℕ) (hm : m < n) : nextOpI + Nat.count (TakesSlot (t.commandsFrom traceIter) carried) m <
          cacheBatchSize ∧ ¬ OneTooMany (t.commandsFrom traceIter) carried m := by
        have hroom := hmono hm.le
        exact ⟨by omega, fun hmany => absurd (ih m hm hmany) (by omega)⟩
      rcases Nat.lt_or_ge n rounds with hlong | hshort
      · obtain ⟨r, rfl⟩ : ∃ r, rounds = n + (r + 1) := ⟨rounds - n - 1, by omega⟩
        obtain ⟨s', hs', hloop⟩ := h.reach e tagged hbefore
        rw [hloop, hs'.loop_succ (by rw [hs'.i]; omega), hs'.round_error hn] at hok
        cases hok
      · obtain ⟨s', hs', hloop⟩ := h.reach e tagged fun m (hm : m < rounds) => hbefore m (by omega)
        have hreturn : s₀.loop e tagged t rounds = .ok s' := hloop 0
        rw [hok] at hreturn
        cases hreturn
        have hroom := hmono hshort
        rw [hs'.i] at hi
        omega
  · intro hcond
    have hfull : ∃ n, cacheBatchSize ≤ nextOpI + Nat.count (TakesSlot (t.commandsFrom traceIter) carried) n := by
      by_contra hnone
      simp only [not_exists, not_le] at hnone
      have hpaid := le_slots_add_counts (n := 257 * 600 + 20 * 256) hc fun m _ hmany =>
        absurd (hcond m hmany) (by have := hnone m; omega)
      have hcounts : counts (t.commandsFrom traceIter) carried (257 * 600 + 20 * 256) ≤ 20 * 256 :=
        (Finset.sum_le_card_nsmul _ _ 256 fun k hk => readsSinceWrite_le (Finset.mem_range.1 hk) (hc k (Finset.mem_range.1 hk))
          fun m _ hmany => absurd (hcond m hmany) (by have := hnone m; omega)).trans (by simp [hottestKeysToTrack])
      have hslots := hnone (257 * 600 + 20 * 256)
      rw [cacheBatchSize] at hslots
      omega
    have hfind := Nat.find_spec hfull
    obtain ⟨s, hs, hloop⟩ := h.reach e tagged fun m (hm : m < Nat.find hfull) =>
      ⟨not_le.1 (Nat.find_min hfull hm), fun hmany => Nat.find_min hfull hm (hcond m hmany)⟩
    refine ⟨Nat.find hfull, s, hloop 0, ?_⟩
    -- a round fills one slot, so the batch is not overrun
    have hexact : nextOpI + Nat.count (TakesSlot (t.commandsFrom traceIter) carried) (Nat.find hfull) ≤ cacheBatchSize := by
      rcases Nat.eq_zero_or_pos (Nat.find hfull) with h0 | hpos
      · rw [h0, Nat.count_zero]
        exact hle
      · obtain ⟨m, hm⟩ := Nat.exists_eq_succ_of_ne_zero hpos.ne'
        have hlast := not_le.1 (Nat.find_min hfull (show m < Nat.find hfull by omega))
        rw [hm, Nat.succ_eq_add_one, Nat.count_succ]
        split <;> omega
    rw [hs.i]
    omega

end Fill

/-! ## A batch -/

variable {p : Protocol} {x : Slot N} {ops : ℕ → Slot N} {traceIter nextOpI : ℕ} {hottestKeysPointers : ℕ → ℕ}

theorem Left.get_of_getStall (h : Left p x) (ht : x.type = .getStall) : x.opcode = .get := by
  cases h <;> simp_all

theorem CarriedOver.check (h : CarriedOver p ops nextOpI hottestKeysPointers) : carriedOver ops nextOpI = true := by
  simp only [carriedOver, List.all_eq_true, List.mem_range]
  intro j hj
  cases h.left j hj with
  | unserved ht ho => rcases ho with ho | ho <;> simp [ht, ho]
  | getStall ht ho => simp [ht, ho]
  | putStall ht ho => simp [ht, ho]
  | brc ht ho => simp [ht, ho]

theorem carriedReads_le (p : Protocol) (ops : ℕ → Slot N) (hottestKeysPointers : ℕ → ℕ) (k : ℕ) :
    carriedReads p ops hottestKeysPointers k ≤ 256 := by
  cases p with
  | sc => exact Nat.zero_le _
  | lin =>
    have hlt := (ops (hottestKeysPointers k - 1)).valLen.toNat_lt
    simp only [carriedReads]
    split <;> omega

/-- The loop starts with the reads that were carried over. -/
theorem CarriedOver.start {e : Env N} (h : CarriedOver e.protocol ops nextOpI hottestKeysPointers)
    (hstart : traceIter < t.cmds.length) :
    (Fill.start e traceIter ops nextOpI hottestKeysPointers).At t traceIter nextOpI
      (carriedReads e.protocol ops hottestKeysPointers) 0 := by
  refine ⟨by simp [Fill.start], (Nat.mod_eq_of_lt hstart).symm, ?_⟩
  cases hp : e.protocol with
  | sc => constructor <;> simp [Fill.start, hp, readsSinceWrite, carriedReads]
  | lin =>
    rw [hp] at h
    have hptr : (Fill.start e traceIter ops nextOpI hottestKeysPointers).hottestKeysPointers = hottestKeysPointers := by
      simp [Fill.start, hp]
    constructor
    · simp only [hptr]
      intro k _ h0
      simp [readsSinceWrite, carriedReads, h0]
    · simp only [hptr]
      intro k hk h0
      obtain ⟨hle, htype, -⟩ := h.tracked rfl k hk h0
      refine ⟨hle, (h.left _ (by omega)).get_of_getStall htype, ?_⟩
      simp [readsSinceWrite, carriedReads, h0, Fill.start]
    · simp only [hptr]
      intro k hk k' hk' h0 he
      rw [← (h.tracked rfl k hk h0).2.2, he]
      exact (h.tracked rfl k' hk' (he ▸ h0)).2.2

/-- **When a batch is filled**: the loop comes to its end, with every slot filled and no assertion
failed, exactly if the batch is full before a tracked key is read once too often. -/
theorem fills_iff_fullInTime (e : Env N) (tagged : ℕ → Bool) (t : Trace N) {traceIter nextOpI : ℕ} {ops : ℕ → Slot N}
    {hottestKeysPointers : ℕ → ℕ} (hstart : traceIter < t.cmds.length)
    (h : CarriedOver e.protocol ops nextOpI hottestKeysPointers) :
    Fills e tagged t traceIter ops nextOpI hottestKeysPointers ↔
      FullInTime (t.commandsFrom traceIter) (carriedReads e.protocol ops hottestKeysPointers) nextOpI := by
  simp only [Fills, batchFromTrace, h.check, if_true]
  exact (h.start hstart).fills_iff h.le fun k _ => carriedReads_le e.protocol ops hottestKeysPointers k

end

/-! ## A trace of one command -/

/-- A client of the sequentially consistent protocol with the buffers `setup_ops` has cleared. -/
def started : Env 4 := ⟨.shipped, .sc, 0, 0, fun _ => 0⟩

def cleared : ℕ → Slot 4 := fun _ => ⟨fun _ => 0, .empty, 0⟩

theorem cleared_carriedOver : CarriedOver .sc cleared 0 fun _ => 0 :=
  ⟨Nat.zero_le _, fun _ h => absurd h (Nat.not_lt_zero _), fun h => by cases h⟩

def onlyCommand (o : TraceOpcode) (keyId : ℕ) : Trace 4 := ⟨[⟨o, 1, keyId, fun _ => 0⟩], by simp⟩

def hotCommand (o : TraceOpcode) : TraceCommand 4 := ⟨o, 1, 3, fun _ => 7⟩

theorem onlyCommand_commandsFrom (o : TraceOpcode) (keyId n : ℕ) :
    (onlyCommand o keyId).commandsFrom 0 n = ⟨o, 1, keyId, fun _ => 0⟩ := by
  simp [Trace.commandsFrom, Trace.command, onlyCommand, Nat.mod_one]

/-- A batch of cold reads. -/
theorem fills_iff_fullInTime_coldRead : Fills started (fun _ => false) (onlyCommand .remoteRead 250000) 0 cleared 0 fun _ => 0 :=
  (fills_iff_fullInTime started (fun _ => false) (onlyCommand .remoteRead 250000) (by decide) cleared_carriedOver).2
    fun n hn => absurd hn.1.1 (by rw [onlyCommand_commandsFrom]; decide)

theorem hotRead_tracked (n : ℕ) : ((onlyCommand .hotRead 0).commandsFrom 0 n).IsTracked := by
  rw [onlyCommand_commandsFrom]
  decide

theorem hotRead_reads (n : ℕ) : readsSinceWrite ((onlyCommand .hotRead 0).commandsFrom 0) (fun _ => 0) 0 n = n := by
  induction n with
  | zero => rfl
  | succ n ih => simp [readsSinceWrite, onlyCommand_commandsFrom, TraceOpcode.isRead, ih]

theorem hotRead_takesSlot (n : ℕ) : TakesSlot ((onlyCommand .hotRead 0).commandsFrom 0) (fun _ => 0) n ↔ n = 0 := by
  simp only [TakesSlot, hotRead_tracked, forall_const]
  rw [onlyCommand_commandsFrom, hotRead_reads]

theorem hotRead_count (n : ℕ) : Nat.count (TakesSlot ((onlyCommand .hotRead 0).commandsFrom 0) fun _ => 0) n ≤ 1 := by
  rw [Nat.count_eq_card_filter_range]
  refine Finset.card_le_one.2 fun a ha b hb => ?_
  rw [(hotRead_takesSlot a).1 (Finset.mem_filter.1 ha).2, (hotRead_takesSlot b).1 (Finset.mem_filter.1 hb).2]

/-- A trace that reads one of the hottest keys and nothing else: the 257th read is one too many. -/
theorem hotRead_tooManyReads : CarriedOver started.protocol cleared 0 (fun _ => 0) ∧
    batchFromTrace started (fun _ => false) (onlyCommand .hotRead 0) 257 0 cleared 0 (fun _ => 0) = .error .tooManyReads ∧
    ¬ Fills started (fun _ => false) (onlyCommand .hotRead 0) 0 cleared 0 fun _ => 0 := by
  have hstart : (Fill.start started 0 cleared 0 fun _ => 0).At (onlyCommand .hotRead 0) 0 0 (fun _ => 0) 0 :=
    cleared_carriedOver.start (e := started) (by decide)
  have hmany : OneTooMany ((onlyCommand .hotRead 0).commandsFrom 0) (fun _ => 0) 256 := by
    refine ⟨hotRead_tracked 256, ?_⟩
    rw [onlyCommand_commandsFrom, hotRead_reads]
  refine ⟨cleared_carriedOver, ?_, fun hfills => ?_⟩
  · obtain ⟨s, hs, hloop⟩ := hstart.reach started (fun _ => false) (n := 256) fun m hm =>
      ⟨by have := hotRead_count m; rw [cacheBatchSize]; omega, fun h => by
        have := h.2
        rw [onlyCommand_commandsFrom, hotRead_reads] at this
        omega⟩
    have hroom : s.i < cacheBatchSize := by
      have := hotRead_count 256
      rw [hs.i, cacheBatchSize]
      omega
    rw [batchFromTrace, if_pos cleared_carriedOver.check, hloop 1, hs.loop_succ hroom, hs.round_error hmany]
    rfl
  · simp only [Fills, batchFromTrace, cleared_carriedOver.check, if_true] at hfills
    have := (hstart.fills_iff (Nat.zero_le _) fun _ _ => Nat.zero_le _).1 hfills 256 hmany
    have := hotRead_count 256
    rw [cacheBatchSize] at *
    omega

end CcKvs.Client
