/-
Credits are conserved. For every pair of machines and every channel the two ends
are a `CreditLink`: whatever a step does, the link takes a step of its own, or
stands still. And every message received is returned once: what a machine has
received on a channel is what it holds, what it has seen, and
`CREDITS_IN_MESSAGE` for every credit message it has sent.
-/
import CcKvs.Lin.Held
import CcKvs.Lib.CreditLink

namespace CcKvs.Lin

open Function

/-! ## Credit messages -/

section

variable {N m r rm imm : ℕ} {vc vc' : Vc} {x : Forged}

theorem immData_inj (hN : 0 < N) : immData N m vc = immData N m vc' ↔ vc = vc' := by
  refine ⟨fun h => ?_, congrArg _⟩
  cases vc <;> cases vc' <;> simp only [immData] at h <;> first | rfl | omega

/-- What is read from `imm_data` is what was put there. -/
theorem ofImmData_eq_iff (hr : r < N) : ofImmData N imm = (vc, r) ↔ imm = immData N r vc := by
  unfold ofImmData
  split
  · cases vc <;> simp only [immData, Prod.mk.injEq, reduceCtorEq, false_and, true_and, false_iff] <;> omega
  · split
    · cases vc <;> simp only [immData, Prod.mk.injEq, reduceCtorEq, false_and, true_and, false_iff] <;> omega
    · cases vc <;> simp only [immData, Prod.mk.injEq, reduceCtorEq, false_and, true_and, false_iff] <;> omega

/-- Credits seen or sent for `rm'` on channel `vc`. -/
def Forged.returned (N m : ℕ) (x : Forged) (vc : Vc) (rm : ℕ) : ℕ :=
  x.1 vc rm + creditsInMessage * x.2.count (rm, immData N m vc)

/-- No counter has reached a whole message, and all messages are machine `m`'s. -/
structure Forged.Settled (N m : ℕ) (x : Forged) : Prop where
  lt : ∀ vc rm, x.1 vc rm < creditsInMessage
  own : ∀ y ∈ x.2, ∃ vc, y.2 = immData N m vc

theorem forgeOne_spec (hN : 0 < N) (rm : ℕ) (vc : Vc) (h : Forged.Settled N m x) :
    Forged.Settled N m (forgeOne N m rm x vc) ∧ ∀ vc' rm', Forged.returned N m (forgeOne N m rm x vc) vc' rm' =
      Forged.returned N m x vc' rm' + if vc' = vc ∧ rm = rm' then 1 else 0 := by
  unfold forgeOne
  simp only
  split
  · next hfull =>
    -- only the counter that was raised can be the one that is full
    have hvc : x.1 vc rm + 1 = creditsInMessage := by
      have hone (v : Vc) (hv : bump x.1 vc rm v rm = creditsInMessage) : x.1 vc rm + 1 = creditsInMessage := by
        rw [bump_apply] at hv
        split at hv
        · next he => rw [← he.1, hv]
        · exact absurd hv (h.lt v rm).ne
      rcases hfull with hv | hv | hv <;> exact hone _ hv
    have hreset (v : Vc) (s : ℕ) : update (bump x.1 vc rm) vc (update (bump x.1 vc rm vc) rm 0) v s =
        if v = vc ∧ rm = s then 0 else x.1 v s := by
      rw [table_update]
      split
      · rfl
      · next hne => rw [bump_apply, if_neg hne, Nat.add_zero]
    refine ⟨⟨fun v s => ?_, fun y hy => ?_⟩, fun v s => ?_⟩
    · show update (bump x.1 vc rm) vc (update (bump x.1 vc rm vc) rm 0) v s < _
      rw [hreset]
      split
      · exact (by decide : 0 < creditsInMessage)
      · exact h.lt v s
    · rcases List.mem_append.1 hy with hy | hy
      · exact h.own y hy
      · rw [List.mem_singleton.1 hy]
        exact ⟨vc, rfl⟩
    · show update (bump x.1 vc rm) vc (update (bump x.1 vc rm vc) rm 0) v s + creditsInMessage *
        List.count (s, immData N m v) (x.2 ++ [(rm, immData N m vc)]) = _
      have hpair : (rm, immData N m vc) = (s, immData N m v) ↔ v = vc ∧ rm = s := by
        rw [Prod.mk.injEq, immData_inj hN, and_comm, @eq_comm Vc]
      rw [hreset, List.count_append, List.count_singleton, Forged.returned]
      simp only [beq_iff_eq, hpair]
      split
      · next he =>
        rw [he.1, ← he.2, Nat.mul_add, Nat.mul_one]
        omega
      · rfl
  · next hno =>
    have hne : ∀ v, bump x.1 vc rm v rm ≠ creditsInMessage := by
      rw [not_or, not_or] at hno
      rintro (_ | _ | _)
      · exact hno.1
      · exact hno.2.1
      · exact hno.2.2
    refine ⟨⟨fun v s => ?_, h.own⟩, fun v s => ?_⟩
    · have hlt := h.lt v s
      show bump x.1 vc rm v s < _
      rw [bump_apply]
      split
      · next he =>
        have := hne v
        rw [bump_apply, if_pos ⟨he.1, rfl⟩, he.2] at this
        omega
      · exact hlt
    · show bump x.1 vc rm v s + creditsInMessage * x.2.count (s, immData N m v) =
        x.1 v s + creditsInMessage * x.2.count (s, immData N m v) + _
      rw [bump_apply]
      omega

/-- The messages `l` of machine `rm`, one after the other. -/
theorem foldl_forgeOne_spec (hN : 0 < N) (rm : ℕ) (l : List Vc) (h : Forged.Settled N m x) :
    Forged.Settled N m (l.foldl (forgeOne N m rm) x) ∧ ∀ vc' rm', Forged.returned N m (l.foldl (forgeOne N m rm) x) vc' rm' =
      Forged.returned N m x vc' rm' + if rm = rm' then l.count vc' else 0 := by
  induction l generalizing x with
  | nil => exact ⟨h, fun vc' rm' => by simp⟩
  | cons vc l ih =>
    obtain ⟨h₁, hone⟩ := forgeOne_spec hN rm vc h
    obtain ⟨h₂, hrest⟩ := ih h₁
    refine ⟨h₂, fun vc' rm' => ?_⟩
    rw [List.foldl_cons, hrest, hone, List.count_cons]
    by_cases hrm : rm = rm'
    · simp only [hrm, and_true, if_true, beq_iff_eq, @eq_comm Vc vc]
      omega
    · simp [hrm]

/-- ACKs, INVs and UPDs are each met as often as they were counted. -/
theorem count_channelOf (c : Vc → ℕ) (vc : Vc) :
    ((List.range (c .ack + c .inv + c .upd)).map (channelOf c)).count vc = c vc := by
  have hack : (List.range (c .ack)).map (channelOf c) = List.replicate (c .ack) .ack := by
    refine List.eq_replicate_iff.2 ⟨by simp, fun v hv => ?_⟩
    obtain ⟨i, hi, rfl⟩ := List.mem_map.1 hv
    exact if_pos (List.mem_range.1 hi)
  have hinv : ((List.range (c .inv)).map (c .ack + ·)).map (channelOf c) = List.replicate (c .inv) .inv := by
    refine List.eq_replicate_iff.2 ⟨by simp, fun v hv => ?_⟩
    rw [List.map_map] at hv
    obtain ⟨i, hi, rfl⟩ := List.mem_map.1 hv
    have := List.mem_range.1 hi
    exact (if_neg (by simp)).trans (if_pos (by simp only; omega))
  have hupd : ((List.range (c .upd)).map (c .ack + c .inv + ·)).map (channelOf c) = List.replicate (c .upd) .upd := by
    refine List.eq_replicate_iff.2 ⟨by simp, fun v hv => ?_⟩
    rw [List.map_map] at hv
    obtain ⟨i, hi, rfl⟩ := List.mem_map.1 hv
    exact (if_neg (by simp only; omega)).trans (if_neg (by simp only; omega))
  rw [List.range_add, List.range_add, List.map_append, List.map_append, hack, hinv, hupd]
  cases vc <;> simp [List.count_replicate]

/-- The machines `rms`, one after the other. -/
theorem foldl_forge_spec (hN : 0 < N) (count : Vc → ℕ → ℕ) (rms : List ℕ) (h : Forged.Settled N m x) :
    Forged.Settled N m (rms.foldl (fun x rm => (List.range (count .ack rm + count .inv rm + count .upd rm)).foldl
      (fun x i => forgeOne N m rm x (channelOf (count · rm) i)) x) x) ∧
    ∀ vc' rm', Forged.returned N m (rms.foldl (fun x rm => (List.range (count .ack rm + count .inv rm + count .upd rm)).foldl
      (fun x i => forgeOne N m rm x (channelOf (count · rm) i)) x) x) vc' rm' =
      Forged.returned N m x vc' rm' + rms.count rm' * count vc' rm' := by
  induction rms generalizing x with
  | nil => exact ⟨h, fun vc' rm' => by simp⟩
  | cons rm rms ih =>
    obtain ⟨h₁, hone⟩ := foldl_forgeOne_spec hN rm
      ((List.range (count .ack rm + count .inv rm + count .upd rm)).map (channelOf (count · rm))) h
    rw [List.foldl_map] at h₁ hone
    obtain ⟨h₂, hrest⟩ := ih h₁
    refine ⟨h₂, fun vc' rm' => ?_⟩
    rw [List.foldl_cons, hrest, hone, count_channelOf (count · rm), List.count_cons]
    by_cases hrm : rm = rm'
    · simp [hrm, Nat.add_mul]
      omega
    · simp [hrm]

/-- **`forge_credits_LIN`** turns what was counted into messages seen and credits sent. -/
theorem forgeCredits_spec (m : ℕ) (count : Vc → ℕ → ℕ) {seen : Vc → ℕ → ℕ} (h : ∀ vc s, seen vc s < creditsInMessage)
    (hrm : rm < N) :
    Forged.Settled N m (forgeCredits N m count seen) ∧ ∀ vc, (forgeCredits N m count seen).1 vc rm +
      creditsInMessage * (forgeCredits N m count seen).2.count (rm, immData N m vc) = seen vc rm + count vc rm := by
  obtain ⟨hs, hret⟩ := foldl_forge_spec (m := m) (x := (seen, [])) (Nat.zero_lt_of_lt hrm) count (List.range N)
    ⟨h, by simp⟩
  refine ⟨hs, fun vc => (hret vc rm).trans ?_⟩
  rw [List.count_eq_one_of_mem List.nodup_range (List.mem_range.2 hrm), Nat.one_mul]
  simp [Forged.returned]

end

/-! ## Links -/

namespace Flow

variable {N : ℕ} {f f' : Flow N} {m s r : Fin N} {vc : Vc} {n : Node} {valLen : UInt8}

/-- Messages from `s` to `r` whose room is not free: on their way, or held by `r`. -/
def unfreed (f : Flow N) (s r : Fin N) (vc : Vc) : ℕ :=
  f.net.countP (fun x => x.1 = r.val ∧ carries vc s x.2.sig) + (f.node r).held vc s

/-- The link from `s` to `r` on channel `vc`. -/
def link (f : Flow N) (s r : Fin N) (vc : Vc) : CreditLink :=
  ⟨((f.node s).credits vc r).toNat, f.unfreed s r vc, (f.node r).seen vc s, f.creditNet.count (s.val, immData N r vc)⟩

structure Conserved (f : Flow N) : Prop where
  node : ∀ m, (f.node m).Sound
  link : ∀ s r, s ≠ r → ∀ vc, (f.link s r vc).Conserved creditsInMessage creditsForEachClient

/-- The link takes a step, and the machines' buffers stay sound. -/
structure Moves (f f' : Flow N) : Prop where
  node : ∀ m, (f'.node m).Sound
  link : ∀ s r, s ≠ r → ∀ vc, CreditLink.Step creditsInMessage (f.link s r vc) (f'.link s r vc)

theorem Conserved.moves (h : f.Conserved) (hm : f.Moves f') : f'.Conserved :=
  ⟨hm.node, fun s r hne vc => (h.link s r hne vc).step (hm.link s r hne vc)⟩

theorem Conserved.seen_lt (h : f.Conserved) (r : Fin N) (vc : Vc) (s : ℕ) : (f.node r).seen vc s < creditsInMessage :=
  (h.node r).seen vc s

/-- What is the same of the machine that takes a step is the same of all. -/
theorem apply_node {β : Type} (g : Node → β) (hg : g n = g (f.node m)) (r : Fin N) :
    g (update f.node m n r) = g (f.node r) := by
  by_cases he : r = m
  · rw [he, update_self, hg]
  · rw [update_of_ne he]

theorem sound_setNode (h : f.Conserved) (hn : n.Sound) (m' : Fin N) : ((f.setNode m n).node m').Sound := by
  show (update f.node m n m').Sound
  by_cases he : m' = m
  · rw [he, update_self]
    exact hn
  · rw [update_of_ne he]
    exact h.node m'

variable {net' : Multiset (ℕ × CacheOp)}

/-- A step that only moves messages within a machine, or from the network into it. -/
theorem Conserved.moves_of_unfreed (h : f.Conserved) (hn : n.Sound) (hc : n.credits = (f.node m).credits)
    (hs : n.seen = (f.node m).seen)
    (hu : ∀ s r vc, unfreed { f.setNode m n with net := net' } s r vc = f.unfreed s r vc) :
    f.Moves { f.setNode m n with net := net' } := by
  refine ⟨sound_setNode h hn, fun s r _ vc => ?_⟩
  have hcred : ((update f.node m n s).credits vc r).toNat = ((f.node s).credits vc r).toNat :=
    apply_node (fun n => (n.credits vc r).toNat) (by rw [hc]) s
  have hseen : (update f.node m n r).seen vc s = (f.node r).seen vc s := apply_node (·.seen vc s) (by rw [hs]) r
  exact .free 0 0 hcred (hu s r vc).symm hseen (hseen.trans_lt (h.seen_lt r vc s)) rfl

theorem Conserved.moves_of_held (h : f.Conserved) (hn : n.Sound ∧ ∀ vc s, n.held vc s = (f.node m).held vc s)
    (hc : n.credits = (f.node m).credits) (hs : n.seen = (f.node m).seen) : f.Moves (f.setNode m n) :=
  h.moves_of_unfreed hn.1 hc hs fun s r vc => congrArg (_ + ·) (apply_node (·.held vc s) (hn.2 vc s) r)

/-- A message is received. -/
theorem Conserved.moves_of_poll (h : f.Conserved) {op : CacheOp} (hnet : f.net = (m.val, op) ::ₘ net')
    (hn : n.Sound ∧ ∀ vc s, n.held vc s = (f.node m).held vc s + if carries vc s op.sig then 1 else 0)
    (hc : n.credits = (f.node m).credits) (hs : n.seen = (f.node m).seen) : f.Moves { f.setNode m n with net := net' } := by
  refine h.moves_of_unfreed hn.1 hc hs fun s r vc => ?_
  show net'.countP _ + (update f.node m n r).held vc s = f.net.countP _ + _
  rw [hnet, Multiset.countP_cons]
  by_cases he : r = m
  · rw [he, update_self, hn.2]
    simp only [true_and]
    omega
  · have hne : ¬ (m.val = r.val ∧ carries vc s op.sig = true) := fun hm => he (Fin.ext hm.1.symm)
    rw [update_of_ne he, if_neg hne, Nat.add_zero]

/-- Messages `msgs` are sent, each for a credit. -/
theorem Conserved.moves_of_send (h : f.Conserved) {msgs : Multiset (ℕ × CacheOp)}
    (hn : n.Sound ∧ ∀ vc s, n.held vc s = (f.node m).held vc s) (hs : n.seen = (f.node m).seen)
    (hother : ∀ s r : Fin N, s ≠ m → ∀ vc, msgs.countP (fun x => x.1 = r.val ∧ carries vc s x.2.sig) = 0)
    (hown : ∀ r : Fin N, m ≠ r → ∀ vc,
      n.credits vc r = (f.node m).credits vc r ∧ msgs.countP (fun x => x.1 = r.val ∧ carries vc m x.2.sig) = 0 ∨
      ((f.node m).credits vc r).toNat = (n.credits vc r).toNat + 1 ∧
        msgs.countP (fun x => x.1 = r.val ∧ carries vc m x.2.sig) = 1) :
    f.Moves { f.setNode m n with net := msgs + f.net } := by
  refine ⟨sound_setNode h hn.1, fun s r hne vc => ?_⟩
  have hheld : (update f.node m n r).held vc s = (f.node r).held vc s := apply_node (·.held vc s) (hn.2 vc s) r
  have hseen : (update f.node m n r).seen vc s = (f.node r).seen vc s := apply_node (·.seen vc s) (by rw [hs]) r
  have hun : unfreed { f.setNode m n with net := msgs + f.net } s r vc =
      f.unfreed s r vc + msgs.countP fun x => x.1 = r.val ∧ carries vc s x.2.sig := by
    show (msgs + f.net).countP _ + (update f.node m n r).held vc s = f.net.countP _ + _ + _
    rw [Multiset.countP_add, hheld]
    omega
  have hstay (hcred : (update f.node m n s).credits vc r = (f.node s).credits vc r)
      (hzero : msgs.countP (fun x => x.1 = r.val ∧ carries vc s x.2.sig) = 0) :
      CreditLink.Step creditsInMessage (f.link s r vc) (Flow.link { f.setNode m n with net := msgs + f.net } s r vc) := by
    rw [hzero, Nat.add_zero] at hun
    exact .free 0 0 (congrArg UInt8.toNat hcred) hun.symm hseen (hseen.trans_lt (h.seen_lt r vc s)) rfl
  by_cases he : s = m
  · subst he
    rcases hown r hne vc with ⟨hcred, hzero⟩ | ⟨hcred, hone⟩
    · exact hstay (by rw [update_self, hcred]) hzero
    · refine .send ?_ (hun.trans (by rw [hone]; rfl)) hseen rfl
      show _ = ((update f.node s n s).credits vc r).toNat + 1
      rw [update_self]
      exact hcred
  · exact hstay (by rw [update_of_ne he]) (hother s r he vc)

/-! ## Steps -/

theorem carries_outgoing (hN : N ≤ 256) {oc : Opcode} {v : Vc} (hv : Vc.ofOpcode oc = some v) (op : CacheOp) :
    carries vc s (outgoing m oc op).sig = true ↔ vc = v ∧ s = m := by
  have hcid : (outgoing m oc op).keyMeta.cid.toNat = m := toNat_ofNat_fin hN
  rw [carries_iff, CacheOp.sig, hcid, show Vc.ofOpcode (outgoing m oc op).opcode = some v from hv, Option.some.injEq,
    @eq_comm Vc, Fin.val_inj, @eq_comm _ m]

/-- A broadcast sends one message to every other machine. -/
theorem countP_toOthers (P : CacheOp → Bool) (op : CacheOp) :
    (toOthers m op).countP (fun x => x.1 = r.val ∧ P x.2) = if m ≠ r ∧ P op then 1 else 0 := by
  have hcard : (toOthers m op).countP (fun x => x.1 = r.val ∧ P x.2) =
      ((Finset.univ.erase m).filter fun d => d.val = r.val ∧ P op).card := by
    rw [toOthers, Multiset.countP_map]
    rfl
  rw [hcard]
  split
  · next hp =>
    refine Finset.card_eq_one.2 ⟨r, Finset.ext fun d => ?_⟩
    simp only [Finset.mem_filter, Finset.mem_erase, Finset.mem_univ, and_true, Fin.val_inj, Finset.mem_singleton, hp.2]
    exact ⟨fun h => h.2, fun h => ⟨h ▸ hp.1.symm, h⟩⟩
  · next hp =>
    refine Finset.card_eq_zero.2 (Finset.filter_eq_empty_iff.2 fun d hd hdr => hp ⟨?_, hdr.2⟩)
    rw [← Fin.ext hdr.1]
    exact (Finset.ne_of_mem_erase hd).symm

/-- A credit that is there can be spent. -/
theorem toNat_pred {c : UInt8} (hc : c ≠ 0) : c.toNat = (c - 1).toNat + 1 := by
  have hne : c.toNat ≠ 0 := fun h => hc (UInt8.toNat_inj.1 h)
  have hlt := c.toNat_lt
  rw [UInt8.toNat_sub]
  show _ = (2 ^ 8 - 1 + c.toNat) % 2 ^ 8 + 1
  omega

/-- A broadcast on channel `v`, by a machine with a credit for every other one. -/
theorem Conserved.moves_of_bcast (hN : N ≤ 256) (h : f.Conserved) {oc : Opcode} {v : Vc} (hv : Vc.ofOpcode oc = some v)
    (op : CacheOp) (hn : n.Sound ∧ ∀ vc s, n.held vc s = (f.node m).held vc s) (hs : n.seen = (f.node m).seen)
    (hc : n.credits = (f.node m).credits) (he : (f.node m).EnoughCredits m v) :
    f.Moves { f.setNode m (n.spendAll N v) with net := toOthers m (outgoing m oc op) + f.net } := by
  refine h.moves_of_send ⟨⟨hn.1.ring, hn.1.size, hn.1.room, hn.1.seen⟩, fun vc s => (n.spendAll_held v vc s).trans (hn.2 vc s)⟩
    hs (fun s r hsm vc => ?_) fun r hr vc => ?_
  · rw [countP_toOthers fun x => carries vc s x.sig, if_neg]
    rw [carries_outgoing hN hv]
    exact fun hb => hsm hb.2.2
  · have hcount : (toOthers m (outgoing m oc op)).countP (fun x => x.1 = r.val ∧ carries vc m x.2.sig) =
        if vc = v then 1 else 0 := by
      rw [countP_toOthers fun x => carries vc m x.sig]
      simp only [carries_outgoing hN hv, hr, ne_eq, not_false_eq_true, and_true, true_and]
    by_cases hvc : vc = v
    · subst hvc
      refine .inr ⟨?_, by rw [hcount, if_pos rfl]⟩
      have hspent : (n.spendAll N vc).credits vc r = (f.node m).credits vc r - 1 := by
        simp [Node.spendAll, hc]
      rw [hspent]
      exact toNat_pred (he r hr.symm)
    · refine .inl ⟨?_, by rw [hcount, if_neg hvc]⟩
      simp [Node.spendAll, hvc, hc]

theorem Conserved.moves_of_sendAck (hN : N ≤ 256) (h : f.Conserved) {i : ℕ} (hi : i < bcastToCacheBatch)
    (hb : ((f.node m).invToSendOps i).opcode = .brc)
    (hc : (f.node m).credits .ack ((f.node m).invToSendOps i).keyMeta.cid.toNat ≠ 0) :
    f.Moves { f.setNode m ((f.node m).sendAck m i) with
      net := (((f.node m).invToSendOps i).keyMeta.cid.toNat, outgoing m .ack ((f.node m).invToSendOps i)) ::ₘ f.net } := by
  rw [← Multiset.singleton_add]
  refine h.moves_of_send ((h.node m).sendAck hi hb) rfl (fun s r hsm vc => ?_) fun r hr vc => ?_
  · rw [Multiset.countP_eq_zero]
    rintro x hx ⟨-, hcar⟩
    rw [Multiset.mem_singleton.1 hx, carries_outgoing hN rfl] at hcar
    exact hsm hcar.2
  · have hcount : Multiset.countP (fun x => x.1 = r.val ∧ carries vc m x.2.sig)
        {(((f.node m).invToSendOps i).keyMeta.cid.toNat, outgoing m .ack ((f.node m).invToSendOps i))} =
        if vc = .ack ∧ ((f.node m).invToSendOps i).keyMeta.cid.toNat = r then 1 else 0 := by
      rw [← Multiset.cons_zero, Multiset.countP_cons, Multiset.countP_zero, Nat.zero_add]
      simp only [carries_outgoing hN (show Vc.ofOpcode .ack = some .ack from rfl), and_true, and_comm (a := _ = r.val)]
    have hcred : ((f.node m).sendAck m i).credits vc r =
        if vc = .ack ∧ ((f.node m).invToSendOps i).keyMeta.cid.toNat = r then (f.node m).credits vc r - 1
        else (f.node m).credits vc r := by
      refine (table_update _ _ _ _ _ _).trans ?_
      split
      · next he => rw [he.1, he.2]
      · rfl
    rw [hcount, hcred]
    split
    · next he =>
      refine .inr ⟨toNat_pred ?_, rfl⟩
      rwa [he.1, ← he.2]
    · exact .inl ⟨rfl, rfl⟩

theorem count_coe (l : List (ℕ × ℕ)) (a : ℕ × ℕ) : (l : Multiset (ℕ × ℕ)).count a = l.count a :=
  (Multiset.coe_count a l).trans (List.countP_congr fun x _ => by simp)

/-- What was counted is turned over, and credits are sent to the machines it came from. -/
theorem Conserved.moves_of_sendCredits (h : f.Conserved) {x : Forged}
    (hx : forgeCredits N m (f.node m).cohMessageCount (f.node m).seen = x) :
    f.Moves { f.setNode m ((f.node m).sendCredits x) with creditNet := ↑x.2 + f.creditNet } := by
  have hspec (s : Fin N) := forgeCredits_spec m (f.node m).cohMessageCount (h.node m).seen s.isLt
  rw [hx] at hspec
  have hsound := h.node m
  refine ⟨sound_setNode h ⟨hsound.ring, hsound.size, hsound.room, (hspec m).1.lt⟩, fun s r hne vc => ?_⟩
  have hcred : (update f.node m ((f.node m).sendCredits x) s).credits vc r = (f.node s).credits vc r :=
    apply_node (n := (f.node m).sendCredits x) (·.credits vc r) rfl s
  by_cases he : r = m
  · subst he
    refine .free ((f.node r).cohMessageCount vc s) (x.2.count (s.val, immData N r vc)) (congrArg UInt8.toNat hcred) ?_ ?_ ?_ ?_
    · have hheld := (f.node r).sendCredits_held x vc s
      show f.net.countP _ + _ = f.net.countP _ + (update f.node r _ r).held vc s + _
      rw [update_self, ← hheld]
      omega
    · show (update f.node r _ r).seen vc s + _ = _
      rw [update_self]
      exact (hspec s).2 vc
    · show (update f.node r _ r).seen vc s < _
      rw [update_self]
      exact (hspec s).1.lt vc s
    · show Multiset.count _ ((x.2 : Multiset (ℕ × ℕ)) + f.creditNet) = _
      rw [Multiset.count_add, count_coe, Nat.add_comm]
      rfl
  · have hnone : x.2.count (s.val, immData N r vc) = 0 := by
      refine List.count_eq_zero_of_not_mem fun hin => he ?_
      obtain ⟨vc', hvc'⟩ := (hspec s).1.own _ hin
      have hpair : (vc, r.val) = (vc', m.val) :=
        ((ofImmData_eq_iff r.isLt).2 rfl).symm.trans ((ofImmData_eq_iff m.isLt).2 hvc')
      exact Fin.ext (Prod.mk.inj hpair).2
    refine .free 0 0 (congrArg UInt8.toNat hcred) ?_ ?_ ?_ ?_
    · show _ = f.net.countP _ + (update f.node m _ r).held vc s
      rw [update_of_ne he]
      rfl
    · show (update f.node m _ r).seen vc s = _
      rw [update_of_ne he]
      rfl
    · show (update f.node m _ r).seen vc s < _
      rw [update_of_ne he]
      exact h.seen_lt r vc s
    · show Multiset.count _ ((x.2 : Multiset (ℕ × ℕ)) + f.creditNet) = _
      rw [Multiset.count_add, count_coe, hnone, Nat.zero_add]
      rfl

theorem receiveCredits_credits (n : Node) (imm : ℕ) (vc : Vc) (r : ℕ) : (n.receiveCredits N imm).credits vc r =
    if ofImmData N imm = (vc, r) then n.credits vc r + .ofNat creditsInMessage else n.credits vc r := by
  unfold Node.receiveCredits
  obtain ⟨v, j⟩ := ofImmData N imm
  simp only [table_update, Prod.mk.injEq, @eq_comm Vc vc]
  split
  · next he => rw [he.1, he.2]
  · rfl

theorem Conserved.moves_of_receiveCredits (h : f.Conserved) {imm : ℕ} {cn} (hcn : f.creditNet = (m.val, imm) ::ₘ cn) :
    f.Moves { f.setNode m ((f.node m).receiveCredits N imm) with creditNet := cn } := by
  have hsound := h.node m
  refine ⟨sound_setNode h ⟨hsound.ring, hsound.size, hsound.room, hsound.seen⟩, fun s r hne vc => ?_⟩
  have hcount : f.creditNet.count (s.val, immData N r vc) =
      cn.count (s.val, immData N r vc) + if s = m ∧ ofImmData N imm = (vc, r.val) then 1 else 0 := by
    rw [hcn, Multiset.count_cons]
    simp only [Prod.mk.injEq, Fin.val_inj, ofImmData_eq_iff r.isLt, @eq_comm _ imm]
  have hheld : (update f.node m ((f.node m).receiveCredits N imm) r).held vc s = (f.node r).held vc s :=
    apply_node (·.held vc s) (Node.receiveCredits_held _ _ _ _) r
  have hseen : (update f.node m ((f.node m).receiveCredits N imm) r).seen vc s = (f.node r).seen vc s :=
    apply_node (n := (f.node m).receiveCredits N imm) (·.seen vc s) rfl r
  have hcred (hs : s = m) : (update f.node m ((f.node m).receiveCredits N imm) s).credits vc r =
      if ofImmData N imm = (vc, r.val) then (f.node s).credits vc r + .ofNat creditsInMessage else (f.node s).credits vc r := by
    rw [hs, update_self, receiveCredits_credits]
  by_cases hmatch : s = m ∧ ofImmData N imm = (vc, r.val)
  · rw [if_pos hmatch] at hcount
    refine .receive ?_ (congrArg (f.net.countP _ + ·) hheld) hseen hcount
    -- the credits in flight are part of the total, so that the counter does not overflow
    have hle := (h.link s r hne vc).credits_le
    have hlt : ((f.node s).credits vc r).toNat + creditsInMessage * f.creditNet.count (s.val, immData N r vc) ≤
      creditsForEachClient := hle
    rw [hcount] at hlt
    show ((update f.node m _ s).credits vc r).toNat = ((f.node s).credits vc r).toNat + creditsInMessage
    rw [hcred hmatch.1, if_pos hmatch.2, UInt8.toNat_add]
    show (_ + creditsInMessage) % 2 ^ 8 = _
    unfold creditsInMessage creditsForEachClient at *
    omega
  · rw [if_neg hmatch, Nat.add_zero] at hcount
    have hsame : (update f.node m ((f.node m).receiveCredits N imm) s).credits vc r = (f.node s).credits vc r := by
      by_cases hs : s = m
      · rw [hcred hs, if_neg fun hi => hmatch ⟨hs, hi⟩]
      · rw [update_of_ne hs]
    exact .free 0 0 (congrArg UInt8.toNat hsame) (congrArg (f.net.countP _ + ·) hheld).symm hseen
      (hseen.trans_lt (h.seen_lt r vc s)) hcount.symm

/-- **Every step is a step of every link.** -/
theorem Conserved.moves_of_step (hN : N ≤ 256) (h : f.Conserved) {e} (hst : Step valLen f e f') : f.Moves f' := by
  cases hst with
  | bcastInv m op he => exact h.moves_of_bcast hN rfl op ⟨h.node m, fun _ _ => rfl⟩ rfl rfl he
  | bcastUpd m hpos he => exact h.moves_of_bcast hN rfl _ ((h.node m).forgeUpd hpos) rfl rfl he
  | pollUpdate d op vc r hnet hk _ _ _ hp => exact h.moves_of_poll hnet ((h.node d).pollUpdate hp hk) rfl rfl
  | pollInv d op r hnet hk _ hp hfull => exact h.moves_of_poll hnet ((h.node d).pollInv hk hp.1 hfull) rfl rfl
  | serveUpdate m cache cache' op' resp' hlt hok =>
    exact h.moves_of_held ((h.node m).serveUpdate hlt (serve_sig hok)) rfl rfl
  | keepUpdate m n _ hlt hok =>
    obtain ⟨c, -, he⟩ := bind_eq_ok.1 hok
    exact h.moves_of_held ((h.node m).keepUpdate hlt hok) (by cases he; rfl) (by cases he; rfl)
  | nextUpdates m he => exact h.moves_of_held ((h.node m).nextUpdates he) rfl rfl
  | serveInv m cache cache' op op' resp resp' l hl hok =>
    exact h.moves_of_held ((h.node m).serveInv hl (serve_small_cid hok)) rfl rfl
  | keepInv m op type l _ hl =>
    refine h.moves_of_held ((h.node m).keepInv hl) ?_ ?_ <;> · unfold Node.invsBookkeeping; split <;> rfl
  | sendAck m i hi hb hc => exact h.moves_of_sendAck hN hi hb hc
  | sendCredits m x hx => exact h.moves_of_sendCredits hx
  | receiveCredits d imm r hcn => exact h.moves_of_receiveCredits hcn

theorem Init.polled (h : f.Init) (m : Fin N) : (f.node m).client.polled = [] := by
  simp [Client.polled, (h.client m).1]

theorem Init.slotsWith (h : f.Init) (m : Fin N) {P : CacheOp → Prop} [DecidablePred P] (hP : ∀ op, P op → op.opcode = .brc) :
    slotsWith P (f.node m).invToSendOps = 0 :=
  Finset.card_eq_zero.2 (Finset.filter_eq_empty_iff.2 fun i _ hi => h.invToSend m i (hP _ hi))

theorem Init.held (h : f.Init) (m : Fin N) (vc : Vc) (s : ℕ) : (f.node m).held vc s = 0 := by
  have hq : (f.node m).client.queued = [] := by simp [Client.queued, (h.client m).2.2.2.2.2.2]
  have hi : (f.node m).invSenders = [] := by simp [Node.invSenders, h.invOps m]
  have hm : (f.node m).marked s = 0 := h.slotsWith m fun _ hop => hop.1
  have hw : (f.node m).waiting vc s = 0 := by cases vc <;> simp [Node.waiting, hq, hi, hm]
  rw [Node.held, h.polled, hw, h.cohMessageCount]
  rfl

theorem Conserved.init (h : f.Init) : f.Conserved := by
  refine ⟨fun m => ⟨?_, ?_, ?_, fun vc s => ?_⟩, fun s r _ vc => ⟨?_, ?_⟩⟩
  · obtain ⟨hu, hs, hk, ha, hpush, hpop, hsize⟩ := h.client m
    refine ⟨by omega, by rw [hpop]; decide, by rw [hpush, hpop, hsize]; rfl, ?_, fun _ => ?_, ?_⟩
    · rw [hsize, h.polled]
      decide
    · rw [ha, h.polled]
      rfl
    · rw [h.polled]
      simp
  · rw [h.invSize, h.slotsWith m fun _ hop => hop]
  · rw [h.invSize, (h.invOps m).1, (h.invOps m).2]
    decide
  · rw [h.seen]
    decide
  · show ((f.node s).credits vc r).toNat + (f.net.countP _ + (f.node r).held vc s) + (f.node r).seen vc s +
      creditsInMessage * f.creditNet.count _ = _
    rw [h.credits s vc r r.isLt, h.net, h.creditNet, h.seen, h.held, Multiset.countP_zero, Multiset.count_zero]
    rfl
  · show (f.node r).seen vc s < _
    rw [h.seen]
    decide

theorem conserved_of_run {f₀ : Flow N} {es} (hN : N ≤ 256) (h : (flow N valLen).Run f₀ es f) : f.Conserved :=
  h.invariant (fun _ f => f.Conserved) Conserved.init fun _ hi hst => hi.moves (hi.moves_of_step hN hst)

/-! ## Every message is credited once -/

end Flow

namespace FlowEvent

variable {N : ℕ}

/-- Messages of `s` on channel `vc` that `r` receives. -/
def received (r : Fin N) (vc : Vc) (s : ℕ) : FlowEvent N → ℕ
  | .receive d v c => if d = r ∧ v = vc ∧ c = s then 1 else 0
  | _ => 0

/-- Credit messages for channel `vc` that `r` sends to `s`. -/
def returned (r : Fin N) (vc : Vc) (s : ℕ) : FlowEvent N → ℕ
  | .credits m msgs => if m = r then msgs.count (s, immData N r vc) else 0
  | _ => 0

end FlowEvent

namespace Flow

variable {N : ℕ} {f f' : Flow N} {m s r : Fin N} {vc : Vc} {n : Node} {valLen : UInt8} {e : FlowEvent N}

/-- Messages received by `r` and not returned as credits. -/
def owed (f : Flow N) (r : Fin N) (vc : Vc) (s : ℕ) : ℕ := (f.node r).held vc s + (f.node r).seen vc s

/-- What a step does to the messages that `r` has received: there is one more, or none; or those
counted are turned over and credits sent for them. -/
inductive Account (e : FlowEvent N) (r : Fin N) (n n' : Node) : Prop
  | held : (∀ vc s, n'.held vc s = n.held vc s + e.received r vc s) → n'.seen = n.seen →
      (∀ vc s, e.returned r vc s = 0) → Account e r n n'
  | credits (msgs : List (ℕ × ℕ)) : e = .credits r msgs → forgeCredits N r n.cohMessageCount n.seen = (n'.seen, msgs) →
      (∀ vc s, n'.held vc s + n.cohMessageCount vc s = n.held vc s) → Account e r n n'

/-- A step changes one machine. -/
theorem account_setNode (h : ∀ m, (f.node m).Sound) (hf : f'.node = update f.node m n)
    (hn : n.Sound ∧ Account e m (f.node m) n)
    (hother : ∀ r, r ≠ m → ∀ vc s, e.received r vc s = 0 ∧ e.returned r vc s = 0) (r : Fin N) :
    (f'.node r).Sound ∧ Account e r (f.node r) (f'.node r) := by
  rw [hf]
  by_cases he : r = m
  · rw [he, update_self]
    exact hn
  · rw [update_of_ne he]
    exact ⟨h r, .held (fun vc s => by rw [(hother r he vc s).1, Nat.add_zero]) rfl fun vc s => (hother r he vc s).2⟩

/-- A step without a message received or credits sent. -/
theorem account_tau (h : ∀ m, (f.node m).Sound) (hf : f'.node = update f.node m n)
    (hn : n.Sound ∧ ∀ vc s, n.held vc s = (f.node m).held vc s) (hs : n.seen = (f.node m).seen) (r : Fin N) :
    (f'.node r).Sound ∧ Account .tau r (f.node r) (f'.node r) :=
  account_setNode h hf ⟨hn.1, .held (fun vc s => (hn.2 vc s).trans (Nat.add_zero _).symm) hs fun _ _ => rfl⟩
    (fun _ _ _ _ => ⟨rfl, rfl⟩) r

theorem account_poll (h : ∀ m, (f.node m).Sound) {op : CacheOp} {v : Vc} (hv : Vc.ofOpcode op.opcode = some v)
    (hf : f'.node = update f.node m n)
    (hn : n.Sound ∧ ∀ vc s, n.held vc s = (f.node m).held vc s + if carries vc s op.sig then 1 else 0)
    (hs : n.seen = (f.node m).seen) (r : Fin N) : (f'.node r).Sound ∧
      Account (.receive m v op.keyMeta.cid.toNat) r (f.node r) (f'.node r) := by
  refine account_setNode h hf ⟨hn.1, .held (fun vc s => ?_) hs fun _ _ => rfl⟩ (fun r he vc s => ⟨?_, rfl⟩) r
  · rw [hn.2, ite_carries hv]
    simp only [FlowEvent.received, true_and, @eq_comm Vc v]
  · exact if_neg fun hb => he hb.1.symm

/-- **What a step does to the messages received.** -/
theorem Step.account (h : ∀ m, (f.node m).Sound) (hst : Step valLen f e f') (r : Fin N) :
    (f'.node r).Sound ∧ Account e r (f.node r) (f'.node r) := by
  cases hst with
  | bcastInv m op he => exact account_tau h rfl ((h m).spendAll N .inv) rfl r
  | bcastUpd m hpos he =>
    obtain ⟨hm, hforge⟩ := (h m).forgeUpd (m := m) hpos
    obtain ⟨hsound, hspend⟩ := hm.spendAll N .upd
    exact account_tau h rfl ⟨hsound, fun vc s => (hspend vc s).trans (hforge vc s)⟩ rfl r
  | pollUpdate d op v net hnet hk hv _ _ hp => exact account_poll h hv rfl ((h d).pollUpdate hp hk) rfl r
  | pollInv d op net hnet hk _ hp hfull => exact account_poll h (by rw [hk]; rfl) rfl ((h d).pollInv hk hp.1 hfull) rfl r
  | serveUpdate m cache cache' op' resp' hlt hok => exact account_tau h rfl ((h m).serveUpdate hlt (serve_sig hok)) rfl r
  | keepUpdate m n _ hlt hok =>
    obtain ⟨c, -, he⟩ := bind_eq_ok.1 hok
    exact account_tau h rfl ((h m).keepUpdate hlt hok) (by cases he; rfl) r
  | nextUpdates m he => exact account_tau h rfl ((h m).nextUpdates he) rfl r
  | serveInv m cache cache' op op' resp resp' l hl hok =>
    exact account_tau h rfl ((h m).serveInv hl (serve_small_cid hok)) rfl r
  | keepInv m op type l _ hl =>
    refine account_tau h rfl ((h m).keepInv hl) ?_ r
    unfold Node.invsBookkeeping
    split <;> rfl
  | sendAck m i hi hb hc => exact account_tau h rfl ((h m).sendAck hi hb) rfl r
  | sendCredits m x hx =>
    have hm := h m
    have hlt := (forgeCredits_spec m (f.node m).cohMessageCount hm.seen m.isLt).1.lt
    rw [hx] at hlt
    have hsound : ((f.node m).sendCredits x).Sound := ⟨hm.ring, hm.size, hm.room, hlt⟩
    exact account_setNode h rfl ⟨hsound, .credits x.2 rfl hx ((f.node m).sendCredits_held x)⟩
      (fun r he vc s => ⟨rfl, if_neg fun hb => he hb.symm⟩) r
  | receiveCredits d imm net hcn => exact account_tau h rfl ((h d).receiveCredits N imm) rfl r

/-- The buffers stay sound with any number of machines. -/
theorem sound_of_run {f₀ : Flow N} {es} (h : (flow N valLen).Run f₀ es f) (m : Fin N) : (f.node m).Sound :=
  h.invariant (fun _ f => ∀ m, (f.node m).Sound) (fun h₀ => (Conserved.init h₀).node)
    (fun _ hi hst m => (hst.account hi m).1) m

/-- What a step adds to what is owed, and what it returns. -/
theorem Account.owed (ha : Account e r (f.node r) (f'.node r)) (hs : ∀ vc s, (f.node r).seen vc s < creditsInMessage) (vc : Vc)
    (s : Fin N) : f'.owed r vc s + creditsInMessage * e.returned r vc s = f.owed r vc s + e.received r vc s := by
  cases ha with
  | held hheld hseen hret =>
    rw [Flow.owed, Flow.owed, hheld, hseen, hret]
    omega
  | credits msgs he hx hheld =>
    have hspec := (forgeCredits_spec r (f.node r).cohMessageCount hs s.isLt).2 vc
    have hcount := hheld vc s
    rw [hx] at hspec
    dsimp only at hspec
    rw [he, show FlowEvent.returned r vc s (.credits r msgs) = msgs.count (s.val, immData N r vc) from if_pos rfl,
      show FlowEvent.received r vc s (.credits r msgs) = 0 from rfl, Flow.owed, Flow.owed]
    omega

/-- Messages of `s` on channel `vc` that `r` has received. -/
def received (es : List (FlowEvent N)) (r : Fin N) (vc : Vc) (s : ℕ) : ℕ := (es.map (·.received r vc s)).sum

/-- Credit messages for channel `vc` that `r` has sent to `s`. -/
def returned (es : List (FlowEvent N)) (r : Fin N) (vc : Vc) (s : ℕ) : ℕ := (es.map (·.returned r vc s)).sum

theorem owed_of_run {f₀ : Flow N} {es} (h : (flow N valLen).Run f₀ es f) (r s : Fin N) (vc : Vc) :
    f.owed r vc s + creditsInMessage * returned es r vc s = received es r vc s := by
  refine h.invariant (fun es f => f.owed r vc s + creditsInMessage * returned es r vc s = received es r vc s) (fun h₀ => ?_)
    fun hr hi hst => ?_
  · rw [owed, h₀.held, h₀.seen]
    rfl
  · have hsound := sound_of_run hr
    have hstep := (hst.account hsound r).2.owed (hsound r).seen vc s
    simp only [received, returned, List.map_append, List.sum_append, List.map_cons, List.map_nil, List.sum_singleton,
      Nat.mul_add] at hi ⊢
    omega

/-- **Credits are conserved.** For every pair of machines and every channel, the sender's credits,
its messages that take room at the receiver or are on their way, the messages seen, and the
credits in flight add up; no counter is past a whole message; each step is one of the link, so
that no credit counter over- or underflows; and what was received is held, seen or returned. -/
theorem credits_conserved {f₀ : Flow N} {es} (hN : N ≤ 256) (h : (flow N valLen).Run f₀ es f) (hne : s ≠ r) (vc : Vc) :
    ((f.node s).credits vc r).toNat + f.unfreed s r vc + (f.node r).seen vc s +
        creditsInMessage * f.creditNet.count (s.val, immData N r vc) = creditsForEachClient ∧
      (f.node r).seen vc s < creditsInMessage ∧ f.unfreed s r vc ≤ creditsForEachClient ∧
      (∀ e f', Step valLen f e f' → CreditLink.Step creditsInMessage (f.link s r vc) (f'.link s r vc)) ∧
      received es r vc s = (f.node r).held vc s + (f.node r).seen vc s + creditsInMessage * returned es r vc s := by
  have hc := conserved_of_run hN h
  have hlink := hc.link s r hne vc
  exact ⟨hlink.sum, hlink.seen_lt, hlink.unfreed_le, fun e f' hst => (hc.moves_of_step hN hst).link s r hne vc,
    (owed_of_run h r s vc).symm⟩

/-! Two machines. Machine 0 broadcasts an INV for a key that machine 1 does not have, so that its
room is free at once. -/

def blank : CacheOp := ⟨⟨.valid, 0, 0, 0, 0⟩, 7, .get, 32, fun _ => 0⟩

def quiet : Flow 2 where
  node _ :=
    { client :=
        { updateOps := fun _ => blank
          updateResp := fun _ => ⟨.empty, 0, .none⟩
          updateOpsI := 0, served := 0, kept := 0, ackOpsI := 0
          ackBcastOps := fun _ => blank
          ackPushPtr := 0, ackPopPtr := 0, ackSize := 0 }
      invOps := [], invServed := []
      invToSendOps := fun _ => blank
      invPushPtr := 0, invSize := 0
      cohMessageCount := fun _ _ => 0
      credits := fun _ _ => 60
      seen := fun _ _ => 0 }
  net := 0
  creditNet := 0

theorem quiet_init : quiet.Init :=
  ⟨fun _ => ⟨rfl, rfl, rfl, rfl, rfl, rfl, rfl⟩, fun _ => ⟨rfl, rfl⟩, fun _ _ => show blank.opcode ≠ .brc by decide, fun _ => rfl,
    fun _ _ _ => rfl, fun _ _ _ _ => rfl, fun _ _ _ => rfl, rfl, rfl⟩

theorem credits_conserved_one_inv : ∃ es f, (flow 2 32).Run quiet es f ∧ received es 1 .inv 0 = 1 ∧
    (((f.node 0).credits .inv (1 : Fin 2)).toNat + f.unfreed 0 1 .inv + (f.node 1).seen .inv (0 : Fin 2) +
        creditsInMessage * f.creditNet.count ((0 : Fin 2).val, immData 2 (1 : Fin 2) .inv) = creditsForEachClient ∧
      (f.node 1).seen .inv (0 : Fin 2) < creditsInMessage ∧ f.unfreed 0 1 .inv ≤ creditsForEachClient ∧
      (∀ e f', Step 32 f e f' → CreditLink.Step creditsInMessage (f.link 0 1 .inv) (f'.link 0 1 .inv)) ∧
      received es 1 .inv (0 : Fin 2) =
        (f.node 1).held .inv (0 : Fin 2) + (f.node 1).seen .inv (0 : Fin 2) + creditsInMessage * returned es 1 .inv (0 : Fin 2)) := by
  have h₀ : (flow 2 32).Run quiet [] quiet := .nil quiet_init
  have h₁ := h₀.snoc (.bcastInv 0 blank fun _ _ => show (60 : UInt8) ≠ 0 by decide)
  have hnet : toOthers (0 : Fin 2) (outgoing (0 : Fin 2) .inv blank) + (0 : Multiset (ℕ × CacheOp)) =
      ((1 : Fin 2).val, outgoing (0 : Fin 2) .inv blank) ::ₘ 0 := rfl
  have h₂ := h₁.snoc (.pollInv 1 (outgoing (0 : Fin 2) .inv blank) 0 hnet rfl (by decide) ⟨rfl, rfl, by decide⟩ (by decide))
  have h₃ := h₂.snoc (.serveInv 1 (fun _ => .none) _ _ _ ⟨.empty, 0, .none⟩ _ [] rfl rfl)
  have h₄ := h₃.snoc (.keepInv 1 _ _ [] rfl rfl)
  have h₅ := h₄.snoc (.sendCredits 1 _ rfl)
  exact ⟨_, _, h₅, rfl, credits_conserved (s := 0) (r := 1) (by decide) h₅ (by decide) .inv⟩

end Flow

end CcKvs.Lin
