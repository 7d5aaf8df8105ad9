/-
The buffers of flow control are large enough. A call of `forge_credits_LIN`
writes at most `MAX_CREDIT_WRS` credit messages: as long as the machines can be
told apart by their `cid`, the credits of a link are all there are, and with more
machines than that an iteration does not free enough messages. The receives
posted for them go to slots of `incoming_reqs` that were polled, because every
credit stands for a message that was. So the ring delivers the messages in the
order of their arrival.
-/
import CcKvs.Lib.RingBuffer
import CcKvs.Lin.Conservation
import CcKvs.Lin.Inbox

namespace CcKvs.Lin

open Function

/-! ## Sums over channels and machines -/

/-- The sum of a table over all channels and machines. -/
def total (t : Vc → ℕ → ℕ) (N : ℕ) : ℕ := ∑ s ∈ Finset.range N, (t .ack s + t .inv s + t .upd s)

section

variable {t u : Vc → ℕ → ℕ} {N : ℕ}

theorem total_congr (h : ∀ vc, ∀ s < N, t vc s = u vc s) : total t N = total u N :=
  Finset.sum_congr rfl fun s hs => by
    have hlt := Finset.mem_range.1 hs
    rw [h .ack s hlt, h .inv s hlt, h .upd s hlt]

theorem total_le (h : ∀ vc, ∀ s < N, t vc s ≤ u vc s) : total t N ≤ total u N :=
  Finset.sum_le_sum fun s hs => by
    have hlt := Finset.mem_range.1 hs
    exact Nat.add_le_add (Nat.add_le_add (h .ack s hlt) (h .inv s hlt)) (h .upd s hlt)

theorem total_add (t u : Vc → ℕ → ℕ) (N : ℕ) : total (fun vc s => t vc s + u vc s) N = total t N + total u N := by
  rw [total, total, total, ← Finset.sum_add_distrib]
  exact Finset.sum_congr rfl fun s _ => by omega

theorem total_mul (c : ℕ) (t : Vc → ℕ → ℕ) (N : ℕ) : total (fun vc s => c * t vc s) N = c * total t N := by
  rw [total, total, Finset.mul_sum]
  exact Finset.sum_congr rfl fun s _ => by rw [Nat.mul_add, Nat.mul_add]

theorem total_zero (N : ℕ) : total (fun _ _ => 0) N = 0 := by simp [total]

theorem total_single (v : Vc) (c N : ℕ) : total (fun vc s => if v = vc ∧ c = s then 1 else 0) N = if c < N then 1 else 0 := by
  have hone (s : ℕ) : ((if v = .ack ∧ c = s then 1 else 0) + (if v = .inv ∧ c = s then 1 else 0) +
      if v = .upd ∧ c = s then 1 else 0) = if c = s then 1 else 0 := by
    cases v <;> simp
  rw [total, Finset.sum_congr rfl fun s _ => hone s, Finset.sum_ite_eq]
  simp only [Finset.mem_range]

theorem sum_count_le (l : List ℕ) (N : ℕ) : ∑ s ∈ Finset.range N, l.count s ≤ l.length := by
  induction l with
  | nil => simp
  | cons x l ih =>
    have hone : ∑ s ∈ Finset.range N, (if x = s then 1 else 0) ≤ 1 := by
      rw [Finset.sum_ite_eq]
      split <;> omega
    simp only [List.count_cons, beq_iff_eq, Finset.sum_add_distrib, List.length_cons]
    omega

end

/-! ## How much a client can hold -/

namespace Node

variable {n : Node} {N : ℕ}

theorem total_polled_le (l : List (Opcode × UInt8)) (N : ℕ) : total (fun vc s => l.countP (carries vc s)) N ≤ l.length := by
  induction l with
  | nil => exact (total_zero N).le
  | cons x l ih =>
    have hone : total (fun vc s => if carries vc s x then 1 else 0) N ≤ 1 := by
      simp only [carries_iff]
      cases hv : Vc.ofOpcode x.1 with
      | none => simp [total]
      | some v =>
        simp only [Option.some.injEq]
        rw [total_single]
        split <;> omega
    simp only [List.countP_cons, total_add, List.length_cons]
    omega

theorem sum_marked_le (n : Node) (N : ℕ) :
    ∑ s ∈ Finset.range N, n.marked s ≤ slotsWith (fun op => op.opcode = .brc) n.invToSendOps := by
  have hfiber (s : ℕ) : n.marked s = (((Finset.range bcastToCacheBatch).filter fun i => (n.invToSendOps i).opcode = .brc).filter
      fun i => (n.invToSendOps i).keyMeta.cid.toNat = s).card := by
    rw [Finset.filter_filter]
    rfl
  rw [Finset.sum_congr rfl fun s _ => hfiber s, Finset.sum_card_fiberwise_eq_card_filter]
  exact Finset.card_filter_le _ _

theorem total_waiting_le (h : n.Sound) (N : ℕ) : total n.waiting N ≤
    n.client.ackSize + (n.invSize + n.invOps.length + n.invServed.length) := by
  have hqueued := sum_count_le n.client.queued N
  have hsenders := sum_count_le n.invSenders N
  have hmarked := n.sum_marked_le N
  rw [← h.size] at hmarked
  have hlen : n.client.queued.length = n.client.ackSize := by simp [Client.queued]
  have hlen' : n.invSenders.length = n.invServed.length + n.invOps.length := by simp [invSenders]
  rw [total]
  simp only [waiting, Nat.add_zero, Finset.sum_add_distrib]
  omega

/-- While a client polls, it holds less than three full buffers. -/
theorem total_held_lt (h : n.Sound) (hp : n.CanPoll) (h0 : ∀ vc s, n.cohMessageCount vc s = 0) (N : ℕ) :
    total n.held N < 3 * bcastToCacheBatch := by
  have hpolled := total_polled_le n.client.polled N
  have hwaiting := total_waiting_le h N
  have hroom := h.room
  have hring := h.ring.room
  have hlen : n.client.polled.length ≤ n.client.updateOpsI := by
    simp only [Client.polled, List.length_map, List.length_range']
    exact Nat.sub_le _ _
  have hpoll := hp.2.2
  have hheld : total n.held N = total (fun vc s => n.client.polled.countP (carries vc s)) N + total n.waiting N := by
    rw [← total_add]
    exact total_congr fun vc s _ => by rw [held, h0, Nat.add_zero]
  rw [hheld]
  omega

end Node

/-! ## Credit messages of a call -/

section

variable {N m : ℕ} {count seen : Vc → ℕ → ℕ}

theorem forgeCredits_lt (m : ℕ) (count seen : Vc → ℕ → ℕ) : ∀ y ∈ (forgeCredits N m count seen).2, y.1 < N := by
  refine List.foldlRecOn (motive := fun x : Forged => ∀ y ∈ x.2, y.1 < N) _ _ (by simp) fun x hx rm hrm => ?_
  refine List.foldlRecOn (motive := fun x : Forged => ∀ y ∈ x.2, y.1 < N) _ _ hx fun x hx i _ y hy => ?_
  unfold forgeOne at hy
  simp only at hy
  split at hy
  · rcases List.mem_append.1 hy with hy | hy
    · exact hx y hy
    · rw [List.mem_singleton.1 hy]
      exact List.mem_range.1 hrm
  · exact hx y hy

/-- A credit message is for one machine and one channel. -/
theorem length_forgeCredits (m : Fin N) (count : Vc → ℕ → ℕ) (hs : ∀ vc s, seen vc s < creditsInMessage) :
    (forgeCredits N m count seen).2.length =
      total (fun vc rm => (forgeCredits N m count seen).2.count (rm, immData N m vc)) N := by
  have hown := (forgeCredits_spec m count hs m.isLt).1.own
  have hlt := forgeCredits_lt (N := N) m count seen
  generalize (forgeCredits N m count seen).2 = msgs at *
  have hcard := Multiset.sum_count_eq_card (m := (msgs : Multiset (ℕ × ℕ)))
    (s := Finset.range N ×ˢ {immData N m .ack, immData N m .inv, immData N m .upd}) ?_
  · rw [Multiset.coe_card, Finset.sum_product] at hcard
    rw [← hcard]
    refine Finset.sum_congr rfl fun rm _ => ?_
    have hne (vc vc' : Vc) (h : vc ≠ vc') : immData N m vc ≠ immData N m vc' := fun he => h ((immData_inj m.pos).1 he)
    rw [Finset.sum_insert, Finset.sum_pair (hne _ _ (by decide)), Flow.count_coe, Flow.count_coe, Flow.count_coe,
      Nat.add_assoc]
    simp only [Finset.mem_insert, Finset.mem_singleton, not_or]
    exact ⟨hne _ _ (by decide), hne _ _ (by decide)⟩
  · intro y hy
    obtain ⟨vc, hvc⟩ := hown y hy
    rw [Finset.mem_product, hvc]
    refine ⟨Finset.mem_range.2 (hlt y hy), ?_⟩
    cases vc <;> simp

/-- A counter that is not full needs a message for every credit message. -/
theorem length_forgeCredits_le (m : Fin N) (count : Vc → ℕ → ℕ) (hs : ∀ vc s, seen vc s < creditsInMessage) :
    (forgeCredits N m count seen).2.length ≤ total count N := by
  rw [length_forgeCredits m count hs]
  refine total_le fun vc rm hrm => ?_
  have hspec := (forgeCredits_spec m count hs hrm).2 vc
  have hlt := hs vc rm
  unfold creditsInMessage creditsForEachClient at *
  omega

end

namespace Flow

variable {N : ℕ} {f f' : Flow N} {e : FlowEvent N} {m r : Fin N} {valLen : UInt8}

theorem Account.total (ha : Account e r (f.node r) (f'.node r)) (hs : ∀ vc s, (f.node r).seen vc s < creditsInMessage) :
    Lin.total (f'.owed r) N + creditsInMessage * Lin.total (fun vc s => e.returned r vc s) N =
      Lin.total (f.owed r) N + Lin.total (fun vc s => e.received r vc s) N := by
  rw [← total_mul, ← total_add, ← total_add]
  exact total_congr fun vc s hlt => ha.owed hs vc ⟨s, hlt⟩

theorem total_receive (d r : Fin N) (v : Vc) (c : ℕ) (hc : c < N) :
    total (fun vc s => (FlowEvent.receive d v c).received r vc s) N = if d = r then 1 else 0 := by
  simp only [FlowEvent.received]
  by_cases hd : d = r
  · simp only [hd, true_and, if_true]
    rw [total_single, if_pos hc]
  · simp only [hd, false_and, if_false]
    exact total_zero N

/-- No message has the number of the machine it is for. -/
structure NoSelf (f : Flow N) : Prop where
  net : ∀ x ∈ f.net, x.2.keyMeta.cid.toNat ≠ x.1
  owed : ∀ (r : Fin N) vc, f.owed r vc r = 0

theorem NoSelf.init (h : f.Init) : f.NoSelf :=
  ⟨by simp [h.net], fun r vc => by rw [Flow.owed, h.held, h.seen]⟩

theorem NoSelf.marked (h : f.NoSelf) {i : ℕ} (hi : i < bcastToCacheBatch) (hb : ((f.node m).invToSendOps i).opcode = .brc) :
    ((f.node m).invToSendOps i).keyMeta.cid.toNat ≠ m := by
  intro he
  have hpos : 0 < (f.node m).marked m := by
    rw [Node.marked, slotsWith, Finset.card_pos]
    exact ⟨i, Finset.mem_filter.2 ⟨Finset.mem_range.2 hi, hb, he⟩⟩
  have howed := h.owed m .inv
  simp only [Flow.owed, Node.held, Node.waiting] at howed
  omega

theorem mem_toOthers {op : CacheOp} {x : ℕ × CacheOp} (hx : x ∈ toOthers m op) : x.1 ≠ m ∧ x.2 = op := by
  obtain ⟨d, hd, rfl⟩ := Multiset.mem_map.1 hx
  rw [Finset.mem_val, Finset.mem_erase] at hd
  exact ⟨fun he => hd.1 (Fin.ext he), rfl⟩

theorem NoSelf.step (hN : N ≤ 256) (hsound : ∀ m, (f.node m).Sound) (h : f.NoSelf) (hst : Step valLen f e f') : f'.NoSelf := by
  have hcid (m : Fin N) (oc : Opcode) (op : CacheOp) : (outgoing m oc op).keyMeta.cid.toNat = m := toNat_ofNat_fin hN
  have hbcast (m : Fin N) (oc : Opcode) (op : CacheOp) :
      ∀ x ∈ toOthers m (outgoing m oc op) + f.net, x.2.keyMeta.cid.toNat ≠ x.1 := by
    intro x hx
    rcases Multiset.mem_add.1 hx with hx | hx
    · obtain ⟨hne, hop⟩ := mem_toOthers hx
      rw [hop, hcid]
      exact hne.symm
    · exact h.net x hx
  have hnet : (∀ x ∈ f'.net, x.2.keyMeta.cid.toNat ≠ x.1) ∧ ∀ (r : Fin N) vc, e.received r vc r = 0 := by
    cases hst with
    | bcastInv m op he => exact ⟨hbcast m .inv op, fun _ _ => rfl⟩
    | bcastUpd m hpos he => exact ⟨hbcast m .upd _, fun _ _ => rfl⟩
    | pollUpdate d op v net hnet hk hv _ _ hp =>
      have hne := h.net (d.val, op) (by rw [hnet]; exact Multiset.mem_cons_self _ _)
      exact ⟨fun x hx => h.net x (by rw [hnet]; exact Multiset.mem_cons_of_mem hx),
        fun r vc => if_neg fun hb => hne (hb.2.2.trans (congrArg Fin.val hb.1.symm))⟩
    | pollInv d op net hnet hk _ hp hfull =>
      have hne := h.net (d.val, op) (by rw [hnet]; exact Multiset.mem_cons_self _ _)
      exact ⟨fun x hx => h.net x (by rw [hnet]; exact Multiset.mem_cons_of_mem hx),
        fun r vc => if_neg fun hb => hne (hb.2.2.trans (congrArg Fin.val hb.1.symm))⟩
    | sendAck m i hi hb hc =>
      refine ⟨fun x hx => ?_, fun _ _ => rfl⟩
      rcases Multiset.mem_cons.1 hx with rfl | hx
      · rw [hcid]
        exact (h.marked hi hb).symm
      · exact h.net x hx
    | _ => exact ⟨h.net, fun _ _ => rfl⟩
  refine ⟨hnet.1, fun r vc => ?_⟩
  have howed := (hst.account hsound r).2.owed (hsound r).seen vc r
  rw [h.owed, hnet.2] at howed
  omega

/-- A link cannot have more messages counted than it has credits. -/
theorem Conserved.counted_le (h : f.Conserved) (ho : f.NoSelf) (s r : Fin N) (vc : Vc) :
    (f.node r).seen vc s + (f.node r).cohMessageCount vc s ≤ if s = r then 0 else creditsForEachClient := by
  have hheld : (f.node r).cohMessageCount vc s ≤ (f.node r).held vc s := Nat.le_add_left _ _
  split
  · next he =>
    have howed := ho.owed r vc
    rw [Flow.owed, ← he] at howed
    rw [← he] at hheld ⊢
    omega
  · next hne =>
    have hsum := (h.link s r hne vc).sum
    simp only [Flow.link, unfreed] at hsum
    omega

theorem sum_others (c : ℕ) (m : Fin N) : ∑ s ∈ Finset.range N, (if s = m then 0 else c) = c * (N - 1) := by
  rw [Finset.sum_ite, Finset.sum_const_zero, Nat.zero_add, Finset.sum_const, smul_eq_mul, Nat.mul_comm, Finset.filter_ne',
    Finset.card_erase_of_mem (Finset.mem_range.2 m.isLt), Finset.card_range]

theorem Conserved.total_count_le (h : f.Conserved) (ho : f.NoSelf) (m : Fin N) :
    total (f.node m).cohMessageCount N ≤ maxCohMessages N := by
  have hle : total (f.node m).cohMessageCount N ≤
      total (fun _ s => if s = m then 0 else creditsForEachClient) N := by
    refine total_le fun vc s hs => ?_
    have := h.counted_le ho ⟨s, hs⟩ m vc
    simp only [Fin.ext_iff] at this
    exact le_trans (Nat.le_add_left _ _) this
  refine hle.trans (le_of_eq ?_)
  rw [total, Finset.sum_add_distrib, Finset.sum_add_distrib, sum_others, maxCohMessages, broadcastCredits, Nat.mul_comm (N - 1),
    Nat.add_mul, Nat.add_mul]

theorem Conserved.length_le (h : f.Conserved) (ho : f.NoSelf) (m : Fin N) :
    (forgeCredits N m (f.node m).cohMessageCount (f.node m).seen).2.length ≤ maxCreditWrs N := by
  rw [length_forgeCredits m _ (h.node m).seen]
  have hle : total (fun vc rm => (forgeCredits N m (f.node m).cohMessageCount (f.node m).seen).2.count (rm, immData N m vc)) N ≤
      total (fun _ s => if s = m then 0 else 2) N := by
    refine total_le fun vc s hs => ?_
    have hcount := h.counted_le ho ⟨s, hs⟩ m vc
    have hspec := (forgeCredits_spec m (f.node m).cohMessageCount (h.node m).seen hs).2 vc
    simp only [Fin.ext_iff] at hcount
    unfold creditsInMessage creditsForEachClient at *
    split
    · next he =>
      rw [if_pos he] at hcount
      omega
    · next hne =>
      rw [if_neg hne] at hcount
      omega
  refine hle.trans (le_of_eq ?_)
  rw [total, Finset.sum_add_distrib, Finset.sum_add_distrib, sum_others]
  show _ = 6 * (N - 1)
  omega

end Flow

/-! ## The ring -/

namespace Inbox

variable {N k posted polled : ℕ} {b : Inbox} {arrived : List CacheOp} {op : CacheOp}

theorem hrdModAdd_mod (k n : ℕ) : hrdModAdd (k % n : ℕ) n = ((k + 1) % n : ℕ) := by
  unfold hrdModAdd
  rcases Nat.eq_zero_or_pos n with rfl | hpos
  · simp only [Nat.mod_zero, Nat.cast_zero]
    rw [if_neg (by omega)]
    rfl
  · have hlt := Nat.mod_lt k hpos
    have hmod : (k + 1) % n = (k % n + 1) % n := (Nat.mod_add_mod k n 1).symm
    split
    · next he =>
      have hround : k % n + 1 = n := by omega
      rw [hmod, hround, Nat.mod_self]
      rfl
    · next hne =>
      have hnext : k % n + 1 < n := by omega
      rw [hmod, Nat.mod_eq_of_lt hnext]
      exact (Nat.cast_succ _).symm

/-- `arrived` are the messages so far, of which the first were polled, and receives were posted for
some more. -/
structure Runs (N : ℕ) (b : Inbox) (arrived : List CacheOp) (polled posted : ℕ) : Prop where
  holds : RingBuffer.Holds (linCltBufSlots N) b.incomingReqs arrived polled
  le : arrived.length ≤ posted
  recvs : b.recvs = (List.range' arrived.length (posted - arrived.length)).map (· % linCltBufSlots N)
  pushPtr : b.pushPtr = (posted % linCltBufSlots N : ℕ)
  pullPtr : hrdModAdd b.pullPtr (linCltBufSlots N) = (polled % linCltBufSlots N : ℕ)

theorem Runs.postRecv (h : b.Runs N arrived polled posted) : (b.postRecv N).Runs N arrived polled (posted + 1) := by
  have hle := h.le
  refine ⟨h.holds, by omega, ?_, ?_, h.pullPtr⟩
  · show b.recvs ++ [b.pushPtr.toNat] = _
    rw [h.recvs, h.pushPtr, Int.toNat_natCast, Nat.sub_add_comm hle, List.range'_concat, List.map_append, Nat.one_mul,
      Nat.add_sub_cancel' hle]
    rfl
  · show hrdModAdd b.pushPtr _ = _
    rw [h.pushPtr, hrdModAdd_mod]

theorem Runs.postRecvs (h : b.Runs N arrived polled posted) (k : ℕ) :
    (b.postRecvs N k).Runs N arrived polled (posted + k) := by
  induction k with
  | zero => exact h
  | succ k ih => exact ih.postRecv

theorem Runs.start (N : ℕ) : (Inbox.start N).Runs N [] 0 (linCltBufSlots N) := by
  have hempty : Runs N ⟨fun _ => none, [], 0, -1⟩ [] 0 0 := by
    refine ⟨.empty, le_rfl, rfl, by simp, ?_⟩
    unfold hrdModAdd
    split <;> simp
  have hposted := hempty.postRecvs ((N - 1) * broadcastCredits)
  rwa [Nat.zero_add] at hposted

theorem Runs.arrive (h : b.Runs N arrived polled posted) (hposted : posted ≤ polled + linCltBufSlots N) {i : ℕ} {l : List ℕ}
    (hl : b.recvs = i :: l) (op : CacheOp) : (b.arrive op i l).Runs N (arrived ++ [op]) polled posted := by
  have hle := h.le
  obtain ⟨j, hj⟩ : ∃ j, posted - arrived.length = j + 1 := by
    refine Nat.exists_eq_succ_of_ne_zero fun h0 => ?_
    rw [h.recvs, h0] at hl
    cases hl
  have hrecvs := h.recvs
  rw [hj, List.range'_succ, List.map_cons, hl] at hrecvs
  obtain ⟨rfl, rfl⟩ := List.cons.inj hrecvs
  refine ⟨h.holds.write op (by omega), by simp only [List.length_append, List.length_singleton]; omega, ?_, h.pushPtr, h.pullPtr⟩
  rw [List.length_append, List.length_singleton, show posted - (arrived.length + 1) = j by omega]
  rfl

theorem Runs.nextSlot (h : b.Runs N arrived polled posted) (hpos : 0 < linCltBufSlots N) :
    b.nextSlot N = polled % linCltBufSlots N := by
  have hpull := h.pullPtr
  have hlt := Nat.mod_lt polled hpos
  unfold hrdModAdd at hpull
  rw [Inbox.nextSlot]
  split at hpull
  · next he =>
    rw [he, Int.emod_self]
    omega
  · rw [hpull, ← Int.natCast_mod, Int.toNat_natCast, Nat.mod_mod]

/-- What is polled is the oldest message that was not. -/
theorem Runs.next (h : b.Runs N arrived polled posted) (hpos : 0 < linCltBufSlots N) : b.next N = arrived[polled]? := by
  rw [Inbox.next, h.nextSlot hpos, h.holds.head hpos]

theorem Runs.poll (h : b.Runs N arrived polled posted) (hlt : polled < arrived.length) :
    (b.poll N).Runs N arrived (polled + 1) posted := by
  refine ⟨?_, h.le, h.recvs, h.pushPtr, ?_⟩
  · show RingBuffer.Holds _ (update b.incomingReqs (hrdModAdd b.pullPtr _).toNat none) _ _
    rw [h.pullPtr, Int.toNat_natCast]
    exact h.holds.read hlt
  · show hrdModAdd (hrdModAdd b.pullPtr _) _ = _
    rw [h.pullPtr, hrdModAdd_mod]

end Inbox

/-! ## Runs -/

namespace RecvEvent

variable {N : ℕ} (d : Fin N)

def arrival : RecvEvent N → List CacheOp
  | .arrive d' op => if d' = d then [op] else []
  | _ => []

def polled : RecvEvent N → List CacheOp
  | .poll d' op => if d' = d then [op] else []
  | _ => []

/-- How many credit messages are sent. -/
def sent : RecvEvent N → ℕ
  | .credits m msgs => if m = d then msgs.length else 0
  | _ => 0

end RecvEvent

namespace Receivers

variable {N : ℕ} {valLen : UInt8} {s₀ s s' : Receivers N} {es : List (RecvEvent N)} {e : RecvEvent N}

/-- The messages that have arrived at `d`, in this order. -/
def arrivals (es : List (RecvEvent N)) (d : Fin N) : List CacheOp := es.flatMap (·.arrival d)

/-- The messages that `d` has polled, in this order. -/
def polls (es : List (RecvEvent N)) (d : Fin N) : List CacheOp := es.flatMap (·.polled d)

/-- The credit messages that `d` has sent. -/
def sent (es : List (RecvEvent N)) (d : Fin N) : ℕ := (es.map (·.sent d)).sum

/-- What holds of the flow control underneath: every message polled is held, seen or returned; a
client holds no more than an iteration can take; and the machines, if they can be told apart by a
byte, have their credits. -/
structure Balanced (f : Flow N) (polled sent : Fin N → ℕ) : Prop where
  sound : ∀ m, (f.node m).Sound
  owed : ∀ d, total (f.owed d) N + creditsInMessage * sent d = polled d
  held : ∀ d, total (f.node d).held N ≤ 3 * bcastToCacheBatch
  credits : N ≤ 256 → f.Conserved ∧ f.NoSelf

/-- The ring of every client, with the receives posted so far. -/
def Delivers (es : List (RecvEvent N)) (s : Receivers N) : Prop :=
  ∀ d, polls es d = (arrivals es d).take (polls es d).length ∧
    (s.inbox d).Runs N (arrivals es d) (polls es d).length (linCltBufSlots N + creditsInMessage * sent es d)

theorem Balanced.init {f : Flow N} (h : f.Init) : Balanced f (fun _ => 0) fun _ => 0 := by
  refine ⟨(Flow.Conserved.init h).node, fun d => ?_, fun d => ?_, fun _ => ⟨.init h, .init h⟩⟩
  · have hzero : total (f.owed d) N = total (fun _ _ => 0) N := total_congr fun vc s _ => by rw [Flow.owed, h.held, h.seen]
    rw [hzero, total_zero]
    rfl
  · have hzero : total (f.node d).held N = total (fun _ _ => 0) N := total_congr fun vc s _ => h.held d vc s
    rw [hzero, total_zero]
    exact Nat.zero_le _

variable {f f' : Flow N} {polled sent' : Fin N → ℕ} {ev : FlowEvent N}

/-- Any step keeps the balance, if what it receives can be held. -/
theorem Balanced.step (h : Balanced f polled sent') (hst : Flow.Step valLen f ev f')
    (hheld : ∀ d, total (f.node d).held N + total (fun vc s => ev.received d vc s) N ≤ 3 * bcastToCacheBatch) :
    Balanced f' (fun d => polled d + total (fun vc s => ev.received d vc s) N)
      (fun d => sent' d + total (fun vc s => ev.returned d vc s) N) := by
  refine ⟨fun m => (hst.account h.sound m).1, fun d => ?_, fun d => ?_, fun hN => ?_⟩
  · have htotal := (hst.account h.sound d).2.total (h.sound d).seen
    have howed := h.owed d
    rw [Nat.mul_add]
    omega
  · refine le_trans ?_ (hheld d)
    rw [← total_add]
    refine total_le fun vc s _ => ?_
    cases (hst.account h.sound d).2 with
    | held hkeep => exact (hkeep vc s).le
    | credits msgs he _ hcount =>
      have := hcount vc s
      omega
  · obtain ⟨hcons, hself⟩ := h.credits hN
    exact ⟨hcons.moves (hcons.moves_of_step hN hst), hself.step hN h.sound hst⟩

theorem Balanced.tau (h : Balanced f polled sent') (hst : Flow.Step valLen f .tau f') : Balanced f' polled sent' := by
  have hzero (d : Fin N) : total (fun vc s => FlowEvent.tau.received d vc s) N = 0 := total_zero N
  have hstep := h.step hst fun d => by rw [hzero]; exact h.held d
  simpa only [hzero, FlowEvent.returned, total_zero, Nat.add_zero] using hstep

theorem Balanced.receive {d : Fin N} {vc : Vc} {c : ℕ} (h : Balanced f polled sent')
    (h0 : ∀ vc s, (f.node d).cohMessageCount vc s = 0) (hst : Flow.Step valLen f (.receive d vc c) f') :
    Balanced f' (fun r => polled r + if d = r then 1 else 0) sent' := by
  have hpoll : (f.node d).CanPoll ∧ c < N := by
    cases hst with
    | pollUpdate _ op _ net hnet hk hv hc hp => exact ⟨hp, hc⟩
    | pollInv _ op net hnet hk hc hp => exact ⟨hp, hc⟩
  have hone (r : Fin N) : total (fun v s => (FlowEvent.receive d vc c).received r v s) N = if d = r then 1 else 0 :=
    Flow.total_receive d r vc c hpoll.2
  have hstep := h.step hst fun r => by
    rw [hone]
    split
    · next he =>
      rw [← he]
      exact Node.total_held_lt (h.sound d) hpoll.1 h0 N
    · exact h.held r
  simpa only [hone, FlowEvent.returned, total_zero, Nat.add_zero] using hstep

theorem Balanced.creditMessages {m : Fin N} {msgs : List (ℕ × ℕ)} (h : Balanced f polled sent')
    (hst : Flow.Step valLen f (.credits m msgs) f') :
    Balanced f' polled (fun r => sent' r + if m = r then msgs.length else 0) := by
  have hzero (d : Fin N) : total (fun vc s => (FlowEvent.credits m msgs).received d vc s) N = 0 := total_zero N
  have hlen (r : Fin N) : total (fun vc s => (FlowEvent.credits m msgs).returned r vc s) N =
      if m = r then msgs.length else 0 := by
    simp only [FlowEvent.returned]
    by_cases he : m = r
    · simp only [he, if_true]
      subst he
      cases hst with
      | sendCredits m x hx =>
        rw [← hx]
        exact (length_forgeCredits m _ (h.sound m).seen).symm
    · simp only [he, if_false]
      exact total_zero N
  have hstep := h.step hst fun d => by rw [hzero]; exact h.held d
  simpa only [hzero, hlen, Nat.add_zero] using hstep

theorem arrivals_concat (es : List (RecvEvent N)) (e : RecvEvent N) (d : Fin N) :
    arrivals (es ++ [e]) d = arrivals es d ++ e.arrival d := by
  rw [arrivals, List.flatMap_append, List.flatMap_singleton, arrivals]

theorem polls_concat (es : List (RecvEvent N)) (e : RecvEvent N) (d : Fin N) : polls (es ++ [e]) d = polls es d ++ e.polled d := by
  rw [polls, List.flatMap_append, List.flatMap_singleton, polls]

theorem sent_concat (es : List (RecvEvent N)) (e : RecvEvent N) : sent (es ++ [e]) = fun d => sent es d + e.sent d := by
  funext d
  rw [sent, List.map_append, List.sum_append, List.map_singleton, List.sum_singleton, sent]

structure Fits (es : List (RecvEvent N)) (s : Receivers N) : Prop where
  balanced : Balanced s.flow (fun d => (polls es d).length) (sent es)
  delivers : Delivers es s

/-- A receive stands for a slot that is free, or for a message that was polled. -/
theorem Fits.posted_le (h : Fits es s) (d : Fin N) :
    linCltBufSlots N + creditsInMessage * sent es d ≤ (polls es d).length + linCltBufSlots N := by
  have := h.balanced.owed d
  omega

theorem Fits.init (h : s₀.Init) : Fits [] s₀ := by
  refine ⟨.init h.flow, fun d => ⟨rfl, ?_⟩⟩
  rw [h.inbox]
  exact .start N

/-- The client that a step is about has its ring in order, and the other clients have theirs. -/
theorem Delivers.update (h : Delivers es s) {d : Fin N} {b : Inbox} {f' : Flow N}
    (hother : ∀ r, r ≠ d → e.arrival r = [] ∧ e.polled r = [] ∧ e.sent r = 0)
    (hd : polls (es ++ [e]) d = (arrivals (es ++ [e]) d).take (polls (es ++ [e]) d).length ∧
      b.Runs N (arrivals (es ++ [e]) d) (polls (es ++ [e]) d).length
        (linCltBufSlots N + creditsInMessage * sent (es ++ [e]) d)) :
    Delivers (es ++ [e]) ⟨f', update s.inbox d b⟩ := by
  intro r
  by_cases he : r = d
  · rw [he]
    simp only [update_self]
    exact hd
  · obtain ⟨ha, hp, hs⟩ := hother r he
    simp only [update_of_ne he]
    rw [polls_concat, arrivals_concat, sent_concat]
    dsimp only
    rw [ha, hp, hs, List.append_nil, List.append_nil]
    exact h r

theorem Fits.step (hN : 2 ≤ N) (h : Fits es s) (hst : Step valLen s e s') : Fits (es ++ [e]) s' := by
  have hpos : 0 < linCltBufSlots N := Nat.mul_pos (by omega) (by decide)
  cases hst with
  | arrive d op i l hnet hl =>
    obtain ⟨hpolls, hruns⟩ := h.delivers d
    refine ⟨?_, h.delivers.update (fun r he => ⟨if_neg (Ne.symm he), rfl, rfl⟩) ?_⟩
    · simpa only [polls_concat, sent_concat, RecvEvent.polled, RecvEvent.sent, List.append_nil, Nat.add_zero] using h.balanced
    · rw [polls_concat, arrivals_concat, sent_concat, show RecvEvent.arrival d (.arrive d op) = [op] from if_pos rfl]
      simp only [RecvEvent.polled, RecvEvent.sent, List.append_nil, Nat.add_zero]
      refine ⟨?_, hruns.arrive (h.posted_le d) hl op⟩
      rw [List.take_append_of_le_length hruns.holds.taken_le]
      exact hpolls
  | poll d op vc f hnext h0 hnet hst =>
    obtain ⟨hpolls, hruns⟩ := h.delivers d
    rw [hruns.next hpos] at hnext
    obtain ⟨hlt, hop⟩ := List.getElem?_eq_some_iff.1 hnext
    refine ⟨?_, h.delivers.update (fun r he => ⟨rfl, if_neg (Ne.symm he), rfl⟩) ?_⟩
    · have hlen (r : Fin N) : (polls (es ++ [.poll d op]) r).length = (polls es r).length + if d = r then 1 else 0 := by
        rw [polls_concat, List.length_append, RecvEvent.polled]
        split <;> rfl
      simpa only [hlen, sent_concat, RecvEvent.sent, Nat.add_zero] using h.balanced.receive h0 hst
    · rw [polls_concat, arrivals_concat, sent_concat, show RecvEvent.polled d (.poll d op) = [op] from if_pos rfl,
        List.length_append, List.length_singleton]
      simp only [RecvEvent.arrival, RecvEvent.sent, List.append_nil, Nat.add_zero]
      refine ⟨?_, hruns.poll hlt⟩
      rw [List.take_add_one, hnext, ← hpolls]
      rfl
  | credits m msgs f hst =>
    obtain ⟨hpolls, hruns⟩ := h.delivers m
    refine ⟨?_, h.delivers.update (fun r he => ⟨rfl, rfl, if_neg (Ne.symm he)⟩) ?_⟩
    · simpa only [polls_concat, sent_concat, RecvEvent.polled, RecvEvent.sent, List.append_nil] using
        h.balanced.creditMessages hst
    · rw [polls_concat, arrivals_concat, sent_concat]
      simp only [RecvEvent.polled, RecvEvent.arrival, RecvEvent.sent, List.append_nil, if_true]
      rw [Nat.mul_add, ← Nat.add_assoc, Nat.mul_comm creditsInMessage msgs.length]
      exact ⟨hpolls, hruns.postRecvs _⟩
  | tau f hst =>
    refine ⟨?_, fun d => ?_⟩
    · simpa only [polls_concat, sent_concat, RecvEvent.polled, RecvEvent.sent, List.append_nil, Nat.add_zero] using
        h.balanced.tau hst
    · simpa only [polls_concat, arrivals_concat, sent_concat, RecvEvent.polled, RecvEvent.arrival, RecvEvent.sent,
        List.append_nil, Nat.add_zero] using h.delivers d

theorem fits_of_run (hN : 2 ≤ N) (h : (receivers N valLen).Run s₀ es s) : Fits es s :=
  h.invariant Fits Fits.init fun _ hi hst => hi.step hN hst

/-! ## The bounds -/

theorem Balanced.length_le {m : Fin N} {msgs : List (ℕ × ℕ)} (h : Balanced f polled sent')
    (hst : Flow.Step valLen f (.credits m msgs) f') : msgs.length ≤ maxCreditWrs N := by
  cases hst with
  | sendCredits m x hx =>
    rw [← hx]
    rcases Nat.lt_or_ge 256 N with hN | hN
    · -- more machines than a byte can tell apart: there is room for a message for each one freed
      have hcount : total (f.node m).cohMessageCount N ≤ total (f.node m).held N := total_le fun _ _ _ => Nat.le_add_left _ _
      refine (length_forgeCredits_le m _ (h.sound m).seen).trans ((hcount.trans (h.held m)).trans ?_)
      show 1500 ≤ 6 * (N - 1)
      omega
    · obtain ⟨hcons, hself⟩ := h.credits hN
      exact hcons.length_le hself m

theorem Balanced.total_count_lt (h : Balanced f polled sent') (hK : maxCohMessages N < 2 ^ 16) (m : Fin N) :
    total (f.node m).cohMessageCount N < 2 ^ 16 := by
  rcases Nat.lt_or_ge 256 N with hN | hN
  · have hcount : total (f.node m).cohMessageCount N ≤ total (f.node m).held N := total_le fun _ _ _ => Nat.le_add_left _ _
    exact (hcount.trans (h.held m)).trans_lt (by decide)
  · obtain ⟨hcons, hself⟩ := h.credits hN
    exact (hcons.total_count_le hself m).trans_lt hK

/-- The receives that a call of `send_credits` posts are for slots that hold no message and for
which no receive is waiting. -/
theorem Fits.posted_free (h : Fits es s) {m : Fin N} {msgs : List (ℕ × ℕ)} {f' : Flow N}
    (hst : Flow.Step valLen s.flow (.credits m msgs) f') (j : ℕ) (hj : j < msgs.length * creditsInMessage) :
    (s.inbox m).incomingReqs (((s.inbox m).pushPtr.toNat + j) % linCltBufSlots N) = none ∧
      ((s.inbox m).pushPtr.toNat + j) % linCltBufSlots N ∉ (s.inbox m).recvs := by
  obtain ⟨-, hruns⟩ := h.delivers m
  -- with the new credit messages there are still no more credits than messages polled
  have howed := (h.balanced.creditMessages hst).owed m
  simp only [if_true, Nat.mul_add] at howed
  rw [Nat.mul_comm creditsInMessage msgs.length] at howed
  have hle := hruns.le
  have hpolled := hruns.holds.taken_le
  rw [hruns.pushPtr, Int.toNat_natCast, Nat.mod_add_mod]
  refine ⟨hruns.holds.free (by omega) (by omega), ?_⟩
  rw [hruns.recvs, List.mem_map]
  rintro ⟨k, hk, he⟩
  rw [List.mem_range'_1] at hk
  exact RingBuffer.mod_ne (by omega) (by omega) he

/-- What lies in the ring from the slot after `pull_ptr` on are the messages that have arrived and
were not polled, in the order of their arrival, and nothing after them. -/
theorem Fits.unpolled (h : Fits es s) (d : Fin N) : ∃ l, arrivals es d = polls es d ++ l ∧
    l.length ≤ linCltBufSlots N ∧ ∀ k < linCltBufSlots N,
      (s.inbox d).incomingReqs (((s.inbox d).nextSlot N + k) % linCltBufSlots N) = l[k]? := by
  obtain ⟨hpolls, hruns⟩ := h.delivers d
  have hlen := hruns.holds.length_le
  refine ⟨(arrivals es d).drop (polls es d).length, ?_, by rw [List.length_drop]; omega, fun k hk => ?_⟩
  · exact (List.take_append_drop _ _).symm.trans (congrArg (· ++ _) hpolls.symm)
  · rw [hruns.nextSlot (by omega), Nat.mod_add_mod, hruns.holds.slot _ (Nat.le_add_right _ k) (by omega), List.getElem?_drop]

/-- **The buffers of flow control are large enough.** A call of `forge_credits_LIN` sends no more
credit messages than `credit_wr` has room for, and the call of `send_credits` after it posts no more
receives than `coh_recv_wr` has; what it adds up fits the 16 bits of a counter. The receives go to
slots whose message was polled. In every state the ring has the messages that arrived and were not
polled in their order, so that polling the slots one after the other neither skips a message nor
loses one to another that is written over it. -/
theorem flow_buffers_in_range (hN : 2 ≤ N) (hK : maxCohMessages N < 2 ^ 16) (h : (receivers N valLen).Run s₀ es s) :
    (∀ m msgs s', Step valLen s (.credits m msgs) s' → msgs.length ≤ maxCreditWrs N ∧
      msgs.length * creditsInMessage ≤ linMaxCohReceives N ∧ total (s.flow.node m).cohMessageCount N < 2 ^ 16 ∧
      ∀ j < msgs.length * creditsInMessage,
        (s.inbox m).incomingReqs (((s.inbox m).pushPtr.toNat + j) % linCltBufSlots N) = none ∧
          ((s.inbox m).pushPtr.toNat + j) % linCltBufSlots N ∉ (s.inbox m).recvs) ∧
    ∀ d, ∃ l, arrivals es d = polls es d ++ l ∧ l.length ≤ linCltBufSlots N ∧ ∀ k < linCltBufSlots N,
      (s.inbox d).incomingReqs (((s.inbox d).nextSlot N + k) % linCltBufSlots N) = l[k]? := by
  have hfits := fits_of_run hN h
  refine ⟨fun m msgs s' hst => ?_, hfits.unpolled⟩
  cases hst with
  | credits m msgs f hst =>
    have hlen := hfits.balanced.length_le hst
    refine ⟨hlen, ?_, hfits.balanced.total_count_lt hK m, hfits.posted_free hst⟩
    refine (Nat.mul_le_mul_right _ hlen).trans (le_of_eq ?_)
    show 6 * (N - 1) * 30 = (N - 1) * 180
    omega

/-! Machine 0 broadcasts INVs, and machine 1 polls and frees them one at a time. -/

def anInv : CacheOp := outgoing (⟨0, Nat.zero_lt_two⟩ : Fin 2) .inv Flow.blank

/-- Machine 0 has `k` INVs counted in a table. -/
def invTable (k : ℕ) : Vc → ℕ → ℕ := fun vc j => if vc = .inv ∧ j = 0 then k else 0

theorem bump_invTable (k : ℕ) : bump (invTable k) .inv 0 = invTable (k + 1) := by
  funext vc j
  by_cases hv : vc = .inv
  · subst hv
    by_cases hj : j = 0 <;> simp [bump, invTable, hj]
  · simp [bump, invTable, hv]

/-- Machine 1 has taken in `n` INVs, of which `freed` are still counted in `coh_message_count`. -/
structure TakenIn (n freed : ℕ) (es : List (RecvEvent 2)) (s : Receivers 2) : Prop where
  run : (receivers 2 32).Run ⟨Flow.quiet, fun _ => .start 2⟩ es s
  net : s.flow.net = 0
  credits : (s.flow.node 0).credits .inv 1 = .ofNat (creditsForEachClient - n)
  invOps : (s.flow.node 1).invOps = []
  invServed : (s.flow.node 1).invServed = []
  invSize : (s.flow.node 1).invSize = 0
  served : (s.flow.node 1).client.served = 0
  updateOpsI : (s.flow.node 1).client.updateOpsI = 0
  count : (s.flow.node 1).cohMessageCount = invTable freed
  seen : (s.flow.node 1).seen = invTable (n - freed)
  arrived : arrivals es 1 = List.replicate n anInv
  polled : polls es 1 = List.replicate n anInv
  unsent : sent es 1 = 0

theorem TakenIn.inv {n : ℕ} {es : List (RecvEvent 2)} {s : Receivers 2} (h : TakenIn n 0 es s) (hn : n < creditsForEachClient) :
    ∃ ds s', TakenIn (n + 1) 1 (es ++ ds) s' := by
  have hn' : n < 60 := hn
  have hne : UInt8.ofNat (creditsForEachClient - n) ≠ 0 := fun he => by
    have hnat := congrArg UInt8.toNat he
    rw [UInt8.toNat_ofNat', Nat.mod_eq_of_lt (show creditsForEachClient - n < 2 ^ 8 from (Nat.sub_le _ _).trans_lt (by decide))] at hnat
    exact (Nat.sub_pos_of_lt hn).ne' hnat
  have hcredits : (s.flow.node 0).EnoughCredits (0 : Fin 2) .inv := by
    intro j hj
    obtain rfl : j = 1 := by omega
    show (s.flow.node 0).credits .inv 1 ≠ 0
    rwa [h.credits]
  have h₁ := h.run.snoc (.tau _ (.bcastInv 0 Flow.blank hcredits))
  have hnet : toOthers (0 : Fin 2) anInv + s.flow.net = ((1 : Fin 2).val, anInv) ::ₘ 0 := by
    rw [h.net]
    rfl
  -- a receive is posted for it, since no more than `n` of those of the start are used
  have hrecvs := ((fits_of_run le_rfl h₁).delivers 1).2.recvs
  obtain ⟨i, l, hl⟩ : ∃ i l, (s.inbox 1).recvs = i :: l := by
    refine List.exists_cons_of_ne_nil fun hnil => ?_
    have hlen := congrArg List.length (hnil.symm.trans hrecvs)
    rw [List.length_nil, List.length_map, List.length_range', arrivals_concat, sent_concat, h.arrived] at hlen
    simp only [RecvEvent.arrival, List.append_nil, List.length_replicate] at hlen
    have hslots : linCltBufSlots 2 = 180 := rfl
    omega
  have h₂ := h₁.snoc (.arrive 1 anInv i l (show _ ∈ toOthers (0 : Fin 2) anInv + s.flow.net by
    rw [hnet]
    exact Multiset.mem_cons_self _ _) hl)
  have hnext := ((fits_of_run le_rfl h₂).delivers 1).2.next (by decide)
  rw [arrivals_concat, arrivals_concat, polls_concat, polls_concat, h.arrived, h.polled] at hnext
  simp only [RecvEvent.arrival, RecvEvent.polled, List.append_nil, List.length_replicate, if_true] at hnext
  rw [List.getElem?_append_right (by simp), List.length_replicate, Nat.sub_self] at hnext
  have hpoll : (s.flow.node 1).CanPoll := ⟨h.invServed, h.served, by rw [h.updateOpsI, h.invOps]; decide⟩
  have hroom : (s.flow.node 1).invSize + (s.flow.node 1).invOps.length ≠ bcastToCacheBatch := by
    rw [h.invSize, h.invOps]
    decide
  have h₃ := h₂.snoc (.poll 1 anInv .inv _ hnext (fun vc j => by
    show (s.flow.node 1).cohMessageCount vc j = 0
    rw [h.count]
    exact ite_self 0) (by exact hnet) (.pollInv 1 anInv 0 hnet rfl (by decide) hpoll hroom))
  have h₄ := h₃.snoc (.tau _ (.serveInv 1 (fun _ => .none) _ anInv _ ⟨.empty, 0, .none⟩ _ []
    (show (s.flow.node 1).invOps ++ [anInv] = [anInv] by rw [h.invOps]; rfl) rfl))
  have h₅ := h₄.snoc (.tau _ (.keepInv 1 anInv .miss [] rfl
    (show (s.flow.node 1).invServed ++ [(anInv, .miss)] = _ by rw [h.invServed]; rfl)))
  simp only [List.append_assoc] at h₅
  refine ⟨_, _, h₅, rfl, ?_, rfl, rfl, h.invSize, h.served, h.updateOpsI, ?_, ?_, ?_, ?_, ?_⟩
  · show (s.flow.node 0).credits .inv 1 - 1 = _
    rw [h.credits, show creditsForEachClient - n = creditsForEachClient - (n + 1) + 1 by omega, UInt8.ofNat_add]
    exact add_sub_cancel_right _ 1
  · show bump (s.flow.node 1).cohMessageCount .inv 0 = _
    rw [h.count, bump_invTable]
  · show (s.flow.node 1).seen = _
    rw [h.seen, Nat.add_sub_cancel, Nat.sub_zero]
  · rw [arrivals, List.flatMap_append, ← arrivals, h.arrived, List.replicate_succ']
    rfl
  · rw [polls, List.flatMap_append, ← polls, h.polled, List.replicate_succ']
    rfl
  · rw [sent, List.map_append, List.sum_append, ← sent, h.unsent]
    rfl

theorem forgeCredits_invTable (k : ℕ) : forgeCredits 2 (1 : Fin 2) (invTable 1) (invTable k) =
    if k + 1 = creditsInMessage then (invTable 0, [(0, immData 2 1 .inv)]) else (invTable (k + 1), []) := by
  have hone : forgeCredits 2 (1 : Fin 2) (invTable 1) (invTable k) = forgeOne 2 1 0 (invTable k, []) .inv := rfl
  have hreset : update (invTable (k + 1)) .inv (update (invTable (k + 1) .inv) 0 0) = invTable 0 := by
    funext vc j
    by_cases hv : vc = .inv
    · subst hv
      by_cases hj : j = 0 <;> simp [invTable, hj]
    · simp [invTable, hv]
  have hfull : (invTable (k + 1) .ack 0 = creditsInMessage ∨ invTable (k + 1) .inv 0 = creditsInMessage ∨
      invTable (k + 1) .upd 0 = creditsInMessage) ↔ k + 1 = creditsInMessage := by
    simp [invTable, show (0 : ℕ) ≠ creditsInMessage by decide]
  rw [hone, forgeOne]
  simp only [bump_invTable, hfull, hreset]
  rfl

/-- Short of `CREDITS_IN_MESSAGE` INVs, `forge_credits_LIN` only counts. -/
theorem TakenIn.count_up {n : ℕ} {es : List (RecvEvent 2)} {s : Receivers 2} (h : TakenIn (n + 1) 1 es s)
    (hn : n + 1 < creditsInMessage) : ∃ ds s', TakenIn (n + 1) 0 (es ++ ds) s' := by
  have hforged : forgeCredits 2 (1 : Fin 2) (s.flow.node 1).cohMessageCount (s.flow.node 1).seen = (invTable (n + 1), []) := by
    rw [h.count, h.seen, forgeCredits_invTable]
    exact if_neg hn.ne
  have hrun := h.run.snoc (.credits 1 [] _ (.sendCredits 1 _ hforged))
  refine ⟨_, _, hrun, h.net, h.credits, h.invOps, h.invServed, h.invSize, h.served, h.updateOpsI, ?_, rfl, ?_, ?_, ?_⟩
  · funext vc j
    exact (ite_self 0).symm
  · rw [arrivals_concat, h.arrived]
    exact List.append_nil _
  · rw [polls_concat, h.polled]
    exact List.append_nil _
  · rw [sent_concat]
    exact h.unsent

theorem exists_takenIn (n : ℕ) (hn : n < creditsInMessage) : ∃ es s, TakenIn n 0 es s := by
  induction n with
  | zero =>
    refine ⟨[], _, .nil ⟨Flow.quiet_init, fun _ => rfl⟩, rfl, rfl, rfl, rfl, rfl, rfl, rfl, ?_, ?_, rfl, rfl, rfl⟩ <;>
    · funext vc j
      exact (ite_self 0).symm
  | succ n ih =>
    obtain ⟨es, s, h⟩ := ih (by omega)
    have hmessage : creditsInMessage ≤ creditsForEachClient := by decide
    obtain ⟨ds, s', h'⟩ := h.inv (by omega)
    obtain ⟨ds', s'', h''⟩ := h'.count_up hn
    exact ⟨_, s'', h''⟩

/-- With the last of `CREDITS_IN_MESSAGE` INVs a credit message is due, and as many receives. -/
theorem flow_buffers_in_range_credits : ∃ es s s', (receivers 2 32).Run ⟨Flow.quiet, fun _ => .start 2⟩ es s ∧
    polls es 1 = List.replicate creditsInMessage anInv ∧ Step 32 s (.credits 1 [(0, immData 2 1 .inv)]) s' ∧
    (∀ j < creditsInMessage, (s.inbox 1).incomingReqs (((s.inbox 1).pushPtr.toNat + j) % linCltBufSlots 2) = none ∧
      ((s.inbox 1).pushPtr.toNat + j) % linCltBufSlots 2 ∉ (s.inbox 1).recvs) ∧
    ∃ l, arrivals es 1 = polls es 1 ++ l ∧ ∀ k < linCltBufSlots 2,
      (s'.inbox 1).incomingReqs (((s'.inbox 1).nextSlot 2 + k) % linCltBufSlots 2) = l[k]? := by
  obtain ⟨es, s, h⟩ := exists_takenIn (creditsInMessage - 1) (by decide)
  obtain ⟨ds, s₁, h₁⟩ := h.inv (by decide)
  have hforged : forgeCredits 2 (1 : Fin 2) (s₁.flow.node 1).cohMessageCount (s₁.flow.node 1).seen =
      (invTable 0, [(0, immData 2 1 .inv)]) := by
    rw [h₁.count, h₁.seen, forgeCredits_invTable]
    exact if_pos rfl
  have hstep : Step 32 s₁ (.credits 1 [(0, immData 2 1 .inv)]) _ := .credits 1 _ _ (.sendCredits 1 _ hforged)
  obtain ⟨hposts, -⟩ := flow_buffers_in_range le_rfl (by decide) h₁.run
  obtain ⟨-, hring⟩ := flow_buffers_in_range le_rfl (by decide) (h₁.run.snoc hstep)
  obtain ⟨l, hl, -, hslots⟩ := hring 1
  rw [arrivals_concat, polls_concat] at hl
  refine ⟨_, s₁, _, h₁.run, h₁.polled, hstep, fun j hj => (hposts 1 _ _ hstep).2.2.2 j ?_, l, ?_, hslots⟩
  · rwa [List.length_singleton, Nat.one_mul]
  · simpa only [RecvEvent.arrival, RecvEvent.polled, List.append_nil] using hl

end Receivers

end CcKvs.Lin
