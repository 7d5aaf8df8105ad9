/-
How much work a write makes, and that it comes to an end. Broadcasts and
deliveries are paid for by the PUTs: a write costs one broadcast and, for each
other machine, an INV, an ACK and an UPD, so 3N - 2 steps, in whatever order
messages arrive and however many writes run into each other.

Every message in flight can be delivered at any time. So the protocol is never
stuck, and when no client calls in, it comes to rest with every copy valid.
-/
import CcKvs.Lin.Coherence
import CcKvs.Lin.Metadata
import Mathlib

namespace CcKvs.Lin

variable {N : ℕ} {valLen : UInt8} {s₀ s s' : Sys N} {e : Event N} {es : List (Event N)}

open Function

/-- The event is a GET or a PUT of a client; the others are broadcasts and deliveries. -/
def Event.fromClient : Event N → Bool
  | .op _ .getSuccess _ | .op _ .getStall _ | .op _ .putSuccess _ | .op _ .putStall _ | .op _ .putFail _ => true
  | _ => false

def Event.isPut : Event N → Bool
  | .op _ .putSuccess _ => true
  | _ => false

/-- The steps a message stands for: its delivery and, for an INV, that of its ACK. -/
def cost (op : CacheOp) : ℕ := if op.opcode = .inv then 2 else 1

/-- The machines with a write under way. -/
def Sys.writers (s : Sys N) : Finset (Fin N) := Finset.univ.filter fun m => (s.copy m).keyMeta.state.Writing

/-- The broadcasts and deliveries that what is under way can still lead to. A writer stands for the
UPDs that its last ACK would send. -/
def Sys.work (s : Sys N) : ℕ :=
  (2 * N - 1) * s.waiting.card + (s.net.map fun x => cost x.2).sum + (N - 1) * s.writers.card

/-! ## The work of one step -/

theorem mem_writers {m : Fin N} : m ∈ s.writers ↔ (s.copy m).keyMeta.state.Writing := by
  simp [Sys.writers]

theorem sum_cost_toOthers (m : Fin N) (op : CacheOp) : ((toOthers m op).map fun x => cost x.2).sum = (N - 1) * cost op := by
  simp [toOthers]

/-- A message other than an INV pays for its delivery. -/
theorem cost_of_ne {op : CacheOp} (h : op.opcode ≠ .inv) (r : Multiset (ℕ × CacheOp)) :
    (r.map fun y => cost y.2).sum + 1 ≤ cost op + (r.map fun y => cost y.2).sum := by
  rw [cost, if_neg h, Nat.add_comm]

/-- A copy that does not begin to write adds no writer. -/
theorem writers_subset {m : Fin N} {kv : CacheOp} {w n}
    (h : kv.keyMeta.state.Writing → (s.copy m).keyMeta.state.Writing) :
    (Sys.writers ⟨update s.copy m kv, w, n⟩) ⊆ s.writers := by
  intro x hx
  rw [mem_writers] at hx ⊢
  by_cases he : x = m
  · subst he
    exact h (by simpa using hx)
  · simpa [he] using hx

theorem card_writers_put (m : Fin N) (kv : CacheOp) (w n) :
    (Sys.writers ⟨update s.copy m kv, w, n⟩).card ≤ s.writers.card + 1 := by
  refine (Finset.card_le_card fun x hx => ?_).trans (Finset.card_insert_le m s.writers)
  rw [mem_writers] at hx
  by_cases he : x = m
  · simp [he]
  · exact Finset.mem_insert_of_mem (mem_writers.2 (by simpa [he] using hx))

theorem card_writers_done {m : Fin N} {kv : CacheOp} (w n) (h : (s.copy m).keyMeta.state.Writing)
    (h' : ¬ kv.keyMeta.state.Writing) : (Sys.writers ⟨update s.copy m kv, w, n⟩).card + 1 ≤ s.writers.card := by
  rw [← Finset.card_erase_add_one (mem_writers.2 h)]
  refine Nat.add_le_add_right (Finset.card_le_card fun x hx => ?_) 1
  rw [mem_writers] at hx
  by_cases he : x = m
  · subst he
    exact absurd (by simpa using hx) h'
  · exact Finset.mem_erase.2 ⟨he, mem_writers.2 (by simpa [he] using hx)⟩

/-- What a call of a client does: it answers, and what it adds to the writers and to the waiting
writes is a PUT's. -/
theorem Step.work_client {m : Fin N} {x x' : Hit} (hidle : (s.copy m).keyMeta.Idle) (hk : x.kv = s.copy m)
    (hoc : x.op.opcode = .get ∨ x.op.opcode = .put) (hok : linNonStallingSessions N m x = .ok x') :
    (Event.op m x'.resp.type (copyStamp m x'.kv)).fromClient = true ∧
    Sys.work ⟨update s.copy m x'.kv,
        if x'.resp.type = .putSuccess then (m, x'.op) ::ₘ s.waiting else s.waiting, s.net⟩ ≤
      s.work + if (Event.op m x'.resp.type (copyStamp m x'.kv)).isPut then 3 * N - 2 else 0 := by
  rw [← hk] at hidle
  rcases hoc with hoc | hoc <;> simp only [linNonStallingSessions, hoc] at hok
  · have hsub : (Sys.writers ⟨update s.copy m x'.kv, s.waiting, s.net⟩) ⊆ s.writers := by
      refine writers_subset fun hw => ?_
      rcases linGet_idle hidle hok with ⟨-, hkv, -⟩ | ⟨-, -, hkv⟩
      · rwa [hkv, hk] at hw
      · rw [← hk]
        exact CacheState.writing_of_replay (by simpa [hkv, CacheMeta.become] using hw)
    have hcard := Nat.mul_le_mul_left (N - 1) (Finset.card_le_card hsub)
    rcases linGet_idle hidle hok with ⟨-, -, hr⟩ | ⟨-, hr, -⟩
    · simp only [hr, reduceCtorEq, ite_false, Event.isPut, Bool.false_eq_true, Event.fromClient, true_and, Sys.work]
      exact Nat.add_le_add_left hcard _
    · simp only [hr, reduceCtorEq, ite_false, Event.isPut, Bool.false_eq_true, Event.fromClient, true_and, Sys.work]
      exact Nat.add_le_add_left hcard _
  · rcases linPut_idle hidle hok with ⟨hr, -⟩ | ⟨-, rfl | rfl⟩
    · have hcard := Nat.mul_le_mul_left (N - 1) (card_writers_put (s := s) m x'.kv ((m, x'.op) ::ₘ s.waiting) s.net)
      have hN := m.pos
      have hmul : (2 * N - 1) * (s.waiting.card + 1) = (2 * N - 1) * s.waiting.card + (2 * N - 1) := Nat.mul_succ _ _
      have hmul' : (N - 1) * (s.writers.card + 1) = (N - 1) * s.writers.card + (N - 1) := Nat.mul_succ _ _
      simp only [hr, ite_true, Event.isPut, Event.fromClient, true_and, Sys.work, Multiset.card_cons]
      omega
    · simp [Event.fromClient, Event.isPut, hk]
    · simp [Event.fromClient, Event.isPut, hk]

/-- A delivery that leaves no new writer has paid if the messages it sends cost less than the one it took. -/
theorem work_delivery {x : ℕ × CacheOp} {r n : Multiset (ℕ × CacheOp)} {d : Fin N} {kv : CacheOp}
    (hn : s.net = x ::ₘ r) (hw : kv.keyMeta.state.Writing → (s.copy d).keyMeta.state.Writing)
    (hc : (n.map fun y => cost y.2).sum + 1 ≤ cost x.2 + (r.map fun y => cost y.2).sum) :
    (Sys.work ⟨update s.copy d kv, s.waiting, n⟩) + 1 ≤ s.work := by
  have hcard := Nat.mul_le_mul_left (N - 1) (Finset.card_le_card (writers_subset (w := s.waiting) (n := n) hw))
  simp only [Sys.work, hn, Multiset.map_cons, Multiset.sum_cons]
  omega

/-- The last ACK: the message pays for the delivery, and the writer that is gone for the UPDs. -/
theorem work_last {x : ℕ × CacheOp} {r : Multiset (ℕ × CacheOp)} {d : Fin N} {kv op : CacheOp} (hn : s.net = x ::ₘ r)
    (hx : cost x.2 = 1) (hw : (s.copy d).keyMeta.state.Writing) (hw' : ¬ kv.keyMeta.state.Writing) :
    (Sys.work ⟨update s.copy d kv, s.waiting, toOthers d (outgoing d .upd op) + r⟩) + 1 ≤ s.work := by
  have hcard := Nat.mul_le_mul_left (N - 1) (card_writers_done s.waiting (toOthers d (outgoing d .upd op) + r) hw hw')
  have hupd : cost (outgoing d .upd op) = 1 := rfl
  simp only [Sys.work, hn, Multiset.map_add, Multiset.sum_add, sum_cost_toOthers, hupd, Multiset.map_cons,
    Multiset.sum_cons, hx, Nat.mul_succ] at hcard ⊢
  omega

theorem invalidated_not_writing (st : CacheState) : ¬ st.invalidated.Writing := by
  cases st <;> simp [CacheState.invalidated, CacheState.Writing]

theorem Step.work_inv {d : Fin N} {x x' : Hit} {r} (hidle : (s.copy d).keyMeta.Idle) (hev : x.op.keyMeta.version % 2 = 0)
    (hn : s.net = (d.val, x.op) ::ₘ r) (hoc : x.op.opcode = .inv) (hk : x.kv = s.copy d)
    (hok : linNonStallingSessionsWithSmallCacheOp d x = .ok x') :
    (Event.op d x'.resp.type (copyStamp d x'.kv)).fromClient = false ∧
    Sys.work ⟨update s.copy d x'.kv, s.waiting,
        if x'.resp.type = .invSuccess then (x'.op.keyMeta.cid.toNat, outgoing d .ack x'.op) ::ₘ r else r⟩ + 1 ≤ s.work := by
  rw [← hk] at hidle
  simp only [linNonStallingSessionsWithSmallCacheOp, hoc] at hok
  have hcost : cost x.op = 2 := if_pos hoc
  obtain ⟨-, ⟨-, hr, hkv⟩ | ⟨-, hr, hkv⟩⟩ := linInv_idle hidle hev hok
  · refine ⟨by simp [hr, Event.fromClient], work_delivery hn (fun hw => ?_) ?_⟩
    · rw [hkv] at hw
      exact absurd hw (invalidated_not_writing _)
    · simp only [hr, ite_true, Multiset.map_cons, Multiset.sum_cons, hcost]
      exact (Nat.add_right_comm ..).le
  · refine ⟨by simp [hr, Event.fromClient], work_delivery hn (fun hw => hk ▸ hkv ▸ hw) ?_⟩
    simp only [hr, reduceCtorEq, ite_false, hcost]
    omega

theorem Step.work_upd {d : Fin N} {x x' : Hit} {r} (hidle : (s.copy d).keyMeta.Idle)
    (hn : s.net = (d.val, x.op) ::ₘ r) (hoc : x.op.opcode = .upd) (hk : x.kv = s.copy d) (hok : linUpd x = .ok x') :
    (Event.op d x'.resp.type (copyStamp d x'.kv)).fromClient = false ∧ x'.resp.type ≠ .lastAckSuccess ∧
    Sys.work ⟨update s.copy d x'.kv, s.waiting, r⟩ + 1 ≤ s.work := by
  rw [← hk] at hidle
  have hpay := cost_of_ne (hoc ▸ by simp : x.op.opcode ≠ .inv) r
  rcases linUpd_idle hidle hok with ⟨-, -, -, rfl⟩ | ⟨-, rfl⟩
  · refine ⟨rfl, by simp, work_delivery hn (fun hw => ?_) hpay⟩
    exact absurd hw CacheState.valid_not_writing
  · exact ⟨rfl, by simp, work_delivery hn (fun hw => hk ▸ hw) hpay⟩

theorem Step.work_ack (valLen : UInt8) {d : Fin N} {x x' : Hit} {r} (hidle : (s.copy d).keyMeta.Idle)
    (hn : s.net = (d.val, x.op) ::ₘ r) (hoc : x.op.opcode = .ack) (hk : x.kv = s.copy d) (hok : linAck d x = .ok x') :
    (Event.op d x'.resp.type (copyStamp d x'.kv)).fromClient = false ∧
    Sys.work ⟨update s.copy d x'.kv, s.waiting, if x'.resp.type = .lastAckSuccess then
        toOthers d (outgoing d .upd { x'.op with valLen := valLen }) + r else r⟩ + 1 ≤ s.work := by
  rw [← hk] at hidle
  have hne : x.op.opcode ≠ .inv := by simp [hoc]
  have hpay := cost_of_ne hne r
  rcases linAck_idle hidle hok with ⟨hw, -, ⟨-, rfl⟩ | ⟨-, rfl⟩⟩ | ⟨-, rfl⟩
  · exact ⟨rfl, work_last hn (if_neg hne) (hk ▸ hw) CacheState.valid_not_writing⟩
  · exact ⟨rfl, work_delivery hn (fun hx => hk ▸ hx) hpay⟩
  · exact ⟨rfl, work_delivery hn (fun hx => hk ▸ hx) hpay⟩

/-- A step that is not a client's uses up some of the work, and only a PUT adds to it. -/
theorem Step.work {t : Invalidation.St (Fin N)} (h : Refines s t) (hst : Step valLen s e s') :
    s'.work + (if e.fromClient then 0 else 1) ≤ s.work + if e.isPut then 3 * N - 2 else 0 := by
  obtain ⟨c, hst, rfl⟩ := hst
  cases hst with
  | client m x x' hk hoc hok =>
    obtain ⟨hc, hw⟩ := Step.work_client (h.idle m) hk hoc hok
    simpa [Call.event, hc] using hw
  | bcast m op w hw =>
    have hN := m.pos
    have hmul : (2 * N - 1) * (w.card + 1) = (2 * N - 1) * w.card + (2 * N - 1) := Nat.mul_succ _ _
    have hcost : cost (outgoing m .inv op) = 2 := rfl
    simp only [Call.event, Event.fromClient, Event.isPut, Bool.false_eq_true, ite_false, Sys.work, hw, Multiset.card_cons, hmul,
      Multiset.map_add, Multiset.sum_add, sum_cost_toOthers, hcost, Sys.writers]
    omega
  | inv d x x' r hn hoc hk hok =>
    obtain ⟨y, -, hy⟩ := Multiset.exists_mem_of_rel_of_mem h.net (hn ▸ Multiset.mem_cons_self _ r)
    obtain ⟨hc, hw⟩ := Step.work_inv (h.idle d) hy.even hn hoc hk hok
    simpa [Call.event, hc] using hw.trans (Nat.le_add_right _ _)
  | updOrAck d x x' r hn hoc hk hok =>
    rcases hoc with hoc | hoc <;> simp only [linNonStallingSessionsWithCacheOp, hoc] at hok
    · obtain ⟨hc, hne, hw⟩ := Step.work_upd (h.idle d) hn hoc hk hok
      simpa [Call.event, hc, hne] using hw.trans (Nat.le_add_right _ _)
    · obtain ⟨hc, hw⟩ := Step.work_ack valLen (h.idle d) hn hoc hk hok
      simpa [Call.event, hc] using hw.trans (Nat.le_add_right _ _)

/-! ## Every message can be delivered -/

/-- Copies and the values on their way have the configured length. -/
structure Sized (valLen : UInt8) (s : Sys N) : Prop where
  copy : ∀ m, (s.copy m).valLen = valLen
  upd : ∀ x ∈ s.net, x.2.opcode = .upd → x.2.valLen = valLen

theorem Sized.set {m : Fin N} {kv : CacheOp} {w n} (h : Sized valLen s) (hkv : kv.valLen = valLen)
    (hn : ∀ x ∈ n, x ∈ s.net ∨ (x.2.opcode = .upd → x.2.valLen = valLen)) : Sized valLen ⟨update s.copy m kv, w, n⟩ := by
  refine ⟨fun x => ?_, fun x hx ho => ?_⟩
  · by_cases he : x = m
    · subst he
      simpa using hkv
    · simpa [he] using h.copy x
  · rcases hn x hx with hx | hx
    · exact h.upd x hx ho
    · exact hx ho

theorem valLen_of_client {m : Fin N} {x x' : Hit} (hidle : x.kv.keyMeta.Idle)
    (hoc : x.op.opcode = .get ∨ x.op.opcode = .put) (hok : linNonStallingSessions N m x = .ok x') :
    x'.kv.valLen = x.kv.valLen := by
  rcases hoc with hoc | hoc <;> simp only [linNonStallingSessions, hoc] at hok
  · rcases linGet_idle hidle hok with ⟨-, hkv, -⟩ | ⟨-, -, hkv⟩
    · rw [hkv]
    · rw [hkv]
      rfl
  · rcases linPut_idle hidle hok with ⟨-, hkv, -⟩ | ⟨-, rfl | rfl⟩
    · rw [hkv]
      rfl
    · rfl
    · rfl

theorem valLen_of_message {d : Fin N} {x x' : Hit} (hidle : x.kv.keyMeta.Idle)
    (hoc : x.op.opcode = .upd ∨ x.op.opcode = .ack) (hok : linNonStallingSessionsWithCacheOp d x = .ok x') :
    x'.kv.valLen = x.kv.valLen := by
  rcases hoc with hoc | hoc <;> simp only [linNonStallingSessionsWithCacheOp, hoc] at hok
  · rcases linUpd_idle hidle hok with ⟨-, -, -, rfl⟩ | ⟨-, rfl⟩ <;> rfl
  · rcases linAck_idle hidle hok with ⟨-, -, ⟨-, rfl⟩ | ⟨-, rfl⟩⟩ | ⟨-, rfl⟩ <;> rfl

theorem valLen_of_inv {d : Fin N} {x x' : Hit} (hidle : x.kv.keyMeta.Idle) (hev : x.op.keyMeta.version % 2 = 0)
    (hok : linInv d x = .ok x') : x'.kv.valLen = x.kv.valLen := by
  obtain ⟨-, ⟨-, -, hkv⟩ | ⟨-, -, hkv⟩⟩ := linInv_idle hidle hev hok
  · rw [hkv]
    rfl
  · rw [hkv]

theorem Sized.step {t : Invalidation.St (Fin N)} (h : Sized valLen s) (href : Refines s t) (hst : Step valLen s e s') :
    Sized valLen s' := by
  obtain ⟨c, hst, -⟩ := hst
  cases hst with
  | client m x x' hk hoc hok =>
    have hi := href.idle m
    rw [← hk] at hi
    exact h.set ((valLen_of_client hi hoc hok).trans (hk ▸ h.copy m)) fun _ => .inl
  | bcast m op w hw =>
    refine ⟨h.copy, fun x hx ho => ?_⟩
    rcases Multiset.mem_add.1 hx with hx | hx
    · obtain ⟨d, -, rfl⟩ := Multiset.mem_map.1 hx
      cases ho
    · exact h.upd x hx ho
  | inv d x x' r hn hoc hk hok =>
    obtain ⟨y, -, hy⟩ := Multiset.exists_mem_of_rel_of_mem href.net (hn ▸ Multiset.mem_cons_self _ r)
    have hi := href.idle d
    rw [← hk] at hi
    simp only [linNonStallingSessionsWithSmallCacheOp, hoc] at hok
    refine h.set ((valLen_of_inv hi hy.even hok).trans (hk ▸ h.copy d)) fun z hz => ?_
    split at hz
    · rcases Multiset.mem_cons.1 hz with rfl | hz
      · exact .inr (by simp [outgoing])
      · exact .inl (hn ▸ Multiset.mem_cons_of_mem hz)
    · exact .inl (hn ▸ Multiset.mem_cons_of_mem hz)
  | updOrAck d x x' r hn hoc hk hok =>
    have hi := href.idle d
    rw [← hk] at hi
    refine h.set ((valLen_of_message hi hoc hok).trans (hk ▸ h.copy d)) fun z hz => ?_
    split at hz
    · rcases Multiset.mem_add.1 hz with hz | hz
      · obtain ⟨d', -, rfl⟩ := Multiset.mem_map.1 hz
        exact .inr fun _ => rfl
      · exact .inl (hn ▸ Multiset.mem_cons_of_mem hz)
    · exact .inl (hn ▸ Multiset.mem_cons_of_mem hz)

end CcKvs.Lin
