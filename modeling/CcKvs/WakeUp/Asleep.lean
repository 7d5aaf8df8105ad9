/-
Operations that sleep on a valid key. A key becomes valid by an update or by the
last acknowledgement of a local write; `wake_up_stalled` acts on the first only,
and in the buffer of the client that polled it. As long as operations that wait
for a key sit nowhere else when it becomes valid, none is forgotten. Otherwise
one can be: a client's read behind its own write sleeps on when the write is
done.
-/
import CcKvs.Client.Loop
import CcKvs.Lin.Held
import CcKvs.WakeUp.Slots

namespace CcKvs.WakeUp

open Function Client
open Sc (Slot)

section

variable {N C : ℕ}

/-! ## What a client remembers -/

/-- An update of key `k` has succeeded, and its round of the bookkeeping is still to come. -/
def Thread.Heard (th : Thread N) (k : UInt64) : Prop :=
  ∃ u, th.coh.kept ≤ u ∧ u < th.coh.served ∧ (th.coh.updateOps u).opcode = .upd ∧ (th.coh.updateOps u).key = k ∧
    (th.coh.updateResp u).type = .updSuccess

/-- No operation sleeps on the key of an update that succeeded and whose round is over. -/
def Thread.Told (th : Thread N) : Prop :=
  ∀ u < th.coh.kept, (th.coh.updateOps u).opcode = .upd → (th.coh.updateResp u).type = .updSuccess →
    ∀ x ∈ th.buffer, x.key = (th.coh.updateOps u).key → ¬ Asleep x

/-- The counters over `update_ops` in each phase of the loop. -/
def Thread.Counters (th : Thread N) : Prop :=
  match th.pc with
  | .poll => th.coh.kept = 0 ∧ th.coh.served = 0
  | .updates => th.coh.kept = 0
  | .bookkeeping => th.coh.kept ≤ th.coh.served
  | .top | .probe _ _ | .probed _ => th.coh.kept = th.coh.served

/-- Whoever sleeps on a key that is `valid` is about to be woken. -/
structure Thread.Ok (valid : UInt64 → Prop) (th : Thread N) : Prop where
  own : ∀ x ∈ th.buffer, Own x
  counters : th.Counters
  room : th.own.nextOpI ≤ cacheBatchSize
  heard : ∀ x ∈ th.buffer, Asleep x → valid x.key → th.Heard x.key
  told : th.pc = .bookkeeping → th.Told

namespace Thread.Ok

variable {th : Thread N} {valid valid' : UInt64 → Prop} {e : Env N} {f : Fill N}

theorem mono (h : th.Ok valid) (hv : ∀ x ∈ th.buffer, Asleep x → valid' x.key → valid x.key) : th.Ok valid' where
  own := h.own
  counters := h.counters
  room := h.room
  heard x hx ha hk := h.heard x hx ha (hv x hx ha hk)
  told := h.told

/-- While no update was served that is not kept, nobody sleeps on a valid key. -/
theorem not_valid (h : th.Ok valid) (hc : th.coh.kept = th.coh.served) {x : Slot N} (hx : x ∈ th.buffer) (ha : Asleep x) :
    ¬ valid x.key := by
  intro hv
  obtain ⟨u, hge, hlt, -⟩ := h.heard x hx ha hv
  omega

theorem swap (h : th.Ok valid) (hpc : th.pc = .top) (inlining : Bool) : (th.swap inlining).Ok valid := by
  have hc : th.coh.kept = th.coh.served := by simpa [Counters, hpc] using h.counters
  have hi : (th.own.swapOps inlining).nextOpI = th.own.nextOpI := by cases inlining <;> rfl
  have hb : (th.swap inlining).buffer = th.buffer := by
    simp only [buffer, hpc, Thread.swap, hi]
    cases inlining <;> rfl
  refine ⟨by rw [hb]; exact h.own, ⟨rfl, rfl⟩, ?_, ?_, fun hpc => by cases hpc⟩
  · exact hi ▸ h.room
  · rw [hb]
    exact fun x hx ha hv => absurd hv (h.not_valid hc hx ha)

theorem poll (h : th.Ok valid) (hpc : th.pc = .poll) (valLen : UInt8) (req : CacheOp) :
    Thread.Ok valid { th with coh := th.coh.pollCoherence valLen req } := by
  have hc : th.coh.kept = 0 ∧ th.coh.served = 0 := by simpa [Counters, hpc] using h.counters
  refine ⟨h.own, ?_, h.room, fun x hx ha hv => absurd hv (h.not_valid (hc.1.trans hc.2.symm) hx ha), ?_⟩
  · simp only [Counters, hpc]
    exact hc
  · intro hpc'
    rw [hpc] at hpc'
    cases hpc'

/-- The client goes on to another phase with the same slots. -/
theorem goto (h : th.Ok valid) {pc : Pc N} (hb : Thread.buffer { th with pc := pc } = th.buffer)
    (hc : Thread.Counters { th with pc := pc }) (ht : pc = .bookkeeping → th.coh.kept = 0) :
    Thread.Ok valid { th with pc := pc } where
  own := by rw [hb]; exact h.own
  counters := hc
  room := h.room
  heard := by rw [hb]; exact h.heard
  told hpc u hu := by
    have := ht hpc
    change u < th.coh.kept at hu
    omega

/-- A key that becomes valid here is one that this client has heard of. -/
theorem serve (h : th.Ok valid) (hpc : th.pc = .updates) {op' : CacheOp} {resp' : MicaResp}
    (hv : ∀ k, valid' k → valid k ∨ k = op'.key ∧ op'.opcode = .upd ∧ resp'.type = .updSuccess ∨
      ∀ x ∈ th.buffer, Asleep x → x.key ≠ k) :
    Thread.Ok valid' { th with coh := th.coh.serve op' resp' } := by
  have hk : th.coh.kept = 0 := by simpa [Counters, hpc] using h.counters
  refine ⟨h.own, ?_, h.room, fun x hx ha hx' => ?_, fun hpc' => ?_⟩
  · simp only [Counters, hpc]
    exact hk
  · rcases hv _ hx' with hx' | ⟨hkey, ho, ht⟩ | hnone
    · obtain ⟨u, hge, hlt, hu, hukey, hut⟩ := h.heard x hx ha hx'
      have hne : u ≠ th.coh.served := hlt.ne
      refine ⟨u, hge, Nat.lt_succ_of_lt hlt, ?_⟩
      simp only [Lin.Client.serve, update_of_ne hne]
      exact ⟨hu, hukey, hut⟩
    · refine ⟨th.coh.served, hk ▸ Nat.zero_le _, Nat.lt_succ_self _, ?_⟩
      simp only [Lin.Client.serve, update_self]
      exact ⟨ho, hkey.symm, ht⟩
    · exact absurd rfl (hnone x hx ha)
  · rw [hpc] at hpc'
    cases hpc'

/-- A slot that sleeps after a round of the bookkeeping was not the round's to wake. -/
theorem wake_asleep {u j : ℕ} (hj : j < cacheBatchSize) (ha : Asleep (th.wake u j)) : th.wake u j = th.own.ops j ∧
    ((th.coh.updateOps u).opcode = .upd → (th.coh.updateResp u).type = .updSuccess →
      (th.own.ops j).key ≠ (th.coh.updateOps u).key) := by
  unfold Thread.wake at ha ⊢
  split at ha
  · next hcall =>
    rw [if_pos hcall]
    unfold wakeUpStalled at ha ⊢
    split at ha
    · simp [Asleep] at ha
    · next hno =>
      rw [if_neg hno]
      exact ⟨rfl, fun _ ht hkey => hno ⟨ht, hkey.symm, ha⟩⟩
  · next hcall =>
    rw [if_neg hcall]
    exact ⟨rfl, fun ho _ _ => hcall ⟨.inl ho, hj⟩⟩

theorem wake_own {u j : ℕ} (h : Own (th.own.ops j)) : Own (th.wake u j) := by
  unfold Thread.wake
  split
  · unfold wakeUpStalled
    split
    · next ha =>
      rcases h with h | ht
      · exact .inl h
      · simp [Asleep, ht] at ha
    · exact h
  · exact h

theorem keep (h : th.Ok valid) (hpc : th.pc = .bookkeeping) (hlt : th.coh.kept < th.coh.served) {valLen : UInt8}
    {coh : Lin.Client} (hok : th.coh.bookkeeping valLen = .ok coh) : (th.keep coh).Ok valid := by
  obtain ⟨hops, hresp, hserved, hkept⟩ : coh.updateOps = th.coh.updateOps ∧ coh.updateResp = th.coh.updateResp ∧
      coh.served = th.coh.served ∧ coh.kept = th.coh.kept + 1 := by
    rcases Lin.Client.bookkeeping_cases hok with ⟨-, rfl⟩ | ⟨-, rfl⟩ <;> exact ⟨rfl, rfl, rfl, rfl⟩
  have hb : th.buffer = (List.range th.own.nextOpI).map th.own.ops := by simp only [buffer, hpc]
  have hb' : (th.keep coh).buffer = (List.range th.own.nextOpI).map (th.wake th.coh.kept) := by
    simp only [buffer, Thread.keep, hpc]
  have hmem {j : ℕ} (hj : j < th.own.nextOpI) : th.own.ops j ∈ th.buffer := by
    rw [hb]
    exact List.mem_map_of_mem (List.mem_range.2 hj)
  -- a slot that sleeps now slept before, and not on the key of this round's update
  have hold {x : Slot N} (hx : x ∈ (th.keep coh).buffer) (ha : Asleep x) : x ∈ th.buffer ∧
      ((th.coh.updateOps th.coh.kept).opcode = .upd → (th.coh.updateResp th.coh.kept).type = .updSuccess →
        x.key ≠ (th.coh.updateOps th.coh.kept).key) := by
    rw [hb', List.mem_map] at hx
    obtain ⟨j, hj, rfl⟩ := hx
    have hj := List.mem_range.1 hj
    obtain ⟨he, hne⟩ := wake_asleep (hj.trans_le h.room) ha
    rw [he]
    exact ⟨hmem hj, hne⟩
  refine ⟨fun x hx => ?_, ?_, h.room, fun x hx ha hv => ?_, fun _ u hu ho ht x hx hkey ha => ?_⟩
  · rw [hb', List.mem_map] at hx
    obtain ⟨j, hj, rfl⟩ := hx
    exact wake_own (h.own _ (hmem (List.mem_range.1 hj)))
  · simp only [Counters, Thread.keep, hpc, hserved, hkept]
    omega
  · obtain ⟨hx, hne⟩ := hold hx ha
    obtain ⟨u, hge, hu, ho, hkey, ht⟩ := h.heard x hx ha hv
    refine ⟨u, ?_, hserved ▸ hu, hops ▸ ho, hops ▸ hkey, hresp ▸ ht⟩
    rcases Nat.eq_or_lt_of_le hge with rfl | hlt
    · exact absurd hkey.symm (hne ho ht)
    · exact hkept ▸ hlt
  · obtain ⟨hx, hne⟩ := hold hx ha
    simp only [Thread.keep, hops, hresp, hkept] at hu ho ht hkey
    rcases Nat.lt_succ_iff_lt_or_eq.1 hu with hu | rfl
    · exact h.told hpc u hu ho ht x hx hkey ha
    · exact hne ho ht hkey

theorem fill (h : th.Ok valid) (hpc : th.pc = .bookkeeping) (hc : th.coh.kept = th.coh.served) {tagged : ℕ → Bool}
    {t : Client.Trace N} {n : ℕ} (hok : batchFromTrace e tagged t n th.own.traceIter th.own.ops th.own.nextOpI
      th.own.hottestKeysPointers = .ok f) (hi : f.i = cacheBatchSize) : Thread.Ok valid { th with pc := .probe f 0 } := by
  have hb : th.buffer = (List.range th.own.nextOpI).map th.own.ops := by simp only [buffer, hpc]
  have hslot {x : Slot N} (hx : x ∈ (List.range cacheBatchSize).map f.ops) : (∃ y ∈ th.buffer, Same y x) ∨ Fresh x := by
    obtain ⟨j, hj, rfl⟩ := List.mem_map.1 hx
    unfold batchFromTrace at hok
    split at hok
    · rcases loop_slot hok (hi ▸ List.mem_range.1 hj) with ⟨hlt, hs⟩ | hf
      · exact .inl ⟨_, hb ▸ List.mem_map_of_mem (List.mem_range.2 hlt), hs⟩
      · exact .inr hf
    · cases hok
  refine ⟨fun x hx => ?_, hc, h.room, fun x hx ha hv => ?_, fun hpc' => by cases hpc'⟩
  · rcases hslot hx with ⟨y, hy, hs⟩ | hf
    · exact hs.own (h.own y hy)
    · exact .inl (hf.2.imp_right .inl)
  · rcases hslot hx with ⟨y, hy, hs⟩ | hf
    · exact absurd (hs.key ▸ hv) (h.not_valid hc hy (hs.asleep.1 ha))
    · exact absurd ha hf.not_asleep

theorem probe {m : Fin N} {cache cache' : Cache} {op' : CacheOp} {resp resp' : MicaResp} {i : ℕ}
    (h : th.Ok (ValidIn cache)) (hpc : th.pc = .probe f i) (hi : i < cacheBatchSize)
    (hs : CacheFun.lin.skips true (f.ops i).type = false) (htype : resp.type = (f.ops i).type)
    (hok : WakeUp.serve m .lin cache (.ofBytes (f.ops i).op) resp = .ok (cache', op', resp')) :
    (th.probed f i op' resp'.type).Ok (ValidIn cache') ∧ ∀ k, ValidIn cache' k → ValidIn cache k := by
  have hb : th.buffer = (List.range cacheBatchSize).map f.ops := by simp only [buffer, hpc]
  have hc : th.coh.kept = th.coh.served := by simpa [Counters, hpc] using h.counters
  have ho : (f.ops i).opcode = .get ∨ (f.ops i).opcode = .put ∨ (f.ops i).opcode = .brc := by
    refine (h.own _ (hb ▸ List.mem_map_of_mem (List.mem_range.2 hi))).resolve_right fun ht => ?_
    simp [CacheFun.skips, ht] at hs
  obtain ⟨hmono, hstall⟩ := probe_valid ho (htype ▸ hs) hok
  have hslot {x : Slot N} (hx : x ∈ (th.probed f i op' resp'.type).buffer) :
      x ∈ th.buffer ∨ x = ⟨storeOp op' (f.ops i).op, resp'.type, (f.ops i).machine⟩ := by
    obtain ⟨j, hj, rfl⟩ := List.mem_map.1 hx
    by_cases hji : j = i
    · rw [hji]
      exact .inr (update_self _ _ _)
    · dsimp only
      rw [update_of_ne hji, hb]
      exact .inl (List.mem_map_of_mem hj)
  refine ⟨⟨fun x hx => ?_, hc, h.room, fun x hx ha hv => ?_, fun hpc' => by cases hpc'⟩, hmono⟩
  · rcases hslot hx with hx | rfl
    · exact h.own x hx
    · left
      rw [storeOp_opcode]
      rcases probe_opcode ho hok with ho' | ho' | ho' <;> rw [ho'] <;> decide
  · rcases hslot hx with hx | rfl
    · exact absurd (hmono _ hv) (h.not_valid hc hx ha)
    · rw [(storeOp_keeps op' resp'.type).key] at hv
      exact absurd hv (hstall ha)

/-- What is carried over sleeps as it did; a write that was sent is not. -/
theorem cold (h : th.Ok valid) (hpc : th.pc = .probed f) (hp : e.protocol = .lin) {credits : ℕ} {slots' : List (Slot N)}
    {c : Cold N} (hok : handleColdRequests e 0 (slots e credits f) (th.own.cold f) = .ok (slots', c)) :
    (th.next f slots' c).Ok valid := by
  have hb : th.buffer = (List.range cacheBatchSize).map f.ops := by simp only [buffer, hpc]
  have hc : th.coh.kept = th.coh.served := by simpa [Counters, hpc] using h.counters
  obtain ⟨ys, hys, hlen, hcopied⟩ := handleColdRequests_adds hok
  have hb' : (th.next f slots' c).buffer = ys := hys
  have hsends : List.Forall₂ e.Sends th.buffer (slots e credits f) := hb ▸ broadcastInvs_sends hp credits _
  have hslot {y : Slot N} (hy : y ∈ (th.next f slots' c).buffer) :
      (∃ x ∈ th.buffer, y.key = x.key ∧ (Asleep y → Asleep x) ∧ (Own x → Own y)) ∨ y.type = .unservedMiss := by
    obtain ⟨z, hz, ⟨hsame, hret⟩ | ht⟩ := hcopied y (hb' ▸ hy)
    · left
      obtain ⟨x, hx, hxz⟩ := Lts.exists_mem_of_forall₂ hsends.flip hz
      have hxz : e.Sends x z := hxz
      refine ⟨x, hx, hsame.key.trans hxz.keeps.key, fun ha => ?_, fun ho => ?_⟩
      · rwa [hsame.asleep, Asleep, hxz.type] at ha
      · cases hxz with
        | upd hsc => simp [hp] at hsc
        | inv => simp [Env.retires, hp, e.invalidation_opcode x] at hret
        | stays => exact hsame.own ho
    · exact .inr ht
  refine ⟨fun y hy => ?_, hc, ?_, fun y hy ha hv => ?_, fun hpc' => by cases hpc'⟩
  · rcases hslot hy with ⟨x, hx, -, -, ho⟩ | ht
    · exact ho (h.own x hx)
    · exact .inr ht
  · calc c.nextOpI = ys.length := by rw [← hb', Thread.buffer, Thread.next, List.length_map, List.length_range]
      _ ≤ (slots e credits f).length := hlen
      _ = cacheBatchSize := by rw [← hsends.length_eq, hb, List.length_map, List.length_range]
  · rcases hslot hy with ⟨x, hx, hkey, hax, -⟩ | ht
    · exact absurd (hkey ▸ hv) (h.not_valid hc hx (hax ha))
    · simp [Asleep, ht] at ha

end Thread.Ok

/-! ## The machine -/

namespace Machine

/-- A message that makes a key valid is an update wherever an operation sleeps on the key, and the
operations that do are those of the client that polled it. -/
def OwnUpdates (s : Machine N C) : Event C → Machine N C → Prop
  | .serve t key answer, _ => answer = .updSuccess ∨ answer = .lastAckSuccess →
      ∀ t', ∀ x ∈ (s.client t').buffer, Asleep x → x.key = key → t' = t ∧ answer = .updSuccess
  | .tau, _ => True

def Ok (s : Machine N C) : Prop := ∀ t, (s.client t).Ok (ValidIn s.cache)

variable {p : Setup N C} {s s' : Machine N C} {e : Event C}

theorem Init.ok (h : Init p s) : s.Ok := by
  intro t
  have hb : (s.client t).buffer = [] := by
    simp only [Thread.buffer, h.top t, (h.own t).nextOpI, List.range_zero, List.map_nil]
  refine ⟨by simp [hb], ?_, ?_, by simp [hb], fun hpc => ?_⟩
  · simp only [Thread.Counters, h.top t]
    rw [(h.coh t).2.1, (h.coh t).2.2.1]
  · rw [(h.own t).nextOpI]
    exact Nat.zero_le _
  · rw [h.top t] at hpc
    cases hpc

theorem Ok.set (h : s.Ok) {t : Fin C} {th : Thread N} (ht : th.Ok (ValidIn s.cache)) : (s.set t th).Ok := by
  intro t'
  by_cases he : t' = t
  · subst he
    simpa [Machine.set] using ht
  · simpa [Machine.set, he] using h t'

/-- A client has used the cache, in which no key became valid that another client sleeps on. -/
theorem Ok.setCache (h : s.Ok) {t : Fin C} {th : Thread N} {cache' : Cache} (ht : th.Ok (ValidIn cache'))
    (hv : ∀ t' ≠ t, ∀ x ∈ (s.client t').buffer, Asleep x → ValidIn cache' x.key → ValidIn s.cache x.key) :
    ({ s with cache := cache' }.set t th).Ok := by
  intro t'
  by_cases he : t' = t
  · subst he
    simpa [Machine.set] using ht
  · simpa [Machine.set, he] using (h t').mono (hv t' he)

theorem Ok.serve (h : s.Ok) {t : Fin C} {op' : CacheOp} {resp' : MicaResp} {cache' : Cache}
    (hpc : (s.client t).pc = .updates)
    (hok : WakeUp.serve p.machineId .linWithCacheOp s.cache ((s.client t).coh.updateOps (s.client t).coh.served)
      ((s.client t).coh.updateResp (s.client t).coh.served) = .ok (cache', op', resp'))
    (hown : OwnUpdates s (.serve t ((s.client t).coh.updateOps (s.client t).coh.served).key resp'.type) s') :
    ({ s with cache := cache' }.set t { s.client t with coh := (s.client t).coh.serve op' resp' }).Ok := by
  refine h.setCache ((h t).serve hpc fun k hv => ?_) fun t' hne x hx ha hv => ?_
  · rcases coherence_valid hok hv with hv | ⟨rfl, ⟨ho, rfl, ht⟩ | ht⟩
    · exact .inl hv
    · exact .inr (.inl ⟨rfl, ho, ht⟩)
    · refine .inr (.inr fun x hx ha hkey => ?_)
      have := (hown (.inr ht) t x hx ha hkey).2
      simp [ht] at this
  · rcases coherence_valid hok hv with hv | ⟨hkey, hs⟩
    · exact hv
    · have hs' : resp'.type = .updSuccess ∨ resp'.type = .lastAckSuccess := hs.imp_left fun h => h.2.2
      exact absurd (hown hs' t' x hx ha hkey).1 hne

theorem Step.ok (hst : Step p s e s') (h : s.Ok) (hown : OwnUpdates s e s') : s'.Ok := by
  cases hst with
  | swap t hpc => exact h.set ((h t).swap hpc _)
  | poll t req hpc => exact h.set ((h t).poll hpc _ _)
  | updates t hpc =>
    refine h.set ((h t).goto ?_ ?_ fun h => by cases h)
    · simp only [Thread.buffer, hpc]
    · have hc := (h t).counters
      simp only [Thread.Counters, hpc] at hc ⊢
      exact hc.1
  | serve t op' resp' cache' hpc _ hok => exact h.serve hpc hok hown
  | bookkeeping t hpc =>
    have hc : (s.client t).coh.kept = 0 := by simpa [Thread.Counters, hpc] using (h t).counters
    refine h.set ((h t).goto ?_ ?_ fun _ => hc)
    · simp only [Thread.buffer, hpc]
    · simp only [Thread.Counters]
      omega
  | keep t coh hpc hlt hok => exact h.set ((h t).keep hpc hlt hok)
  | fill t tagged n f hpc hc hok hi => exact h.set ((h t).fill hpc hc hok hi)
  | pass t f i hpc =>
    refine h.set ((h t).goto ?_ ?_ fun h => by cases h)
    · simp only [Thread.buffer, hpc]
    · simpa [Thread.Counters, hpc] using (h t).counters
  | probe t f i resp resp' op' cache' hpc hi hs htype hok =>
    obtain ⟨ht, hmono⟩ := (h t).probe hpc hi hs htype hok
    exact h.setCache ht fun _ _ x _ _ hv => hmono _ hv
  | probed t f hpc =>
    refine h.set ((h t).goto ?_ ?_ fun h => by cases h)
    · simp only [Thread.buffer, hpc]
    · simpa [Thread.Counters, hpc] using (h t).counters
  | inv t f op op' resp resp' cache' hpc ho hok =>
    intro t'
    exact (h t').mono fun x _ _ hv => inv_valid ho hok hv
  | forgeUpd t f hpc =>
    exact h.set ⟨(h t).own, (h t).counters, (h t).room, (h t).heard, (h t).told⟩
  | cold t f credits slots' c hpc hok => exact h.set ((h t).cold hpc rfl hok)

end Machine

/-- **No lost wake-up, where only the client that polls an update sleeps on its key.** Whoever sleeps
on a valid key is in the buffer of a client with an update of it still to keep; the round of that
update leaves nobody asleep on the key; and when the client is done, nobody of its sleeps on a valid
key. -/
theorem no_lost_wake_up {p : Setup N C} {s₀ s : Machine N C} {es : List (Event C)}
    (h : ((machine p).restrict Machine.OwnUpdates).Run s₀ es s) (t : Fin C) :
    (∀ x ∈ (s.client t).buffer, Asleep x → ValidIn s.cache x.key → (s.client t).Heard x.key) ∧
      ((s.client t).pc = .bookkeeping → (s.client t).Told) ∧
      ((s.client t).coh.kept = (s.client t).coh.served →
        ∀ x ∈ (s.client t).buffer, Asleep x → ¬ ValidIn s.cache x.key) := by
  have hok : s.Ok := h.invariant (fun _ s => s.Ok) Machine.Init.ok fun _ hs hst => hst.1.ok hs hst.2
  exact ⟨(hok t).heard, (hok t).told, fun hc x hx ha => (hok t).not_valid hc hx ha⟩

end

/-! ## A read behind a write -/

/-- A write of key 0 and then reads of it. The key is not one of those whose reads are combined. -/
def writeThenReads : Client.Trace 2 :=
  ⟨⟨.hotWrite, Fin.last 1, 20, fun _ => 0⟩ :: List.replicate (cacheBatchSize - 1) ⟨.hotRead, Fin.last 1, 20, fun _ => 0⟩,
    List.cons_ne_nil _ _⟩

theorem writeThenReads_zero : writeThenReads.command 0 = ⟨.hotWrite, 1, 20, fun _ => 0⟩ := by
  simp only [Client.Trace.command, Nat.zero_mod]
  rfl

theorem writeThenReads_of_ne {n : ℕ} (h0 : n ≠ 0) (hn : n < cacheBatchSize) :
    writeThenReads.command n = ⟨.hotRead, 1, 20, fun _ => 0⟩ := by
  obtain ⟨n, rfl⟩ := Nat.exists_eq_succ_of_ne_zero h0
  have hlen : writeThenReads.cmds.length = cacheBatchSize := congrArg (· + 1) (List.length_replicate ..)
  have hmod : (n + 1) % writeThenReads.cmds.length = n + 1 := Nat.mod_eq_of_lt (hlen ▸ hn)
  simp only [Client.Trace.command, List.get_eq_getElem, hmod]
  exact List.getElem_replicate _

theorem writeThenReads_command (n : ℕ) : (writeThenReads.command n).keyId = 20 ∧
    (writeThenReads.command n).homeMachineId = Fin.last 1 ∧ (writeThenReads.command n).key = 0 := by
  have hmem : writeThenReads.command n ∈ writeThenReads.cmds := List.get_mem _ _
  rcases List.mem_cons.1 hmem with he | he
  · rw [he]
    exact ⟨rfl, rfl, rfl⟩
  · rw [List.eq_of_mem_replicate he]
    exact ⟨rfl, rfl, rfl⟩

/-- The client of a machine that has one. -/
def lone : Setup 2 1 := ⟨.shipped, true, ⟨0, Nat.zero_lt_two⟩, fun _ => 0, fun _ => writeThenReads⟩

def unwritten : CacheOp := ⟨⟨.valid, 0, 0, 0, 0⟩, 0, .other 0, lone.valLen, fun _ => 0⟩

def quiet : Lin.Client := ⟨fun _ => unwritten, fun _ => ⟨.empty, 0, none⟩, 0, 0, 0, 0, fun _ => unwritten, 0, 0, 0⟩

def nothing : ℕ → Slot 2 := fun _ => ⟨fun _ => 0, .empty, ⟨0, Nat.zero_lt_two⟩⟩

/-- The cache holds key 0 only. -/
def holding (kv : CacheOp) : Cache := update (fun _ => none) 0 (some kv)

def begun : Machine 2 1 := ⟨holding unwritten, fun _ => ⟨quiet, ⟨0, nothing, nothing, nothing, 0, fun _ => 0, 0⟩, .top⟩⟩

theorem begun_init : Machine.Init lone begun where
  cache k kv hk := by
    change update (fun _ => none) 0 (some unwritten) k = some kv at hk
    by_cases h0 : k = 0
    · rw [h0, update_self, Option.some.injEq] at hk
      rw [← hk]
      exact ⟨rfl, rfl, rfl, rfl, rfl⟩
    · rw [update_of_ne h0] at hk
      cases hk
  top _ := rfl
  own _ := ⟨rfl, rfl, fun _ => rfl, rfl⟩
  coh _ := ⟨rfl, rfl, rfl, rfl, rfl, rfl⟩

/-- A record that was written here and waits for one acknowledgement. -/
structure Written (kv : CacheOp) : Prop where
  state : kv.keyMeta.state.Writing
  version : kv.keyMeta.version = 2
  pendingAcks : kv.keyMeta.pendingAcks = 1
  idle : kv.keyMeta.Idle
  valLen : kv.valLen = lone.valLen

/-- A record that a write of the other machine has invalidated. -/
structure Overwritten (kv : CacheOp) : Prop where
  state : kv.keyMeta.state.Invalidated
  version : kv.keyMeta.version = 4
  cid : kv.keyMeta.cid = 1
  idle : kv.keyMeta.Idle
  valLen : kv.valLen = lone.valLen

theorem serve_empty (f : CacheFun) (cache : Cache) (op : CacheOp) : serve (0 : Fin 2) f cache op ⟨.empty, 0, none⟩ =
    cache.serve (f.body 2 (0 : Fin 2)) op ⟨.empty, 0, none⟩ := by
  have hs : f.skips true .empty = false := by cases f <;> rfl
  rw [serve, if_neg (by simp [hs])]

theorem serve_holding {f : CacheFun} {kv : CacheOp} {op : CacheOp} {h : Hit} (hk : op.key = 0)
    (hok : f.body 2 (0 : Fin 2) ⟨kv, op, ⟨.empty, 0, none⟩⟩ = .ok h) :
    serve (0 : Fin 2) f (holding kv) op ⟨.empty, 0, none⟩ = .ok (holding h.kv, h.op, h.resp) := by
  have hkv : holding kv op.key = some kv := by
    rw [hk]
    exact update_self _ _ _
  have hupd : update (holding kv) op.key (some h.kv) = holding h.kv := by
    rw [hk]
    exact update_idem _ _ _
  rw [serve_empty, Cache.serve, if_neg (by simp), hkv]
  dsimp only
  rw [hok, ← hupd]
  rfl

theorem serve_put {op : CacheOp} (hk : op.key = 0) (ho : op.opcode = .put) (hl : op.valLen = lone.valLen) :
    ∃ h : Hit, serve (0 : Fin 2) .lin (holding unwritten) op ⟨.empty, 0, none⟩ = .ok (holding h.kv, h.op, h.resp) ∧ Written h.kv := by
  have hi : unwritten.keyMeta.Idle := ⟨rfl, rfl⟩
  obtain ⟨h, hok, ht⟩ : ∃ h, linPut 2 (0 : Fin 2) ⟨unwritten, op, ⟨.empty, 0, none⟩⟩ = .ok h ∧ _ := linPut_valid hi rfl hl
  refine ⟨h, serve_holding hk ?_, ?_⟩
  · simpa only [CacheFun.body, linNonStallingSessions, ho] using hok
  · rcases linPut_idle hi hok with ⟨-, hkv, -⟩ | ⟨hne, -⟩
    · rw [hkv]
      exact ⟨.inl rfl, rfl, rfl, ⟨rfl, (by decide : ((0 : UInt32) + 1 + 1) % 2 = 0)⟩, rfl⟩
    · exact absurd rfl hne

theorem serve_get {kv op : CacheOp} (hw : Written kv) (hk : op.key = 0) (ho : op.opcode = .get) :
    ∃ h : Hit, serve (0 : Fin 2) .lin (holding kv) op ⟨.empty, 0, none⟩ = .ok (holding h.kv, h.op, h.resp) ∧ Written h.kv ∧
      h.resp.type = .getStall := by
  obtain ⟨h, hok⟩ : ∃ h, linGet ⟨kv, op, ⟨.empty, 0, none⟩⟩ = .ok h := linGet_total hw.idle (.inr (.inr hw.state))
  refine ⟨h, serve_holding hk ?_, ?_⟩
  · simpa only [CacheFun.body, linNonStallingSessions, ho] using hok
  · rcases linGet_idle hw.idle hok with ⟨hv, -⟩ | ⟨-, ht, hkv⟩
    · have hst := hw.state
      rw [show kv.keyMeta.state = .valid from hv] at hst
      exact absurd hst CacheState.valid_not_writing
    · refine ⟨?_, ht⟩
      rw [hkv]
      refine ⟨?_, hw.version, hw.pendingAcks, ⟨hw.idle.free, hw.idle.even⟩, hw.valLen⟩
      show kv.keyMeta.state.replay.Writing
      rcases hw.state with hs | hs <;> rw [hs] <;> decide

theorem serve_ack {kv op : CacheOp} (hw : Written kv) (hk : op.key = 0) (ho : op.opcode = .ack) (hv : op.keyMeta.version = 2) :
    ∃ h : Hit, serve (0 : Fin 2) .linWithCacheOp (holding kv) op ⟨.empty, 0, none⟩ = .ok (holding h.kv, op, h.resp) ∧
      h.kv.keyMeta.state = .valid ∧ h.resp.type = .lastAckSuccess := by
  obtain ⟨h, hok⟩ : ∃ h, linAck (0 : Fin 2) ⟨kv, op, ⟨.empty, 0, none⟩⟩ = .ok h := linAck_total hw.idle
  refine ⟨h, ?_, ?_⟩
  · have := serve_holding (f := .linWithCacheOp) hk (by simpa only [CacheFun.body, linNonStallingSessionsWithCacheOp, ho] using hok)
    rwa [linAck_op hok] at this
  · rcases linAck_idle hw.idle hok with ⟨-, -, ⟨-, rfl⟩ | ⟨hne, -⟩⟩ | ⟨hno, -⟩
    · exact ⟨rfl, rfl⟩
    · exact absurd hw.pendingAcks hne
    · exact absurd ⟨hw.state, hw.version.trans hv.symm⟩ hno

/-- The write of the other machine is announced. -/
def otherInv : CacheOp := ⟨⟨.valid, 0, 1, 0, 4⟩, 0, .inv, 0, fun _ => 0⟩

theorem serve_inv {kv : CacheOp} (hw : Written kv) : ∃ h : Hit,
    serve (0 : Fin 2) .linWithSmallCacheOp (holding kv) otherInv ⟨.empty, 0, none⟩ = .ok (holding h.kv, h.op, h.resp) ∧
      Overwritten h.kv := by
  have he : (4 : UInt32) % 2 = 0 := by decide
  obtain ⟨h, hok⟩ : ∃ h, linInv (0 : Fin 2) ⟨kv, otherInv, ⟨.empty, 0, none⟩⟩ = .ok h :=
    linInv_total hw.idle (.inr (.inr hw.state)) he
  refine ⟨h, serve_holding rfl hok, ?_⟩
  obtain ⟨-, ⟨-, -, hkv⟩ | ⟨hle, -⟩⟩ := linInv_idle hw.idle he hok
  · rw [hkv]
    refine ⟨?_, rfl, rfl, ⟨rfl, he⟩, hw.valLen⟩
    show kv.keyMeta.state.invalidated.Invalidated
    rcases hw.state with hs | hs <;> rw [hs] <;> decide
  · refine absurd ?_ hle
    show stamp kv.keyMeta.version (kv.keyMeta.owner _) < stamp 4 1
    rw [CacheMeta.owner_of_writing hw.state, hw.version]
    decide

/-- Its value. -/
def otherUpd : CacheOp := ⟨⟨.valid, 0, 1, 0, 4⟩, 0, .upd, lone.valLen, fun _ => 1⟩

/-- The slot that it is polled to. -/
def polledUpd : CacheOp := { otherUpd with value := unwritten.value.memcpy otherUpd.value lone.valLen.toNat }

theorem serve_upd {kv : CacheOp} (hw : Overwritten kv) : ∃ h : Hit,
    serve (0 : Fin 2) .linWithCacheOp (holding kv) polledUpd ⟨.empty, 0, none⟩ = .ok (holding h.kv, polledUpd, h.resp) ∧
      h.kv.keyMeta.state = .valid ∧ h.resp.type = .updSuccess := by
  obtain ⟨h, hok⟩ : ∃ h, linUpd ⟨kv, polledUpd, ⟨.empty, 0, none⟩⟩ = .ok h :=
    (linUpd_safe hw.idle (by exact (by decide : (4 : UInt32) % 2 = 0))).resolve_right fun hfail => hfail.1 hw.valLen.symm
  refine ⟨h, ?_, ?_⟩
  · have := serve_holding (f := .linWithCacheOp) (rfl : polledUpd.key = 0) hok
    rwa [linUpd_op hok] at this
  · rcases linUpd_idle hw.idle hok with ⟨-, -, -, rfl⟩ | ⟨hno, -⟩
    · exact ⟨rfl, rfl⟩
    · exact absurd ⟨hw.state, hw.version, hw.cid⟩ hno

/-- The client of this machine after `i` slots of the batch `f₀` were probed: the write has been
taken, and the reads behind it stall. -/
structure Probing (f₀ : Fill 2) (i : ℕ) (s : Machine 2 1) (f : Fill 2) : Prop where
  pc : (s.client 0).pc = .probe f i
  coh : (s.client 0).coh = quiet
  cache : ∃ kv, s.cache = holding kv ∧ Written kv
  done : ∀ j < i, Probed (lone.env 0) (fun k => decide (k = 0)) (f₀.ops j) (f.ops j)
  reads : ∀ j < i, j ≠ 0 → (f.ops j).type = .getStall
  rest : ∀ j, i ≤ j → f.ops j = f₀.ops j

theorem holding_isSome (kv : CacheOp) (k : UInt64) : (holding kv k).isSome = decide (k = 0) := by
  by_cases hk : k = 0
  · rw [hk, holding, update_self]
    rfl
  · rw [holding, update_of_ne hk, decide_eq_false hk]
    rfl

/-- The slot of a command. -/
def Taken (j : ℕ) (x : Slot 2) : Prop :=
  ∃ tag rand op, x = ⟨(lone.env 0).fillOp (writeThenReads.command j) tag rand op, .empty, Fin.last 1⟩

theorem Taken.key {j : ℕ} {x : Slot 2} (h : Taken j x) : x.key = 0 := by
  obtain ⟨tag, rand, op, rfl⟩ := h
  exact fillOp_slot_key.trans (writeThenReads_command j).2.2

/-- A slot is probed. -/
theorem probe_step {s : Machine 2 1} {f : Fill 2} {i : ℕ} {kv : CacheOp} {h : Hit} (hpc : (s.client 0).pc = .probe f i)
    (hc : s.cache = holding kv) (hi : i < cacheBatchSize) (ht : (f.ops i).type = .empty)
    (hok : serve (0 : Fin 2) .lin (holding kv) (.ofBytes (f.ops i).op) ⟨.empty, 0, none⟩ = .ok (holding h.kv, h.op, h.resp)) :
    Machine.Step lone s .tau ({ s with cache := holding h.kv }.set 0 ((s.client 0).probed f i h.op h.resp.type)) ∧
    Probed (lone.env 0) (fun k => decide (k = 0)) (f.ops i) ⟨storeOp h.op (f.ops i).op, h.resp.type, (f.ops i).machine⟩ := by
  refine ⟨.probe 0 f i ⟨.empty, 0, none⟩ h.resp h.op _ hpc hi (by rw [ht]; rfl) ht.symm (by rw [hc]; exact hok), ?_⟩
  refine .mk (holding kv) (holding h.kv) ⟨.empty, 0, none⟩ h.resp h.op (holding_isSome kv) ht.symm ?_
  rw [serve_empty] at hok
  exact hok

theorem Probing.succ {f₀ f : Fill 2} {i : ℕ} {s : Machine 2 1} (h : Probing f₀ i s f) (h0 : i ≠ 0) (hi : i < cacheBatchSize)
    (hslot : Taken i (f₀.ops i)) : ∃ s' f', Machine.Step lone s .tau s' ∧ Probing f₀ (i + 1) s' f' := by
  obtain ⟨kv, hc, hw⟩ := h.cache
  have hsame := h.rest i (Nat.le_refl i)
  rw [← hsame] at hslot
  have hkey := hslot.key
  obtain ⟨tag, rand, op, he⟩ := hslot
  have ho : (f.ops i).opcode = .get := by
    rw [he, fillOp_opcode, writeThenReads_of_ne h0 hi]
    rfl
  obtain ⟨g, hok, hw', hstall⟩ := serve_get hw hkey ho
  obtain ⟨hst, hprobed⟩ := probe_step h.pc hc hi (by rw [he]) hok
  refine ⟨_, _, hst, rfl, h.coh, ⟨g.kv, rfl, hw'⟩, fun j hj => ?_, fun j hj hj0 => ?_, fun j hj => ?_⟩
  · rcases Nat.lt_succ_iff_lt_or_eq.1 hj with hlt | rfl
    · dsimp only
      rw [update_of_ne hlt.ne]
      exact h.done j hlt
    · dsimp only
      rw [update_self, ← hsame]
      exact hprobed
  · rcases Nat.lt_succ_iff_lt_or_eq.1 hj with hlt | rfl
    · dsimp only
      rw [update_of_ne hlt.ne]
      exact h.reads j hlt hj0
    · dsimp only
      rw [update_self]
      exact hstall
  · dsimp only
    rw [update_of_ne (by omega)]
    exact h.rest j (by omega)

/-- The first iteration until the cache is probed. -/
theorem filled : ∃ f₀ es s, ((machine lone).restrict Machine.OwnUpdates).Run begun es s ∧ (s.client 0).pc = .probe f₀ 0 ∧ (s.client 0).coh = quiet ∧
    s.cache = holding unwritten ∧ ∀ j < cacheBatchSize, Taken j (f₀.ops j) := by
  obtain ⟨f₀, hfill, hi, -, -, hslots⟩ := batchFromTrace_untracked (e := lone.env 0) (t := writeThenReads) (m := 0)
    (n := cacheBatchSize) (rfl : carriedOver nothing 0 = true) (Nat.zero_mod _).symm (by decide) fun j _ => by
      rw [(writeThenReads_command (0 + j)).1]
      decide
  rw [Nat.zero_add] at hi
  have hrun := (((Lts.Run.nil (L := (machine lone).restrict Machine.OwnUpdates) begun_init).snoc ⟨.swap 0 rfl, trivial⟩).snoc
    ⟨.updates 0 rfl, trivial⟩).snoc ⟨.bookkeeping 0 rfl rfl, trivial⟩
  refine ⟨f₀, _, _, hrun.snoc ⟨.fill 0 (fun _ => false) cacheBatchSize f₀ rfl rfl hfill hi, trivial⟩, rfl, rfl, rfl,
    fun j hj => ?_⟩
  obtain ⟨tag, rand, op, he⟩ := hslots j hj
  rw [Nat.zero_add, (writeThenReads_command j).2.1] at he
  exact ⟨tag, rand, op, he⟩

/-- The write is taken. -/
theorem probing_one : ∃ f₀ es s f, (∀ j < cacheBatchSize, Taken j (f₀.ops j)) ∧
    ((machine lone).restrict Machine.OwnUpdates).Run begun es s ∧ Probing f₀ 1 s f := by
  obtain ⟨f₀, es, s, hrun, hpc, hcoh, hcache, hslots⟩ := filled
  have hslot := hslots 0 (by decide)
  have hkey := hslot.key
  obtain ⟨tag, rand, op, he⟩ := hslot
  rw [writeThenReads_zero] at he
  have ho : (f₀.ops 0).opcode = .put := by
    rw [he, fillOp_opcode]
    rfl
  have hl : (CacheOp.ofBytes (f₀.ops 0).op).valLen = lone.valLen := by
    rw [he]
    exact ((fillOp_carries (c := ⟨.hotWrite, 1, 20, fun _ => 0⟩)).value rfl).1
  obtain ⟨g, hok, hw⟩ := serve_put hkey ho hl
  obtain ⟨hst, hprobed⟩ := probe_step hpc hcache (by decide) (by rw [he]) hok
  refine ⟨f₀, _, _, _, hslots, hrun.snoc ⟨hst, trivial⟩, rfl, hcoh, ⟨g.kv, rfl, hw⟩, fun j hj => ?_, fun j hj hj0 => ?_,
    fun j hj => ?_⟩
  · obtain rfl : j = 0 := by omega
    exact hprobed
  · omega
  · dsimp only
    rw [update_of_ne (by omega)]

theorem probing_all : ∃ f₀ es s f, (∀ j < cacheBatchSize, Taken j (f₀.ops j)) ∧
    ((machine lone).restrict Machine.OwnUpdates).Run begun es s ∧ Probing f₀ cacheBatchSize s f := by
  obtain ⟨f₀, es, s, f, hslots, hrun, hp⟩ := probing_one
  have hall : ∀ n, 1 + n ≤ cacheBatchSize →
      ∃ es s f, ((machine lone).restrict Machine.OwnUpdates).Run begun es s ∧ Probing f₀ (1 + n) s f := by
    intro n
    induction n with
    | zero => exact fun _ => ⟨es, s, f, hrun, hp⟩
    | succ n ih =>
      intro hn
      obtain ⟨es, s, f, hrun, hp⟩ := ih (by omega)
      obtain ⟨s', f', hst, hp'⟩ := hp.succ (by omega) (by omega) (hslots _ (by omega))
      exact ⟨_, s', f', hrun.snoc ⟨hst, trivial⟩, hp'⟩
  obtain ⟨es, s, f, hrun, hp⟩ := hall (cacheBatchSize - 1) (Nat.le_refl _)
  exact ⟨f₀, es, s, f, hslots, hrun, hp⟩

/-- With one credit the write is sent, and the reads are carried over. -/
theorem Probing.cold {f₀ f : Fill 2} {s : Machine 2 1} (hslots : ∀ j < cacheBatchSize, Taken j (f₀.ops j))
    (h : Probing f₀ cacheBatchSize s f) (own : State 2) : ∃ slots' c,
      handleColdRequests (lone.env 0) 0 (Thread.slots (lone.env 0) 1 f) (own.cold f) = .ok (slots', c) ∧
        ∃ y ∈ c.slots, y.type = .getStall ∧ y.key = 0 := by
  have hsends := broadcastInvs_sends (e := lone.env 0) rfl 1 ((List.range cacheBatchSize).map f.ops)
  have hfound : ∀ z ∈ Thread.slots (lone.env 0) 1 f, Ready (lone.env 0) z ∧ Admissible (lone.env 0) z := by
    intro z hz
    obtain ⟨y, hy, hs⟩ := Lts.exists_mem_of_forall₂ hsends.flip hz
    obtain ⟨j, hj, rfl⟩ := List.mem_map.1 hy
    have hj := List.mem_range.1 hj
    obtain ⟨tag, rand, op, he⟩ := hslots j hj
    have hprobed := h.done j hj
    rw [he] at hprobed
    exact ⟨(fillOp_waiting.answered hprobed hs).1.ready,
      fillOp_waiting.admissible (fillOp_admissible (by decide) (by decide)) hprobed hs⟩
  obtain ⟨slots', fs, c, hok, hh⟩ := handleColdRequests_handled (fun z hz => (hfound z hz).1) (fun z hz => (hfound z hz).2) 0
    (cold_counted own f)
  refine ⟨slots', c, hok, ?_⟩
  -- the first read
  have hread : f.ops 1 ∈ (List.range cacheBatchSize).map f.ops := List.mem_map_of_mem (List.mem_range.2 (by decide))
  obtain ⟨z, hz, hs⟩ := Lts.exists_mem_of_forall₂ hsends hread
  have ht : z.type = .getStall := hs.type.trans (h.reads 1 (by decide) (by decide))
  have hkey : z.key = 0 := ((h.done 1 (by decide)).keeps.trans hs.keeps).key.trans (hslots 1 (by decide)).key
  obtain ⟨fate, hfate, hmeets⟩ := Lts.exists_mem_of_forall₂ hh.meets hz
  obtain ⟨y, rfl, hcopy⟩ := hmeets.of_getStall (hfound z hz).1 ht
  refine ⟨y, ?_, ?_, hcopy.op.key.trans hkey⟩
  · rw [hh.slots]
    exact List.mem_append_right _ (List.mem_filterMap.2 ⟨_, hfate, rfl⟩)
  · rw [hcopy.type, unserved_of_hit (by simp [Slot.isMiss, ht]), ht]

/-- Between two iterations. -/
def resting (kv : CacheOp) (own : State 2) : Machine 2 1 := ⟨holding kv, fun _ => ⟨quiet, own, .top⟩⟩

theorem next_eq_resting {s : Machine 2 1} {kv : CacheOp} (hcache : s.cache = holding kv) (hcoh : (s.client 0).coh = quiet)
    (f : Fill 2) (slots : List (Slot 2)) (c : Cold 2) :
    s.set 0 ((s.client 0).next f slots c) = resting kv ((s.client 0).next f slots c).own := by
  simp only [Machine.set, resting, hcache, Machine.mk.injEq, true_and]
  funext t
  obtain rfl : t = 0 := Subsingleton.elim t 0
  simp only [update_self, Thread.next, hcoh]

/-- The second iteration until the bookkeeping: a message is polled and served. -/
theorem polled {P : Machine 2 1 → Event 1 → Machine 2 1 → Prop} {kv op : CacheOp} {h : Hit} (own : State 2) (req : CacheOp)
    (hreq : req.opcode = .upd ∨ req.opcode = .ack) (hcid : req.keyMeta.cid.toNat < 2)
    (hop : Lin.copyReq lone.valLen unwritten req = op)
    (hok : serve (0 : Fin 2) .linWithCacheOp (holding kv) op ⟨.empty, 0, none⟩ = .ok (holding h.kv, op, h.resp))
    (htau : ∀ s s', P s .tau s') (hserve : ∀ s s', P s (.serve 0 op.key h.resp.type) s') : ∃ es s,
      (((machine lone).restrict P).startAt (resting kv own)).Run (resting kv own) es s ∧
        .serve 0 op.key h.resp.type ∈ es ∧ s.cache = holding h.kv ∧
        s.client 0 = ⟨(quiet.pollCoherence lone.valLen req).serve op h.resp, own.swapOps true, .bookkeeping⟩ := by
  subst hop
  have hpoll : quiet.CanPoll := ⟨rfl, by decide, by decide⟩
  have hrun := (((Lts.Run.nil (L := ((machine lone).restrict P).startAt (resting kv own)) rfl).snoc
    ⟨.swap 0 rfl, htau _ _⟩).snoc ⟨.poll 0 req rfl hreq hpoll hcid, htau _ _⟩).snoc ⟨.updates 0 rfl, htau _ _⟩
  have hrun := (hrun.snoc ⟨.serve 0 _ _ _ rfl (by exact Nat.zero_lt_one) hok, hserve _ _⟩).snoc
    ⟨.bookkeeping 0 rfl rfl, htau _ _⟩
  refine ⟨_, _, hrun, ?_, rfl, rfl⟩
  show Event.serve 0 _ h.resp.type ∈ [.tau, .tau, .tau, .serve 0 _ h.resp.type, .tau]
  exact List.mem_of_getElem? (i := 3) rfl

/-- The reads that sleep behind the write are woken by the update of the other machine's write. -/
theorem no_lost_wake_up_reads : ∃ es s s', ((machine lone).restrict Machine.OwnUpdates).Run begun es s ∧
    ((machine lone).restrict Machine.OwnUpdates).step s .tau s' ∧ .serve 0 0 .updSuccess ∈ es ∧
    (∃ x ∈ (s.client 0).buffer, Asleep x ∧ x.key = 0 ∧ ValidIn s.cache 0 ∧ (s.client 0).Heard 0) ∧
    ValidIn s'.cache 0 ∧ ∀ x ∈ (s'.client 0).buffer, x.key = 0 → ¬ Asleep x := by
  obtain ⟨f₀, es, s, f, hslots, hrun, hp⟩ := probing_all
  obtain ⟨kv, hcache, hw⟩ := hp.cache
  obtain ⟨g, hinv, hw'⟩ := serve_inv hw
  obtain ⟨slots', c, hcold, y, hy, ht, hkey⟩ := hp.cold hslots (s.client 0).own
  have hrun := ((hrun.snoc ⟨.probed 0 f hp.pc, trivial⟩).snoc
    ⟨.inv 0 f otherInv _ _ _ _ rfl rfl (by exact hcache ▸ hinv), trivial⟩).snoc ⟨.cold 0 f 1 slots' c rfl hcold, trivial⟩
  rw [next_eq_resting rfl (by exact hp.coh)] at hrun
  obtain ⟨h, hok, hv, hsucc⟩ := serve_upd hw'
  obtain ⟨es', s', hrun', hserve, hs', hth⟩ := polled (P := Machine.OwnUpdates) ((s.client 0).next f slots' c).own otherUpd
    (.inl rfl) (by decide) (rfl : _ = polledUpd) hok (fun _ _ => trivial) fun _ _ _ t' _ _ _ _ => ⟨Subsingleton.elim t' 0, hsucc⟩
  have hrun := hrun.append hrun'
  have hvalid : ValidIn s'.cache 0 := ⟨h.kv, by rw [hs']; exact (update_self _ _ _ : holding h.kv 0 = _), hv⟩
  have hkeep : ((machine lone).restrict Machine.OwnUpdates).step s' .tau
      (s'.set 0 ((s'.client 0).keep { (s'.client 0).coh with kept := 1 })) := by
    refine ⟨.keep 0 _ (by rw [hth]) ?_ ?_, trivial⟩
    · rw [hth]
      exact Nat.zero_lt_one
    · rw [hth]
      rfl
  have hy' : y ∈ (s'.client 0).buffer := by
    rw [hth]
    exact hy
  refine ⟨_, s', _, hrun, hkeep, ?_, ⟨y, hy', .inl ht, hkey, hvalid, ?_⟩, hvalid, fun x hx hx0 ha => ?_⟩
  · rw [hsucc] at hserve
    exact List.mem_append_right _ hserve
  · exact hkey ▸ (no_lost_wake_up hrun 0).1 y hy' (.inl ht) (hkey ▸ hvalid)
  · refine (no_lost_wake_up (hrun.snoc hkeep) 0).2.2 ?_ x hx ha (hx0 ▸ hvalid)
    show 1 = (s'.client 0).coh.served
    rw [hth]
    rfl

/-- The last acknowledgement wakes nobody. -/
theorem wake_of_lastAck {N : ℕ} {th : Thread N} {u : ℕ} (ht : (th.coh.updateResp u).type = .lastAckSuccess) :
    th.wake u = th.own.ops := by
  funext j
  unfold Thread.wake
  split
  · rw [ht, wakeUpStalled, if_neg (by simp)]
  · rfl

/-- The acknowledgement of the write. -/
def lastAck : CacheOp := ⟨⟨.write, 0, 0, 0, 2⟩, 0, .ack, 0, fun _ => 0⟩

/-- The slot that it is polled to. -/
def polledAck : CacheOp := { unwritten with keyMeta := lastAck.keyMeta, key := 0, opcode := .ack }

theorem polledAck_bookkeeping {resp : MicaResp} (ht : resp.type = .lastAckSuccess) : ∃ coh,
    ((quiet.pollCoherence lone.valLen lastAck).serve polledAck resp).bookkeeping lone.valLen = .ok coh ∧
      coh.kept = coh.served := by
  have hresp : (((quiet.pollCoherence lone.valLen lastAck).serve polledAck resp).updateResp 0).type = .lastAckSuccess := ht
  unfold Lin.Client.bookkeeping
  dsimp only
  rw [if_neg (by exact (by decide : ¬ Opcode.ack = .upd)), if_pos (by exact hresp),
    if_neg (by exact (by decide : ¬ Opcode.other 0 = .ack))]
  exact ⟨_, rfl, rfl⟩

/-- **A read can sleep on.** A client writes a key and reads it, the write is acknowledged and its
bookkeeping done: the key is valid, and the read sleeps. -/
theorem read_sleeps_on : ∃ es s, (machine lone).Run begun es s ∧ .serve 0 0 .lastAckSuccess ∈ es ∧
    (s.client 0).pc = .bookkeeping ∧ (s.client 0).coh.kept = (s.client 0).coh.served ∧
    ∃ x ∈ (s.client 0).buffer, Asleep x ∧ ValidIn s.cache x.key := by
  obtain ⟨f₀, es, s, f, hslots, hrun, hp⟩ := probing_all
  obtain ⟨kv, hcache, hw⟩ := hp.cache
  obtain ⟨slots', c, hcold, y, hy, ht, hkey⟩ := hp.cold hslots (s.client 0).own
  have hrun := (hrun.of_restrict.snoc (.probed 0 f hp.pc)).snoc (.cold 0 f 1 slots' c rfl hcold)
  rw [next_eq_resting (by exact hcache) (by exact hp.coh)] at hrun
  obtain ⟨h, hok, hv, hlast⟩ := serve_ack hw (show polledAck.key = 0 from rfl) rfl rfl
  obtain ⟨es', s', hrun', hserve, hs', hth⟩ := polled (P := fun _ _ _ => True) ((s.client 0).next f slots' c).own lastAck
    (.inr rfl) (by decide) (rfl : _ = polledAck) hok (fun _ _ => trivial) fun _ _ => trivial
  obtain ⟨coh, hbook, hkept⟩ := polledAck_bookkeeping hlast
  have hkeep : Machine.Step lone s' .tau (s'.set 0 ((s'.client 0).keep coh)) := by
    refine .keep 0 coh (by rw [hth]) ?_ (by rw [hth]; exact hbook)
    rw [hth]
    exact Nat.zero_lt_one
  have hrun' := Lts.Run.of_restrict (L := (machine lone).startAt (resting kv _)) hrun'
  refine ⟨_, _, (hrun.append hrun').snoc hkeep, ?_, ?_, hkept, y, ?_, .inl ht, ?_⟩
  · rw [hlast] at hserve
    exact List.mem_append_left _ (List.mem_append_right _ hserve)
  · show (s'.client 0).pc = _
    rw [hth]
  · show y ∈ ((s'.client 0).keep coh).buffer
    rw [hth]
    show y ∈ (List.range c.nextOpI).map (Thread.wake _ 0)
    rw [wake_of_lastAck (by exact hlast)]
    exact hy
  · exact ⟨h.kv, by rw [hkey]; exact hs' ▸ (update_self _ _ _ : holding h.kv 0 = _), hv⟩

end CcKvs.WakeUp
