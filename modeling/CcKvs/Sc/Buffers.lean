/-
Message buffers of the SC client. The counter of requests in transit is right
in every reachable state and a buffer for cold requests is never filled while
it is in use. The same does not hold of the buffers for broadcasts: the wait
for outstanding responses looks at the cold requests of the iteration before
only, so two iterations with hot writes and no miss can meet at one buffer.
-/
import CcKvs.Sc.Client

namespace CcKvs.Sc

variable {N : ℕ} {machineId : Fin N} {cfg : Config}

/-! ## Cold requests are counted -/

/-- Every request is counted in `wr_i`, and none is for the own machine. -/
structure Cold.Counted (machineId : Fin N) (c : Cold N) : Prop where
  le : ∀ rm, c.idx rm ≤ c.wrI
  own : c.idx machineId = 0

theorem Cold.Counted.add {c c' : Cold N} {rm : Fin N} (h : c.Counted machineId) (hne : rm ≠ machineId)
    (hok : c.addErpcRequest rm = .ok c') : c'.Counted machineId := by
  unfold addErpcRequest at hok
  split at hok
  · cases hok
    refine ⟨fun rm' => ?_, ?_⟩
    · have h₁ := h.le rm
      have h₂ := h.le rm'
      simp only [Function.update_apply]
      split <;> omega
    · show Function.update c.idx rm _ machineId = 0
      rw [Function.update_of_ne hne.symm]
      exact h.own
  · cases hok

/-- What every added request keeps, the loop keeps. A request is added for another machine, and
only while that machine's batch has room. -/
theorem handleColdRequests_keeps {P : Cold N → Prop} {slots : List (Slot N)} {c c' : Cold N}
    (hadd : ∀ c c' rm, P c → rm ≠ machineId → c.outstanding rm < kvsBatch → c.addErpcRequest rm = .ok c' → P c')
    (h : P c) (hok : handleColdRequests cfg machineId slots c = .ok c') : P c' := by
  induction slots generalizing c with
  | nil =>
    cases hok
    exact h
  | cons x xs ih =>
    unfold handleColdRequests at hok
    split at hok
    · cases hok
      exact h
    · split at hok
      · exact ih h hok
      · split at hok
        · cases hok
        · split at hok
          · cases hok
          · next hne =>
            split at hok
            · split at hok
              · cases hok
                exact h
              · exact ih h hok
            · next hroom =>
              obtain ⟨c₁, hc₁, hok⟩ := bind_eq_ok.1 hok
              exact ih (hadd c c₁ x.machine h hne (by omega) hc₁) hok

theorem handleColdRequests_counted {slots : List (Slot N)} {c c' : Cold N} (h : c.Counted machineId)
    (hok : handleColdRequests cfg machineId slots c = .ok c') : c'.Counted machineId :=
  handleColdRequests_keeps (fun _ _ _ h hne _ hadd => h.add hne hadd) h hok

/-- Without a miss there is no cold request. -/
theorem handleColdRequests_hits {slots : List (Slot N)} {c : Cold N} (h : ∀ x ∈ slots, x.isMiss = false) :
    handleColdRequests cfg machineId slots c = .ok c := by
  induction slots with
  | nil => rfl
  | cons x xs ih =>
    have hx := h x (by simp)
    have hxs := ih fun y hy => h y (by simp [hy])
    simp only [handleColdRequests, hx, hxs, Bool.not_false, if_true, ite_self]

/-! ## Buffers are accounted for -/

namespace Client

/-- The buffers in use. -/
def busy (s : Client N) : Finset (Traffic × Fin N) := Finset.univ.filter fun x => s.used x.1 x.2

theorem mem_busy {s : Client N} {k : Traffic} {rm : Fin N} : (k, rm) ∈ s.busy ↔ s.used k rm = true := by simp [busy]

/-- Exactly the buffers in use have a request under way, and these are counted. -/
structure Accounted (s : Client N) : Prop where
  flight : s.inFlight = s.busy.val
  count : s.reqsInTransit = s.inFlight.card

theorem update_used (s : Client N) (k : Traffic) (rm : Fin N) (b : Bool) (k' : Traffic) (rm' : Fin N) :
    Function.update s.used k (Function.update (s.used k) rm b) k' rm' =
      if (k', rm') = (k, rm) then b else s.used k' rm' := by
  by_cases hk : k' = k
  · subst hk
    by_cases hr : rm' = rm <;> simp [hr]
  · simp [hk]

variable {s s' : Client N} {k : Traffic} {rm : Fin N} {l : List (Fin N)}

theorem fill_eq_ok : s.fill k rm = .ok s' ↔ s.used k rm = false ∧ s' = s.filled k rm := by
  unfold fill
  cases s.used k rm <;> simp [eq_comm]

theorem filled_used (k' : Traffic) (rm' : Fin N) :
    (s.filled k rm).used k' rm' = if (k', rm') = (k, rm) then true else s.used k' rm' := update_used _ _ _ _ _ _

theorem Accounted.filled (h : s.Accounted) (hfree : s.used k rm = false) : (s.filled k rm).Accounted := by
  have hnot : (k, rm) ∉ s.busy := by simp [mem_busy, hfree]
  have hbusy : (s.filled k rm).busy = insert (k, rm) s.busy := by
    ext ⟨k', rm'⟩
    rw [mem_busy, filled_used, Finset.mem_insert, mem_busy]
    split
    · next he => simp [he]
    · next he => simp [he]
  refine ⟨?_, ?_⟩
  · show (k, rm) ::ₘ s.inFlight = _
    rw [hbusy, Finset.insert_val_of_notMem hnot, ← h.flight]
  · show s.reqsInTransit + 1 = (((k, rm) ::ₘ s.inFlight).card : ℤ)
    rw [h.count, Multiset.card_cons]
    omega

theorem Accounted.response (h : s.Accounted) {r} (hf : s.inFlight = (k, rm) ::ₘ r) :
    Accounted { s.response k rm with inFlight := r } := by
  have hbusy : busy { s.response k rm with inFlight := r } = s.busy.erase (k, rm) := by
    ext ⟨k', rm'⟩
    rw [mem_busy, Finset.mem_erase, mem_busy]
    show Function.update s.used k (Function.update (s.used k) rm false) k' rm' = true ↔ _
    rw [update_used]
    split
    · next he => simp [he]
    · next he => simp [he]
  refine ⟨?_, ?_⟩
  · show r = _
    rw [hbusy, Finset.erase_val, ← h.flight, hf, Multiset.erase_cons_head]
  · show s.reqsInTransit - 1 = (r.card : ℤ)
    rw [h.count, hf, Multiset.card_cons]
    omega

/-- What filling leaves alone. -/
structure SameLoop (s s' : Client N) : Prop where
  batch : s'.batch = s.batch
  idx : s'.idx = s.idx
  wrI : s'.wrI = s.wrI

theorem fillAll_ok (hok : s.fillAll k l = .ok s') :
    SameLoop s s' ∧ (s.Accounted → s'.Accounted) ∧
      ∀ k' rm, s'.used k' rm = true ↔ s.used k' rm = true ∨ k' = k ∧ rm ∈ l := by
  induction l generalizing s with
  | nil =>
    cases hok
    exact ⟨⟨rfl, rfl, rfl⟩, id, fun k' rm => by simp⟩
  | cons rm l ih =>
    obtain ⟨s₁, h₁, h₂⟩ := bind_eq_ok.1 hok
    obtain ⟨hfree, rfl⟩ := fill_eq_ok.1 h₁
    obtain ⟨hsame, hacc, hused⟩ := ih h₂
    refine ⟨⟨hsame.batch, hsame.idx, hsame.wrI⟩, fun h => hacc (h.filled hfree), fun k' rm' => ?_⟩
    rw [hused, filled_used, List.mem_cons]
    split
    · next he => cases he; simp
    · next he =>
      rw [Prod.mk.injEq] at he
      tauto

/-- Filling fails only at a buffer in use. -/
theorem fillAll_of_free (hd : l.Nodup) (hfree : ∀ rm ∈ l, s.used k rm = false) : ∃ s', s.fillAll k l = .ok s' := by
  induction l generalizing s with
  | nil => exact ⟨s, rfl⟩
  | cons rm l ih =>
    obtain ⟨hrm, hd⟩ := List.nodup_cons.1 hd
    have hnext : ∀ rm' ∈ l, (s.filled k rm).used k rm' = false := fun rm' h' => by
      have hne : rm' ≠ rm := fun he => hrm (he ▸ h')
      rw [filled_used, if_neg (by simp [hne])]
      exact hfree rm' (by simp [h'])
    obtain ⟨s', hs'⟩ := ih hd hnext
    exact ⟨s', bind_eq_ok.2 ⟨_, fill_eq_ok.2 ⟨hfree rm (by simp), rfl⟩, hs'⟩⟩

/-! ## The loop -/

theorem remotes_nodup (machineId : Fin N) : (remotes machineId).Nodup := (List.nodup_finRange N).filter _

theorem mem_remotes : rm ∈ remotes machineId ↔ rm ≠ machineId := by simp [remotes]

theorem mem_due : rm ∈ s.due machineId ↔ rm ≠ machineId ∧ 0 < s.idx rm := by simp [due, mem_remotes]

/-- What the loop relies on at each point. -/
structure Phase (machineId : Fin N) (s : Client N) : Prop where
  /-- Between sending and the next preparation nothing is collected, and data buffers in use
  mean that the last iteration had cold requests. -/
  idle : s.pc = .top ∨ s.pc = .poll → s.batch.cidx = 0 ∧ (∀ rm, s.idx rm = 0) ∧ ∀ rm, s.used .data rm = true → 0 < s.wrI
  counted : (∀ rm, s.idx rm ≤ s.wrI) ∧ s.idx machineId = 0
  data : s.pc = .bcast ∨ s.pc = .send → ∀ rm, s.used .data rm = false
  sent : s.pc = .send → s.batch.cidx = 0

/-- The broadcast buffers are free whenever hot writes are to be sent. -/
def CacheFree (s : Client N) : Prop := s.pc = .bcast → 0 < s.batch.cidx → ∀ rm, s.used .cache rm = false

/-- An iteration with hot writes comes after one with cold requests, or finds all broadcast
buffers free. -/
def Spaced (s : Client N) (e : Action N) (_ : Client N) : Prop :=
  match e with
  | .prepare slots => hotWrites (slots.toList.map (·.op)) ≠ [] → 0 < s.wrI ∨ ∀ rm, s.used .cache rm = false
  | _ => True

theorem Accounted.all_free (h : s.Accounted) (hz : ¬ 0 < s.reqsInTransit) (k : Traffic) (rm : Fin N) :
    s.used k rm = false := by
  have hcard : s.inFlight.card = 0 := by
    have := h.count
    omega
  have hb : s.busy = ∅ := by
    rw [← Finset.val_eq_zero, ← h.flight]
    exact Multiset.card_eq_zero.1 hcard
  have hnot : (k, rm) ∉ s.busy := by simp [hb]
  simpa [mem_busy] using hnot

/-- What `perform_broadcasts_SC` collects into an empty batch. -/
theorem cbatch_of_prepare {slots : Vector (Slot N) cacheBatchSize} {ops' batch'} (he : s.batch.cidx = 0)
    (hok : performBroadcasts cfg (slots.toList.map (·.op)) s.batch = .ok (ops', batch')) :
    batch'.cbatch = hotWrites (slots.toList.map (·.op)) := by
  have hle := hotWrites_length_le (slots.toList.map (·.op))
  rw [List.length_map, Vector.length_toList] at hle
  obtain ⟨_, c, hrun, hb, _⟩ := performBroadcasts_ok cfg (slots.toList.map (·.op)) s.batch (by omega)
  rw [hok] at hrun
  cases hrun
  rw [hb, List.length_eq_zero_iff.1 he, List.nil_append]

theorem Accounted.step {e} (h : s.Accounted) (hst : Step machineId cfg s e s') : s'.Accounted := by
  cases hst with
  | prepare => exact ⟨h.flight, h.count⟩
  | response k rm r _ hf => exact h.response hf
  | waited => exact ⟨h.flight, h.count⟩
  | broadcast _ hok =>
    unfold broadcastCacheOps at hok
    split at hok
    · cases hok
      exact ⟨h.flight, h.count⟩
    · obtain ⟨s₁, hfill, hok⟩ := bind_eq_ok.1 hok
      cases hok
      obtain ⟨hf, hc⟩ := (fillAll_ok hfill).2.1 h
      exact ⟨hf, hc⟩
  | send _ hok =>
    obtain ⟨s₁, hfill, hok⟩ := bind_eq_ok.1 hok
    cases hok
    obtain ⟨hf, hc⟩ := (fillAll_ok hfill).2.1 h
    exact ⟨hf, hc⟩
  | next => exact ⟨h.flight, h.count⟩

/-- A response puts no buffer to use. -/
theorem used_of_response {k k' : Traffic} {rm rm' : Fin N} (h : (s.response k rm).used k' rm' = true) :
    s.used k' rm' = true := by
  change Function.update s.used k (Function.update (s.used k) rm false) k' rm' = true at h
  rw [update_used] at h
  split at h
  · cases h
  · exact h

/-- `send_requests` leaves no cold request behind. -/
theorem Phase.due_cleared (h : s.Phase machineId) (rm : Fin N) :
    (if rm ∈ s.due machineId then 0 else s.idx rm) = 0 := by
  split
  · rfl
  · next hnot =>
    rw [mem_due] at hnot
    by_cases hm : rm = machineId
    · rw [hm]
      exact h.counted.2
    · have := not_and.1 hnot hm
      omega

theorem Phase.broadcast (h : s.Phase machineId) (hpc : s.pc = .bcast) (hok : s.broadcastCacheOps machineId = .ok s') :
    Phase machineId { s' with pc := .send } := by
  have hdata := h.data (.inl hpc)
  unfold broadcastCacheOps at hok
  split at hok
  · next he =>
    cases hok
    exact ⟨nofun, h.counted, fun _ => hdata, fun _ => he⟩
  · obtain ⟨s₁, hfill, hok⟩ := bind_eq_ok.1 hok
    cases hok
    obtain ⟨hsame, -, hused⟩ := fillAll_ok hfill
    refine ⟨nofun, ?_, fun _ rm => ?_, fun _ => rfl⟩
    · show (∀ rm, s₁.idx rm ≤ s₁.wrI) ∧ s₁.idx machineId = 0
      rw [hsame.idx, hsame.wrI]
      exact h.counted
    · have hu := hused .data rm
      simp only [hdata rm] at hu
      simpa using hu

theorem Phase.send (h : s.Phase machineId) (hpc : s.pc = .send) (hok : s.sendRequests machineId = .ok s') :
    Phase machineId { s' with pc := .poll } := by
  have hdata := h.data (.inr hpc)
  obtain ⟨s₁, hfill, hok⟩ := bind_eq_ok.1 hok
  cases hok
  obtain ⟨hsame, -, hused⟩ := fillAll_ok hfill
  refine ⟨fun _ => ⟨?_, h.due_cleared, fun rm hu => ?_⟩, ⟨fun rm => ?_, h.due_cleared machineId⟩, nofun, nofun⟩
  · show s₁.batch.cidx = 0
    rw [hsame.batch]
    exact h.sent hpc
  · rcases (hused .data rm).1 hu with hu | ⟨_, hd⟩
    · simp [hdata rm] at hu
    · show 0 < s₁.wrI
      have hle := h.counted.1 rm
      have hpos := (mem_due.1 hd).2
      rw [hsame.wrI]
      omega
  · show (if rm ∈ s.due machineId then 0 else s.idx rm) ≤ _
    rw [h.due_cleared rm]
    omega

theorem Phase.step {e} (ha : s.Accounted) (h : s.Phase machineId) (hst : Step machineId cfg s e s') :
    s'.Phase machineId := by
  cases hst with
  | prepare slots ops' batch' cold hpc _ hcold =>
    obtain ⟨_, hidx, hdata⟩ := h.idle (.inl hpc)
    have hc : Cold.Counted machineId cold :=
      handleColdRequests_counted ⟨fun rm => (hidx rm).le, hidx machineId⟩ hcold
    by_cases hw : 0 < s.wrI
    · exact ⟨by simp [hw], ⟨hc.le, hc.own⟩, by simp [hw], by simp [hw]⟩
    · refine ⟨by simp [hw], ⟨hc.le, hc.own⟩, fun _ rm => ?_, by simp [hw]⟩
      by_contra hu
      exact hw (hdata rm (by simpa using hu))
  | response k rm r hpc hf =>
    refine ⟨fun hp => ?_, h.counted, fun hp => ?_, h.sent⟩
    · obtain ⟨hb, hi, hd⟩ := h.idle hp
      exact ⟨hb, hi, fun rm' hu => hd rm' (used_of_response hu)⟩
    · rcases hpc with hpc | hpc <;> rcases hp with hp | hp <;> cases hpc.symm.trans hp
  | waited _ hz => exact ⟨nofun, h.counted, fun _ rm => ha.all_free hz .data rm, nofun⟩
  | broadcast hpc hok => exact h.broadcast hpc hok
  | send hpc hok => exact h.send hpc hok
  | next hpc => exact ⟨fun _ => h.idle (.inr hpc), h.counted, nofun, nofun⟩

theorem CacheFree.step {e} (ha : s.Accounted) (hp : s.Phase machineId) (hst : Step machineId cfg s e s')
    (hs : Spaced s e s') : s'.CacheFree := by
  cases hst with
  | prepare slots ops' batch' cold hpc hok _ =>
    intro hb hpos rm
    have hw : ¬ 0 < s.wrI := fun hw => by simp [hw] at hb
    refine (hs fun he => ?_).resolve_left hw rm
    have hc := cbatch_of_prepare (hp.idle (.inl hpc)).1 hok
    have hlen : 0 < batch'.cbatch.length := hpos
    rw [hc, he] at hlen
    exact absurd hlen (by simp)
  | waited _ hz => exact fun _ _ rm => ha.all_free hz .cache rm
  | response k rm r hpc => exact fun hb => by rcases hpc with hpc | hpc <;> cases hpc.symm.trans hb
  | broadcast | send | next => exact nofun

end Client

variable {s₀ s : Client N} {es : List (Action N)}

/-- The counter is right, and no buffer that is about to be filled is in use, so that neither
assertion fails. -/
structure Client.Sound (machineId : Fin N) (s : Client N) : Prop where
  transit : s.reqsInTransit = s.busy.card
  data : s.pc = .send → (∀ rm, rm ≠ machineId → 0 < s.idx rm → s.used .data rm = false) ∧
    ∃ s', s.sendRequests machineId = .ok s'
  cache : s.pc = .bcast → (0 < s.batch.cidx → ∀ rm, rm ≠ machineId → s.used .cache rm = false) ∧
    ∃ s', s.broadcastCacheOps machineId = .ok s'

theorem Client.init_phase (h : s.Init) : s.Accounted ∧ s.Phase machineId := by
  have hb : s.busy = ∅ := by
    ext ⟨k, rm⟩
    simp [Client.mem_busy, h.free]
  refine ⟨⟨?_, ?_⟩, ⟨fun _ => ⟨h.batch, h.idx, fun rm hu => ?_⟩, ⟨fun rm => (h.idx rm).le.trans (Nat.zero_le _), h.idx _⟩,
    fun hp => ?_, fun hp => ?_⟩⟩
  · rw [h.inFlight, hb]
    rfl
  · rw [h.inFlight, h.reqsInTransit]
    rfl
  · rw [h.free] at hu
    cases hu
  · rw [h.pc] at hp
    rcases hp with hp | hp <;> cases hp
  · rw [h.pc] at hp
    cases hp

/-- The counter and the buffers for cold requests are right in every run. -/
theorem phase_of_run (h : (client machineId cfg).Run s₀ es s) : s.Accounted ∧ s.Phase machineId :=
  h.invariant (fun _ s => s.Accounted ∧ s.Phase machineId) Client.init_phase fun _ hi hst =>
    ⟨hi.1.step hst, hi.2.step hi.1 hst⟩

/-- **Free buffers.** In every run in which an iteration with hot writes comes after one with cold
requests, or finds all broadcast buffers free, no busy buffer is ever filled. -/
theorem buffers_free_of_spaced (h : ((client machineId cfg).restrict Client.Spaced).Run s₀ es s) : s.Sound machineId := by
  have hinv : (s.Accounted ∧ s.Phase machineId) ∧ s.CacheFree := by
    refine h.invariant (fun _ s => (s.Accounted ∧ s.Phase machineId) ∧ s.CacheFree) (fun h₀ => ?_) fun _ hi hst => ?_
    · exact ⟨Client.init_phase h₀, fun hp => by rw [h₀.pc] at hp; cases hp⟩
    · obtain ⟨⟨ha, hp⟩, _⟩ := hi
      exact ⟨⟨ha.step hst.1, hp.step ha hst.1⟩, Client.CacheFree.step ha hp hst.1 hst.2⟩
  obtain ⟨⟨ha, hp⟩, hc⟩ := hinv
  refine ⟨?_, fun hs => ⟨fun rm _ _ => hp.data (.inr hs) rm, ?_⟩, fun hb => ⟨fun hpos rm _ => hc hb hpos rm, ?_⟩⟩
  · rw [ha.count, ha.flight]
    rfl
  · obtain ⟨s', hs'⟩ := Client.fillAll_of_free ((Client.remotes_nodup machineId).filter _) fun rm _ => hp.data (.inr hs) rm
    exact ⟨_, bind_eq_ok.2 ⟨s', hs', rfl⟩⟩
  · unfold Client.broadcastCacheOps
    split
    · exact ⟨s, rfl⟩
    · next hne =>
      obtain ⟨s', hs'⟩ := Client.fillAll_of_free (k := .cache) (Client.remotes_nodup machineId)
        fun rm _ => hc hb (Nat.pos_of_ne_zero hne) rm
      exact ⟨_, bind_eq_ok.2 ⟨s', hs', rfl⟩⟩

/-! An iteration with one hot write and otherwise reads that hit, taken twice by machine 0 of two. -/

/-- A slot with a read that hit. -/
def readHit : Slot 2 := ⟨fun _ => 111, .getSuccess, 1⟩

def oneHot : Vector (Slot 2) cacheBatchSize :=
  ⟨(⟨hotOnes 7, .putSuccess, 1⟩ :: List.replicate (cacheBatchSize - 1) readHit).toArray, by
    simp only [List.size_toArray, List.length_cons, List.length_replicate]
    rfl⟩

theorem oneHot_toList : oneHot.toList = ⟨hotOnes 7, .putSuccess, 1⟩ :: List.replicate (cacheBatchSize - 1) readHit := rfl

theorem hotWrites_oneHot : hotWrites (oneHot.toList.map (·.op)) = [setUpd (hotOnes 7)] := by
  have h7 : IsHot (hotOnes 7) := by decide
  have hr : ¬ IsHot readHit.op := by decide
  rw [oneHot_toList, List.map_cons, List.map_replicate, hotWrites, List.filter_cons_of_pos h7,
    List.filter_replicate_of_neg hr]
  rfl

theorem oneHot_hits : ∀ x ∈ oneHot.toList, x.isMiss = false := by
  intro x hx
  rw [oneHot_toList, List.mem_cons] at hx
  rcases hx with rfl | hx
  · rfl
  · rw [List.eq_of_mem_replicate hx]
    rfl

def clientStart : Client 2 := ⟨.top, fun _ _ => false, ⟨[], 0⟩, fun _ => 0, 0, 0, 0, 0⟩

/-- From the top of the loop, with no cold requests before, `oneHot` goes straight to the broadcast. -/
theorem prepare_oneHot {s : Client 2} (hpc : s.pc = .top) (hb : s.batch.cidx = 0) (hw : s.wrI = 0) :
    ∃ s', Client.Step 0 .shipped s (.prepare oneHot) s' ∧ s'.pc = .bcast ∧ s'.batch.cidx = 1 ∧ s'.used = s.used ∧
      s'.idx = s.idx ∧ s'.wrI = 0 := by
  have hlen : (hotWrites (oneHot.toList.map (·.op))).length = 1 := by rw [hotWrites_oneHot]; rfl
  have hfit : s.batch.cidx + (hotWrites (oneHot.toList.map (·.op))).length ≤ cacheBatchSize := by
    rw [hb, hlen]
    decide
  obtain ⟨ops', batch', hrun, hc, -⟩ := performBroadcasts_ok .shipped _ s.batch hfit
  have hcold : handleColdRequests .shipped 0 oneHot.toList ⟨s.idx, 0, 0, fun _ => 0⟩ = .ok ⟨s.idx, 0, 0, fun _ => 0⟩ :=
    handleColdRequests_hits oneHot_hits
  have hst := Client.Step.prepare oneHot ops' batch' _ hpc hrun hcold
  refine ⟨_, hst, ?_, ?_, rfl, rfl, rfl⟩
  · show (if 0 < s.wrI then Pc.wait else Pc.bcast) = .bcast
    rw [hw]
    rfl
  · show batch'.cbatch.length = 1
    rw [hc, List.length_append, ← CacheBatch.cidx, hb, hlen]

/-- A broadcast leaves every broadcast buffer in use. -/
theorem broadcast_fills (machineId : Fin N) (cfg : Config) (hpc : s.pc = .bcast) (hb : s.batch.cidx ≠ 0) (hfree : ∀ rm, s.used .cache rm = false) :
    ∃ s', Client.Step machineId cfg s .broadcast s' ∧ s'.pc = .send ∧ s'.batch.cidx = 0 ∧ s'.wrI = s.wrI ∧
      s'.idx = s.idx ∧ ∀ rm, s'.used .cache rm = true ↔ rm ≠ machineId := by
  obtain ⟨t, ht⟩ := Client.fillAll_of_free (Client.remotes_nodup machineId) fun rm _ => hfree rm
  obtain ⟨hsame, -, hused⟩ := Client.fillAll_ok ht
  have hbc : s.broadcastCacheOps machineId = .ok { t with batch := { t.batch with cbatch := [] } } := by
    rw [Client.broadcastCacheOps, if_neg hb]
    exact bind_eq_ok.2 ⟨t, ht, rfl⟩
  have hst : Client.Step machineId cfg s .broadcast _ := .broadcast hpc hbc
  refine ⟨_, hst, rfl, rfl, hsame.wrI, hsame.idx, fun rm => ?_⟩
  show t.used .cache rm = true ↔ _
  simp [hused, hfree, Client.mem_remotes]

/-- Without cold requests nothing is sent. -/
theorem send_nothing (machineId : Fin N) (cfg : Config) (hpc : s.pc = .send) (hidx : ∀ rm, s.idx rm = 0) :
    ∃ s', Client.Step machineId cfg s .send s' ∧ s'.pc = .poll ∧ s'.batch = s.batch ∧ s'.wrI = s.wrI ∧
      s'.used = s.used ∧ ∀ rm, s'.idx rm = 0 := by
  have hdue : s.due machineId = [] := List.eq_nil_iff_forall_not_mem.2 fun rm hm => by
    have hpos := (Client.mem_due.1 hm).2
    rw [hidx rm] at hpos
    cases hpos
  have hsend : s.sendRequests machineId = .ok { s with idx := fun rm => if rm ∈ s.due machineId then 0 else s.idx rm } := by
    rw [Client.sendRequests, hdue]
    rfl
  have hst : Client.Step machineId cfg s .send _ := .send hpc hsend
  refine ⟨_, hst, rfl, rfl, rfl, rfl, fun rm => ?_⟩
  simp [hidx]

/-- The first iteration of `oneHot`, up to the poll: the buffer for machine 1 is in use. -/
theorem run_oneHot : ∃ s, ((client (0 : Fin 2) .shipped).restrict Client.Spaced).Run clientStart
    [.prepare oneHot, .broadcast, .send] s ∧ s.pc = .poll ∧ s.batch.cidx = 0 ∧ s.wrI = 0 ∧ (∀ rm, s.idx rm = 0) ∧
      ∀ rm, s.used .cache rm = true ↔ rm ≠ 0 := by
  have h₀ : ((client (0 : Fin 2) .shipped).restrict Client.Spaced).Run clientStart [] clientStart :=
    .nil ⟨rfl, fun _ _ => rfl, rfl, fun _ => rfl, rfl, rfl, rfl⟩
  obtain ⟨s₁, hst₁, hpc₁, hb₁, hu₁, hi₁, hw₁⟩ := prepare_oneHot (s := clientStart) rfl rfl rfl
  have h₁ := h₀.snoc ⟨hst₁, fun _ => .inr fun _ => rfl⟩
  obtain ⟨s₂, hst₂, hpc₂, hb₂, hw₂, hi₂, hu₂⟩ := broadcast_fills 0 .shipped hpc₁ (by omega)
    fun rm => by rw [hu₁]; rfl
  have h₂ := h₁.snoc ⟨hst₂, trivial⟩
  obtain ⟨s₃, hst₃, hpc₃, hb₃, hw₃, hu₃, hi₃⟩ := send_nothing 0 .shipped hpc₂ fun rm => by
    rw [hi₂, hi₁]; rfl
  have h₃ := h₂.snoc ⟨hst₃, trivial⟩
  exact ⟨s₃, h₃, hpc₃, by rw [hb₃, hb₂], by rw [hw₃, hw₂, hw₁], hi₃, fun rm => by rw [hu₃]; exact hu₂ rm⟩

/-- The second iteration meets the buffer of the first, whose response is still outstanding. -/
theorem broadcast_buffer_reused : ∃ es s, (client (0 : Fin 2) .shipped).Run clientStart es s ∧ s.pc = .bcast ∧
    0 < s.batch.cidx ∧ s.used .cache 1 = true ∧ s.broadcastCacheOps 0 = .error .bufferBusy := by
  obtain ⟨s, hrun, hpc, hb, hw, -, hu⟩ := run_oneHot
  have h₃ := hrun.of_restrict
  have h₄ := h₃.snoc (.next hpc)
  obtain ⟨s', hst, hpc', hb', hu', -, -⟩ := prepare_oneHot (s := { s with pc := .top }) rfl hb hw
  have hone : s'.used .cache 1 = true := by
    rw [hu']
    exact (hu 1).2 (by decide)
  refine ⟨_, s', h₄.snoc hst, hpc', by omega, hone, ?_⟩
  have hrem : remotes (0 : Fin 2) = [1] := by decide
  rw [Client.broadcastCacheOps, if_neg (by omega), hrem, Client.fillAll, Client.fill, if_pos hone]
  rfl

/-- With the response in between, the second iteration finds the buffer free. -/
theorem buffers_free_two_iterations : ∃ es s, ((client (0 : Fin 2) .shipped).restrict Client.Spaced).Run clientStart es s ∧
    s.pc = .bcast ∧ 0 < s.batch.cidx ∧ s.Sound 0 := by
  obtain ⟨s, hrun, hpc, hb, hw, -, hu⟩ := run_oneHot
  have hbusy : (Traffic.cache, (1 : Fin 2)) ∈ s.inFlight := by
    rw [(phase_of_run hrun.of_restrict).1.flight]
    exact Client.mem_busy.2 ((hu 1).2 (by decide))
  obtain ⟨r, hr⟩ := Multiset.exists_cons_of_mem hbusy
  have h₄ := hrun.snoc ⟨.response .cache 1 r (.inr hpc) hr, trivial⟩
  have h₅ := h₄.snoc ⟨.next hpc, trivial⟩
  obtain ⟨s', hst, hpc', hb', -, -, -⟩ := prepare_oneHot
    (s := { s.response .cache 1 with inFlight := r, pc := .top }) rfl hb hw
  have h₆ := h₅.snoc ⟨hst, fun _ => .inr fun rm => ?_⟩
  · exact ⟨_, s', h₆, hpc', by omega, buffers_free_of_spaced h₆⟩
  · show Function.update s.used .cache (Function.update (s.used .cache) 1 false) .cache rm = false
    rw [Client.update_used]
    split
    · rfl
    · next hne =>
      have hzero : rm = 0 := by
        simp only [Prod.mk.injEq, true_and] at hne
        omega
      simpa [hzero] using hu 0

end CcKvs.Sc
