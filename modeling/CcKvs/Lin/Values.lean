/-
Which bytes a readable copy holds. The update for a completed write is built
from the slot of `update_ops` its last ACK was polled into, and nothing on the
way copies the written value there. So replicas hold the written bytes exactly
as long as those slots happen to contain them already; a first write by either
of two machines is enough to see a copy that is valid and wrong.
-/
import CcKvs.Lin.Client
import CcKvs.Lin.Coherence

namespace CcKvs.Lin

variable {N C : ℕ} {valLen : UInt8} {es : List (Action N C)} {s s' : Cluster N C}

/-- `value` is, over its `valLen` bytes, what the PUT of machine number `m` with this version wrote. -/
def Written (valLen : UInt8) (es : List (Action N C)) (m : ℕ) (key : UInt64) (version : UInt32) (value : Bytes) : Prop :=
  ∃ (c : Fin N) (b : Bytes), c.val = m ∧ .put c key version b ∈ es ∧ Bytes.Agree valLen.toNat value b

theorem Written.mono {m k v b l} (h : Written valLen es m k v b) : Written valLen (es ++ l) m k v b := by
  obtain ⟨c, b', hc, hm, ha⟩ := h
  exact ⟨c, b', hc, List.mem_append_left _ hm, ha⟩

theorem Written.agree {m k v b b'} (h : Written valLen es m k v b) (hb : Bytes.Agree valLen.toNat b' b) :
    Written valLen es m k v b' := by
  obtain ⟨c, b₀, hc, hm, ha⟩ := h
  exact ⟨c, b₀, hc, hm, hb.trans ha⟩

/-- Every valid copy of a written key stores the bytes of the PUT its stamp names, there is one
such PUT, and valid copies with one stamp store one value. -/
def HoldsWritten (valLen : UInt8) (es : List (Action N C)) (s : Cluster N C) : Prop :=
  (∀ m k kv, s.cache m k = .some kv → kv.keyMeta.state = .valid → kv.keyMeta.version ≠ 0 →
    ∃ (c : Fin N) (b : Bytes), c.val = kv.keyMeta.cid.toNat ∧ .put c k kv.keyMeta.version b ∈ es ∧
      (∀ b', .put c k kv.keyMeta.version b' ∈ es → b' = b) ∧ Bytes.Agree valLen.toNat kv.value b) ∧
  ∀ m m' k kv kv', s.cache m k = .some kv → s.cache m' k = .some kv' → kv.keyMeta.state = .valid →
    kv'.keyMeta.state = .valid → kv.keyMeta.version = kv'.keyMeta.version → kv.keyMeta.version ≠ 0 →
    kv.keyMeta.cid = kv'.keyMeta.cid → Bytes.Agree valLen.toNat kv.value kv'.value

/-- What holds of the copy of `k` on machine `m`. -/
structure CopyOk (valLen : UInt8) (es : List (Action N C)) (m : Fin N) (k : UInt64) (kv : CacheOp) : Prop where
  idle : kv.keyMeta.Idle
  len : kv.valLen = valLen
  written : kv.keyMeta.state.Writing ∨ kv.keyMeta.state = .valid ∧ kv.keyMeta.version ≠ 0 →
    Written valLen es (kv.keyMeta.owner m) k kv.keyMeta.version kv.value

/-- What holds of a client of machine `m`: updates it has polled carry what their sender wrote,
and updates it is about to send carry what `m` wrote. -/
structure ClientOk (valLen : UInt8) (es : List (Action N C)) (m : Fin N) (c : Client) : Prop where
  kind : ∀ i, i < c.updateOpsI → (c.updateOps i).opcode = .upd ∨ (c.updateOps i).opcode = .ack
  polled : ∀ i, c.served ≤ i → i < c.updateOpsI → (c.updateOps i).opcode = .upd →
    Written valLen es (c.updateOps i).keyMeta.cid.toNat (c.updateOps i).key (c.updateOps i).keyMeta.version
      (c.updateOps i).value
  acked : ∀ i, c.kept ≤ i → i < c.served → (c.updateOps i).opcode ≠ .upd →
    (c.updateResp i).type = .lastAckSuccess →
    Written valLen es m (c.updateOps i).key (c.updateOps i).keyMeta.version (c.updateOps i).value
  queued : ∀ i, i < c.ackSize →
    Written valLen es m (c.ackBcastOps ((c.ackPopPtr + i) % bcastToCacheBatch)).key
      (c.ackBcastOps ((c.ackPopPtr + i) % bcastToCacheBatch)).keyMeta.version
      (c.ackBcastOps ((c.ackPopPtr + i) % bcastToCacheBatch)).value
  popPtr : c.ackPopPtr < bcastToCacheBatch
  pushPtr : c.ackPushPtr = (c.ackPopPtr + c.ackSize) % bcastToCacheBatch
  order : c.kept ≤ c.served ∧ c.served ≤ c.updateOpsI

structure MsgOk (valLen : UInt8) (es : List (Action N C)) (op : CacheOp) : Prop where
  inv : op.opcode = .inv → op.keyMeta.version % 2 = 0
  upd : op.opcode = .upd → Written valLen es op.keyMeta.cid.toNat op.key op.keyMeta.version op.value

structure Cluster.Inv (valLen : UInt8) (es : List (Action N C)) (s : Cluster N C) : Prop where
  cache : ∀ m k kv, s.cache m k = .some kv → CopyOk valLen es m k kv
  client : ∀ m t, ClientOk valLen es m (s.client m t)
  waiting : ∀ x ∈ s.waiting, x.2.2.keyMeta.version % 2 = 0
  net : ∀ x ∈ s.net, MsgOk valLen es x.2.2
  put : ∀ m k v b, .put m k v b ∈ es → ∃ kv, s.cache m k = .some kv ∧ v ≤ kv.keyMeta.version
  once : ∀ m k v b b', .put m k v b ∈ es → .put m k v b' ∈ es → b = b'

theorem CopyOk.mono {m k kv l} (h : CopyOk valLen es m k kv) : CopyOk valLen (es ++ l) m k kv :=
  ⟨h.idle, h.len, fun hw => (h.written hw).mono⟩

theorem ClientOk.mono {m c l} (h : ClientOk valLen es m c) : ClientOk valLen (es ++ l) m c :=
  ⟨h.kind, fun i h₁ h₂ h₃ => (h.polled i h₁ h₂ h₃).mono, fun i h₁ h₂ h₃ h₄ => (h.acked i h₁ h₂ h₃ h₄).mono,
    fun i hi => (h.queued i hi).mono, h.popPtr, h.pushPtr, h.order⟩

theorem MsgOk.mono {op l} (h : MsgOk valLen es op) : MsgOk valLen (es ++ l) op :=
  ⟨h.inv, fun hu => (h.upd hu).mono⟩

/-! ## One record -/

variable {m : Fin N} {k : UInt64} {h h' : Hit}

theorem CopyOk.get (hc : CopyOk valLen es m k h.kv) (hok : linGet h = .ok h') : CopyOk valLen es m k h'.kv := by
  rcases linGet_idle hc.idle hok with ⟨-, hkv, -⟩ | ⟨hv, -, hkv⟩
  · rw [hkv]
    exact hc
  · have hw : h.kv.keyMeta.state.replay.Writing ↔ h.kv.keyMeta.state.Writing := by
      cases h.kv.keyMeta.state <;> simp [CacheState.replay, CacheState.Writing]
    have hnv : h.kv.keyMeta.state.replay ≠ .valid := by
      cases hs : h.kv.keyMeta.state <;> simp_all [CacheState.replay]
    rw [hkv]
    refine ⟨⟨hc.idle.free, hc.idle.even⟩, hc.len, fun hx => ?_⟩
    rcases hx with hx | hx
    · have hx' := hw.1 hx
      have := hc.written (.inl hx')
      rw [CacheMeta.owner_of_writing hx'] at this
      rw [CacheMeta.owner_of_writing hx]
      exact this
    · exact absurd hx.1 hnv

theorem CopyOk.inv (hc : CopyOk valLen es m k h.kv) (he : h.op.keyMeta.version % 2 = 0)
    (hok : linInv m h = .ok h') : CopyOk valLen es m k h'.kv := by
  obtain ⟨-, ⟨-, -, hkv⟩ | ⟨-, -, hkv⟩⟩ := linInv_idle hc.idle he hok
  · rw [hkv]
    refine ⟨⟨rfl, he⟩, hc.len, fun hx => ?_⟩
    cases hs : h.kv.keyMeta.state <;> simp [hs, CacheState.invalidated, CacheState.Writing] at hx
  · rw [hkv]
    exact hc

theorem CopyOk.upd (hc : CopyOk valLen es m k h.kv)
    (hw : Written valLen es h.op.keyMeta.cid.toNat k h.op.keyMeta.version h.op.value) (hok : linUpd h = .ok h') :
    CopyOk valLen es m k h'.kv ∧ h'.resp.type ≠ .lastAckSuccess ∧ h'.op = h.op := by
  rcases linUpd_idle hc.idle hok with ⟨-, hv, hcid, rfl⟩ | ⟨-, rfl⟩
  · refine ⟨⟨⟨hc.idle.free, hc.idle.even⟩, hc.len, fun _ => ?_⟩, nofun, rfl⟩
    have hag := Bytes.agree_memcpy h.kv.value h.op.value h.kv.valLen.toNat
    rw [hc.len] at hag
    have hown : ((h.kv.store h.op).setMeta (h.kv.keyMeta.become .valid)).keyMeta.owner m = h.op.keyMeta.cid.toNat := by
      rw [CacheMeta.owner_of_not_writing CacheState.valid_not_writing, ← hcid]
      rfl
    rw [← hv] at hw
    exact hown ▸ hw.agree (by simpa [CacheOp.store, hc.len] using hag)
  · exact ⟨hc, nofun, rfl⟩

/-- The last acknowledgement validates the copy and, if the slot holds the written bytes, leaves
a slot that is fit to be sent. -/
theorem CopyOk.ack (hN : N ≤ 256) (hc : CopyOk valLen es m k h.kv) (hok : linAck m h = .ok h')
    (hb : h.kv.keyMeta.state.Writing → h.kv.keyMeta.version = h.op.keyMeta.version →
      h.kv.keyMeta.pendingAcks = 1 → Bytes.Agree valLen.toNat h.op.value h.kv.value) :
    CopyOk valLen es m k h'.kv ∧ h'.op = h.op ∧
      (h'.resp.type = .lastAckSuccess → Written valLen es m k h'.op.keyMeta.version h'.op.value) := by
  rcases linAck_idle hc.idle hok with ⟨hw, hv, ⟨hp, rfl⟩ | ⟨hp, rfl⟩⟩ | ⟨-, rfl⟩
  · have hwr := hc.written (.inl hw)
    rw [CacheMeta.owner_of_writing hw] at hwr
    refine ⟨⟨⟨hc.idle.free, hc.idle.even⟩, hc.len, fun _ => ?_⟩, rfl, fun _ => ?_⟩
    · have hown : (h.kv.setMeta (h.kv.keyMeta.completed m)).keyMeta.owner m = m := by
        rw [CacheMeta.owner_of_not_writing CacheState.valid_not_writing]
        exact toNat_ofNat_fin hN
      rw [Hit.respond_kv, hown]
      exact hwr
    · rw [hv] at hwr
      exact hwr.agree (hb hw hv hp)
  · refine ⟨⟨⟨hc.idle.free, hc.idle.even⟩, hc.len, fun hx => ?_⟩, rfl, nofun⟩
    exact hc.written hx
  · exact ⟨hc, rfl, nofun⟩

theorem CopyOk.put (hc : CopyOk valLen es m k h.kv) (hok : linPut N m h = .ok h')
    (hm : .put m k h'.op.keyMeta.version h.op.value ∈ es ∨ h'.resp.type ≠ .putSuccess) :
    CopyOk valLen es m k h'.kv ∧ (h'.resp.type = .putSuccess → h'.op.keyMeta.version % 2 = 0 ∧
      h'.op.keyMeta.version = h'.kv.keyMeta.version ∧ h'.op.keyMeta.version = h.kv.keyMeta.version + 1 + 1) := by
  rcases linPut_idle hc.idle hok with ⟨hr, hkv, -, hver, -, -⟩ | ⟨-, rfl | rfl⟩
  · have hput := hm.resolve_right (fun hx => hx (by rw [hr]))
    have hw : h.kv.keyMeta.state.written.Writing := by
      cases h.kv.keyMeta.state <;> simp [CacheState.written, CacheState.Writing]
    have hag := Bytes.agree_memcpy h.kv.value h.op.value h.kv.valLen.toNat
    rw [hc.len] at hag
    rw [hver] at hput
    refine ⟨⟨?_, ?_, fun _ => ?_⟩, fun _ => ⟨hver ▸ even_add_two hc.idle.even, ?_, hver⟩⟩
    · rw [hkv]
      exact ⟨rfl, even_add_two hc.idle.even⟩
    · rw [hkv]
      exact hc.len
    · rw [hkv, CacheMeta.owner_of_writing (by exact hw)]
      refine ⟨m, h.op.value, rfl, hput, ?_⟩
      simpa [CacheOp.store, hc.len] using hag
    · rw [hkv, hver]
      rfl
  · exact ⟨hc, fun hx => by cases hx⟩
  · exact ⟨hc, fun hx => by cases hx⟩

/-! ## Client buffers -/

variable {c c' : Client}

theorem copyReq_opcode {slot req : CacheOp} : (copyReq valLen slot req).opcode = req.opcode := by
  unfold copyReq
  split <;> rfl

theorem ClientOk.poll (hc : ClientOk valLen es m c) {op : CacheOp} (hp : c.CanPoll)
    (hoc : op.opcode = .upd ∨ op.opcode = .ack) (hm : MsgOk valLen es op) :
    ClientOk valLen es m (c.pollCoherence valLen op) := by
  obtain ⟨h0, -, -⟩ := hp
  refine ⟨fun i hi => ?_, fun i h₁ h₂ h₃ => ?_, fun i h₁ h₂ => absurd h₂ (by simp [Client.pollCoherence, h0]), hc.queued, hc.popPtr, hc.pushPtr,
    hc.order.1, hc.order.2.trans (Nat.le_succ _)⟩
  · simp only [Client.pollCoherence] at hi ⊢
    by_cases he : i = c.updateOpsI
    · rw [he, Function.update_self, copyReq_opcode]
      exact hoc
    · rw [Function.update_of_ne he]
      exact hc.kind i (by omega)
  · simp only [Client.pollCoherence] at h₁ h₂ h₃ ⊢
    by_cases he : i = c.updateOpsI
    · subst he
      rw [Function.update_self] at h₃ ⊢
      rw [copyReq_opcode] at h₃
      rw [copyReq, if_pos h₃]
      exact (hm.upd h₃).agree (Bytes.agree_memcpy _ _ _)
    · rw [Function.update_of_ne he] at h₃ ⊢
      exact hc.polled i h₁ (by omega) h₃

theorem ClientOk.serve (hc : ClientOk valLen es m c) {op : CacheOp} {resp : MicaResp} (hlt : c.served < c.updateOpsI)
    (hoc : op.opcode = (c.updateOps c.served).opcode)
    (hl : resp.type = .lastAckSuccess → Written valLen es m op.key op.keyMeta.version op.value) :
    ClientOk valLen es m (c.serve op resp) := by
  refine ⟨fun i hi => ?_, fun i h₁ h₂ h₃ => ?_, fun i h₁ h₂ h₃ h₄ => ?_, hc.queued, hc.popPtr, hc.pushPtr,
    hc.order.1.trans (Nat.le_succ _), hlt⟩
  · simp only [Client.serve]
    by_cases he : i = c.served
    · rw [he, Function.update_self, hoc]
      exact hc.kind _ hlt
    · rw [Function.update_of_ne he]
      exact hc.kind i hi
  · have hi : i ≠ c.served := fun he => absurd h₁ (by simp [Client.serve, he])
    simp only [Client.serve, Function.update_of_ne hi] at h₁ h₂ h₃ ⊢
    exact hc.polled i (by omega) h₂ h₃
  · simp only [Client.serve] at h₁ h₂ h₃ h₄ ⊢
    by_cases hi : i = c.served
    · subst hi
      simp only [Function.update_self] at h₄ ⊢
      exact hl h₄
    · rw [Function.update_of_ne hi] at h₃ h₄ ⊢
      exact hc.acked i h₁ (by omega) h₃ h₄

theorem ClientOk.keep (hc : ClientOk valLen es m c) (hlt : c.kept < c.served)
    (hok : c.bookkeeping valLen = .ok c') : ClientOk valLen es m c' := by
  have hskip : ClientOk valLen es m { c with kept := c.kept + 1 } :=
    ⟨hc.kind, hc.polled, fun i h₁ => hc.acked i (Nat.le_of_succ_le h₁), hc.queued, hc.popPtr, hc.pushPtr, hlt, hc.order.2⟩
  rcases Client.bookkeeping_cases hok with ⟨-, rfl⟩ | ⟨⟨hnu, hlast⟩, rfl⟩
  · exact hskip
  · refine ⟨hc.kind, hskip.polled, hskip.acked, fun i hi => ?_, hc.popPtr, ?_, hskip.order⟩
    · simp only
      by_cases he : (c.ackPopPtr + i) % bcastToCacheBatch = c.ackPushPtr
      · simp only [he, Function.update_self]
        exact hc.acked c.kept le_rfl hlt hnu hlast
      · simp only [Function.update_of_ne he]
        refine hc.queued i (Nat.lt_of_le_of_ne (Nat.le_of_lt_succ hi) fun hx => he ?_)
        rw [hx, hc.pushPtr]
    · simp only [hc.pushPtr, Nat.mod_add_mod, Nat.add_assoc]

theorem ClientOk.next (hc : ClientOk valLen es m c) :
    ClientOk valLen es m { c with updateOpsI := 0, served := 0, kept := 0, ackOpsI := 0 } :=
  ⟨fun _ hi => absurd hi (Nat.not_lt_zero _), fun _ _ hi => absurd hi (Nat.not_lt_zero _),
    fun _ _ hi => absurd hi (Nat.not_lt_zero _), hc.queued, hc.popPtr, hc.pushPtr, le_rfl, le_rfl⟩

/-- The update at the pop pointer is the oldest one queued. -/
theorem ClientOk.nextUpd (hN : N ≤ 256) (hc : ClientOk valLen es m c) (hpos : 0 < c.ackSize) :
    MsgOk valLen es (c.nextUpd m) := by
  refine ⟨nofun, fun _ => ?_⟩
  have hq := hc.queued 0 hpos
  rw [Nat.add_zero, Nat.mod_eq_of_lt hc.popPtr] at hq
  have hcid : (c.nextUpd m).keyMeta.cid.toNat = m := toNat_ofNat_fin hN
  rw [hcid]
  exact hq

theorem ClientOk.forge (hc : ClientOk valLen es m c) (hpos : 0 < c.ackSize) : ClientOk valLen es m (c.forgeUpd m) := by
  refine ⟨hc.kind, hc.polled, hc.acked, fun i hi => ?_, Nat.mod_lt _ (by decide), ?_, hc.order⟩
  · have hq := hc.queued (i + 1) (by simp only [Client.forgeUpd] at hi; omega)
    have hidx : ((c.ackPopPtr + 1) % bcastToCacheBatch + i) % bcastToCacheBatch =
        (c.ackPopPtr + (i + 1)) % bcastToCacheBatch := by
      rw [Nat.mod_add_mod, Nat.add_assoc, Nat.add_comm 1]
    simp only [Client.forgeUpd, hidx]
    by_cases he : (c.ackPopPtr + (i + 1)) % bcastToCacheBatch = c.ackPopPtr
    · rw [he] at hq ⊢
      rw [Function.update_self]
      exact hq
    · rw [Function.update_of_ne he]
      exact hq
  · simp only [Client.forgeUpd, hc.pushPtr, Nat.mod_add_mod]
    congr 1
    omega

/-! ## Whole runs -/

/-- Whenever the last ACK of a write is given to the cache, the slot it was polled into already
holds, in its value field, the bytes of that write. -/
def BytesInPlace (valLen : UInt8) (s : Cluster N C) : Action N C → Cluster N C → Prop
  | .serve m t, _ =>
    let op := (s.client m t).updateOps (s.client m t).served
    ∀ kv, s.cache m op.key = .some kv → op.opcode = .ack → kv.keyMeta.state.Writing →
      kv.keyMeta.version = op.keyMeta.version → kv.keyMeta.pendingAcks = 1 →
      Bytes.Agree valLen.toNat op.value kv.value
  | _, _ => True

theorem serve_isSome {cache cache' : Cache} {body op op' resp resp'}
    (hok : cache.serve body op resp = .ok (cache', op', resp')) {k kv} (hk : cache k = .some kv) :
    ∃ kv', cache' k = .some kv' := by
  rcases Cache.serve_ok hok with ⟨rfl, -⟩ | ⟨kv₀, x, -, -, rfl, -⟩
  · exact ⟨kv, hk⟩
  · by_cases he : k = op.key
    · exact ⟨x.kv, by simp [he]⟩
    · exact ⟨kv, by simpa [he] using hk⟩

/-- The records after a call are in order if the one it hit is. -/
theorem serve_copyOk {cache cache' : Cache} {body op op' resp resp'}
    (hok : cache.serve body op resp = .ok (cache', op', resp'))
    (hc : ∀ k kv, cache k = .some kv → CopyOk valLen es m k kv)
    (hb : ∀ kv x, cache op.key = .some kv → body ⟨kv, op, resp⟩ = .ok x → resp' = x.resp →
      CopyOk valLen es m op.key x.kv) :
    ∀ k kv, cache' k = .some kv → CopyOk valLen es m k kv := by
  intro k kv hk
  rcases Cache.serve_ok hok with ⟨rfl, -⟩ | ⟨kv₀, x, hkv, hx, rfl, -, hr⟩
  · exact hc k kv hk
  · by_cases he : k = op.key
    · subst he
      simp only [Function.update_self, Option.some.injEq] at hk
      exact hk ▸ hb kv₀ x hkv hx hr
    · exact hc k kv (by simpa [he] using hk)

theorem setCache_copyOk {cache' : Cache} (h : ∀ m k kv, s.cache m k = .some kv → CopyOk valLen es m k kv)
    (h' : ∀ k kv, cache' k = .some kv → CopyOk valLen es m k kv) :
    ∀ x k kv, (s.setCache m cache').cache x k = .some kv → CopyOk valLen es x k kv := by
  intro x k kv hk
  simp only [Cluster.setCache] at hk
  by_cases hx : x = m
  · subst hx
    exact h' k kv (by simpa using hk)
  · exact h x k kv (by simpa [hx] using hk)

theorem setCache_isSome {cache' : Cache} (h' : ∀ k kv, s.cache m k = .some kv → ∃ kv', cache' k = .some kv') {x k kv}
    (hk : s.cache x k = .some kv) : ∃ kv', (s.setCache m cache').cache x k = .some kv' := by
  simp only [Cluster.setCache]
  by_cases hx : x = m
  · subst hx
    simpa using h' k kv hk
  · exact ⟨kv, by simpa [hx] using hk⟩

theorem setClient_ok {t : Fin C} (h : ∀ m t, ClientOk valLen es m (s.client m t)) (hc : ClientOk valLen es m c) :
    ∀ x y, ClientOk valLen es x ((s.setClient m t c).client x y) := by
  intro x y
  simp only [Cluster.setClient]
  by_cases hx : x = m
  · subst hx
    by_cases hy : y = t
    · simpa [hy] using hc
    · simpa [hy] using h x y
  · simpa [hx] using h x y

/-- An INV that succeeds carries the greater stamp. -/
theorem linInv_version_le {x x' : Hit} (hi : x.kv.keyMeta.Idle) (he : x.op.keyMeta.version % 2 = 0) (hok : linInv m x = .ok x') :
    x.kv.keyMeta.version ≤ x'.kv.keyMeta.version := by
  obtain ⟨-, ⟨hlt, -, hkv⟩ | ⟨-, -, hkv⟩⟩ := linInv_idle hi he hok
  · rw [hkv, UInt32.le_iff_toNat_le]
    rcases stamp_lt.1 hlt with hlt | ⟨heq, -⟩
    · exact hlt.le
    · exact heq.le
  · rw [hkv]
    exact UInt32.le_refl _

/-- No record has a smaller version in `s'`. -/
def Cluster.Grows (s s' : Cluster N C) : Prop :=
  ∀ m k kv kv', s.cache m k = .some kv → s'.cache m k = .some kv' → kv.keyMeta.version ≤ kv'.keyMeta.version

/-- Only the record an operation hits can change its version. -/
theorem Cluster.Grows.of_serve {body op op' resp resp' cache'} (hok : (s.cache m).serve body op resp = .ok (cache', op', resp'))
    (hhit : ∀ kv x, s.cache m op.key = .some kv → body ⟨kv, op, resp⟩ = .ok x → x.resp = resp' →
      kv.keyMeta.version ≤ x.kv.keyMeta.version) : s.Grows (s.setCache m cache') := by
  intro y k kv kv' hkv hkv'
  simp only [Cluster.setCache] at hkv'
  by_cases hy : y = m
  · subst hy
    rw [Function.update_self] at hkv'
    rcases Cache.serve_ok hok with ⟨rfl, -, -⟩ | ⟨kv₁, x, hkv₁, hx, rfl, -, rfl⟩
    · cases hkv.symm.trans hkv'
      exact UInt32.le_refl _
    · by_cases hk : k = op.key
      · subst hk
        rw [Function.update_self] at hkv'
        cases hkv.symm.trans hkv₁
        cases hkv'
        exact hhit kv x hkv hx rfl
      · rw [Function.update_of_ne hk] at hkv'
        cases hkv.symm.trans hkv'
        exact UInt32.le_refl _
  · rw [Function.update_of_ne hy] at hkv'
    cases hkv.symm.trans hkv'
    exact UInt32.le_refl _

/-- What a step that is no PUT leaves of the record of PUTs. -/
theorem Cluster.Inv.put_tau {e : Action N C} (h : Cluster.Inv valLen es s) (he : ∀ m k v b, e ≠ .put m k v b)
    (hsome : ∀ m k kv, s.cache m k = .some kv → ∃ kv', s'.cache m k = .some kv') (hgrows : s.Grows s') :
    (∀ m k v b, .put m k v b ∈ es ++ [e] → ∃ kv, s'.cache m k = .some kv ∧ v ≤ kv.keyMeta.version) ∧
    ∀ m k v b b', .put m k v b ∈ es ++ [e] → .put m k v b' ∈ es ++ [e] → b = b' := by
  have hmem : ∀ {m k v b}, .put m k v b ∈ es ++ [e] → .put m k v b ∈ es := fun hm =>
    (List.mem_append.1 hm).resolve_right fun hx => he _ _ _ _ (List.mem_singleton.1 hx).symm
  refine ⟨fun m k v b hm => ?_, fun m k v b b' hm hm' => h.once m k v b b' (hmem hm) (hmem hm')⟩
  obtain ⟨kv, hkv, hle⟩ := h.put m k v b (hmem hm)
  obtain ⟨kv', hkv'⟩ := hsome m k kv hkv
  exact ⟨kv', hkv', UInt32.le_trans hle (hgrows m k kv kv' hkv hkv')⟩

theorem Cluster.Inv.clientOther {op op' resp resp' cache'} (h : Cluster.Inv valLen es s)
    (hoc : op.opcode = .get ∨ op.opcode = .put)
    (hok : (s.cache m).serve (linNonStallingSessions N m) op resp = .ok (cache', op', resp'))
    (hns : resp'.type ≠ .putSuccess) : Cluster.Inv valLen (es ++ [.tau]) (s.setCache m cache') := by
  have hgrows : s.Grows (s.setCache m cache') := .of_serve hok fun kv x hkv hx hr => by
    have hi := (h.cache m _ kv hkv).idle
    rcases hoc with hoc | hoc <;> simp only [linNonStallingSessions, hoc] at hx
    · rcases linGet_idle hi hx with ⟨-, hkv, -⟩ | ⟨-, -, hkv⟩ <;> rw [hkv] <;> exact UInt32.le_refl _
    · rcases linPut_idle hi hx with ⟨hs, -⟩ | ⟨-, rfl | rfl⟩
      · exact absurd (hr ▸ congrArg MicaResp.type hs) hns
      · exact UInt32.le_refl _
      · exact UInt32.le_refl _
  obtain ⟨hput, honce⟩ := h.put_tau (e := .tau) (by simp)
    (fun _ _ _ => setCache_isSome fun _ _ => serve_isSome hok) hgrows
  refine ⟨setCache_copyOk (fun x k kv hk => (h.cache x k kv hk).mono) ?_, fun x y => (h.client x y).mono, h.waiting,
    fun x hx => (h.net x hx).mono, hput, honce⟩
  refine serve_copyOk hok (fun k kv hk => (h.cache m k kv hk).mono) fun kv x hkv hx hr => ?_
  have hc : CopyOk valLen (es ++ [.tau]) m op.key kv := (h.cache m _ kv hkv).mono
  rcases hoc with hoc | hoc <;> simp only [linNonStallingSessions, hoc] at hx
  · exact CopyOk.get hc hx
  · exact (CopyOk.put hc hx (.inr (hr ▸ hns))).1

/-- A version two above the record's has not been put before. -/
theorem Cluster.Inv.put_fresh {k : UInt64} {kv : CacheOp} {v : UInt32} {b} (h : Cluster.Inv valLen es s)
    (hkv : s.cache m k = some kv) (heven : kv.keyMeta.version % 2 = 0) (hv : v = kv.keyMeta.version + 1 + 1)
    (hle : kv.keyMeta.version ≤ v) : .put m k v b ∉ es := by
  intro hm
  obtain ⟨kv', hkv', hput⟩ := h.put _ _ _ _ hm
  cases hkv.symm.trans hkv'
  subst hv
  rw [UInt32.le_iff_toNat_le, toNat_add_two_of_even heven hle] at hput
  omega

theorem Cluster.Inv.clientPut {t : Fin C} {op op' resp resp' cache'} (h : Cluster.Inv valLen es s)
    (hoc : op.opcode = .get ∨ op.opcode = .put)
    (hok : (s.cache m).serve (linNonStallingSessions N m) op resp = .ok (cache', op', resp'))
    (hsucc : resp'.type = .putSuccess)
    (hnw : Cluster.NoWrap s (.put m op.key op'.keyMeta.version op.value : Action N C) (s.setCache m cache')) :
    Cluster.Inv valLen (es ++ [.put m op.key op'.keyMeta.version op.value])
      { s.setCache m cache' with waiting := (m, t, op') ::ₘ s.waiting } := by
  rcases Cache.serve_ok hok with ⟨-, -, ⟨rfl, hx⟩ | hx⟩ | ⟨kv, x, hkv, hx, rfl, rfl, rfl⟩
  · cases hx.symm.trans hsucc
  · cases hx.symm.trans hsucc
  have hc := h.cache m _ kv hkv
  rcases hoc with hoc | hoc <;> simp only [linNonStallingSessions, hoc] at hx
  · rcases linGet_idle hc.idle hx with ⟨-, -, hr⟩ | ⟨-, hr, -⟩
    · simp [hr] at hsucc
    · simp [hr] at hsucc
  obtain ⟨hc', hput⟩ := CopyOk.put (hc.mono (l := [.put m op.key x.op.keyMeta.version op.value])) hx (.inl (by simp))
  obtain ⟨heven, hver, hadd⟩ := hput hsucc
  have hnew : (s.setCache m (Function.update (s.cache m) op.key (.some x.kv))).cache m op.key = .some x.kv := by
    simp [Cluster.setCache]
  have hle := hnw m op.key _ _ rfl kv x.kv hkv hnew
  have hgrows : s.Grows (s.setCache m (Function.update (s.cache m) op.key (.some x.kv))) :=
    .of_serve hok fun kv₁ x₁ hkv₁ hx₁ _ => by
      cases hkv.symm.trans hkv₁
      simp only [linNonStallingSessions, hoc] at hx₁
      cases hx.symm.trans hx₁
      exact hle
  rw [← hver] at hle
  have hfresh := fun b => h.put_fresh hkv hc.idle.even hadd hle (b := b)
  refine ⟨setCache_copyOk (fun y k kv hk => (h.cache y k kv hk).mono) ?_, fun y z => (h.client y z).mono, ?_,
    fun y hy => (h.net y hy).mono, fun m' k v b hm => ?_, fun m' k v b b' hm hm' => ?_⟩
  · refine serve_copyOk hok (fun k kv hk => (h.cache m k kv hk).mono) fun kv₁ x₁ hkv₁ hx₁ _ => ?_
    cases hkv.symm.trans hkv₁
    simp only [linNonStallingSessions, hoc] at hx₁
    cases hx.symm.trans hx₁
    exact hc'
  · intro y hy
    rcases Multiset.mem_cons.1 hy with rfl | hy
    · exact heven
    · exact h.waiting y hy
  · rcases List.mem_append.1 hm with hm | hm
    · obtain ⟨kv₁, hkv₁, hle⟩ := h.put m' k v b hm
      obtain ⟨kv₂, hkv₂⟩ := setCache_isSome (fun _ _ => serve_isSome hok) hkv₁
      exact ⟨kv₂, hkv₂, UInt32.le_trans hle (hgrows m' k kv₁ kv₂ hkv₁ hkv₂)⟩
    · cases List.mem_singleton.1 hm
      exact ⟨x.kv, hnew, hver ▸ UInt32.le_refl _⟩
  · rcases List.mem_append.1 hm with hm | hm <;> rcases List.mem_append.1 hm' with hm' | hm'
    · exact h.once m' k v b b' hm hm'
    · cases List.mem_singleton.1 hm'
      exact absurd hm (hfresh b)
    · cases List.mem_singleton.1 hm
      exact absurd hm' (hfresh b')
    · cases List.mem_singleton.1 hm
      cases List.mem_singleton.1 hm'
      rfl

/-- A step that leaves the caches and the queue of PUTs alone. -/
theorem Cluster.Inv.quiet {e : Action N C} (h : Cluster.Inv valLen es s) (he : ∀ m k v b, e ≠ .put m k v b)
    (hcache : s'.cache = s.cache) (hclient : ∀ m t, ClientOk valLen (es ++ [e]) m (s'.client m t))
    (hwait : ∀ x ∈ s'.waiting, x.2.2.keyMeta.version % 2 = 0)
    (hnet : ∀ x ∈ s'.net, MsgOk valLen (es ++ [e]) x.2.2) : Cluster.Inv valLen (es ++ [e]) s' := by
  have hgrows : s.Grows s' := fun m k kv kv' hkv hkv' => by
    rw [hcache] at hkv'
    cases hkv.symm.trans hkv'
    exact UInt32.le_refl _
  obtain ⟨hput, honce⟩ := h.put_tau he (fun x k kv hk => ⟨kv, by rw [hcache]; exact hk⟩) hgrows
  exact ⟨fun x k kv hk => (h.cache x k kv (hcache ▸ hk)).mono, hclient, hwait, hnet, hput, honce⟩

theorem Cluster.Inv.inval {t : Fin C} {op op' resp resp' cache' r} (h : Cluster.Inv valLen es s)
    (hn : s.net = (m.val, t, op) ::ₘ r) (hoc : op.opcode = .inv)
    (hok : (s.cache m).serve (linNonStallingSessionsWithSmallCacheOp m) op resp = .ok (cache', op', resp')) :
    Cluster.Inv valLen (es ++ [.tau]) { s.setCache m cache' with
      net := if resp'.type = .invSuccess then (op'.keyMeta.cid.toNat, t, outgoing m .ack op') ::ₘ r else r } := by
  have hmsg : MsgOk valLen es op := h.net (m.val, t, op) (by simp [hn])
  have hgrows : s.Grows (s.setCache m cache') := .of_serve hok fun kv x hkv hx _ => by
    simp only [linNonStallingSessionsWithSmallCacheOp, hoc] at hx
    exact linInv_version_le (h.cache m _ kv hkv).idle (hmsg.inv hoc) hx
  obtain ⟨hput, honce⟩ := h.put_tau (e := .tau) (by simp)
    (fun _ _ _ => setCache_isSome fun _ _ => serve_isSome hok) hgrows
  have hr : ∀ x ∈ r, MsgOk valLen (es ++ [.tau]) x.2.2 := fun x hx => (h.net x (by simp [hn, hx])).mono
  refine ⟨setCache_copyOk (fun x k kv hk => (h.cache x k kv hk).mono) ?_, fun x y => (h.client x y).mono, h.waiting,
    fun x hx => ?_, hput, honce⟩
  · refine serve_copyOk hok (fun k kv hk => (h.cache m k kv hk).mono) fun kv x hkv hx _ => ?_
    simp only [linNonStallingSessionsWithSmallCacheOp, hoc] at hx
    exact CopyOk.inv (h.cache m _ kv hkv).mono (hmsg.inv hoc) hx
  · simp only at hx
    split at hx
    · rcases Multiset.mem_cons.1 hx with rfl | hx
      · constructor <;> intro hoc <;> cases hoc
      · exact hr x hx
    · exact hr x hx

theorem Cluster.Inv.serve {t : Fin C} {op' resp' cache'} (hN : N ≤ 256) (h : Cluster.Inv valLen es s)
    (hlt : (s.client m t).served < (s.client m t).updateOpsI)
    (hok : (s.cache m).serve (linNonStallingSessionsWithCacheOp m) ((s.client m t).updateOps (s.client m t).served)
      ((s.client m t).updateResp (s.client m t).served) = .ok (cache', op', resp'))
    (hb : BytesInPlace valLen s (.serve m t) s') :
    Cluster.Inv valLen (es ++ [.serve m t])
      ((s.setCache m cache').setClient m t ((s.client m t).serve op' resp')) := by
  have hcl := (h.client m t).mono (l := [.serve m t])
  have hpolled := hcl.polled _ le_rfl hlt
  have hkind := hcl.kind _ hlt
  have hgrows : s.Grows (s.setCache m cache') := .of_serve hok fun kv x hkv hx _ => by
    have hi := (h.cache m _ kv hkv).idle
    rcases hkind with hoc | hoc <;> simp only [linNonStallingSessionsWithCacheOp, hoc] at hx
    · rcases linUpd_idle hi hx with ⟨-, -, -, rfl⟩ | ⟨-, rfl⟩ <;> exact UInt32.le_refl _
    · rcases linAck_idle hi hx with ⟨-, -, ⟨-, rfl⟩ | ⟨-, rfl⟩⟩ | ⟨-, rfl⟩ <;> exact UInt32.le_refl _
  obtain ⟨hput, honce⟩ := h.put_tau (e := .serve m t) (by simp)
    (fun _ _ _ => setCache_isSome fun _ _ => serve_isSome hok) hgrows
  simp only [BytesInPlace] at hb
  -- What the call makes of the record it hits, and of the slot.
  have hit : ∀ kv x, s.cache m ((s.client m t).updateOps (s.client m t).served).key = .some kv →
      linNonStallingSessionsWithCacheOp m ⟨kv, (s.client m t).updateOps (s.client m t).served,
        (s.client m t).updateResp (s.client m t).served⟩ = .ok x →
      CopyOk valLen (es ++ [.serve m t]) m ((s.client m t).updateOps (s.client m t).served).key x.kv ∧
      x.op = (s.client m t).updateOps (s.client m t).served ∧ (x.resp.type = .lastAckSuccess →
        Written valLen (es ++ [.serve m t]) m x.op.key x.op.keyMeta.version x.op.value) := by
    intro kv x hkv hx
    have hc := (h.cache m _ kv hkv).mono (l := [.serve m t])
    rcases hkind with hoc | hoc <;> simp only [linNonStallingSessionsWithCacheOp, hoc] at hx
    · obtain ⟨h₁, h₂, h₃⟩ := CopyOk.upd hc (hpolled hoc) hx
      exact ⟨h₁, h₃, fun hl => absurd hl h₂⟩
    · obtain ⟨h₁, h₂, h₃⟩ := CopyOk.ack hN hc hx (hb kv hkv hoc)
      refine ⟨h₁, h₂, fun hl => ?_⟩
      have hw := h₃ hl
      rw [h₂] at hw ⊢
      exact hw
  refine ⟨setCache_copyOk (fun x k kv hk => (h.cache x k kv hk).mono) ?_, ?_, h.waiting,
    fun x hx => (h.net x hx).mono, hput, honce⟩
  · exact serve_copyOk hok (fun k kv hk => (h.cache m k kv hk).mono) fun kv x hkv hx _ => (hit kv x hkv hx).1
  · refine setClient_ok (s := s.setCache m cache') (fun x y => (h.client x y).mono) ?_
    rcases Cache.serve_ok hok with ⟨-, rfl, ⟨rfl, hu⟩ | hu⟩ | ⟨kv, x, hkv, hx, -, rfl, rfl⟩
    · exact hcl.serve hlt rfl fun hl => by cases hu.symm.trans hl
    · exact hcl.serve hlt rfl fun hl => by cases hu.symm.trans hl
    · obtain ⟨-, h₂, h₃⟩ := hit kv x hkv hx
      exact hcl.serve hlt (by rw [h₂]) h₃

theorem Cluster.Inv.step {e : Action N C} (hN : N ≤ 256) (h : Cluster.Inv valLen es s)
    (hst : Cluster.Step valLen s e s') (hnw : Cluster.NoWrap s e s') (hb : BytesInPlace valLen s e s') :
    Cluster.Inv valLen (es ++ [e]) s' := by
  cases hst with
  | client m t op op' resp resp' cache' hoc hok =>
    by_cases hs : resp'.type = .putSuccess
    · simp only [hs, ite_true] at hnw ⊢
      exact h.clientPut hoc hok hs hnw
    · simp only [hs, ite_false]
      exact h.clientOther hoc hok hs
  | bcastInv m t op w hw =>
    have hop : op.keyMeta.version % 2 = 0 := h.waiting (m, t, op) (by simp [hw])
    refine h.quiet nofun rfl (fun x y => (h.client x y).mono) (fun x hx => h.waiting x (by simp [hw, hx])) ?_
    intro x hx
    rcases Multiset.mem_add.1 hx with hx | hx
    · obtain ⟨d, -, rfl⟩ := Multiset.mem_map.1 hx
      exact ⟨fun _ => hop, nofun⟩
    · exact (h.net x hx).mono
  | inv d t op op' resp resp' cache' r hn hoc hok => exact h.inval hn hoc hok
  | poll d t op r hn hoc hp _ =>
    have hmsg : MsgOk valLen es op := h.net (d.val, t, op) (by simp [hn])
    refine h.quiet nofun rfl (setClient_ok (fun x y => (h.client x y).mono) ?_) h.waiting fun x hx => ?_
    · exact ((h.client d t).poll hp hoc hmsg).mono
    · exact (h.net x (by simp [hn] at hx ⊢; exact .inr hx)).mono
  | serve m t op' resp' cache' hlt hok => exact h.serve hN hlt hok hb
  | keep m t c _ hlt hok =>
    exact h.quiet nofun rfl (setClient_ok (fun x y => (h.client x y).mono) ((h.client m t).keep hlt hok).mono)
      h.waiting fun x hx => (h.net x hx).mono
  | next m t _ =>
    exact h.quiet nofun rfl (setClient_ok (fun x y => (h.client x y).mono) (h.client m t).next.mono)
      h.waiting fun x hx => (h.net x hx).mono
  | bcastUpd m t hpos =>
    refine h.quiet nofun rfl (setClient_ok (fun x y => (h.client x y).mono) ((h.client m t).forge hpos).mono)
      h.waiting fun x hx => ?_
    rcases Multiset.mem_add.1 hx with hx | hx
    · obtain ⟨d, -, rfl⟩ := Multiset.mem_map.1 hx
      exact ((h.client m t).nextUpd hN hpos).mono
    · exact (h.net x hx).mono

theorem Cluster.Inv.init (h : Cluster.Init valLen s) : Cluster.Inv valLen [] s := by
  refine ⟨fun m k kv hk => ?_, fun m t => ?_, by simp [h.waiting], by simp [h.net], by simp, by simp⟩
  · obtain ⟨hv, hver, -, hl, hlen⟩ := h.cache m k kv hk
    refine ⟨⟨hl, by rw [hver]; rfl⟩, hlen, ?_⟩
    rintro (hw | ⟨-, hne⟩)
    · rw [hv] at hw
      exact absurd hw CacheState.valid_not_writing
    · exact absurd hver hne
  · obtain ⟨h₁, h₂, h₃, -, h₄, h₅, h₆⟩ := h.client m t
    refine ⟨?_, ?_, ?_, ?_, ?_, ?_, ?_⟩ <;> simp [h₁, h₂, h₃, h₄, h₅, h₆, bcastToCacheBatch]

/-- **Replicas hold the written bytes** in every run in which each last ACK is served from a slot
that already contains them. -/
theorem holds_written_of_bytesInPlace {s₀ : Cluster N C} (hN : N ≤ 256)
    (h : ((cluster N C valLen).restrict (BytesInPlace valLen)).Run s₀ es s) : HoldsWritten valLen es s := by
  have hi : Cluster.Inv valLen es s := h.invariant (Cluster.Inv valLen) Cluster.Inv.init
    fun _ hinv hst => hinv.step hN hst.1.1 hst.1.2 hst.2
  have hw : ∀ m k kv, s.cache m k = .some kv → kv.keyMeta.state = .valid → kv.keyMeta.version ≠ 0 →
      Written valLen es kv.keyMeta.cid.toNat k kv.keyMeta.version kv.value := by
    intro m k kv hk hv hne
    have hwr := (hi.cache m k kv hk).written (.inr ⟨hv, hne⟩)
    rw [CacheMeta.owner_of_not_writing (by rw [hv]; decide)] at hwr
    exact hwr
  refine ⟨fun m k kv hk hv hne => ?_, fun m m' k kv kv' hk hk' hv hv' hver hne hcid => ?_⟩
  · obtain ⟨c, b, hc, hm, ha⟩ := hw m k kv hk hv hne
    exact ⟨c, b, hc, hm, fun b' hb' => hi.once c k _ b' b hb' hm, ha⟩
  · obtain ⟨c, b, hc, hm, ha⟩ := hw m k kv hk hv hne
    obtain ⟨c', b', hc', hm', ha'⟩ := hw m' k kv' hk' hv' (hver ▸ hne)
    rw [← hcid, ← hc] at hc'
    cases Fin.ext hc'
    rw [← hver] at hm'
    exact ha.trans (hi.once c k _ b b' hm hm' ▸ ha'.symm)

/-! Two machines with one client each; every byte of the buffers is `g` at the start. -/

def boot (g : UInt8) : Cluster 2 1 where
  cache _ k := if k = 7 then .some ⟨⟨.valid, 0, 0, 0, 0⟩, 7, .put, 32, fun _ => 9⟩ else .none
  client _ _ :=
    { updateOps := fun _ => ⟨⟨.valid, 0, 0, 0, 0⟩, 0, .get, 0, fun _ => g⟩
      updateResp := fun _ => ⟨.empty, 0, .none⟩
      updateOpsI := 0, served := 0, kept := 0, ackOpsI := 0
      ackBcastOps := fun _ => ⟨⟨.valid, 0, 0, 0, 0⟩, 0, .get, 0, fun _ => g⟩
      ackPushPtr := 0, ackPopPtr := 0, ackSize := 0 }
  waiting := 0
  net := 0

theorem boot_init (g : UInt8) : Cluster.Init 32 (boot g) := by
  refine ⟨fun m k kv hk => ?_, fun _ _ => ⟨rfl, rfl, rfl, rfl, rfl, rfl, rfl⟩, rfl, rfl⟩
  simp only [boot] at hk
  split at hk
  · cases hk
    exact ⟨rfl, rfl, rfl, rfl, rfl⟩
  · cases hk

theorem noWrap_put {k : UInt64} {v : UInt32} {b : Bytes} {kv kv' : CacheOp} (hkv : s.cache m k = .some kv)
    (hkv' : s'.cache m k = .some kv') (hle : kv.keyMeta.version ≤ kv'.keyMeta.version) :
    Cluster.NoWrap s (.put m k v b : Action N C) s' := by
  intro x y v' b' he kv₁ kv₂ h₁ h₂
  cases he
  cases hkv.symm.trans h₁
  cases hkv'.symm.trans h₂
  exact hle

theorem noWrap_quiet {e : Action N C} (he : ∀ m k v b, e ≠ .put m k v b) : Cluster.NoWrap s e s' :=
  fun m k v b hput => absurd hput (he m k v b)

def putOnes : CacheOp := ⟨⟨.valid, 0, 5, 0, 0⟩, 7, .put, 32, fun _ => 1⟩

/-- Machine 0 writes ones into key 7 and machine 1 acknowledges. The update is sent with the
zeros that were in `update_ops`, and machine 1 ends up valid with them. -/
theorem valid_copies_differ : ∃ s₀ es s, (cluster 2 1 32).Run s₀ es s ∧ ¬ HoldsWritten 32 es s := by
  have h₀ : (cluster 2 1 32).Run (boot 0) [] (boot 0) := .nil (boot_init 0)
  have h₁ := h₀.snoc ⟨.client 0 0 putOnes _ ⟨.empty, 0, .none⟩ _ _ (.inr rfl) rfl, noWrap_put rfl rfl (by decide)⟩
  have h₂ := h₁.snoc ⟨.bcastInv 0 0 _ 0 rfl, noWrap_quiet (by simp)⟩
  have h₃ := h₂.snoc ⟨.inv 1 0 _ _ ⟨.empty, 0, .none⟩ _ _ 0 rfl rfl rfl, noWrap_quiet (by simp)⟩
  have h₄ := h₃.snoc ⟨.poll 0 0 _ 0 rfl (.inr rfl) ⟨rfl, by decide, by decide⟩ (by decide), noWrap_quiet (by simp)⟩
  have h₅ := h₄.snoc ⟨.serve 0 0 _ _ _ (by decide) rfl, noWrap_quiet (by simp)⟩
  have h₆ := h₅.snoc ⟨.keep 0 0 _ rfl (by decide) rfl, noWrap_quiet (by simp)⟩
  have h₇ := h₆.snoc ⟨.bcastUpd 0 0 (by decide), noWrap_quiet (by simp)⟩
  have h₈ := h₇.snoc ⟨.poll 1 0 _ 0 rfl (.inl rfl) ⟨rfl, by decide, by decide⟩ (by decide), noWrap_quiet (by simp)⟩
  have h₉ := h₈.snoc ⟨.serve 1 0 _ _ _ (by decide) rfl, noWrap_quiet (by simp)⟩
  refine ⟨_, _, _, h₉, fun h => ?_⟩
  have hbyte := h.2 0 1 7 _ _ rfl rfl rfl rfl rfl (by decide) rfl 0 (by decide)
  revert hbyte
  decide

/-- The same run with buffers that happen to hold ones: the condition is met, and both copies
end up valid with the written bytes. -/
theorem holds_written_two_machines : ∃ s₀ es s, ((cluster 2 1 32).restrict (BytesInPlace 32)).Run s₀ es s ∧
    (∃ kv, s.cache 1 7 = .some kv ∧ kv.keyMeta.state = .valid ∧ kv.keyMeta.version = 2) ∧ HoldsWritten 32 es s := by
  have h₀ : ((cluster 2 1 32).restrict (BytesInPlace 32)).Run (boot 1) [] (boot 1) := .nil (boot_init 1)
  have h₁ := h₀.snoc ⟨⟨.client 0 0 putOnes _ ⟨.empty, 0, .none⟩ _ _ (.inr rfl) rfl,
    noWrap_put rfl rfl (by decide)⟩, trivial⟩
  have h₂ := h₁.snoc ⟨⟨.bcastInv 0 0 _ 0 rfl, noWrap_quiet (by simp)⟩, trivial⟩
  have h₃ := h₂.snoc ⟨⟨.inv 1 0 _ _ ⟨.empty, 0, .none⟩ _ _ 0 rfl rfl rfl, noWrap_quiet (by simp)⟩, trivial⟩
  have h₄ := h₃.snoc ⟨⟨.poll 0 0 _ 0 rfl (.inr rfl) ⟨rfl, by decide, by decide⟩ (by decide), noWrap_quiet (by simp)⟩, trivial⟩
  have h₅ := h₄.snoc ⟨⟨.serve 0 0 _ _ _ (by decide) rfl, noWrap_quiet (by simp)⟩,
    fun kv hk _ _ _ _ i hi => by
      cases Option.some.inj hk
      exact (Bytes.memcpy_of_lt hi).symm⟩
  have h₆ := h₅.snoc ⟨⟨.keep 0 0 _ rfl (by decide) rfl, noWrap_quiet (by simp)⟩, trivial⟩
  have h₇ := h₆.snoc ⟨⟨.bcastUpd 0 0 (by decide), noWrap_quiet (by simp)⟩, trivial⟩
  have h₈ := h₇.snoc ⟨⟨.poll 1 0 _ 0 rfl (.inl rfl) ⟨rfl, by decide, by decide⟩ (by decide), noWrap_quiet (by simp)⟩, trivial⟩
  have h₉ := h₈.snoc ⟨⟨.serve 1 0 _ _ _ (by decide) rfl, noWrap_quiet (by simp)⟩, fun _ _ hx => nomatch hx⟩
  exact ⟨_, _, _, h₉, ⟨_, rfl, rfl, rfl⟩, holds_written_of_bytesInPlace (by decide) h₉⟩

end CcKvs.Lin
