/-
A write-invalidate protocol with Lamport stamps, over any finite set of
machines. A write takes a stamp above the writer's own, invalidates every
other copy, collects one acknowledgement per machine and then validates the
copies with an update. Messages are delivered once, in any order.

The safety invariant below says why a valid copy is never older than any
other: acknowledgements are counted once per machine, and a machine that
acknowledged a stamp never goes below it again.
-/
import CcKvs.Lib.Lts
import Mathlib.Data.Prod.Lex
import Mathlib.Data.Fintype.Basic
import Mathlib.Data.Fintype.Card
import Mathlib.Data.Multiset.Count
import Mathlib.Data.Finset.Insert

namespace Invalidation

/-- A copy is readable, invalidated, or being written with some acknowledgements in. -/
inductive Phase (ι : Type*)
  | valid
  | invalid
  | writing (acked : Finset ι)

inductive Kind
  | inv
  | ack
  | upd
  deriving DecidableEq

/-- A message about the write `ver` of the machine that issued it: `src` for
`inv` and `upd`, `dst` for `ack`. -/
structure Msg (ι : Type*) where
  kind : Kind
  dst : ι
  src : ι
  ver : ℕ
  deriving DecidableEq

structure St (ι : Type*) where
  phase : ι → Phase ι
  stamp : ι → ℕ ×ₗ ι
  /-- Writes whose invalidations are not sent yet. -/
  waiting : Multiset (ι × ℕ)
  net : Multiset (Msg ι)

/-- What an observer sees of a step. -/
inductive Label (ι : Type*)
  | tau
  | read (m : ι) (t : ℕ ×ₗ ι)
  | put (m : ι) (v : ℕ)
  | done (m : ι) (v : ℕ)

section

variable {ι : Type*} [Fintype ι] [LinearOrder ι]

/-- One message from `m` to each other machine. -/
def toOthers (k : Kind) (m : ι) (v : ℕ) : Multiset (Msg ι) :=
  (Finset.univ.erase m).val.map fun d => ⟨k, d, m, v⟩

/-- Every machine but the writer is in `A`. -/
def Full (m : ι) (A : Finset ι) : Prop := ∀ d, d ≠ m → d ∈ A

def Accepts (s : St ι) (m : ι) (v : ℕ) (A : Finset ι) : Prop :=
  s.phase m = .writing A ∧ (ofLex (s.stamp m)).1 = v

def Awaits (s : St ι) (d c : ι) (v : ℕ) : Prop :=
  s.phase d = .invalid ∧ s.stamp d = toLex (v, c)

open Function in
inductive Step : St ι → Label ι → St ι → Prop
  | skip : Step s .tau s
  | read (m) : s.phase m = .valid → Step s (.read m (s.stamp m)) s
  | put (m v) : (ofLex (s.stamp m)).1 < v →
      Step s (.put m v) ⟨update s.phase m (.writing ∅), update s.stamp m (toLex (v, m)),
        (m, v) ::ₘ s.waiting, s.net⟩
  | bcast (m v w) : s.waiting = (m, v) ::ₘ w →
      Step s .tau { s with waiting := w, net := toOthers .inv m v + s.net }
  | invOk (d c v r) : s.net = ⟨.inv, d, c, v⟩ ::ₘ r → s.stamp d < toLex (v, c) →
      Step s .tau ⟨update s.phase d .invalid, update s.stamp d (toLex (v, c)), s.waiting, ⟨.ack, c, d, v⟩ ::ₘ r⟩
  | invNo (d c v r) : s.net = ⟨.inv, d, c, v⟩ ::ₘ r → ¬ s.stamp d < toLex (v, c) → Step s .tau { s with net := r }
  | ackMore (m d v A r) : s.net = ⟨.ack, m, d, v⟩ ::ₘ r → Accepts s m v A → ¬ Full m (insert d A) →
      Step s .tau { s with phase := update s.phase m (.writing (insert d A)), net := r }
  | ackLast (m d v A r) : s.net = ⟨.ack, m, d, v⟩ ::ₘ r → Accepts s m v A → Full m (insert d A) →
      Step s (.done m v) { s with phase := update s.phase m .valid, net := toOthers .upd m v + r }
  | ackNo (m d v r) : s.net = ⟨.ack, m, d, v⟩ ::ₘ r → (∀ A, ¬ Accepts s m v A) → Step s .tau { s with net := r }
  | updOk (d c v r) : s.net = ⟨.upd, d, c, v⟩ ::ₘ r → Awaits s d c v →
      Step s .tau { s with phase := update s.phase d .valid, net := r }
  | updNo (d c v r) : s.net = ⟨.upd, d, c, v⟩ ::ₘ r → ¬ Awaits s d c v → Step s .tau { s with net := r }

/-- Every copy starts valid, with one common stamp. -/
def system (t₀ : ℕ ×ₗ ι) : Lts (St ι) (Label ι) where
  init s := s = ⟨fun _ => .valid, fun _ => t₀, 0, 0⟩
  step := Step

@[simp] theorem mem_toOthers {k : Kind} {m : ι} {v : ℕ} {x : Msg ι} :
    x ∈ toOthers k m v ↔ x.kind = k ∧ x.src = m ∧ x.ver = v ∧ x.dst ≠ m := by
  obtain ⟨k', d, c, w⟩ := x
  simp only [toOthers, Multiset.mem_map, Finset.mem_val, Finset.mem_erase, Finset.mem_univ, and_true,
    Msg.mk.injEq]
  constructor
  · rintro ⟨d', hd, rfl, rfl, rfl, rfl⟩
    exact ⟨rfl, rfl, rfl, hd⟩
  · rintro ⟨rfl, rfl, rfl, hd⟩
    exact ⟨d, hd, rfl, rfl, rfl, rfl⟩

theorem full_iff_card {m : ι} {A : Finset ι} (hm : m ∉ A) : Full m A ↔ A.card = Fintype.card ι - 1 := by
  have hc : (Finset.univ.erase m).card = Fintype.card ι - 1 := Finset.card_erase_of_mem (Finset.mem_univ m)
  have hsub : A ⊆ Finset.univ.erase m := fun d hd =>
    Finset.mem_erase.2 ⟨fun he => hm (he ▸ hd), Finset.mem_univ d⟩
  constructor
  · intro hf
    rw [← hc]
    exact congrArg Finset.card (hsub.antisymm fun d hd => hf d (Finset.ne_of_mem_erase hd))
  · intro he d hd
    rw [Finset.eq_of_subset_of_card_le hsub (hc.trans he.symm).le]
    simpa using hd

theorem count_toOthers {k : Kind} {m : ι} {v : ℕ} (x : Msg ι) :
    (toOthers k m v).count x = if x ∈ toOthers k m v then 1 else 0 := by
  refine Multiset.count_eq_of_nodup ((Finset.nodup _).map fun a b h => ?_)
  simpa using h

/-- A copy's stamp never decreases. -/
theorem Step.stamp_le {s s' : St ι} {e} (h : Step s e s') (x : ι) : s.stamp x ≤ s'.stamp x := by
  cases h with
  | put m v hv =>
    by_cases hx : x = m
    · subst hx
      simp only [Function.update_self]
      exact (Prod.Lex.le_iff).2 (.inl hv)
    · simp [hx]
  | invOk d c v r _ hlt =>
    by_cases hx : x = d
    · subst hx
      simpa using hlt.le
    · simp [hx]
  | _ => exact le_rfl

end

variable {ι : Type*} [LinearOrder ι] {s : St ι}

theorem fst_le_of_le {a b : ℕ ×ₗ ι} (h : a ≤ b) : (ofLex a).1 ≤ (ofLex b).1 := by
  rcases Prod.Lex.le_iff.1 h with h | h
  · exact h.le
  · exact h.1.le

/-! ## Safety -/

/-- How often the write `v` of `m` is yet to be announced to, or acknowledged by, `d`. -/
def tokens (s : St ι) (m d : ι) (v : ℕ) : ℕ :=
  s.waiting.count (m, v) + s.net.count ⟨.inv, d, m, v⟩ + s.net.count ⟨.ack, m, d, v⟩

/-- The invariant. A message never outruns the stamps of those it has passed
through (`wait` to `upd`), a writer counts each acknowledgement once (`once`,
`acked`), and nothing above a valid copy's stamp is missing anywhere (`valid`). -/
structure Inv (s : St ι) : Prop where
  addr : ∀ x ∈ s.net, x.dst ≠ x.src
  wait : ∀ {m v}, (m, v) ∈ s.waiting → toLex (v, m) ≤ s.stamp m
  inv : ∀ {d c v}, ⟨.inv, d, c, v⟩ ∈ s.net → toLex (v, c) ≤ s.stamp c
  ack : ∀ {m d v}, ⟨.ack, m, d, v⟩ ∈ s.net → toLex (v, m) ≤ s.stamp m ∧ toLex (v, m) ≤ s.stamp d
  upd : ∀ {d c v}, ⟨.upd, d, c, v⟩ ∈ s.net → ∀ x, toLex (v, c) ≤ s.stamp x
  valid : ∀ {m}, s.phase m = .valid → ∀ x, s.stamp m ≤ s.stamp x
  own : ∀ {m A}, s.phase m = .writing A → (ofLex (s.stamp m)).2 = m
  once : ∀ {m d v}, d ≠ m → tokens s m d v ≤ 1
  acked : ∀ {m A d}, s.phase m = .writing A → d ∈ A →
    d ≠ m ∧ s.stamp m ≤ s.stamp d ∧ tokens s m d (ofLex (s.stamp m)).1 = 0
  owing : ∀ {m A}, s.phase m = .writing A → ¬ Full m A
  fresh : ∀ {d c v A}, ⟨.upd, d, c, v⟩ ∈ s.net → s.phase c = .writing A → v < (ofLex (s.stamp c)).1

/-- The stamp of a writing copy is its version and its own name. -/
theorem Inv.stamp_writing {m : ι} {v A} (h : Inv s) (ha : Accepts s m v A) : s.stamp m = toLex (v, m) := by
  obtain ⟨hp, rfl⟩ := ha
  exact congrArg toLex (Prod.ext rfl (h.own hp))

/-- An acknowledgement in flight has not been counted, and is not the writer's own. -/
theorem Inv.ack_fresh {m d : ι} {v A} (h : Inv s) (ha : Accepts s m v A) (hmem : ⟨.ack, m, d, v⟩ ∈ s.net) :
    d ∉ A ∧ m ∉ A ∧ m ∉ insert d A := by
  obtain ⟨hp, rfl⟩ := ha
  have hmA : m ∉ A := fun hx => (h.acked hp hx).1 rfl
  have hmd : m ≠ d := h.addr _ hmem
  refine ⟨fun hx => ?_, hmA, by simp [hmd, hmA]⟩
  have h0 := (h.acked hp hx).2.2
  simp only [tokens, Nat.add_eq_zero_iff, Multiset.count_eq_zero] at h0
  exact h0.2 hmem

theorem Inv.drop {x : Msg ι} {r} (h : Inv s) (hn : s.net = x ::ₘ r) : Inv { s with net := r } := by
  have hr : ∀ {y}, y ∈ r → y ∈ s.net := fun hy => hn ▸ Multiset.mem_cons_of_mem hy
  have ht : ∀ m d v, tokens { s with net := r } m d v ≤ tokens s m d v := by
    intro m d v
    have hc := fun y => Multiset.count_le_of_le y (hn ▸ Multiset.le_cons_self r x : r ≤ s.net)
    exact Nat.add_le_add (Nat.add_le_add le_rfl (hc _)) (hc _)
  exact {
    addr := fun y hy => h.addr y (hr hy)
    wait := h.wait
    inv := fun hy => h.inv (hr hy)
    ack := fun hy => h.ack (hr hy)
    upd := fun hy => h.upd (hr hy)
    valid := h.valid
    own := h.own
    once := fun hd => (ht _ _ _).trans (h.once hd)
    acked := fun hp hd =>
      let ⟨h₁, h₂, h₃⟩ := h.acked hp hd
      ⟨h₁, h₂, Nat.le_zero.1 ((ht _ _ _).trans_eq h₃)⟩
    owing := h.owing
    fresh := fun hy => h.fresh (hr hy) }

theorem Inv.tokens_new {m d : ι} {v} (h : Inv s) (hv : (ofLex (s.stamp m)).1 < v) : tokens s m d v = 0 := by
  have hlt : ¬ toLex (v, m) ≤ s.stamp m := fun hle => absurd (fst_le_of_le hle) (by simpa using hv)
  simp only [tokens, Nat.add_eq_zero_iff, Multiset.count_eq_zero]
  exact ⟨⟨fun hm => hlt (h.wait hm), fun hm => hlt (h.inv hm)⟩, fun hm => hlt (h.ack hm).1⟩

open Function

/-- Changing one copy's phase costs the facts that depend on it. -/
theorem Inv.setPhase {m : ι} {p : Phase ι} (h : Inv s) (hv : p = .valid → ∀ x, s.stamp m ≤ s.stamp x)
    (hw : ∀ A, p = .writing A → (ofLex (s.stamp m)).2 = m ∧ ¬ Full m A ∧
      (∀ d ∈ A, d ≠ m ∧ s.stamp m ≤ s.stamp d ∧ tokens s m d (ofLex (s.stamp m)).1 = 0) ∧
      ∀ d v, ⟨.upd, d, m, v⟩ ∈ s.net → v < (ofLex (s.stamp m)).1) :
    Inv { s with phase := update s.phase m p } := by
  refine ⟨h.addr, h.wait, h.inv, h.ack, h.upd, ?_, ?_, h.once, ?_, ?_, ?_⟩
  · intro x hx
    by_cases he : x = m
    · subst he
      exact hv (by simpa using hx)
    · exact h.valid (by simpa [he] using hx)
  · intro x A hx
    by_cases he : x = m
    · subst he
      exact (hw A (by simpa using hx)).1
    · exact h.own (by simpa [he] using hx)
  · intro x A d hx
    by_cases he : x = m
    · subst he
      exact (hw A (by simpa using hx)).2.2.1 d
    · exact h.acked (by simpa [he] using hx)
  · intro x A hx
    by_cases he : x = m
    · subst he
      exact (hw A (by simpa using hx)).2.1
    · exact h.owing (by simpa [he] using hx)
  · intro d x v A hu hx
    by_cases he : x = m
    · subst he
      exact (hw A (by simpa using hx)).2.2.2 d v hu
    · exact h.fresh hu (by simpa [he] using hx)

theorem Inv.init (t₀ : ℕ ×ₗ ι) : Inv ⟨fun _ => .valid, fun _ => t₀, 0, 0⟩ := by
  constructor <;> simp [tokens]

theorem Inv.ackMore {m d : ι} {v A r} (h : Inv s) (hn : s.net = ⟨.ack, m, d, v⟩ ::ₘ r) (ha : Accepts s m v A)
    (hf : ¬ Full m (insert d A)) : Inv { s with phase := update s.phase m (.writing (insert d A)), net := r } := by
  have hmem : ⟨.ack, m, d, v⟩ ∈ s.net := by simp [hn]
  have hd : d ≠ m := (h.addr _ hmem).symm
  have hst := h.stamp_writing ha
  have hr := h.drop hn
  refine hr.setPhase (by simp) fun B hB => ?_
  cases hB
  refine ⟨h.own ha.1, hf, fun x hx => ?_, fun x w hx => hr.fresh hx ha.1⟩
  rcases Finset.mem_insert.1 hx with rfl | hx
  · refine ⟨hd, hst ▸ (h.ack hmem).2, ?_⟩
    have h1 := h.once (v := v) hd
    simp only [tokens, hn, hst, ofLex_toLex, Multiset.count_cons_self, Multiset.count_cons_of_ne, ne_eq,
      Msg.mk.injEq, reduceCtorEq, false_and, not_false_eq_true] at h1 ⊢
    omega
  · exact hr.acked ha.1 hx

/-- When the last acknowledgement arrives, no copy is below the write. -/
theorem Inv.stamp_ge_of_full {m d : ι} {v A} (h : Inv s) (hmem : ⟨.ack, m, d, v⟩ ∈ s.net) (ha : Accepts s m v A)
    (hf : Full m (insert d A)) (x : ι) : s.stamp m ≤ s.stamp x := by
  by_cases hx : x = m
  · exact (congrArg s.stamp hx).ge
  · rcases Finset.mem_insert.1 (hf x hx) with rfl | hxA
    · exact h.stamp_writing ha ▸ (h.ack hmem).2
    · exact (h.acked ha.1 hxA).2.1

variable [Fintype ι]

theorem Inv.put [Nontrivial ι] {m : ι} {v} (h : Inv s) (hv : (ofLex (s.stamp m)).1 < v) :
    Inv ⟨update s.phase m (.writing ∅), update s.stamp m (toLex (v, m)), (m, v) ::ₘ s.waiting, s.net⟩ := by
  have hle : ∀ x, s.stamp x ≤ update s.stamp m (toLex (v, m)) x := (Step.put m v hv).stamp_le
  refine ⟨h.addr, ?_, fun hx => (h.inv hx).trans (hle _),
    fun hx => ⟨(h.ack hx).1.trans (hle _), (h.ack hx).2.trans (hle _)⟩,
    fun hx y => (h.upd hx y).trans (hle _), ?_, ?_, ?_, ?_, ?_, ?_⟩
  · intro m' v' hm
    rcases Multiset.mem_cons.1 hm with he | hm
    · cases he
      simp
    · exact (h.wait hm).trans (hle _)
  · intro m' hm' x
    by_cases he : m' = m
    · simp [he] at hm'
    · simp only [update_of_ne he] at hm' ⊢
      exact (h.valid hm' x).trans (hle x)
  · intro m' A hm'
    by_cases he : m' = m
    · subst he
      simp
    · simp only [update_of_ne he] at hm' ⊢
      exact h.own hm'
  · intro m' d v' hd
    simp only [tokens, Multiset.count_cons]
    split
    · next he =>
      cases he
      have := h.tokens_new hv (d := d)
      simp only [tokens] at this
      omega
    · exact h.once hd
  · intro m' A d hm' hd
    by_cases he : m' = m
    · subst he
      simp only [update_self, Phase.writing.injEq] at hm'
      simp [← hm'] at hd
    · simp only [update_of_ne he] at hm' ⊢
      obtain ⟨hne, hs, ht⟩ := h.acked hm' hd
      refine ⟨hne, hs.trans (hle d), ?_⟩
      simpa [tokens, Multiset.count_cons, he] using ht
  · intro m' A hm' hf
    by_cases he : m' = m
    · subst he
      simp only [update_self, Phase.writing.injEq] at hm'
      obtain ⟨d, hd⟩ := exists_ne m'
      simpa [← hm'] using hf d hd
    · simp only [update_of_ne he] at hm'
      exact h.owing hm' hf
  · intro d c v' A hx hc
    by_cases he : c = m
    · subst he
      have := fst_le_of_le (h.upd hx c)
      simp only [update_self, ofLex_toLex] at this ⊢
      omega
    · simp only [update_of_ne he] at hc ⊢
      exact h.fresh hx hc

theorem Inv.addr_toOthers {k : Kind} {m : ι} {v} (h : Inv s) : ∀ x ∈ toOthers k m v + s.net, x.dst ≠ x.src := by
  intro x hx
  rcases Multiset.mem_add.1 hx with hx | hx
  · obtain ⟨-, hs, -, hd⟩ := mem_toOthers.1 hx
    exact hs ▸ hd
  · exact h.addr x hx

theorem Inv.bcast {m : ι} {v w} (h : Inv s) (hw : s.waiting = (m, v) ::ₘ w) :
    Inv { s with waiting := w, net := toOthers .inv m v + s.net } := by
  have ht : ∀ {m' d} v', d ≠ m' →
      tokens { s with waiting := w, net := toOthers .inv m v + s.net } m' d v' = tokens s m' d v' := by
    intro m' d v' hd
    simp only [tokens, hw, Multiset.count_add, Multiset.count_cons, count_toOthers, mem_toOthers, true_and,
      reduceCtorEq, false_and, ite_false, Prod.mk.injEq]
    by_cases he : m' = m ∧ v' = v
    · obtain ⟨rfl, rfl⟩ := he
      simp [hd]
      omega
    · have : ¬ (m' = m ∧ v' = v ∧ d ≠ m) := fun hx => he ⟨hx.1, hx.2.1⟩
      simp [he, this]
  have hmv : toLex (v, m) ≤ s.stamp m := h.wait (by simp [hw])
  refine ⟨h.addr_toOthers, fun hx => h.wait (by simp [hw, hx]), ?_, fun hx => h.ack (by simpa using hx),
    fun hx => h.upd (by simpa using hx), h.valid, h.own, fun hd => (ht _ hd).trans_le (h.once hd), ?_, h.owing,
    fun hx => h.fresh (by simpa using hx)⟩
  · intro d c v' hx
    rcases Multiset.mem_add.1 hx with hx | hx
    · obtain ⟨-, rfl, rfl, -⟩ := mem_toOthers.1 hx
      exact hmv
    · exact h.inv hx
  · intro m' A d hm' hd
    obtain ⟨hne, hs, h0⟩ := h.acked hm' hd
    exact ⟨hne, hs, (ht _ hne).trans h0⟩

theorem Inv.invOk {d c : ι} {v r} (h : Inv s) (hn : s.net = ⟨.inv, d, c, v⟩ ::ₘ r) (hlt : s.stamp d < toLex (v, c)) :
    Inv ⟨update s.phase d .invalid, update s.stamp d (toLex (v, c)), s.waiting, ⟨.ack, c, d, v⟩ ::ₘ r⟩ := by
  have hle : ∀ x, s.stamp x ≤ update s.stamp d (toLex (v, c)) x := (Step.invOk d c v r hn hlt).stamp_le
  have hmem : ⟨.inv, d, c, v⟩ ∈ s.net := by simp [hn]
  have hr : ∀ {x}, x ∈ r → x ∈ s.net := fun hx => hn ▸ Multiset.mem_cons_of_mem hx
  have hp : ∀ {m A}, update s.phase d .invalid m = .writing A → m ≠ d ∧ s.phase m = .writing A := by
    intro m A hm
    by_cases he : m = d
    · simp [he] at hm
    · exact ⟨he, by simpa [he] using hm⟩
  have ht : ∀ m x w, tokens ⟨update s.phase d .invalid, update s.stamp d (toLex (v, c)), s.waiting,
      ⟨.ack, c, d, v⟩ ::ₘ r⟩ m x w = tokens s m x w := by
    intro m x w
    simp only [tokens, hn, Multiset.count_cons, Msg.mk.injEq, reduceCtorEq, false_and, ite_false, true_and]
    by_cases he : x = d ∧ m = c ∧ w = v
    · simp [he]
      omega
    · have he' : ¬ (m = c ∧ x = d ∧ w = v) := fun hx => he ⟨hx.2.1, hx.1, hx.2.2⟩
      simp only [he, he', ite_false, Nat.add_zero]
  refine ⟨?_, fun hx => (h.wait hx).trans (hle _), fun hx => (h.inv (hr (by simpa using hx))).trans (hle _), ?_,
    fun hx x => (h.upd (hr (by simpa using hx)) x).trans (hle x), ?_, ?_, fun hd => (ht _ _ _).trans_le (h.once hd),
    ?_, fun hm => h.owing (hp hm).2, ?_⟩
  · intro x hx
    rcases Multiset.mem_cons.1 hx with rfl | hx
    · exact (h.addr _ hmem).symm
    · exact h.addr x (hr hx)
  · intro m x w hx
    rcases Multiset.mem_cons.1 hx with he | hx
    · cases he
      exact ⟨(h.inv hmem).trans (hle _), by simp⟩
    · exact ⟨(h.ack (hr hx)).1.trans (hle _), (h.ack (hr hx)).2.trans (hle _)⟩
  · intro m hm x
    by_cases he : m = d
    · simp [he] at hm
    · simp only [update_of_ne he] at hm ⊢
      exact (h.valid hm x).trans (hle x)
  · intro m A hm
    simpa [(hp hm).1] using h.own (hp hm).2
  · intro m A x hm hx
    obtain ⟨hne, hm⟩ := hp hm
    obtain ⟨hxm, hs, h0⟩ := h.acked hm hx
    simp only [update_of_ne hne]
    exact ⟨hxm, hs.trans (hle x), (ht _ _ _).trans h0⟩
  · intro x m w A hx hm
    simpa [(hp hm).1] using h.fresh (hr (by simpa using hx)) (hp hm).2

theorem Inv.sendUpd {m : ι} {v} (h : Inv s) (hle : ∀ x, toLex (v, m) ≤ s.stamp x) (hm : s.phase m = .valid) :
    Inv { s with net := toOthers .upd m v + s.net } := by
  have ht : ∀ m' d v', tokens { s with net := toOthers .upd m v + s.net } m' d v' = tokens s m' d v' := by
    intro m' d v'
    simp [tokens]
  refine ⟨h.addr_toOthers, h.wait, fun hx => h.inv (by simpa using hx), fun hx => h.ack (by simpa using hx), ?_, h.valid,
    h.own, fun hd => (ht _ _ _).trans_le (h.once hd), ?_, h.owing, ?_⟩
  · intro d c w hx
    rcases Multiset.mem_add.1 hx with hx | hx
    · obtain ⟨-, rfl, rfl, -⟩ := mem_toOthers.1 hx
      exact hle
    · exact h.upd hx
  · intro m' A d hm' hd
    obtain ⟨hne, hs, h0⟩ := h.acked hm' hd
    exact ⟨hne, hs, (ht _ _ _).trans h0⟩
  · intro d c w A hx hc
    rcases Multiset.mem_add.1 hx with hx | hx
    · obtain ⟨-, rfl, -, -⟩ := mem_toOthers.1 hx
      simp [hm] at hc
    · exact h.fresh hx hc

theorem Inv.ackLast {m d : ι} {v A r} (h : Inv s) (hn : s.net = ⟨.ack, m, d, v⟩ ::ₘ r) (ha : Accepts s m v A)
    (hf : Full m (insert d A)) : Inv { s with phase := update s.phase m .valid, net := toOthers .upd m v + r } := by
  have hge := h.stamp_ge_of_full (by simp [hn]) ha hf
  have hv := (h.drop hn).setPhase (p := .valid) (m := m) (fun _ => hge) (by simp)
  exact hv.sendUpd (h.stamp_writing ha ▸ hge) (by simp)

theorem Inv.step [Nontrivial ι] {s' : St ι} {e} (h : Inv s) (hst : Step s e s') : Inv s' := by
  cases hst with
  | skip => exact h
  | read _ _ => exact h
  | put m v hv => exact h.put hv
  | bcast m v w hw => exact h.bcast hw
  | invOk d c v r hn hlt => exact h.invOk hn hlt
  | invNo d c v r hn _ => exact h.drop hn
  | ackMore m d v A r hn ha hf => exact h.ackMore hn ha hf
  | ackLast m d v A r hn ha hf => exact h.ackLast hn ha hf
  | ackNo m d v r hn _ => exact h.drop hn
  | updOk d c v r hn ha =>
    have hge : ∀ x, s.stamp d ≤ s.stamp x := fun x => ha.2 ▸ h.upd (d := d) (by simp [hn]) x
    exact (h.drop hn).setPhase (fun _ => hge) (by simp)
  | updNo d c v r hn _ => exact h.drop hn

theorem inv_of_run [Nontrivial ι] {t₀ : ℕ ×ₗ ι} {s₀ es} (h : (system t₀).Run s₀ es s) : Inv s :=
  h.invariant (fun _ s => Inv s) (fun h₀ => h₀ ▸ Inv.init t₀) fun _ hi hst => hi.step hst

/-! ## Reads see every earlier read and every completed write -/

/-- The stamp a step makes visible to its caller: that of a read, or of a write as it completes. -/
def Label.observed : Label ι → Option (ℕ ×ₗ ι)
  | .read _ t => .some t
  | .done m v => .some (toLex (v, m))
  | _ => .none

theorem Inv.observed_le [Nontrivial ι] {s' : St ι} {e t} (h : Inv s) (hst : Step s e s') (he : e.observed = .some t)
    (x : ι) : t ≤ s'.stamp x := by
  cases hst with
  | read m hm =>
    cases he
    exact h.valid hm x
  | ackLast m d v A r hn ha hf =>
    cases he
    exact h.stamp_writing ha ▸ h.stamp_ge_of_full (by simp [hn]) ha hf x
  | _ => cases he

/-- **Reads never go back.** In every run a read returns a stamp at least that of every
write completed, and of every read made, before it on any machine. -/
theorem observed_mono [Nontrivial ι] {t₀ : ℕ ×ₗ ι} {s₀ es} (h : (system t₀).Run s₀ es s) :
    es.Pairwise fun a b => ∀ t m u, a.observed = .some t → b = .read m u → t ≤ u := by
  have key : (∀ a ∈ es, ∀ t, a.observed = .some t → ∀ x, t ≤ s.stamp x) ∧
      es.Pairwise fun a b => ∀ t m u, a.observed = .some t → b = .read m u → t ≤ u := by
    refine h.invariant (fun es s => (∀ a ∈ es, ∀ t, a.observed = .some t → ∀ x, t ≤ s.stamp x) ∧
      es.Pairwise fun a b => ∀ t m u, a.observed = .some t → b = .read m u → t ≤ u) (by simp) ?_
    intro es s e s' hr ⟨hle, hp⟩ hst
    refine ⟨fun a ha t hat x => ?_, List.pairwise_append.2 ⟨hp, by simp, fun a ha b hb t m u hat hbu => ?_⟩⟩
    · rcases List.mem_append.1 ha with ha | ha
      · exact (hle a ha t hat x).trans (hst.stamp_le x)
      · exact (inv_of_run hr).observed_le hst (List.mem_singleton.1 ha ▸ hat) x
    · subst hbu
      cases List.mem_singleton.1 hb
      cases hst
      exact hle a ha t hat m
  exact key.2

end Invalidation
