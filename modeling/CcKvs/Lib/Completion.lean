/-
What the reads of the write-invalidate protocol return: the last write that
was completed before them, on whichever machine. So reads and completions, in
the order in which they happen, are a history of one register, and a write
takes effect when its last acknowledgement arrives, which is after its start.

The invariant ties every copy to the stamp of the last completed write: no
copy is below it, a valid copy is at it, and a writing copy is above it.
-/
import CcKvs.Lib.Invalidation
import CcKvs.Lib.Register
import Mathlib

namespace Register

variable {ι κ α β : Type*}

/-- What the register holds after the operations, if it held `v` before. -/
def final : α → List (Op ι κ α) → α
  | v, [] => v
  | v, o :: l =>
    match o.kind with
    | .put => final o.value l
    | .get => final v l

theorem final_append {v : α} {l l' : List (Op ι κ α)} : final v (l ++ l') = final (final v l) l' := by
  induction l generalizing v with
  | nil => rfl
  | cons o l ih => cases hk : o.kind <;> simp [final, hk, ih]

theorem legal_append {v : α} {l l' : List (Op ι κ α)} : Legal v (l ++ l') ↔ Legal v l ∧ Legal (final v l) l' := by
  induction l generalizing v with
  | nil => simp [Legal, final]
  | cons o l ih => cases hk : o.kind <;> simp [Legal, final, hk, ih, and_assoc]

/-- The operation with the value and the stamp in other terms. -/
def Op.map {μ ν : Type*} (f : ι → μ) (g : κ → ν) (k : α → β) (o : Op ι κ α) : Op μ ν β :=
  ⟨o.kind, f o.machine, g o.stamp, k o.value⟩

theorem Legal.map {μ ν : Type*} (f : ι → μ) (g : κ → ν) (k : α → β) {v : α} {l : List (Op ι κ α)} (h : Legal v l) :
    Legal (k v) (l.map (Op.map f g k)) := by
  induction l generalizing v with
  | nil => trivial
  | cons o l ih =>
    cases hk : o.kind with
    | put =>
      simp only [Legal, hk] at h
      simpa [Legal, Op.map, hk] using ih h
    | get =>
      simp only [Legal, hk] at h
      simpa [Legal, Op.map, hk] using ⟨congrArg k h.1, ih h.2⟩

end Register

namespace Invalidation

open Function Register

variable {ι : Type*} [LinearOrder ι] {s s' : St ι} {t : ℕ ×ₗ ι} {e : Label ι}

/-- What a step does to the register: a read returns a stamp, a completed write leaves one. -/
def Label.access : Label ι → Option (Op ι (ℕ ×ₗ ι) (ℕ ×ₗ ι))
  | .read m t => some ⟨.get, m, t, t⟩
  | .done m v => some ⟨.put, m, toLex (v, m), toLex (v, m)⟩
  | _ => none

/-- The last completed write after a step, if it was `t` before. -/
def Label.completes (t : ℕ ×ₗ ι) : Label ι → ℕ ×ₗ ι
  | .done m v => toLex (v, m)
  | _ => t

/-- How the copies stand to the stamp `t` of the last completed write. -/
structure Last (t : ℕ ×ₗ ι) (s : St ι) : Prop where
  le : ∀ x, t ≤ s.stamp x
  valid : ∀ {m}, s.phase m = .valid → s.stamp m = t
  writing : ∀ {m A}, s.phase m = .writing A → t < s.stamp m
  upd : ∀ {d c v}, ⟨.upd, d, c, v⟩ ∈ s.net → toLex (v, c) ≤ t

theorem Last.drop {x : Msg ι} {r} (h : Last t s) (hn : s.net = x ::ₘ r) : Last t { s with net := r } :=
  ⟨h.le, h.valid, h.writing, fun hu => h.upd (hn ▸ Multiset.mem_cons_of_mem hu)⟩

theorem Last.setPhase {m : ι} {p : Phase ι} (h : Last t s) (hv : p = .valid → s.stamp m = t)
    (hw : ∀ A, p = .writing A → t < s.stamp m) : Last t { s with phase := update s.phase m p } := by
  refine ⟨h.le, fun {x} hx => ?_, fun {x A} hx => ?_, h.upd⟩ <;> by_cases he : x = m
  · subst he
    exact hv (by simpa using hx)
  · exact h.valid (by simpa [he] using hx)
  · subst he
    exact hw A (by simpa using hx)
  · exact h.writing (by simpa [he] using hx)

section

variable [Fintype ι]

theorem Last.put {m : ι} {v : ℕ} (h : Last t s) (hv : (ofLex (s.stamp m)).1 < v) :
    Last t ⟨update s.phase m (.writing ∅), update s.stamp m (toLex (v, m)), (m, v) ::ₘ s.waiting, s.net⟩ := by
  have hlt : t < toLex (v, m) := (h.le m).trans_lt (Prod.Lex.lt_iff.2 (.inl hv))
  refine ⟨fun x => (h.le x).trans ((Step.put m v hv).stamp_le x), fun {x} hx => ?_, fun {x A} hx => ?_, h.upd⟩ <;>
    by_cases he : x = m
  · simp [he] at hx
  · simpa [he] using h.valid (by simpa [he] using hx)
  · simpa [he] using hlt
  · simpa [he] using h.writing (by simpa [he] using hx)

theorem Last.invOk {d c : ι} {v r} (h : Last t s) (hn : s.net = ⟨.inv, d, c, v⟩ ::ₘ r) (hlt : s.stamp d < toLex (v, c)) :
    Last t ⟨update s.phase d .invalid, update s.stamp d (toLex (v, c)), s.waiting, ⟨.ack, c, d, v⟩ ::ₘ r⟩ := by
  refine ⟨fun x => (h.le x).trans ((Step.invOk d c v r hn hlt).stamp_le x), fun {x} hx => ?_, fun {x A} hx => ?_,
    fun {x y w} hu => h.upd (d := x) ?_⟩
  · by_cases he : x = d
    · simp [he] at hx
    · simpa [he] using h.valid (by simpa [he] using hx)
  · by_cases he : x = d
    · simp [he] at hx
    · simpa [he] using h.writing (by simpa [he] using hx)
  · rw [hn]
    exact Multiset.mem_cons_of_mem (by simpa using hu)

/-- The last acknowledgement makes the write the last completed one: no copy is below it, so the
valid copies, which are below no other, were already at it. -/
theorem Last.ackLast {m d : ι} {v A r} (h : Last t s) (hi : Inv s) (hn : s.net = ⟨.ack, m, d, v⟩ ::ₘ r)
    (ha : Accepts s m v A) (hf : Full m (insert d A)) :
    Last (toLex (v, m)) { s with phase := update s.phase m .valid, net := toOthers .upd m v + r } := by
  have hst := hi.stamp_writing ha
  have hge : ∀ x, toLex (v, m) ≤ s.stamp x := hst ▸ hi.stamp_ge_of_full (by simp [hn]) ha hf
  refine ⟨hge, fun {x} hx => ?_, fun {x B} hx => ?_, fun {x c w} hu => ?_⟩
  · by_cases he : x = m
    · rw [he, hst]
    · exact le_antisymm (hst ▸ hi.valid (by simpa [he] using hx) m) (hge x)
  · by_cases he : x = m
    · simp [he] at hx
    · have hx' : s.phase x = .writing B := by simpa [he] using hx
      -- two machines never write under one stamp
      refine lt_of_le_of_ne (hge x) fun heq => he ?_
      have := hi.own hx'
      rwa [← heq, eq_comm] at this
  · rcases Multiset.mem_add.1 hu with hu | hu
    · obtain ⟨-, rfl, rfl, -⟩ := mem_toOthers.1 hu
      exact le_rfl
    · have hle := h.upd (hn ▸ Multiset.mem_cons_of_mem hu : ⟨.upd, x, c, w⟩ ∈ s.net)
      exact hle.trans (hst ▸ h.le m)

theorem Last.step (h : Last t s) (hi : Inv s) (hst : Step s e s') : Last (e.completes t) s' := by
  cases hst with
  | skip => exact h
  | read m _ => exact h
  | put m v hv => exact h.put hv
  | bcast m v w hw => exact ⟨h.le, h.valid, h.writing, fun {d _ _} hu => h.upd (d := d) (by simpa using hu)⟩
  | invOk d c v r hn hlt => exact h.invOk hn hlt
  | invNo d c v r hn _ => exact h.drop hn
  | ackMore m d v A r hn ha _ => exact (h.drop hn).setPhase (by simp) fun _ _ => h.writing ha.1
  | ackLast m d v A r hn ha hf => exact h.ackLast hi hn ha hf
  | ackNo m d v r hn _ => exact h.drop hn
  | updOk d c v r hn ha =>
    refine (h.drop hn).setPhase (fun _ => ?_) (by simp)
    exact le_antisymm (ha.2 ▸ h.upd (d := d) (by simp [hn])) (h.le d)
  | updNo d c v r hn _ => exact h.drop hn

/-- A read returns the last completed write, and a write completes above it. -/
theorem Last.access (h : Last t s) (hi : Inv s) (hst : Step s e s') {o} (ho : e.access = some o) :
    Legal t [o] ∧ (o.kind = .put → t < o.stamp) := by
  cases hst with
  | read m hm =>
    cases ho
    exact ⟨⟨h.valid hm, trivial⟩, by simp⟩
  | ackLast m d v A r hn ha hf =>
    cases ho
    exact ⟨trivial, fun _ => hi.stamp_writing ha ▸ h.writing ha.1⟩
  | _ => cases ho

end

/-- The last write completed in a run, or the stamp the copies started with. -/
def lastWrite (t₀ : ℕ ×ₗ ι) (es : List (Label ι)) : ℕ ×ₗ ι := final t₀ (es.filterMap Label.access)

omit [LinearOrder ι] in
theorem lastWrite_snoc {t₀ : ℕ ×ₗ ι} {es : List (Label ι)} : lastWrite t₀ (es ++ [e]) = e.completes (lastWrite t₀ es) := by
  rw [lastWrite, List.filterMap_append, final_append]
  cases e <;> rfl

variable [Fintype ι]

/-- The register after a run, and how it came there. -/
structure Completed (t₀ : ℕ ×ₗ ι) (es : List (Label ι)) (s : St ι) : Prop where
  last : Last (lastWrite t₀ es) s
  legal : Legal t₀ (es.filterMap Label.access)
  done_le : ∀ {m v}, .done m v ∈ es → toLex (v, m) ≤ lastWrite t₀ es
  increasing : es.Pairwise fun a b => ∀ m v m' v', a = .done m v → b = .done m' v' → toLex (v, m) < toLex (v', m')
  started : ∀ {m A}, s.phase m = .writing A → .put m (ofLex (s.stamp m)).1 ∈ es

/-- A writing copy holds the stamp of its put. -/
theorem Step.started {es : List (Label ι)} (hst : Step s e s')
    (h : ∀ {m A}, s.phase m = .writing A → .put m (ofLex (s.stamp m)).1 ∈ es) {m : ι} {A}
    (hm : s'.phase m = .writing A) : .put m (ofLex (s'.stamp m)).1 ∈ es ++ [e] := by
  cases hst with
  | put x v _ =>
    by_cases he : m = x
    · simp [he]
    · simpa [he] using h (by simpa [he] using hm)
  | invOk d c v r _ _ =>
    by_cases he : m = d
    · simp [he] at hm
    · simpa [he] using h (by simpa [he] using hm)
  | ackMore x d v B r _ ha _ =>
    by_cases he : m = x
    · subst he
      simpa using h ha.1
    · simpa using h (by simpa [he] using hm)
  | ackLast x d v B r _ _ _ =>
    by_cases he : m = x
    · simp [he] at hm
    · simpa using h (by simpa [he] using hm)
  | updOk d c v r _ _ =>
    by_cases he : m = d
    · simp [he] at hm
    · simpa using h (by simpa [he] using hm)
  | _ => simpa using h hm

theorem Completed.step {t₀ : ℕ ×ₗ ι} {es} (h : Completed t₀ es s) (hi : Inv s) (hst : Step s e s') :
    Completed t₀ (es ++ [e]) s' := by
  have hlt : ∀ {m v}, e = .done m v → lastWrite t₀ es < toLex (v, m) := by
    rintro m v rfl
    exact (h.last.access hi hst rfl).2 rfl
  refine ⟨?_, ?_, fun {m v} hm => ?_, ?_, hst.started h.started⟩
  · rw [lastWrite_snoc]
    exact h.last.step hi hst
  · rw [List.filterMap_append, legal_append]
    refine ⟨h.legal, ?_⟩
    cases ho : e.access with
    | none => simp [ho, Legal]
    | some o => simpa [ho] using show Legal (final t₀ _) [o] from (h.last.access hi hst ho).1
  · rw [lastWrite_snoc]
    rcases List.mem_append.1 hm with hm | hm
    · refine (h.done_le hm).trans ?_
      cases e with
      | done x w => exact (hlt rfl).le
      | _ => exact le_rfl
    · rw [← List.mem_singleton.1 hm]
      rfl
  · refine List.pairwise_append.2 ⟨h.increasing, List.pairwise_singleton _ _, ?_⟩
    rintro a ha b hb m v m' v' rfl rfl
    exact (h.done_le ha).trans_lt (hlt (List.mem_singleton.1 hb).symm)

theorem completed_of_run [Nontrivial ι] {t₀ : ℕ ×ₗ ι} {s₀ es} (h : (system t₀).Run s₀ es s) : Completed t₀ es s := by
  refine h.invariant (Completed t₀) (fun h₀ => ?_) fun hr hc hst => hc.step (inv_of_run hr) hst
  subst h₀
  exact ⟨⟨fun _ => le_rfl, fun _ => rfl, by simp, by simp⟩, trivial, by simp, .nil, by simp⟩

/-- A write is completed after it was put. -/
theorem put_before_done [Nontrivial ι] {t₀ : ℕ ×ₗ ι} {s₀ es} (h : (system t₀).Run s₀ es s) {l r : List (Label ι)}
    {m : ι} {v : ℕ} (hes : es = l ++ .done m v :: r) : .put m v ∈ l := by
  obtain ⟨s₁, s₂, hr, hst⟩ := h.split hes
  cases hst with
  | ackLast m d v A r hn ha hf =>
    obtain ⟨hA, rfl⟩ := ha
    exact (completed_of_run hr).started hA

end Invalidation
