/-
Threads that share one memory and guard it with a lock. A thread runs blocks
of code, trees of atomic actions on the memory that end in a jump or in an
answer. What is done under the lock is seen by the others only through what
they look at without it; if that changes at one moment between taking the lock
and giving it back, the operation is atomic.

A system of threads whose blocks meet the conditions below has no history of
calls and answers that the atomic object does not have, where every operation
takes effect in one step between its call and its answer. The simulation goes
through an object that collects what an operation without effect may answer,
since a program learns only later that it will not take the lock.
-/
import CcKvs.Lib.Lts
import Mathlib

namespace Locked

universe u v w

/-- A program: it has returned, or it takes an action and goes on with what that answers. -/
inductive Prog (C : Type u) (R : C → Type v) (α : Type w)
  | ret (a : α)
  | act (c : C) (k : R c → Prog C R α)

namespace Prog

variable {C : Type u} {R : C → Type v} {α β : Type w}

protected def bind : Prog C R α → (α → Prog C R β) → Prog C R β
  | .ret a, f => f a
  | .act c k, f => .act c fun x => (k x).bind f

instance : Monad (Prog C R) where
  pure := .ret
  bind := Prog.bind

/-- The action alone. -/
def lift {R : C → Type v} (c : C) : Prog C R (R c) := .act c .ret

end Prog

/-- A memory: what each action answers and leaves, and when the lock is taken. -/
structure Memory (σ : Type*) (C : Type*) (R : C → Type*) where
  exec : (c : C) → σ → R c × σ
  held : σ → Prop

/-- An object without threads: `step o s r s'` if operation `o` on `s` answers `r` and leaves `s'`. -/
structure Object (σ ο ρ : Type*) where
  inv : σ → Prop
  step : ο → σ → ρ → σ → Prop

/-- The answers that operation `o` gives on `s` without changing it. -/
def Object.pure {σ ο ρ : Type*} (O : Object σ ο ρ) (o : ο) (s : σ) : Set ρ := {r | O.step o s r s}

/-- The blocks of code, by label. A block ends in a jump to a label or in an answer. -/
structure Code (C : Type*) (R : C → Type*) (ο ℓ α : Type*) where
  start : ο → ℓ
  block : ℓ → Prog C R (ℓ ⊕ α)

inductive Event (ι ο α : Type*)
  | call (t : ι) (o : ο)
  | ret (t : ι) (a : α)
  | tau

/-- A call or an answer. -/
def Event.Visible {ι ο α : Type*} : Event ι ο α → Bool
  | .tau => false
  | _ => true

/-- The calls and the answers of a run. -/
def history {ι ο α : Type*} (es : List (Event ι ο α)) : List (Event ι ο α) := es.filter Event.Visible

/-- The event with the answer seen through `f`. -/
def Event.map {ι ο α β : Type*} (f : α → β) : Event ι ο α → Event ι ο β
  | .call t o => .call t o
  | .ret t a => .ret t (f a)
  | .tau => .tau

theorem history_append {ι ο α : Type*} (es ds : List (Event ι ο α)) : history (es ++ ds) = history es ++ history ds :=
  List.filter_append ..

theorem history_map {ι ο α β : Type*} (f : α → β) (es : List (Event ι ο α)) :
    history (es.map (Event.map f)) = (history es).map (Event.map f) := by
  have hv : Event.Visible ∘ Event.map f = (Event.Visible : Event ι ο α → Bool) := by
    funext e
    cases e <;> rfl
  rw [history, List.filter_map, hv, history]

/-! ## Threads -/

section

variable {σ C ο ℓ α ι : Type*} {R : C → Type*} [DecidableEq ι]

structure State (σ C : Type*) (R : C → Type*) (ℓ α ι : Type*) where
  mem : σ
  thread : ι → Option (Prog C R (ℓ ⊕ α))

open Function in
/-- A thread begins an operation, takes one action, jumps, or answers. -/
inductive Step (M : Memory σ C R) (K : Code C R ο ℓ α) (calls : ο → Prop) :
    State σ C R ℓ α ι → Event ι ο α → State σ C R ℓ α ι → Prop
  | call (t : ι) (o : ο) : s.thread t = none → calls o →
      Step M K calls s (.call t o) { s with thread := update s.thread t (some (K.block (K.start o))) }
  | act (t : ι) (c : C) (k : R c → Prog C R (ℓ ⊕ α)) : s.thread t = some (.act c k) →
      Step M K calls s .tau ⟨(M.exec c s.mem).2, update s.thread t (some (k (M.exec c s.mem).1))⟩
  | jump (t : ι) (l : ℓ) : s.thread t = some (.ret (.inl l)) →
      Step M K calls s .tau { s with thread := update s.thread t (some (K.block l)) }
  | ret (t : ι) (a : α) : s.thread t = some (.ret (.inr a)) →
      Step M K calls s (.ret t a) { s with thread := update s.thread t none }

/-- The threads over `M` that execute operations in `calls` with the code `K`, from memory `m₀`. -/
def threads (M : Memory σ C R) (K : Code C R ο ℓ α) (calls : ο → Prop) (m₀ : σ) :
    Lts (State σ C R ℓ α ι) (Event ι ο α) where
  init s := s = ⟨m₀, fun _ => none⟩
  step := Step M K calls

end

/-! ## The atomic object -/

/-- Where an operation is: not begun, begun and not carried out, or carried out with an answer. -/
inductive Phase (ο ρ : Type*)
  | idle
  | pending (o : ο)
  | done (r : ρ)

structure Linear (σ ο ρ ι : Type*) where
  val : σ
  phase : ι → Phase ο ρ

section

variable {σ ο ρ ι : Type*} [DecidableEq ι]

open Function in
/-- An operation is called, takes effect, and is answered. -/
inductive AtomicStep (O : Object σ ο ρ) (calls : ο → Prop) : Linear σ ο ρ ι → Event ι ο ρ → Linear σ ο ρ ι → Prop
  | call (t : ι) (o : ο) : b.phase t = .idle → calls o →
      AtomicStep O calls b (.call t o) { b with phase := update b.phase t (.pending o) }
  | effect (t : ι) (o : ο) (r : ρ) (v : σ) : b.phase t = .pending o → O.step o b.val r v →
      AtomicStep O calls b .tau ⟨v, update b.phase t (.done r)⟩
  | ret (t : ι) (r : ρ) : b.phase t = .done r →
      AtomicStep O calls b (.ret t r) { b with phase := update b.phase t .idle }

def atomic (O : Object σ ο ρ) (calls : ο → Prop) (v₀ : σ) : Lts (Linear σ ο ρ ι) (Event ι ο ρ) where
  init b := b = ⟨v₀, fun _ => .idle⟩
  step := AtomicStep O calls

end

section

variable {σ ο ρ ι : Type*} [DecidableEq ι] {O : Object σ ο ρ} {calls : ο → Prop} {v₀ : σ} {b₀ b : Linear σ ο ρ ι}
  {ds : List (Event ι ο ρ)}

open Function in
/-- An operation that is under way has been called, and what is answered is an answer. -/
theorem phase_of_run (h : (atomic O calls v₀).Run b₀ ds b) (t : ι) :
    (∀ o, b.phase t = .pending o → .call t o ∈ ds ∧ calls o) ∧ ∀ r, b.phase t = .done r → ∃ o v v', O.step o v r v' := by
  refine h.invariant (fun ds b => (∀ o, b.phase t = .pending o → .call t o ∈ ds ∧ calls o) ∧
    ∀ r, b.phase t = .done r → ∃ o v v', O.step o v r v')
    (fun h₀ => ?_) fun {ds b e b'} _ ih hst => ?_
  · rw [show b₀ = _ from h₀]
    simp
  have hkeep {x : ι} {p : Phase ο ρ} (hx : t ≠ x) : update b.phase x p t = b.phase t := update_of_ne hx ..
  have hmem {o : ο} (ho : b.phase t = .pending o) : .call t o ∈ ds ++ [e] ∧ calls o :=
    ⟨List.mem_append_left _ (ih.1 o ho).1, (ih.1 o ho).2⟩
  cases hst with
  | call x o' hidle ho' =>
    by_cases hx : t = x
    · subst hx
      simp only [update_self, Phase.pending.injEq, reduceCtorEq, false_implies, implies_true, and_true]
      rintro o rfl
      simp [ho']
    · simp only [hkeep hx]
      exact ⟨fun o ho => hmem ho, ih.2⟩
  | effect x o' r' v hpend hstep =>
    by_cases hx : t = x
    · subst hx
      simp only [update_self, Phase.done.injEq, reduceCtorEq, false_implies, implies_true, true_and]
      rintro r rfl
      exact ⟨o', b.val, v, hstep⟩
    · simp only [hkeep hx]
      exact ⟨fun o ho => hmem ho, ih.2⟩
  | ret x r' hdone =>
    by_cases hx : t = x
    · subst hx
      simp
    · simp only [hkeep hx]
      exact ⟨fun o ho => hmem ho, ih.2⟩

theorem step_of_ret (h : (atomic O calls v₀).Run b₀ ds b) {t : ι} {r : ρ} (hr : .ret t r ∈ ds) : ∃ o v v', O.step o v r v' := by
  induction h with
  | nil => cases hr
  | snoc hrun hst ih =>
    rcases List.mem_append.1 hr with hr | hr
    · exact ih hr
    · rw [List.mem_singleton] at hr
      subst hr
      cases hst with
      | ret _ _ hdone => exact (phase_of_run hrun t).2 r hdone

/-- What the operations keep, holds of the value at every moment. -/
theorem val_of_run {I : List (Event ι ο ρ) → σ → Prop} (h : (atomic O calls v₀).Run b₀ ds b) (h₀ : I [] v₀)
    (hmono : ∀ ds e v, I ds v → I (ds ++ [e]) v)
    (hstep : ∀ ds t o v r v', .call t o ∈ ds → calls o → I ds v → O.step o v r v' → I ds v') : I ds b.val := by
  refine h.invariant (fun ds b => I ds b.val) (fun hi => ?_) fun {ds b e b'} hrun ih hst => ?_
  · rw [show b₀ = _ from hi]
    exact h₀
  · cases hst with
    | call t o _ _ => exact hmono _ _ _ ih
    | effect t o r v hpend hs =>
      obtain ⟨hcall, ho⟩ := (phase_of_run hrun t).1 o hpend
      exact hmono _ _ _ (hstep ds t o b.val r v hcall ho ih hs)
    | ret t r _ => exact hmono _ _ _ ih

end

/-! ## The observing object -/

/-- As `Phase`. An operation that changes nothing may be answered from any moment since its call;
`seen` are the answers so far. -/
inductive Status (ο ρ : Type*)
  | idle
  | pending (o : ο) (seen : Set ρ)
  | done (r : ρ)

structure Shared (σ ο ρ ι : Type*) where
  val : σ
  status : ι → Status ο ρ

section

variable {σ ο ρ ι : Type*} [DecidableEq ι]

open Function in
inductive ObservingStep (O : Object σ ο ρ) (calls : ο → Prop) : Shared σ ο ρ ι → Event ι ο ρ → Shared σ ο ρ ι → Prop
  | call (t : ι) (o : ο) : a.status t = .idle → calls o →
      ObservingStep O calls a (.call t o) { a with status := update a.status t (.pending o (O.pure o a.val)) }
  | observe (t : ι) (o : ο) (seen : Set ρ) : a.status t = .pending o seen →
      ObservingStep O calls a .tau { a with status := update a.status t (.pending o (seen ∪ O.pure o a.val)) }
  | commit (t : ι) (o : ο) (seen : Set ρ) (r : ρ) (v : σ) : a.status t = .pending o seen → O.step o a.val r v →
      ObservingStep O calls a .tau ⟨v, update a.status t (.done r)⟩
  | answer (t : ι) (o : ο) (seen : Set ρ) (r : ρ) : a.status t = .pending o seen → r ∈ seen →
      ObservingStep O calls a (.ret t r) { a with status := update a.status t .idle }
  | ret (t : ι) (r : ρ) : a.status t = .done r →
      ObservingStep O calls a (.ret t r) { a with status := update a.status t .idle }
  | skip : ObservingStep O calls a .tau a

def observing (O : Object σ ο ρ) (calls : ο → Prop) (v₀ : σ) : Lts (Shared σ ο ρ ι) (Event ι ο ρ) where
  init a := a = ⟨v₀, fun _ => .idle⟩
  step := ObservingStep O calls

/-- An operation that will be answered with what it has seen is already done. -/
inductive Resolves : Status ο ρ → Phase ο ρ → Prop
  | idle : Resolves .idle .idle
  | pending (o : ο) (seen : Set ρ) : Resolves (.pending o seen) (.pending o)
  | seen (o : ο) (seen : Set ρ) (r : ρ) : r ∈ seen → Resolves (.pending o seen) (.done r)
  | done (r : ρ) : Resolves (.done r) (.done r)

variable {O : Object σ ο ρ} {calls : ο → Prop} {v₀ : σ}

omit [DecidableEq ι] in
theorem exists_resolves (a : Shared σ ο ρ ι) : ∃ phase : ι → Phase ο ρ, ∀ t, Resolves (a.status t) (phase t) := by
  have hone (st : Status ο ρ) : ∃ p, Resolves st p := by
    cases st with
    | idle => exact ⟨_, .idle⟩
    | pending o seen => exact ⟨_, .pending o seen⟩
    | done r => exact ⟨_, .done r⟩
  exact Classical.skolem.1 fun t => hone (a.status t)

open Function in
/-- Before `t` has moved, its phase may be another one. -/
theorem resolves_before {a : Shared σ ο ρ ι} {phase : ι → Phase ο ρ} {t : ι} {st : Status ο ρ} {p : Phase ο ρ}
    (hb : ∀ x, Resolves (update a.status t st x) (phase x)) (hp : Resolves (a.status t) p) (x : ι) :
    Resolves (a.status x) (update phase t p x) := by
  by_cases hx : x = t
  · subst hx
    rwa [update_self]
  · have := hb x
    rwa [update_of_ne hx] at this ⊢

open Function in
theorem update_back {β : ι → Type*} (f : (i : ι) → β i) (t : ι) (b : β t) : update (update f t b) t (f t) = f := by
  rw [update_idem, update_eq_self]

open Function in
/-- Steps of the atomic object that stand for one of the observing object, when it is known from
what comes later how every operation is answered. -/
theorem ObservingStep.before {a a' : Shared σ ο ρ ι} {e : Event ι ο ρ} {phase : ι → Phase ο ρ} (hst : ObservingStep O calls a e a')
    (hb : ∀ t, Resolves (a'.status t) (phase t)) :
    ∃ phase₀, (∀ t, Resolves (a.status t) (phase₀ t)) ∧ ∀ {b₀ cs}, (atomic O calls v₀).Run b₀ cs ⟨a.val, phase₀⟩ →
      ∃ ds, (atomic O calls v₀).Run b₀ (cs ++ ds) ⟨a'.val, phase⟩ ∧ history ds = history [e] := by
  cases hst with
  | skip => exact ⟨phase, hb, fun hrun => ⟨[], by rwa [List.append_nil], rfl⟩⟩
  | call t o hidle ho =>
    have hres : Resolves (.pending o (O.pure o a.val)) (phase t) := by simpa only [update_self] using hb t
    refine ⟨update phase t .idle, resolves_before hb (hidle ▸ .idle), fun hrun => ?_⟩
    have hcall := hrun.snoc (AtomicStep.call t o (update_self ..) ho)
    have hlast := update_back phase t .idle
    generalize phase t = p at hres hlast
    cases hres with
    | pending _ _ =>
      rw [hlast] at hcall
      exact ⟨_, hcall, rfl⟩
    | seen _ _ r hr =>
      have heff := hcall.snoc (AtomicStep.effect t o r a.val (update_self ..) hr)
      simp only [update_idem] at heff hlast
      rw [hlast, List.append_assoc] at heff
      exact ⟨_, heff, rfl⟩
  | observe t o seen hpend =>
    have hres : Resolves (.pending o (seen ∪ O.pure o a.val)) (phase t) := by simpa only [update_self] using hb t
    have hsame : update phase t (phase t) = phase := update_eq_self ..
    have hlast := update_back phase t (.pending o)
    have hstay (hp : Resolves (a.status t) (phase t)) : ∀ x, Resolves (a.status x) (phase x) := fun x => by
      have := resolves_before hb hp x
      rwa [hsame] at this
    generalize hphase : phase t = p at hres hlast hstay
    cases hres with
    | pending _ _ => exact ⟨phase, hstay (hpend ▸ .pending o seen), fun hrun => ⟨[], by rwa [List.append_nil], rfl⟩⟩
    | seen _ _ r hr =>
      rcases hr with hr | hr
      · exact ⟨phase, hstay (hpend ▸ .seen o seen r hr), fun hrun => ⟨[], by rwa [List.append_nil], rfl⟩⟩
      · refine ⟨update phase t (.pending o), resolves_before hb (hpend ▸ .pending o seen), fun hrun => ?_⟩
        have heff := hrun.snoc (AtomicStep.effect t o r a.val (update_self ..) hr)
        rw [hlast] at heff
        exact ⟨_, heff, rfl⟩
  | commit t o seen r v hpend hstep =>
    have hres : Resolves (.done r) (phase t) := by simpa only [update_self] using hb t
    refine ⟨update phase t (.pending o), resolves_before hb (hpend ▸ .pending o seen), fun hrun => ?_⟩
    have heff := hrun.snoc (AtomicStep.effect t o r v (update_self ..) hstep)
    have hlast := update_back phase t (.pending o)
    generalize phase t = p at hres hlast
    cases hres
    rw [hlast] at heff
    exact ⟨_, heff, rfl⟩
  | answer t o seen r hpend hr =>
    have hres : Resolves .idle (phase t) := by simpa only [update_self] using hb t
    refine ⟨update phase t (.done r), resolves_before hb (hpend ▸ .seen o seen r hr), fun hrun => ?_⟩
    have hret := hrun.snoc (AtomicStep.ret t r (update_self ..))
    have hlast := update_back phase t (.done r)
    generalize phase t = p at hres hlast
    cases hres
    rw [hlast] at hret
    exact ⟨_, hret, rfl⟩
  | ret t r hdone =>
    have hres : Resolves .idle (phase t) := by simpa only [update_self] using hb t
    refine ⟨update phase t (.done r), resolves_before hb (hdone ▸ .done r), fun hrun => ?_⟩
    have hret := hrun.snoc (AtomicStep.ret t r (update_self ..))
    have hlast := update_back phase t (.done r)
    generalize phase t = p at hres hlast
    cases hres
    rw [hlast] at hret
    exact ⟨_, hret, rfl⟩

/-- **What is observed happens at once.** The runs of the observing object have the histories of the
atomic object. -/
theorem atomic_of_observing {a₀ a : Shared σ ο ρ ι} {es} (h : (observing O calls v₀).Run a₀ es a) {phase : ι → Phase ο ρ}
    (hb : ∀ t, Resolves (a.status t) (phase t)) :
    ∃ ds, (atomic O calls v₀).Run ⟨v₀, fun _ => .idle⟩ ds ⟨a.val, phase⟩ ∧ history ds = history es := by
  induction h generalizing phase with
  | nil h =>
    subst h
    have hidle : phase = fun _ => .idle := by
      funext t
      have := hb t
      generalize phase t = p at this
      cases this
      rfl
    subst hidle
    exact ⟨[], .nil rfl, rfl⟩
  | snoc _ hst ih =>
    obtain ⟨phase₀, hb₀, hsteps⟩ := hst.before hb
    obtain ⟨cs, hcs, hh⟩ := ih hb₀
    obtain ⟨ds, hds, hd⟩ := hsteps hcs
    exact ⟨cs ++ ds, hds, by rw [history_append, history_append, hh, hd]⟩

end

/-! ## Conditions on the code -/

/-- An action that leaves the memory as it is. -/
def Memory.Look {σ C : Type*} {R : C → Type*} (M : Memory σ C R) (c : C) : Prop := ∀ s, (M.exec c s).2 = s

section

variable {σ C ο ρ ℓ α ι : Type*} {R : C → Type*}

/-- The operation has been carried out: the rest of the program only looks, and answers `r`. -/
inductive Answers (M : Memory σ C R) (view : α → ρ) (r : ρ) : Prog C R (ℓ ⊕ α) → Prop
  | ret (a : α) : view a = r → Answers M view r (.ret (.inr a))
  | look (c : C) (k : R c → Prog C R (ℓ ⊕ α)) : M.Look c → (∀ x, Answers M view r (k x)) → Answers M view r (.act c k)

/-- The lock is held. To others the memory is `u`; from one moment on it is `v`, which it will be
when the lock is given back. -/
inductive Works (M : Memory σ C R) (Obs : σ → σ → Prop) (view : α → ρ) (v : σ) (r : ρ) :
    σ → Prog C R (ℓ ⊕ α) → σ → Prop
  | act (u : σ) (c : C) (k : R c → Prog C R (ℓ ⊕ α)) (s : σ) : Obs s u → M.held s →
      Works M Obs view v r u (k (M.exec c s).1) (M.exec c s).2 → Works M Obs view v r u (.act c k) s
  | shows (u : σ) (c : C) (k : R c → Prog C R (ℓ ⊕ α)) (s : σ) : Obs s u → M.held s →
      Works M Obs view v r v (k (M.exec c s).1) (M.exec c s).2 → Works M Obs view v r u (.act c k) s
  | release (u : σ) (c : C) (k : R c → Prog C R (ℓ ⊕ α)) (s : σ) : Obs s u → M.held s → (M.exec c s).2 = v →
      Answers M view r (k (M.exec c s).1) → Works M Obs view v r u (.act c k) s

/-- The program works on operation `o` without the lock: it answers what it has seen, jumps to a
block for the same operation, or takes the lock and carries the operation out. `good l o` says that
block `l` may be run for `o`. -/
inductive Serves (M : Memory σ C R) (O : Object σ ο ρ) (Obs : σ → σ → Prop) (view : α → ρ) (good : ℓ → ο → Prop) (o : ο) :
    Set ρ → Prog C R (ℓ ⊕ α) → Prop
  | again (seen : Set ρ) (l : ℓ) : good l o → Serves M O Obs view good o seen (.ret (.inl l))
  | answer (seen : Set ρ) (a : α) : view a ∈ seen → Serves M O Obs view good o seen (.ret (.inr a))
  | look (seen : Set ρ) (c : C) (k : R c → Prog C R (ℓ ⊕ α)) : M.Look c →
      (∀ s v, O.inv v → Obs s v → Serves M O Obs view good o (seen ∪ O.pure o v) (k (M.exec c s).1)) →
      Serves M O Obs view good o seen (.act c k)
  | acquire (seen : Set ρ) (c : C) (k : R c → Prog C R (ℓ ⊕ α)) :
      (∀ s, M.held s → (M.exec c s).2 = s) →
      (∀ s, M.held s → Serves M O Obs view good o seen (k (M.exec c s).1)) →
      (∀ s, O.inv s → ∃ r v, O.step o s r v ∧ O.inv v ∧ Works M Obs view v r s (k (M.exec c s).1) (M.exec c s).2) →
      Serves M O Obs view good o seen (.act c k)

variable {M : Memory σ C R} {O : Object σ ο ρ} {Obs : σ → σ → Prop} {view : α → ρ}

theorem Works.obs {u v : σ} {r : ρ} {p : Prog C R (ℓ ⊕ α)} {s : σ} (h : Works M Obs view v r u p s) : Obs s u ∧ M.held s := by
  cases h with
  | act u c k s ho hh _ => exact ⟨ho, hh⟩
  | shows u c k s ho hh _ => exact ⟨ho, hh⟩
  | release u c k s ho hh _ _ => exact ⟨ho, hh⟩

theorem Serves.mono {good : ℓ → ο → Prop} {o : ο} {seen seen' : Set ρ} {p : Prog C R (ℓ ⊕ α)}
    (h : Serves M O Obs view good o seen p) (hs : seen ⊆ seen') : Serves M O Obs view good o seen' p := by
  induction h generalizing seen' with
  | again seen l hl => exact .again _ l hl
  | answer seen a ha => exact .answer _ a (hs ha)
  | look seen c k hc _ ih => exact .look _ c k hc fun s v hv ho => ih s v hv ho (Set.union_subset_union_left _ hs)
  | acquire seen c k hbusy _ hfree ih => exact .acquire _ c k hbusy (fun s hh => ih s hh hs) hfree

/-! ## Actions under the lock -/

/-- An action that others do not notice. -/
structure Silent (M : Memory σ C R) (Obs : σ → σ → Prop) (c : C) (s : σ) : Prop where
  held : M.held (M.exec c s).2 → M.held s
  obs : ∀ v, Obs (M.exec c s).2 v → Obs s v

theorem Memory.Look.silent {c : C} (h : M.Look c) (s : σ) : Silent M Obs c s := by
  constructor
  · rw [h s]
    exact id
  · intro v
    rw [h s]
    exact id

theorem Works.silent {u v : σ} {r : ρ} {c : C} {k : R c → Prog C R (ℓ ⊕ α)} {s : σ} (hc : Silent M Obs c s)
    (h : Works M Obs view v r u (k (M.exec c s).1) (M.exec c s).2) : Works M Obs view v r u (.act c k) s :=
  .act u c k s (hc.obs u h.obs.1) (hc.held h.obs.2) h

end

/-! ## Simulation -/

section

variable {σ C ο ρ ℓ α ι : Type*} {R : C → Type*}

/-- What a thread is doing, against what the atomic object has of it; `mine` says that it has the
lock. -/
inductive Fits (M : Memory σ C R) (O : Object σ ο ρ) (Obs : σ → σ → Prop) (view : α → ρ) (good : ℓ → ο → Prop)
    (mine : Prop) (mem val : σ) : Option (Prog C R (ℓ ⊕ α)) → Status ο ρ → Prop
  | idle : ¬ mine → Fits M O Obs view good mine mem val none .idle
  | serves (o : ο) (seen : Set ρ) (p : Prog C R (ℓ ⊕ α)) : ¬ mine → Serves M O Obs view good o seen p →
      Fits M O Obs view good mine mem val (some p) (.pending o seen)
  | answers (r : ρ) (p : Prog C R (ℓ ⊕ α)) : ¬ mine → Answers M view r p →
      Fits M O Obs view good mine mem val (some p) (.done r)
  | works (o : ο) (seen : Set ρ) (p : Prog C R (ℓ ⊕ α)) (r : ρ) (v : σ) : mine → O.step o val r v → O.inv v →
      Works M Obs view v r val p mem → Fits M O Obs view good mine mem val (some p) (.pending o seen)
  | shows (r : ρ) (p : Prog C R (ℓ ⊕ α)) : mine → Works M Obs view val r val p mem →
      Fits M O Obs view good mine mem val (some p) (.done r)

/-- Without the lock a thread does not depend on the memory. -/
theorem Fits.elsewhere {M : Memory σ C R} {O : Object σ ο ρ} {Obs : σ → σ → Prop} {view : α → ρ}
    {good : ℓ → ο → Prop} {mine mine' : Prop} {mem val mem' val' : σ} {p : Option (Prog C R (ℓ ⊕ α))} {st : Status ο ρ}
    (h : Fits M O Obs view good mine mem val p st) (hm : ¬ mine) (hm' : ¬ mine') :
    Fits M O Obs view good mine' mem' val' p st := by
  cases h with
  | idle _ => exact .idle hm'
  | serves o seen p _ hs => exact .serves o seen p hm' hs
  | answers r p _ ha => exact .answers r p hm' ha
  | works o seen p r v hx _ _ _ => exact absurd hx hm
  | shows r p hx _ => exact absurd hx hm

/-- The code meets the conditions: a free memory is observed as it is, and every block serves the
operations it may be run for. -/
structure Correct (M : Memory σ C R) (K : Code C R ο ℓ α) (O : Object σ ο ρ) (Obs : σ → σ → Prop) (view : α → ρ)
    (calls : ο → Prop) (good : ℓ → ο → Prop) : Prop where
  free : ∀ v, O.inv v → ¬ M.held v
  obs : ∀ v, O.inv v → Obs v v
  start : ∀ o, calls o → good (K.start o) o
  serves : ∀ l o v, good l o → O.inv v → Serves M O Obs view good o (O.pure o v) (K.block l)

structure Sim (M : Memory σ C R) (O : Object σ ο ρ) (Obs : σ → σ → Prop) (view : α → ρ) (good : ℓ → ο → Prop)
    (s : State σ C R ℓ α ι) (a : Shared σ ο ρ ι) : Prop where
  inv : O.inv a.val
  obs : Obs s.mem a.val
  owner : ∃ w : Option ι, (w = none → s.mem = a.val) ∧ (w ≠ none → M.held s.mem) ∧
    ∀ t, Fits M O Obs view good (w = some t) s.mem a.val (s.thread t) (a.status t)

variable {M : Memory σ C R} {K : Code C R ο ℓ α} {O : Object σ ο ρ} {Obs : σ → σ → Prop} {view : α → ρ}
  {calls : ο → Prop} {good : ℓ → ο → Prop} [DecidableEq ι] {s s' : State σ C R ℓ α ι} {a : Shared σ ο ρ ι}

open Function in
/-- The other threads go on as before when `t` has moved. -/
theorem fits_update {w w' : Option ι} {t : ι} {mem' val' : σ} {p : Option (Prog C R (ℓ ⊕ α))} {st : Status ο ρ}
    (hfits : ∀ t, Fits M O Obs view good (w = some t) s.mem a.val (s.thread t) (a.status t))
    (hself : Fits M O Obs view good (w' = some t) mem' val' p st)
    (hothers : ∀ x, x ≠ t → (w = some x ∧ w' = some x ∧ mem' = s.mem ∧ val' = a.val) ∨ (w ≠ some x ∧ w' ≠ some x)) (x : ι) :
    Fits M O Obs view good (w' = some x) mem' val' (update s.thread t p x) (update a.status t st x) := by
  by_cases hx : x = t
  · subst hx
    simpa only [update_self] using hself
  · rw [update_of_ne hx, update_of_ne hx]
    rcases hothers x hx with ⟨h₁, h₂, rfl, rfl⟩ | ⟨h₁, h₂⟩
    · have := hfits x
      simp only [h₁, h₂] at this ⊢
      exact this
    · exact (hfits x).elsewhere h₁ h₂

omit [DecidableEq ι] in
theorem owner_eq {w : Option ι} {t x : ι} (hw : w = some t) (hx : x ≠ t) : w ≠ some x := by
  rw [hw]
  exact fun he => hx (Option.some.inj he).symm

omit [DecidableEq ι] in
/-- Nothing changes for a thread when neither the memory nor the owner of the lock does. -/
theorem stays {w : Option ι} (x : ι) : (w = some x ∧ w = some x ∧ s.mem = s.mem ∧ a.val = a.val) ∨ (w ≠ some x ∧ w ≠ some x) := by
  by_cases h : w = some x
  · exact .inl ⟨h, h, rfl, rfl⟩
  · exact .inr ⟨h, h⟩

open Function in
theorem update_same {β : ι → Type*} {f : (i : ι) → β i} {t : ι} {b : β t} (h : f t = b) : update f t b = f := by
  rw [← h, update_eq_self]

open Function in
theorem Sim.act (hc : Correct M K O Obs view calls good) (h : Sim M O Obs view good s a) {t : ι} {c : C}
    {k : R c → Prog C R (ℓ ⊕ α)} (ht : s.thread t = some (.act c k)) :
    ∃ a', ObservingStep O calls a .tau a' ∧
      Sim M O Obs view good ⟨(M.exec c s.mem).2, update s.thread t (some (k (M.exec c s.mem).1))⟩ a' := by
  obtain ⟨w, hfree, hheld, hfits⟩ := h.owner
  have hfit := hfits t
  rw [ht] at hfit
  generalize hst : a.status t = st at hfit
  cases hfit with
  | serves o seen p hm hs =>
    cases hs with
    | look seen c k hlook hnext =>
      refine ⟨_, .observe t o seen hst, h.inv, ?_, w, ?_, ?_, ?_⟩
      · rw [hlook]
        exact h.obs
      · rw [hlook]
        exact hfree
      · rw [hlook]
        exact hheld
      · rw [hlook]
        exact fits_update hfits (.serves o _ _ hm (hnext s.mem a.val h.inv h.obs)) fun x _ => stays x
    | acquire seen c k hbusy hwait htake =>
      by_cases hw : w = none
      · -- the lock is free, so the memory is the value of the object
        obtain ⟨r, v, hstep, hinv, hworks⟩ := htake a.val h.inv
        rw [hfree hw]
        refine ⟨a, .skip, h.inv, hworks.obs.1, some t, fun hn => absurd hn (Option.some_ne_none t), fun _ => hworks.obs.2, fun x => ?_⟩
        have := fits_update (t := t) hfits (.works o seen _ r v rfl hstep hinv hworks)
          (fun x hx => .inr ⟨hw ▸ (Option.some_ne_none x).symm, owner_eq rfl hx⟩) x
        rwa [update_same hst] at this
      · rw [hbusy s.mem (hheld hw)]
        refine ⟨a, .skip, h.inv, h.obs, w, hfree, hheld, fun x => ?_⟩
        have := fits_update hfits (.serves o seen _ hm (hwait s.mem (hheld hw))) (fun x _ => stays x) x
        rwa [update_same hst] at this
  | answers r p hm ha =>
    cases ha with
    | look c k hlook hnext =>
      rw [hlook]
      refine ⟨a, .skip, h.inv, h.obs, w, hfree, hheld, fun x => ?_⟩
      have := fits_update hfits (.answers r _ hm (hnext (M.exec c s.mem).1)) (fun x _ => stays x) x
      rwa [update_same hst] at this
  | works o seen p r v hm hstep hinv hworks =>
    cases hworks with
    | act u c k s hobs hh hnext =>
      refine ⟨a, .skip, h.inv, hnext.obs.1, w, fun hw => ?_, fun _ => hnext.obs.2, fun x => ?_⟩
      · cases hw.symm.trans hm
      · have := fits_update hfits (.works o seen _ r v hm hstep hinv hnext) (fun x hx => .inr ⟨owner_eq hm hx, owner_eq hm hx⟩) x
        rwa [update_same hst] at this
    | shows u c k s hobs hh hnext =>
      refine ⟨_, .commit t o seen r v hst hstep, hinv, hnext.obs.1, w, fun hw => ?_, fun _ => hnext.obs.2, ?_⟩
      · cases hw.symm.trans hm
      · exact fits_update hfits (.shows r _ hm hnext) fun x hx => .inr ⟨owner_eq hm hx, owner_eq hm hx⟩
    | release u c k s hobs hh hv ha =>
      refine ⟨_, .commit t o seen r v hst hstep, hinv, ?_, none, fun _ => hv, fun hw => absurd rfl hw, ?_⟩
      · show Obs _ v
        rw [hv]
        exact hc.obs v hinv
      · exact fits_update hfits (.answers r _ (Option.some_ne_none t).symm ha)
          fun x hx => .inr ⟨owner_eq hm hx, (Option.some_ne_none x).symm⟩
  | shows r p hm hshows =>
    -- the effect has shown, and cannot show again
    have hstays {p : Prog C R (ℓ ⊕ α)} {mem' : σ} (hnext : Works M Obs view a.val r a.val p mem') :
        Sim M O Obs view good ⟨mem', update s.thread t (some p)⟩ a := by
      refine ⟨h.inv, hnext.obs.1, w, fun hw => ?_, fun _ => hnext.obs.2, fun x => ?_⟩
      · cases hw.symm.trans hm
      · have := fits_update hfits (.shows r _ hm hnext) (fun x hx => .inr ⟨owner_eq hm hx, owner_eq hm hx⟩) x
        rwa [update_same hst] at this
    cases hshows with
    | act u c k s hobs hh hnext => exact ⟨a, .skip, hstays hnext⟩
    | shows u c k s hobs hh hnext => exact ⟨a, .skip, hstays hnext⟩
    | release u c k s hobs hh hv ha =>
      refine ⟨a, .skip, h.inv, ?_, none, fun _ => hv, fun hw => absurd rfl hw, fun x => ?_⟩
      · show Obs _ a.val
        rw [hv]
        exact hc.obs _ h.inv
      · have hself : Fits M O Obs view good (none = some t) (M.exec c s.mem).2 a.val _ (.done r) :=
          .answers r _ (Option.some_ne_none t).symm ha
        have := fits_update hfits hself (fun x hx => .inr ⟨owner_eq hm hx, (Option.some_ne_none x).symm⟩) x
        rwa [update_same hst] at this

open Function in
theorem Sim.step (hc : Correct M K O Obs view calls good) (h : Sim M O Obs view good s a) {e : Event ι ο α}
    (hst : Step M K calls s e s') : ∃ a', ObservingStep O calls a (e.map view) a' ∧ Sim M O Obs view good s' a' := by
  obtain ⟨w, hfree, hheld, hfits⟩ := h.owner
  cases hst with
  | act t c k ht => exact h.act hc ht
  | call t o ht hcalls =>
    have hfit := hfits t
    rw [ht] at hfit
    generalize hstatus : a.status t = st at hfit
    cases hfit with
    | idle hm =>
      refine ⟨_, .call t o hstatus hcalls, h.inv, h.obs, w, hfree, hheld, fits_update hfits (.serves o _ _ hm ?_) fun x _ => stays x⟩
      exact hc.serves (K.start o) o a.val (hc.start o hcalls) h.inv
  | jump t l ht =>
    have hfit := hfits t
    rw [ht] at hfit
    generalize hstatus : a.status t = st at hfit
    cases hfit with
    | serves o seen p hm hs =>
      cases hs with
      | again seen l hl =>
        refine ⟨_, .observe t _ seen hstatus, h.inv, h.obs, w, hfree, hheld, fits_update hfits (.serves _ _ _ hm ?_) fun x _ => stays x⟩
        exact (hc.serves l o a.val hl h.inv).mono Set.subset_union_right
    | answers r p hm ha => cases ha
    | works o seen p r v hm hstep hinv hworks => cases hworks
    | shows r p hm hshows => cases hshows
  | ret t x ht =>
    have hfit := hfits t
    rw [ht] at hfit
    generalize hstatus : a.status t = st at hfit
    cases hfit with
    | serves o seen p hm hs =>
      cases hs with
      | answer seen x hx =>
        exact ⟨_, .answer t o seen _ hstatus hx, h.inv, h.obs, w, hfree, hheld, fits_update hfits (.idle hm) fun x _ => stays x⟩
    | answers r p hm ha =>
      cases ha with
      | ret x hx =>
        subst hx
        exact ⟨_, .ret t _ hstatus, h.inv, h.obs, w, hfree, hheld, fits_update hfits (.idle hm) fun x _ => stays x⟩
    | works o seen p r v hm hstep hinv hworks => cases hworks
    | shows r p hm hshows => cases hshows

/-- Every run of the threads is a run of the observing object. -/
theorem observing_of_run (hc : Correct M K O Obs view calls good) {m₀ : σ} (hm : O.inv m₀) {s₀ : State σ C R ℓ α ι} {es}
    (hrun : (threads M K calls m₀).Run s₀ es s) :
    ∃ a, (observing O calls m₀).Run ⟨m₀, fun _ => .idle⟩ (es.map (Event.map view)) a ∧ Sim M O Obs view good s a := by
  have hinit : (threads M K calls m₀).init s₀ →
      (observing O calls m₀).init (⟨m₀, fun _ => .idle⟩ : Shared σ ο ρ ι) ∧ Sim M O Obs view good s₀ ⟨m₀, fun _ => .idle⟩ := by
    intro hs
    rw [show s₀ = _ from hs]
    exact ⟨rfl, hm, hc.obs m₀ hm, none, fun _ => rfl, fun hw => absurd rfl hw, fun t => .idle (Option.some_ne_none t).symm⟩
  obtain ⟨ds, a, hrun', hds, hsim⟩ := hrun.simulate (fun e d => e.map view = d) (Sim M O Obs view good) hinit
    fun {ds t s e s'} _ hsim hst => by
      obtain ⟨a', hstep, hsim'⟩ := hsim.step hc hst
      exact ⟨_, a', hstep, rfl, hsim'⟩
  have hmap : es.map (Event.map view) = ds := by
    rw [← List.forall₂_eq_eq_eq, List.forall₂_map_left_iff]
    exact hds
  exact ⟨a, hmap.symm ▸ hrun', hsim⟩

/-- **Operations under the lock are atomic.** The calls and answers of the threads are those of the
atomic object, what is observed of the memory is its value, and without the lock the memory is. -/
theorem atomic_of_run (hc : Correct M K O Obs view calls good) {m₀ : σ} (hm : O.inv m₀) {s₀ : State σ C R ℓ α ι} {es}
    (hrun : (threads M K calls m₀).Run s₀ es s) :
    ∃ ds b, (atomic O calls m₀).Run (⟨m₀, fun _ => .idle⟩ : Linear σ ο ρ ι) ds b ∧
      history ds = (history es).map (Event.map view) ∧ Obs s.mem b.val ∧ (¬ M.held s.mem → s.mem = b.val) := by
  obtain ⟨a, hobs, hsim⟩ := observing_of_run hc hm hrun
  obtain ⟨phase, hphase⟩ := exists_resolves a
  obtain ⟨ds, hds, hh⟩ := atomic_of_observing hobs hphase
  refine ⟨ds, _, hds, hh.trans (history_map ..), hsim.obs, fun hfree => ?_⟩
  obtain ⟨w, hnone, hheld, -⟩ := hsim.owner
  by_cases hw : w = none
  · exact hnone hw
  · exact absurd (hheld hw) hfree

/-! ## Progress -/

/-- Run without the other threads from memory `s`, the program answers and leaves `s'`. -/
inductive Ends (M : Memory σ C R) (K : Code C R ο ℓ α) : Prog C R (ℓ ⊕ α) → σ → σ → Prop
  | ret (a : α) (s : σ) : Ends M K (.ret (.inr a)) s s
  | jump (l : ℓ) (s s' : σ) : Ends M K (K.block l) s s' → Ends M K (.ret (.inl l)) s s'
  | act (c : C) (k : R c → Prog C R (ℓ ⊕ α)) (s s' : σ) : Ends M K (k (M.exec c s).1) (M.exec c s).2 s' → Ends M K (.act c k) s s'

omit [DecidableEq ι] in
theorem Answers.ends {r : ρ} {p : Prog C R (ℓ ⊕ α)} (h : Answers M view r p) (m : σ) : Ends M K p m m := by
  induction h with
  | ret a ha => exact .ret a m
  | look c k hc _ ih =>
    refine .act c k m m ?_
    rw [hc m]
    exact ih _

omit [DecidableEq ι] in
theorem Works.ends {u v m : σ} {r : ρ} {p : Prog C R (ℓ ⊕ α)} (h : Works M Obs view v r u p m) : Ends M K p m v := by
  induction h with
  | act u c k s _ _ _ ih => exact .act c k s v ih
  | shows u c k s _ _ _ ih => exact .act c k s v ih
  | release u c k s _ _ hv ha =>
    refine .act c k s v ?_
    rw [hv]
    exact ha.ends v

omit [DecidableEq ι] in
/-- If every block comes to an end from its start, so does what is left of one. -/
theorem Serves.ends (hc : Correct M K O Obs view calls good) {o : ο} {seen : Set ρ} {p : Prog C R (ℓ ⊕ α)} {m : σ}
    (hblock : ∀ l, good l o → ∃ m', O.inv m' ∧ Ends M K (K.block l) m m') (h : Serves M O Obs view good o seen p) (hm : O.inv m) :
    ∃ m', O.inv m' ∧ Ends M K p m m' := by
  induction h with
  | again seen l hl =>
    obtain ⟨m', hm', he⟩ := hblock l hl
    exact ⟨m', hm', .jump l m m' he⟩
  | answer seen a _ => exact ⟨m, hm, .ret a m⟩
  | look seen c k hl _ ih =>
    obtain ⟨m', hm', he⟩ := ih m m hm (hc.obs m hm)
    refine ⟨m', hm', .act c k m m' ?_⟩
    rwa [hl m]
  | acquire seen c k _ _ htake _ =>
    obtain ⟨r, v, -, hv, hw⟩ := htake m hm
    exact ⟨v, hv, .act c k m v hw.ends⟩

open Function in
/-- A thread that comes to an end alone can be run to its answer. -/
theorem Ends.run {t : ι} {p : Prog C R (ℓ ⊕ α)} {m m' m₀ : σ} (h : Ends M K p m m') {s₀ : State σ C R ℓ α ι} {es thread}
    (ht : thread t = some p) (hrun : (threads M K calls m₀).Run s₀ es ⟨m, thread⟩) :
    ∃ ds a, (threads M K calls m₀).Run s₀ (es ++ ds) ⟨m', update thread t none⟩ ∧ history ds = [.ret t a] := by
  induction h generalizing es thread with
  | ret a s => exact ⟨_, a, hrun.snoc (Step.ret t a ht), rfl⟩
  | jump l s s' _ ih =>
    obtain ⟨ds, a, hds, hh⟩ := ih (update_self ..) (hrun.snoc (Step.jump t l ht))
    rw [update_idem, List.append_assoc] at hds
    exact ⟨_, a, hds, hh⟩
  | act c k s s' _ ih =>
    obtain ⟨ds, a, hds, hh⟩ := ih (update_self ..) (hrun.snoc (Step.act t c k ht))
    rw [update_idem, List.append_assoc] at hds
    exact ⟨_, a, hds, hh⟩

/-- A free memory lets every thread come to an end. -/
theorem ends_of_free (hc : Correct M K O Obs view calls good)
    (hblock : ∀ l o m, good l o → O.inv m → ∃ m', O.inv m' ∧ Ends M K (K.block l) m m') {m₀ : σ} (hm : O.inv m₀)
    {s₀ : State σ C R ℓ α ι} {es} (hrun : (threads M K calls m₀).Run s₀ es s) (hfree : ¬ M.held s.mem) {t : ι}
    {p : Prog C R (ℓ ⊕ α)} (ht : s.thread t = some p) : ∃ m', Ends M K p s.mem m' := by
  obtain ⟨a, -, hsim⟩ := observing_of_run hc hm hrun
  obtain ⟨w, hnone, hheld, hfits⟩ := hsim.owner
  obtain rfl : w = none := by
    by_contra hw
    exact hfree (hheld hw)
  have hfit := hfits t
  rw [ht] at hfit
  generalize a.status t = st at hfit
  rw [hnone rfl]
  cases hfit with
  | serves o seen p _ hs =>
    obtain ⟨m', -, he⟩ := hs.ends hc (fun l hl => hblock l o a.val hl hsim.inv) hsim.inv
    exact ⟨m', he⟩
  | answers r p _ ha => exact ⟨a.val, ha.ends a.val⟩
  | works o seen p r v hx _ _ _ => cases hx
  | shows r p hx _ => cases hx

open Function in
/-- **No thread is kept from answering.** If the blocks come to an end on a free memory, then
whatever the threads have done, each can be brought to answer: first the one with the lock, then it. -/
theorem answers_of_run (hc : Correct M K O Obs view calls good)
    (hblock : ∀ l o m, good l o → O.inv m → ∃ m', O.inv m' ∧ Ends M K (K.block l) m m') {m₀ : σ} (hm : O.inv m₀)
    {s₀ : State σ C R ℓ α ι} {es} (hrun : (threads M K calls m₀).Run s₀ es s) {t : ι} (ht : s.thread t ≠ none) :
    ∃ ds s' a, (threads M K calls m₀).Run s₀ (es ++ ds) s' ∧ s'.thread t = none ∧ .ret t a ∈ history ds ∧
      ∀ e ∈ history ds, ∃ x b, e = .ret x b := by
  obtain ⟨p, hp⟩ := Option.ne_none_iff_exists'.1 ht
  obtain ⟨a, -, hsim⟩ := observing_of_run hc hm hrun
  obtain ⟨w, hnone, hheld, hfits⟩ := hsim.owner
  cases w with
  | none =>
    have hfree : ¬ M.held s.mem := by
      rw [hnone rfl]
      exact hc.free a.val hsim.inv
    obtain ⟨m', he⟩ := ends_of_free hc hblock hm hrun hfree hp
    obtain ⟨ds, b, hds, hh⟩ := he.run hp hrun
    exact ⟨ds, _, b, hds, update_self .., by simp [hh], by simp [hh]⟩
  | some x =>
    -- the thread with the lock comes to an end and leaves it free
    obtain ⟨q, m, hq, he, hinv⟩ : ∃ q m, s.thread x = some q ∧ Ends M K q s.mem m ∧ O.inv m := by
      have hfit := hfits x
      generalize a.status x = st at hfit
      generalize s.thread x = q at hfit
      cases hfit with
      | idle hx => exact absurd rfl hx
      | serves o seen p hx _ => exact absurd rfl hx
      | answers r p hx _ => exact absurd rfl hx
      | works o seen p r v _ _ hv hw => exact ⟨p, v, rfl, hw.ends, hv⟩
      | shows r p _ hw => exact ⟨p, a.val, rfl, hw.ends, hsim.inv⟩
    obtain ⟨ds, b, hds, hh⟩ := he.run hq hrun
    by_cases hx : t = x
    · subst hx
      exact ⟨ds, _, b, hds, update_self .., by simp [hh], by simp [hh]⟩
    · have hp' : update s.thread x none t = some p := by rw [update_of_ne hx, hp]
      obtain ⟨m', he'⟩ := ends_of_free hc hblock hm hds (hc.free m hinv) hp'
      obtain ⟨cs, b', hcs, hh'⟩ := he'.run hp' hds
      rw [List.append_assoc] at hcs
      exact ⟨ds ++ cs, _, b', hcs, update_self .., by simp [history_append, hh, hh'], by simp [history_append, hh, hh']⟩

end

end Locked
