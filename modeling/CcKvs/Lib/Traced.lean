/-
Computations over a state that note what they access on the way and may stop with
a fault. What was noted up to a fault stays noted, so that a statement about the
accesses of a program is also one about its runs that do not return.

A triple (`Meets`) bounds the accesses of a run together with its result. Where
only the accesses and what becomes of the state matter, `Confined` has the rules
without a postcondition to choose.
-/
import Mathlib

/-- From a state: what is noted, and the fault, or the value with the next state. -/
def Traced (ω σ ε α : Type) : Type := σ → List ω × Except ε (α × σ)

namespace Traced

variable {ω σ ε α β : Type}

def log (m : Traced ω σ ε α) (s : σ) : List ω := (m s).1

def outcome (m : Traced ω σ ε α) (s : σ) : Except ε (α × σ) := (m s).2

/-- The bind: the second computation adds to what the first has noted. -/
def andThen (m : Traced ω σ ε α) (f : α → Traced ω σ ε β) : Traced ω σ ε β := fun s =>
  match m.outcome s with
  | .error e => (m.log s, .error e)
  | .ok p => (m.log s ++ (f p.1).log p.2, (f p.1).outcome p.2)

instance : Monad (Traced ω σ ε) where
  pure a := fun s => ([], .ok (a, s))
  bind := andThen

/-- Reads `f` of the state, and notes it as `w`. -/
def reads (w : ω) (f : σ → α) : Traced ω σ ε α := fun s => ([w], .ok (f s, s))

/-- Changes the state by `g`, and notes it as `w`. -/
def writes (w : ω) (g : σ → σ) : Traced ω σ ε Unit := fun s => ([w], .ok ((), g s))

/-- Reads a part of the state whose accesses are not of interest. -/
def look (f : σ → α) : Traced ω σ ε α := fun s => ([], .ok (f s, s))

/-- Changes a part of the state whose accesses are not of interest. -/
def change (g : σ → σ) : Traced ω σ ε Unit := fun s => ([], .ok ((), g s))

def stop (e : ε) : Traced ω σ ε α := fun _ => ([], .error e)

/-! ## Runs -/

section

variable {m : Traced ω σ ε α} {f : α → Traced ω σ ε β} {s s' : σ} {a : α} {e : ε}

@[simp] theorem log_pure : (pure a : Traced ω σ ε α).log s = [] := rfl
@[simp] theorem outcome_pure : (pure a : Traced ω σ ε α).outcome s = .ok (a, s) := rfl
@[simp] theorem log_reads {w : ω} {g : σ → α} : (reads w g : Traced ω σ ε α).log s = [w] := rfl
@[simp] theorem outcome_reads {w : ω} {g : σ → α} : (reads w g : Traced ω σ ε α).outcome s = .ok (g s, s) := rfl
@[simp] theorem log_writes {w : ω} {g : σ → σ} : (writes w g : Traced ω σ ε Unit).log s = [w] := rfl
@[simp] theorem outcome_writes {w : ω} {g : σ → σ} : (writes w g : Traced ω σ ε Unit).outcome s = .ok ((), g s) := rfl
@[simp] theorem log_look {g : σ → α} : (look g : Traced ω σ ε α).log s = [] := rfl
@[simp] theorem outcome_look {g : σ → α} : (look g : Traced ω σ ε α).outcome s = .ok (g s, s) := rfl
@[simp] theorem log_change {g : σ → σ} : (change g : Traced ω σ ε Unit).log s = [] := rfl
@[simp] theorem outcome_change {g : σ → σ} : (change g : Traced ω σ ε Unit).outcome s = .ok ((), g s) := rfl
@[simp] theorem log_stop : (stop e : Traced ω σ ε α).log s = [] := rfl
@[simp] theorem outcome_stop : (stop e : Traced ω σ ε α).outcome s = .error e := rfl

theorem log_bind_ok (h : m.outcome s = .ok (a, s')) : (m >>= f).log s = m.log s ++ (f a).log s' := by
  change (andThen m f s).1 = _
  rw [andThen, h]

theorem outcome_bind_ok (h : m.outcome s = .ok (a, s')) : (m >>= f).outcome s = (f a).outcome s' := by
  change (andThen m f s).2 = _
  rw [andThen, h]

theorem log_bind_error (h : m.outcome s = .error e) : (m >>= f).log s = m.log s := by
  change (andThen m f s).1 = _
  rw [andThen, h]

theorem outcome_bind_error (h : m.outcome s = .error e) : (m >>= f).outcome s = .error e := by
  change (andThen m f s).2 = _
  rw [andThen, h]

@[simp] theorem outcome_bind : (m >>= f).outcome s = m.outcome s >>= fun p => (f p.1).outcome p.2 := by
  cases h : m.outcome s with
  | error e => exact outcome_bind_error h
  | ok p => exact outcome_bind_ok h

theorem outcome_bind_congr {k : Traced ω σ ε α} (h : m.outcome s = k.outcome s') : (m >>= f).outcome s = (k >>= f).outcome s' := by
  rw [outcome_bind, outcome_bind, h]

/-- From `s`, the computation ends with a fault. -/
def Stops (m : Traced ω σ ε α) (s : σ) : Prop := ∃ e, m.outcome s = .error e

@[simp] theorem stops_stop : (stop e : Traced ω σ ε α).Stops s := ⟨e, rfl⟩

theorem not_stops {p : α × σ} (h : m.outcome s = .ok p) : ¬ m.Stops s := by
  rintro ⟨e, he⟩
  rw [h] at he
  cases he

theorem exists_of_not_stops (h : ¬ m.Stops s) : ∃ a s', m.outcome s = .ok (a, s') := by
  cases ho : m.outcome s with
  | error e => exact absurd ⟨e, ho⟩ h
  | ok p => exact ⟨p.1, p.2, rfl⟩

theorem Stops.bind (h : m.Stops s) : (m >>= f).Stops s := h.imp fun _ he => outcome_bind_error he

theorem stops_bind (h : m.outcome s = .ok (a, s')) : (m >>= f).Stops s ↔ (f a).Stops s' := by
  rw [Stops, Stops, outcome_bind_ok h]

theorem outcome_or_true {c d : Traced ω σ ε Bool} (h : c.outcome s = .ok (true, s')) : (c <||> d).outcome s = .ok (true, s') :=
  outcome_bind_ok h

theorem outcome_or_false {c d : Traced ω σ ε Bool} (h : c.outcome s = .ok (false, s')) : (c <||> d).outcome s = d.outcome s' :=
  outcome_bind_ok h

/-- The value of a disjunction whose sides leave the state as it is. -/
theorem outcome_or {c d : Traced ω σ ε Bool} {a b : Bool} (hc : c.outcome s = .ok (a, s)) (hd : d.outcome s = .ok (b, s)) :
    (c <||> d).outcome s = .ok (a || b, s) := by
  cases a with
  | true => exact outcome_or_true hc
  | false => exact (outcome_or_false hc).trans hd

theorem log_or_true {c d : Traced ω σ ε Bool} (h : c.outcome s = .ok (true, s')) : (c <||> d).log s = c.log s :=
  (log_bind_ok h).trans (List.append_nil _)

theorem log_or_false {c d : Traced ω σ ε Bool} (h : c.outcome s = .ok (false, s')) : (c <||> d).log s = c.log s ++ d.log s' :=
  log_bind_ok h

end

/-! ## Triples -/

/-- From `s`, all that `m` notes satisfies `A`, and if `m` returns, then with `Q`. -/
structure Meets (A : ω → Prop) (Q : α → σ → Prop) (m : Traced ω σ ε α) (s : σ) : Prop where
  noted : ∀ w ∈ m.log s, A w
  returned : ∀ {a s'}, m.outcome s = .ok (a, s') → Q a s'

section

variable {A : ω → Prop} {Q : α → σ → Prop} {R : β → σ → Prop} {m : Traced ω σ ε α} {f : α → Traced ω σ ε β} {s : σ}

theorem Meets.pure {a : α} (h : Q a s) : Meets A Q (pure a : Traced ω σ ε α) s :=
  ⟨by simp, fun he => by cases he; exact h⟩

theorem Meets.reads {w : ω} {g : σ → α} (hw : A w) (h : Q (g s) s) : Meets A Q (reads w g : Traced ω σ ε α) s :=
  ⟨by simpa using hw, fun he => by cases he; exact h⟩

theorem Meets.look {g : σ → α} (h : Q (g s) s) : Meets A Q (look g : Traced ω σ ε α) s :=
  ⟨by simp, fun he => by cases he; exact h⟩

theorem Meets.writes {w : ω} {g : σ → σ} {Q : Unit → σ → Prop} (hw : A w) (h : Q () (g s)) :
    Meets A Q (writes w g : Traced ω σ ε Unit) s :=
  ⟨by simpa using hw, fun he => by cases he; exact h⟩

theorem Meets.change {g : σ → σ} {Q : Unit → σ → Prop} (h : Q () (g s)) :
    Meets A Q (change g : Traced ω σ ε Unit) s :=
  ⟨by simp, fun he => by cases he; exact h⟩

theorem Meets.stop {e : ε} : Meets A Q (stop e : Traced ω σ ε α) s := ⟨by simp, fun he => by cases he⟩

theorem Meets.bind (hm : Meets A Q m s) (hf : ∀ a s', Q a s' → Meets A R (f a) s') : Meets A R (m >>= f) s := by
  cases h : m.outcome s with
  | error e =>
    refine ⟨by rw [log_bind_error h]; exact hm.noted, fun he => ?_⟩
    rw [outcome_bind_error h] at he
    cases he
  | ok p =>
    obtain ⟨a, s'⟩ := p
    have hp := hf a s' (hm.returned h)
    refine ⟨fun w hw => ?_, fun he => hp.returned ((outcome_bind_ok h).symm.trans he)⟩
    rw [log_bind_ok h, List.mem_append] at hw
    exact hw.elim (hm.noted w) (hp.noted w)

/-! A first step whose effect is known is taken by one of these. -/

theorem Meets.bind_reads {w : ω} {g : σ → α} (hw : A w) (h : Meets A R (f (g s)) s) : Meets A R (Traced.reads w g >>= f) s :=
  Meets.bind (Q := fun a s' => a = g s ∧ s' = s) (.reads hw ⟨rfl, rfl⟩) fun _ _ hs => by rw [hs.1, hs.2]; exact h

theorem Meets.bind_look {g : σ → α} (h : Meets A R (f (g s)) s) : Meets A R (Traced.look g >>= f) s :=
  Meets.bind (Q := fun a s' => a = g s ∧ s' = s) (.look ⟨rfl, rfl⟩) fun _ _ hs => by rw [hs.1, hs.2]; exact h

theorem Meets.bind_change {g : σ → σ} {f : Unit → Traced ω σ ε β} (h : Meets A R (f ()) (g s)) :
    Meets A R (Traced.change g >>= f) s :=
  Meets.bind (Q := fun _ s' => s' = g s) (.change rfl) fun _ _ hs => by rw [hs]; exact h

theorem Meets.mono {B : ω → Prop} {Q' : α → σ → Prop} (h : Meets A Q m s) (hA : ∀ w, A w → B w)
    (hQ : ∀ a s', Q a s' → Q' a s') : Meets B Q' m s :=
  ⟨fun w hw => hA w (h.noted w hw), fun he => hQ _ _ (h.returned he)⟩

end

/-! ## Confined computations -/

/-- `m` notes only what satisfies `A`, and moves the state along `R`. -/
def Confined (A : ω → Prop) (R : σ → σ → Prop) (m : Traced ω σ ε α) : Prop := ∀ s, Meets A (fun _ s' => R s s') m s

namespace Confined

variable {A : ω → Prop} {R : σ → σ → Prop} {m m' : Traced ω σ ε α} {f : α → Traced ω σ ε β}

theorem writes {w : ω} {g : σ → σ} (hw : A w) (h : ∀ s, R s (g s)) : Confined A R (writes w g : Traced ω σ ε Unit) :=
  fun s => .writes hw (h s)

theorem change {g : σ → σ} (h : ∀ s, R s (g s)) : Confined A R (change g : Traced ω σ ε Unit) := fun s => .change (h s)

theorem stop {e : ε} : Confined A R (stop e : Traced ω σ ε α) := fun _ => .stop

theorem ite {c : Prop} [Decidable c] (h : Confined A R m) (h' : Confined A R m') : Confined A R (if c then m else m') := by
  split
  · exact h
  · exact h'

variable [Std.Refl R]

theorem pure {a : α} : Confined A R (pure a : Traced ω σ ε α) := fun s => .pure (refl s)

theorem reads {w : ω} {g : σ → α} (hw : A w) : Confined A R (reads w g : Traced ω σ ε α) := fun s => .reads hw (refl s)

theorem look {g : σ → α} : Confined A R (look g : Traced ω σ ε α) := fun s => .look (refl s)

variable [IsTrans σ R]

omit [Std.Refl R] in
theorem bind (hm : Confined A R m) (hf : ∀ a, Confined A R (f a)) : Confined A R (m >>= f) := fun s =>
  (hm s).bind fun a s' h => (hf a s').mono (fun _ hw => hw) fun _ _ h' => trans_of R h h'

/-- The second condition is evaluated if the first is false. -/
theorem or {c d : Traced ω σ ε Bool} (hc : Confined A R c) (hd : Confined A R d) : Confined A R (c <||> d) := by
  refine bind hc fun b => ?_
  cases b with
  | true => exact pure
  | false => exact hd

end Confined

end Traced
