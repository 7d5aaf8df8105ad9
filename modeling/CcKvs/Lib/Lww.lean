/-
Replicated registers, one for every key, under last-writer-wins: a write takes
a stamp above its own machine's copy and travels to every other machine, where
it is applied if its stamp is above the copy there. Messages are delivered
once, in any order.
-/
import CcKvs.Lib.Lts
import CcKvs.Lib.Register

namespace Lww

open Register

variable {ι K κ α : Type*}

/-- A write under way to `dest`. -/
structure Msg (ι K κ α : Type*) where
  dest : ι
  key : K
  stamp : κ
  value : α

structure St (ι K κ α : Type*) where
  reg : ι → K → κ × α
  net : Multiset (Msg ι K κ α)

/-- An operation on a key, or a step that no client sees. -/
inductive Label (ι K κ α : Type*)
  | op (k : K) (o : Op ι κ α)
  | silent

section

variable [Fintype ι] [DecidableEq ι] [DecidableEq K]

/-- The copy of `k` on `m` becomes `r`. -/
def St.set (s : St ι K κ α) (m : ι) (k : K) (r : κ × α) : St ι K κ α :=
  { s with reg := Function.update s.reg m (Function.update (s.reg m) k r) }

def toOthers (m : ι) (k : K) (t : κ) (v : α) : Multiset (Msg ι K κ α) :=
  (Finset.univ.erase m).val.map fun d => ⟨d, k, t, v⟩

/-- Apply a write that arrives at a copy. -/
def merge [LT κ] [DecidableLT κ] (r : κ × α) (t : κ) (v : α) : κ × α := if r.1 < t then (t, v) else r

/-- `owns m t`: only machine `m` gives out the stamp `t`. -/
inductive Step [LT κ] [DecidableLT κ] (owns : ι → κ → Prop) : St ι K κ α → Label ι K κ α → St ι K κ α → Prop
  | get (m : ι) (k : K) : Step owns s (.op k ⟨.get, m, (s.reg m k).1, (s.reg m k).2⟩) s
  | put (m : ι) (k : K) (t : κ) (v : α) : owns m t → (s.reg m k).1 < t →
      Step owns s (.op k ⟨.put, m, t, v⟩) { s.set m k (t, v) with net := toOthers m k t v + s.net }
  | deliver (x : Msg ι K κ α) (r) : s.net = x ::ₘ r →
      Step owns s .silent { s.set x.dest x.key (merge (s.reg x.dest x.key) x.stamp x.value) with net := r }
  | skip : Step owns s .silent s

/-- All copies start out as `r₀`. -/
def system [LT κ] [DecidableLT κ] (owns : ι → κ → Prop) (r₀ : K → κ × α) : Lts (St ι K κ α) (Label ι K κ α) where
  init s := (∀ m, s.reg m = r₀) ∧ s.net = 0
  step := Step owns

/-- The operations on `k`, in time. -/
def history (k : K) (es : List (Label ι K κ α)) : List (Op ι κ α) :=
  es.filterMap fun
    | .op k' o => if k' = k then some o else none
    | .silent => none

end

section

variable [DecidableEq K] {k k' : K} {es : List (Label ι K κ α)} {o : Op ι κ α}

@[simp] theorem history_silent : history k (es ++ [.silent]) = history k es := by simp [history]

@[simp] theorem history_op : history k (es ++ [.op k o]) = history k es ++ [o] := by simp [history]

theorem history_op_ne (h : k' ≠ k) : history k (es ++ [.op k' o]) = history k es := by simp [history, h]

theorem mem_history_op {a : Op ι κ α} :
    a ∈ history k (es ++ [.op k' o]) ↔ a ∈ history k es ∨ k' = k ∧ a = o := by
  by_cases h : k' = k
  · subst h
    simp
  · simp [history_op_ne h, h]

variable [DecidableEq ι] {s : St ι K κ α} {m m' : ι} {r : κ × α}

theorem St.set_reg (s : St ι K κ α) (m : ι) (k : K) (r : κ × α) (m' : ι) (k' : K) :
    (s.set m k r).reg m' k' = if m' = m ∧ k' = k then r else s.reg m' k' := by
  by_cases hm : m' = m
  · subst hm
    by_cases hk : k' = k <;> simp [St.set, hk]
  · simp [St.set, hm]

end

section

variable [LinearOrder κ]

theorem merge_or (r : κ × α) (t : κ) (v : α) : merge r t v = r ∨ merge r t v = (t, v) := by
  unfold merge
  split
  · exact .inr rfl
  · exact .inl rfl

theorem le_merge (r : κ × α) (t : κ) (v : α) : r.1 ≤ (merge r t v).1 := by
  unfold merge
  split
  · next h => exact h.le
  · exact le_rfl

theorem stamp_le_merge (r : κ × α) (t : κ) (v : α) : t ≤ (merge r t v).1 := by
  unfold merge
  split
  · exact le_rfl
  · next h => exact not_lt.1 h

end

variable [Fintype ι] [DecidableEq ι] [DecidableEq K] [LinearOrder κ] {owns : ι → κ → Prop} {r₀ : K → κ × α}

/-- Some write of the history. -/
def Wrote (h : List (Op ι κ α)) (t : κ) (v : α) : Prop := ∃ o ∈ h, o.kind = .put ∧ (o.stamp, o.value) = (t, v)

/-- What holds after the labels `es`. -/
structure Inv (owns : ι → κ → Prop) (r₀ : K → κ × α) (es : List (Label ι K κ α)) (s : St ι K κ α) : Prop where
  stamped : ∀ k, Stamped (r₀ k).1 (r₀ k).2 (history k es)
  owned : ∀ k, ∀ o ∈ history k es, o.kind = .put → owns o.machine o.stamp
  reg : ∀ m k, s.reg m k = r₀ k ∨ Wrote (history k es) (s.reg m k).1 (s.reg m k).2
  above : ∀ m k, (r₀ k).1 ≤ (s.reg m k).1
  seen : ∀ k, ∀ o ∈ history k es, o.stamp ≤ (s.reg o.machine k).1
  net : ∀ x ∈ s.net, Wrote (history x.key es) x.stamp x.value
  /-- A write has reached a machine or is on its way there. -/
  flight : ∀ k, ∀ o ∈ history k es, o.kind = .put →
    ∀ m, o.stamp ≤ (s.reg m k).1 ∨ ⟨m, k, o.stamp, o.value⟩ ∈ s.net

omit [Fintype ι] [DecidableEq ι] [LinearOrder κ] in
theorem Wrote.snoc {es : List (Label ι K κ α)} {k : K} {t : κ} {v : α} (h : Wrote (history k es) t v) (k' : K)
    (o : Op ι κ α) : Wrote (history k (es ++ [.op k' o])) t v := by
  obtain ⟨w, hw, hk, he⟩ := h
  exact ⟨w, mem_history_op.2 (.inl hw), hk, he⟩

omit [LinearOrder κ] [DecidableEq K] in
theorem mem_toOthers {m : ι} {k : K} {t : κ} {v : α} {x : Msg ι K κ α} :
    x ∈ toOthers m k t v ↔ x.dest ≠ m ∧ x.key = k ∧ x.stamp = t ∧ x.value = v := by
  obtain ⟨d, k', t', v'⟩ := x
  simp only [toOthers, Multiset.mem_map, Finset.mem_val, Finset.mem_erase, Finset.mem_univ, and_true, Msg.mk.injEq]
  constructor
  · intro ⟨d', hd, h₁, h₂, h₃, h₄⟩
    exact ⟨h₁ ▸ hd, h₂.symm, h₃.symm, h₄.symm⟩
  · intro ⟨hd, h₂, h₃, h₄⟩
    exact ⟨d, hd, rfl, h₂.symm, h₃.symm, h₄.symm⟩

/-- A copy's stamp never decreases. -/
theorem Step.reg_le {s s' : St ι K κ α} {e} (h : Step owns s e s') (m : ι) (k : K) :
    (s.reg m k).1 ≤ (s'.reg m k).1 := by
  cases h with
  | get | skip => exact le_rfl
  | put m' k' t v _ hlt =>
    simp only [St.set_reg]
    split
    · next h => rw [h.1, h.2]; exact hlt.le
    · exact le_rfl
  | deliver x r _ =>
    simp only [St.set_reg]
    split
    · next h => rw [h.1, h.2]; exact le_merge _ _ _
    · exact le_rfl

namespace Inv

variable {es : List (Label ι K κ α)} {s : St ι K κ α}

theorem init (h : (system owns r₀).init s) : Inv owns r₀ [] s where
  stamped _ := .nil
  owned _ _ ho := nomatch ho
  reg m k := .inl (congrFun (h.1 m) k)
  above m k := (congrArg Prod.fst (congrFun (h.1 m) k)).ge
  seen _ _ ho := nomatch ho
  net x hx := by rw [h.2] at hx; cases hx
  flight _ _ ho := nomatch ho

omit [Fintype ι] [DecidableEq ι] in
theorem get (hi : Inv owns r₀ es s) (m : ι) (k : K) :
    Inv owns r₀ (es ++ [.op k ⟨.get, m, (s.reg m k).1, (s.reg m k).2⟩]) s where
  stamped k' := by
    by_cases hk : k = k'
    · subst hk
      rw [history_op]
      refine .snoc _ _ (hi.stamped k) (fun a ha hm => ?_) nofun fun _ => (hi.reg m k).imp_left fun h => by rw [h]
      rw [← show a.machine = m from hm]
      exact hi.seen k a ha
    · rw [history_op_ne hk]
      exact hi.stamped k'
  owned k' o ho hput := by
    rcases mem_history_op.1 ho with ho | ⟨_, rfl⟩
    · exact hi.owned k' o ho hput
    · cases hput
  reg m' k' := (hi.reg m' k').imp_right fun h => h.snoc _ _
  above := hi.above
  seen k' o ho := by
    rcases mem_history_op.1 ho with ho | ⟨rfl, rfl⟩
    · exact hi.seen k' o ho
    · exact le_rfl
  net x hx := (hi.net x hx).snoc _ _
  flight k' o ho hput := by
    rcases mem_history_op.1 ho with ho | ⟨_, rfl⟩
    · exact hi.flight k' o ho hput
    · cases hput

theorem put (disj : ∀ m m' t, owns m t → owns m' t → m = m') (hi : Inv owns r₀ es s) (m : ι) (k : K) (t : κ)
    (v : α) (hown : owns m t) (hlt : (s.reg m k).1 < t) :
    Inv owns r₀ (es ++ [.op k ⟨.put, m, t, v⟩]) { s.set m k (t, v) with net := toOthers m k t v + s.net } := by
  have hst : Step owns s (.op k ⟨.put, m, t, v⟩) { s.set m k (t, v) with net := toOthers m k t v + s.net } :=
    .put m k t v hown hlt
  have hw : Wrote (history k (es ++ [.op k ⟨.put, m, t, v⟩])) t v :=
    ⟨⟨.put, m, t, v⟩, by simp, rfl, rfl⟩
  refine ⟨fun k' => ?_, fun k' o ho hput => ?_, fun m' k' => ?_, fun m' k' => (hi.above m' k').trans (hst.reg_le m' k'),
    fun k' o ho => ?_, fun x hx => ?_, fun k' o ho hput m' => ?_⟩
  · by_cases hk : k = k'
    · subst hk
      rw [history_op]
      refine .snoc _ _ (hi.stamped k) (fun a ha hm => ?_) (fun _ => ⟨(hi.above m k).trans_lt hlt, fun a ha hp he => ?_⟩)
        nofun
      · have := hi.seen k a ha
        rw [show a.machine = m from hm] at this
        exact this.trans hlt.le
      · have hm : a.machine = m := disj _ _ _ (hi.owned k a ha hp) (he ▸ hown)
        have := hi.seen k a ha
        rw [hm, he] at this
        exact absurd hlt this.not_gt
    · rw [history_op_ne hk]
      exact hi.stamped k'
  · rcases mem_history_op.1 ho with ho | ⟨rfl, rfl⟩
    · exact hi.owned k' o ho hput
    · exact hown
  · simp only [St.set_reg]
    split
    · next h => rw [h.2]; exact .inr hw
    · exact (hi.reg m' k').imp_right fun h => h.snoc _ _
  · rcases mem_history_op.1 ho with ho | ⟨rfl, rfl⟩
    · exact (hi.seen k' o ho).trans (hst.reg_le _ _)
    · simp [St.set_reg]
  · rcases Multiset.mem_add.1 hx with hx | hx
    · obtain ⟨_, hk, ht, hv⟩ := mem_toOthers.1 hx
      rw [hk, ht, hv]
      exact hw
    · exact (hi.net x hx).snoc _ _
  · rcases mem_history_op.1 ho with ho | ⟨rfl, rfl⟩
    · rcases hi.flight k' o ho hput m' with h | h
      · exact .inl (h.trans (hst.reg_le _ _))
      · exact .inr (Multiset.mem_add.2 (.inr h))
    · by_cases hm : m' = m
      · simp [St.set_reg, hm]
      · exact .inr (Multiset.mem_add.2 (.inl (mem_toOthers.2 ⟨hm, rfl, rfl, rfl⟩)))

theorem deliver (hi : Inv owns r₀ es s) (x : Msg ι K κ α) (r) (hnet : s.net = x ::ₘ r) :
    Inv owns r₀ es { s.set x.dest x.key (merge (s.reg x.dest x.key) x.stamp x.value) with net := r } := by
  have hst : Step owns s .silent
      { s.set x.dest x.key (merge (s.reg x.dest x.key) x.stamp x.value) with net := r } := .deliver x r hnet
  have hw := hi.net x (by rw [hnet]; exact Multiset.mem_cons_self x r)
  refine ⟨hi.stamped, hi.owned, fun m k => ?_, fun m k => (hi.above m k).trans (hst.reg_le m k),
    fun k o ho => (hi.seen k o ho).trans (hst.reg_le _ _), fun y hy => ?_, fun k o ho hput m => ?_⟩
  · simp only [St.set_reg]
    split
    · next h =>
      rcases merge_or (s.reg x.dest x.key) x.stamp x.value with he | he
      · rw [he, h.2]
        exact hi.reg _ _
      · rw [he, h.2]
        exact .inr hw
    · exact hi.reg m k
  · exact hi.net y (by rw [hnet]; exact Multiset.mem_cons_of_mem hy)
  · rcases hi.flight k o ho hput m with h | h
    · exact .inl (h.trans (hst.reg_le _ _))
    · rw [hnet] at h
      rcases Multiset.mem_cons.1 h with rfl | h
      · simpa [St.set_reg] using Or.inl (stamp_le_merge _ _ _)
      · exact .inr h

omit [Fintype ι] [DecidableEq ι] in
theorem silent (hi : Inv owns r₀ es s) : Inv owns r₀ (es ++ [.silent]) s := by
  refine ⟨?_, ?_, ?_, hi.above, ?_, ?_, ?_⟩
  all_goals simp only [history_silent]
  · exact hi.stamped
  · exact hi.owned
  · exact hi.reg
  · exact hi.seen
  · exact hi.net
  · exact hi.flight

end Inv

variable {es : List (Label ι K κ α)} {s₀ s : St ι K κ α}

theorem inv_of_run (disj : ∀ m m' t, owns m t → owns m' t → m = m') (h : (system owns r₀).Run s₀ es s) :
    Inv owns r₀ es s := by
  refine h.invariant (Inv owns r₀) Inv.init fun _ hi hst => ?_
  cases hst with
  | get m k => exact hi.get m k
  | put m k t v hown hlt => exact hi.put disj m k t v hown hlt
  | deliver x r hnet => exact (hi.deliver x r hnet).silent
  | skip => exact hi.silent

/-- `r` is the write of `h` with the highest stamp, or `r₀` if there is no write. -/
def IsLatest (h : List (Op ι κ α)) (r₀ r : κ × α) : Prop :=
  (putStamps h = [] ∧ r = r₀) ∨ (Wrote h r.1 r.2 ∧ ∀ t ∈ putStamps h, t ≤ r.1)

omit [Fintype ι] [DecidableEq ι] [LinearOrder κ] in
theorem mem_putStamps {h : List (Op ι κ α)} {t : κ} : t ∈ putStamps h ↔ ∃ o ∈ h, o.kind = .put ∧ o.stamp = t := by
  simp [putStamps, and_assoc]

omit [Fintype ι] [DecidableEq ι] in
/-- Once nothing is under way, every copy holds the latest write. -/
theorem Inv.isLatest (hi : Inv owns r₀ es s) (hq : s.net = 0) (m : ι) (k : K) :
    IsLatest (history k es) (r₀ k) (s.reg m k) := by
  have hle : ∀ t ∈ putStamps (history k es), t ≤ (s.reg m k).1 := by
    intro t ht
    obtain ⟨o, ho, hput, rfl⟩ := mem_putStamps.1 ht
    exact (hi.flight k o ho hput m).resolve_right (by simp [hq])
  rcases hi.reg m k with h | h
  · refine .inl ⟨List.eq_nil_iff_forall_not_mem.2 fun t ht => ?_, h⟩
    obtain ⟨o, ho, hput, rfl⟩ := mem_putStamps.1 ht
    have := hle _ ht
    rw [h] at this
    exact absurd ((hi.stamped k).fresh o ho hput) this.not_gt
  · exact .inr ⟨h, hle⟩

omit [Fintype ι] [DecidableEq ι] in
/-- There is only one latest write. -/
theorem IsLatest.unique {h : List (Op ι κ α)} {r₀ r r' : κ × α} (hs : Stamped r₀.1 r₀.2 h) (hr : IsLatest h r₀ r)
    (hr' : IsLatest h r₀ r') : r = r' := by
  have absurd_nil {r : κ × α} (hn : putStamps h = []) (hw : Wrote h r.1 r.2) : False := by
    obtain ⟨o, ho, hput, _⟩ := hw
    have := mem_putStamps.2 ⟨o, ho, hput, rfl⟩
    rw [hn] at this
    cases this
  rcases hr with ⟨hn, rfl⟩ | ⟨⟨o, ho, hput, he⟩, hle⟩ <;> rcases hr' with ⟨hn', rfl⟩ | ⟨⟨o', ho', hput', he'⟩, hle'⟩
  · rfl
  · exact (absurd_nil hn ⟨o', ho', hput', he'⟩).elim
  · exact (absurd_nil hn' ⟨o, ho, hput, he⟩).elim
  · have h₁ := hle' _ (mem_putStamps.2 ⟨o, ho, hput, rfl⟩)
    have h₂ := hle _ (mem_putStamps.2 ⟨o', ho', hput', rfl⟩)
    have hst : o.stamp = o'.stamp := le_antisymm (h₁.trans (congrArg Prod.fst he').ge) (h₂.trans (congrArg Prod.fst he).ge)
    have hoo : o = o' := hs.put_unique ho ho' hput hput' hst
    calc r = (o.stamp, o.value) := he.symm
      _ = (o'.stamp, o'.value) := by rw [hoo]
      _ = r' := he'

end Lww
