/-
What becomes of the highest write of the invalidation protocol. Other writes
may be overtaken and never complete, but the one with the largest stamp
cannot be: every machine is either yet to hear of it, with the invalidation
on its way, or has acknowledged it; and once it has completed, every machine
holds its stamp and is valid or about to be. So when no message is left, all
copies are valid and agree on it.
-/
import CcKvs.Lib.Invalidation
import Mathlib.Order.Bounds.Defs

namespace Invalidation

section

variable {ι : Type*} [LinearOrder ι]

/-- `d` took the write `v` of `m`; its acknowledgement is counted or on the way. -/
def Reached (s : St ι) (m : ι) (v : ℕ) (A : Finset ι) (d : ι) : Prop :=
  s.phase d = .invalid ∧ s.stamp d = toLex (v, m) ∧ (d ∈ A ∨ ⟨.ack, m, d, v⟩ ∈ s.net)

/-- `d` is below the write `v` of `m`, whose invalidation is queued or on the way. -/
def Unreached (s : St ι) (m : ι) (v : ℕ) (d : ι) : Prop :=
  s.stamp d < toLex (v, m) ∧ ((m, v) ∈ s.waiting ∨ ⟨.inv, d, m, v⟩ ∈ s.net)

/-- `d` holds the write `v` of `m`, validated or with the update on the way. -/
def Settled (s : St ι) (m : ι) (v : ℕ) (d : ι) : Prop :=
  s.stamp d = toLex (v, m) ∧ (s.phase d = .valid ∨ s.phase d = .invalid ∧ ⟨.upd, d, m, v⟩ ∈ s.net)

inductive Stage (s : St ι) (m : ι) (v : ℕ) : Prop
  | collecting (A : Finset ι) : s.phase m = .writing A →
      (∀ d, d ≠ m → Reached s m v A d ∨ Unreached s m v d) → Stage s m v
  | spreading : s.phase m = .valid → (∀ d, d ≠ m → Settled s m v d) → Stage s m v

/-- The write `v` of `m` is the highest one, and where it stands. -/
structure Top (s : St ι) (m : ι) (v : ℕ) : Prop where
  le : ∀ x, s.stamp x ≤ toLex (v, m)
  own : s.stamp m = toLex (v, m)
  stage : Stage s m v

end

variable {ι : Type*} [LinearOrder ι] {s : St ι} {m : ι} {v : ℕ}

/-- A lone message of `m`'s write that is dropped without effect takes nothing from it. -/
theorem Top.drop {x : Msg ι} {r} (h : Top s m v) (hn : s.net = x ::ₘ r)
    (hinv : ∀ d, x = ⟨.inv, d, m, v⟩ → ¬ s.stamp d < toLex (v, m))
    (hack : ∀ d A, x = ⟨.ack, m, d, v⟩ → s.phase m ≠ .writing A)
    (hupd : ∀ d, x = ⟨.upd, d, m, v⟩ → s.stamp d = toLex (v, m) → s.phase d ≠ .invalid) :
    Top { s with net := r } m v := by
  have hmem : ∀ {y}, y ∈ s.net → y = x ∨ y ∈ r := fun hy => Multiset.mem_cons.1 (hn ▸ hy)
  refine ⟨h.le, h.own, ?_⟩
  cases h.stage with
  | collecting A hp hd =>
    refine .collecting A hp fun d hne => ?_
    rcases hd d hne with ⟨hi, hs, ha⟩ | ⟨hlt, hw⟩
    · refine .inl ⟨hi, hs, ha.imp_right fun ha => (hmem ha).resolve_left fun he => ?_⟩
      exact hack d A he.symm hp
    · refine .inr ⟨hlt, hw.imp_right fun hw => (hmem hw).resolve_left fun he => ?_⟩
      exact hinv d he.symm hlt
  | spreading hp hd =>
    refine .spreading hp fun d hne => ?_
    obtain ⟨hs, hv | ⟨hi, hu⟩⟩ := hd d hne
    · exact ⟨hs, .inl hv⟩
    · exact ⟨hs, .inr ⟨hi, (hmem hu).resolve_left fun he => hupd d he.symm hs hi⟩⟩

open Function

/-- A higher write becomes the top, with all other machines below it. -/
theorem Top.put_top {x : ι} {w} (h : Top s m v) (hlt : toLex (v, m) < toLex (w, x)) :
    Top ⟨update s.phase x (.writing ∅), update s.stamp x (toLex (w, x)), (x, w) ::ₘ s.waiting, s.net⟩ x w := by
  refine ⟨fun d => ?_, by simp, .collecting ∅ (by simp) fun d hd => .inr ⟨?_, .inl (by simp)⟩⟩
  · by_cases hd : d = x
    · simp [hd]
    · simpa [hd] using (h.le d).trans hlt.le
  · simpa [hd] using (h.le d).trans_lt hlt

/-- A write below the top is issued only where the top is not known yet. -/
theorem Top.put_below {x : ι} {w} (h : Top s m v) (hw : (ofLex (s.stamp x)).1 < w)
    (hlt : toLex (w, x) < toLex (v, m)) :
    Top ⟨update s.phase x (.writing ∅), update s.stamp x (toLex (w, x)), (x, w) ::ₘ s.waiting, s.net⟩ m v := by
  have hwv : w ≤ v := fst_le_of_le hlt.le
  have hx : s.stamp x ≠ toLex (v, m) := fun he => by
    rw [he] at hw
    exact absurd hw (not_lt.2 hwv)
  have hxm : m ≠ x := fun he => hx (he ▸ h.own)
  refine ⟨fun d => ?_, by simpa [hxm] using h.own, ?_⟩
  · by_cases hd : d = x
    · simpa [hd] using hlt.le
    · simpa [hd] using h.le d
  cases h.stage with
  | collecting A hp hd =>
    refine .collecting A (by simpa [hxm] using hp) fun d hne => ?_
    by_cases hdx : d = x
    · subst hdx
      rcases hd d hne with hr | ⟨_, hu⟩
      · exact absurd hr.2.1 hx
      · exact .inr ⟨by simpa using hlt, hu.imp_left Multiset.mem_cons_of_mem⟩
    · rcases hd d hne with hr | ⟨hlt', hu⟩
      · exact .inl (by simpa [Reached, hdx] using hr)
      · exact .inr ⟨by simpa [hdx] using hlt', hu.imp_left Multiset.mem_cons_of_mem⟩
  | spreading hp hd => exact absurd (hd x hxm.symm).1 hx

theorem Top.invOk {d c : ι} {w r} (hi : Inv s) (h : Top s m v) (hn : s.net = ⟨.inv, d, c, w⟩ ::ₘ r)
    (hlt : s.stamp d < toLex (w, c)) :
    Top ⟨update s.phase d .invalid, update s.stamp d (toLex (w, c)), s.waiting, ⟨.ack, c, d, w⟩ ::ₘ r⟩ m v := by
  have hle : toLex (w, c) ≤ toLex (v, m) := (hi.inv (d := d) (by simp [hn])).trans (h.le c)
  have hd : s.stamp d < toLex (v, m) := hlt.trans_le hle
  have hdm : m ≠ d := fun he => hd.ne (he ▸ h.own)
  have hmem : ∀ {y}, y ∈ s.net → y = ⟨.inv, d, c, w⟩ ∨ y ∈ r := fun hy => Multiset.mem_cons.1 (hn ▸ hy)
  refine ⟨fun x => ?_, by simpa [hdm] using h.own, ?_⟩
  · by_cases hx : x = d
    · simpa [hx] using hle
    · simpa [hx] using h.le x
  cases h.stage with
  | collecting A hp hst =>
    refine .collecting A (by simpa [hdm] using hp) fun x hne => ?_
    by_cases hx : x = d
    · subst hx
      rcases hst x hne with hr | ⟨_, hu⟩
      · exact absurd hr.2.1 hd.ne
      · rcases hle.lt_or_eq with hlt' | heq
        · refine .inr ⟨by simpa using hlt', hu.imp_right fun hu => Multiset.mem_cons_of_mem ?_⟩
          refine (hmem hu).resolve_left fun he => ?_
          cases he
          exact absurd hlt' (lt_irrefl _)
        · cases heq
          exact .inl ⟨by simp, by simp, .inr (by simp)⟩
    · rcases hst x hne with ⟨h1, h2, h3⟩ | ⟨h1, h2⟩
      · refine .inl ⟨by simpa [hx] using h1, by simpa [hx] using h2, h3.imp_right fun h3 => ?_⟩
        exact Multiset.mem_cons_of_mem ((hmem h3).resolve_left (by simp))
      · refine .inr ⟨by simpa [hx] using h1, h2.imp_right fun h2 => ?_⟩
        exact Multiset.mem_cons_of_mem ((hmem h2).resolve_left (by simp [hx]))
  | spreading hp hst => exact absurd (hst d hdm.symm).1 hd.ne

/-- A machine writing below the top may do what it likes with its own acknowledgements. -/
theorem Top.of_writing {m' : ι} {A p r} (h : Top s m v) (hm : m' ≠ m) (hw : s.phase m' = .writing A)
    (hr : ∀ y ∈ s.net, (y.kind = .ack → y.dst ≠ m') → y ∈ r) :
    Top { s with phase := update s.phase m' p, net := r } m v := by
  refine ⟨h.le, h.own, ?_⟩
  cases h.stage with
  | collecting B hp hst =>
    refine .collecting B (by simpa [hm.symm] using hp) fun x hne => ?_
    rcases hst x hne with ⟨h1, h2, h3⟩ | ⟨h1, h2⟩
    · have hx : x ≠ m' := by
        rintro rfl
        cases h1.symm.trans hw
      exact .inl ⟨by simpa [hx] using h1, h2, h3.imp_right fun h3 => hr _ h3 fun _ => hm.symm⟩
    · exact .inr ⟨h1, h2.imp_right fun h2 => hr _ h2 nofun⟩
  | spreading hp hst =>
    -- Once the top has completed, nobody is in the middle of a write.
    rcases (hst m' hm).2 with hv | ⟨hv, _⟩
    · cases hv.symm.trans hw
    · cases hv.symm.trans hw

theorem Top.ackMore {m' d : ι} {w A r} (h : Top s m v) (hn : s.net = ⟨.ack, m', d, w⟩ ::ₘ r)
    (ha : Accepts s m' w A) :
    Top { s with phase := update s.phase m' (.writing (insert d A)), net := r } m v := by
  have hmem : ∀ {y}, y ∈ s.net → y = ⟨.ack, m', d, w⟩ ∨ y ∈ r := fun hy => Multiset.mem_cons.1 (hn ▸ hy)
  by_cases hm : m' = m
  · subst hm
    refine ⟨h.le, h.own, ?_⟩
    cases h.stage with
    | collecting B hp hst =>
      cases hp.symm.trans ha.1
      refine .collecting (insert d A) (by simp) fun x hne => ?_
      rcases hst x hne with ⟨h1, h2, h3⟩ | ⟨h1, h2⟩
      · refine .inl ⟨by simpa [hne] using h1, h2, ?_⟩
        rcases h3 with h3 | h3
        · exact .inl (Finset.mem_insert_of_mem h3)
        · rcases hmem h3 with he | h3
          · cases he
            exact .inl (Finset.mem_insert_self _ _)
          · exact .inr h3
      · exact .inr ⟨h1, h2.imp_right fun h2 => (hmem h2).resolve_left (by simp)⟩
    | spreading hp _ => cases hp.symm.trans ha.1
  · exact h.of_writing hm ha.1 fun y hy hk => (hmem hy).resolve_left fun he => hk (he ▸ rfl) (he ▸ rfl)

theorem Top.updOk {d c : ι} {w r} (hi : Inv s) (h : Top s m v) (hn : s.net = ⟨.upd, d, c, w⟩ ::ₘ r)
    (ha : Awaits s d c w) : Top { s with phase := update s.phase d .valid, net := r } m v := by
  have hmem : ∀ {y}, y ∈ s.net → y = ⟨.upd, d, c, w⟩ ∨ y ∈ r := fun hy => Multiset.mem_cons.1 (hn ▸ hy)
  have hdm : m ≠ d := by
    rintro rfl
    cases h.stage with
    | collecting A hp _ => cases ha.1.symm.trans hp
    | spreading hp _ => cases ha.1.symm.trans hp
  refine ⟨h.le, h.own, ?_⟩
  cases h.stage with
  | collecting A hp hst =>
    refine .collecting A (by simpa [hdm] using hp) fun x hne => ?_
    rcases hst x hne with ⟨h1, h2, h3⟩ | ⟨h1, h2⟩
    · have hx : x ≠ d := by
        rintro rfl
        -- The top is still collecting, so its own update cannot have been sent.
        cases ha.2.symm.trans h2
        have := hi.fresh (d := x) (v := v) (by simp [hn]) hp
        simp [h.own] at this
      exact .inl ⟨by simpa [hx] using h1, h2, h3.imp_right fun h3 => (hmem h3).resolve_left (by simp)⟩
    · exact .inr ⟨h1, h2.imp_right fun h2 => (hmem h2).resolve_left (by simp)⟩
  | spreading hp hst =>
    refine .spreading (by simpa [hdm] using hp) fun x hne => ⟨(hst x hne).1, ?_⟩
    by_cases hx : x = d
    · exact .inl (by simp [hx])
    · refine (hst x hne).2.imp (fun h1 => by simpa [hx] using h1) fun h1 => ⟨by simpa [hx] using h1.1, ?_⟩
      exact (hmem h1.2).resolve_left (by simp [hx])

/-! ## The highest write of a run -/

/-- The largest stamp handed out by a put, from `t` on. -/
def highest (t : ℕ ×ₗ ι) : List (Label ι) → ℕ ×ₗ ι
  | [] => t
  | .put m v :: es => highest (max t (toLex (v, m))) es
  | _ :: es => highest t es

theorem highest_append {t : ℕ ×ₗ ι} {es fs} : highest t (es ++ fs) = highest (highest t es) fs := by
  induction es generalizing t with
  | nil => rfl
  | cons e es ih => cases e <;> exact ih

theorem highest_isGreatest {t : ℕ ×ₗ ι} {es} :
    IsGreatest (insert t {u | ∃ m v, .put m v ∈ es ∧ u = toLex (v, m)}) (highest t es) := by
  induction es generalizing t with
  | nil => exact ⟨.inl rfl, by simp [upperBounds, highest]⟩
  | cons e es ih =>
    cases e with
    | put m v =>
      obtain ⟨hin, hub⟩ := ih (t := max t (toLex (v, m)))
      have hmax := hub (.inl rfl)
      refine ⟨?_, ?_⟩
      · rcases hin with he | ⟨m', v', hm, he⟩
        · rcases max_choice t (toLex (v, m)) with hc | hc
          · exact .inl (he.trans hc)
          · exact .inr ⟨m, v, by simp, he.trans hc⟩
        · exact .inr ⟨m', v', by simp [hm], he⟩
      · rintro u (rfl | ⟨m', v', hm, rfl⟩)
        · exact (le_max_left _ _).trans hmax
        · rcases List.mem_cons.1 hm with he | hm
          · cases he
            exact (le_max_right _ _).trans hmax
          · exact hub (.inr ⟨m', v', hm, rfl⟩)
    | _ => simpa [highest] using ih

/-! ## Steps that send to everybody, and whole runs -/

variable [Fintype ι]

theorem Top.bcast {m' : ι} {w q} (h : Top s m v) (hw : s.waiting = (m', w) ::ₘ q) :
    Top { s with waiting := q, net := toOthers .inv m' w + s.net } m v := by
  refine ⟨h.le, h.own, ?_⟩
  cases h.stage with
  | collecting A hp hst =>
    refine .collecting A hp fun d hne => (hst d hne).imp ?_ ?_
    · rintro ⟨h1, h2, h3⟩
      exact ⟨h1, h2, h3.imp_right fun h3 => Multiset.mem_add.2 (.inr h3)⟩
    · rintro ⟨h1, h2⟩
      refine ⟨h1, ?_⟩
      rcases h2 with h2 | h2
      · rcases Multiset.mem_cons.1 (hw ▸ h2) with he | h2
        · cases he
          exact .inr (by simp [hne])
        · exact .inl h2
      · exact .inr (Multiset.mem_add.2 (.inr h2))
  | spreading hp hst =>
    refine .spreading hp fun d hne => ?_
    obtain ⟨h1, h2⟩ := hst d hne
    exact ⟨h1, h2.imp_right fun h2 => ⟨h2.1, Multiset.mem_add.2 (.inr h2.2)⟩⟩

theorem Top.ackLast {m' d : ι} {w A r} (hi : Inv s) (h : Top s m v) (hn : s.net = ⟨.ack, m', d, w⟩ ::ₘ r)
    (ha : Accepts s m' w A) (hf : Full m' (insert d A)) :
    Top { s with phase := update s.phase m' .valid, net := toOthers .upd m' w + r } m v := by
  by_cases hm : m' = m
  · subst hm
    have hge := hi.stamp_ge_of_full (by simp [hn]) ha hf
    have hwv : w = v := by
      rw [← ha.2, h.own]
      rfl
    refine ⟨h.le, h.own, .spreading (by simp) fun x hne => ?_⟩
    refine ⟨le_antisymm (h.le x) (h.own ▸ hge x), .inr ⟨?_, by simp [hne, hwv]⟩⟩
    cases h.stage with
    | collecting B hp hst =>
      rcases hst x hne with ⟨h1, -, -⟩ | ⟨h1, -⟩
      · simpa [hne] using h1
      · exact absurd (h.own ▸ hge x) (not_le.2 h1)
    | spreading hp _ => cases hp.symm.trans ha.1
  · refine h.of_writing hm ha.1 fun y hy hk => Multiset.mem_add.2 (.inr ?_)
    exact (Multiset.mem_cons.1 (hn ▸ hy)).resolve_left fun he => hk (he ▸ rfl) (he ▸ rfl)

theorem Top.step [Nontrivial ι] {s' : St ι} {e} (hi : Inv s) (h : Top s m v) (hst : Step s e s') :
    ∃ m' v', highest (toLex (v, m)) [e] = toLex (v', m') ∧ Top s' m' v' := by
  cases hst with
  | skip => exact ⟨m, v, rfl, h⟩
  | read _ _ => exact ⟨m, v, rfl, h⟩
  | put x w hw =>
    rcases lt_trichotomy (toLex (v, m)) (toLex (w, x)) with hlt | heq | hgt
    · exact ⟨x, w, max_eq_right hlt.le, h.put_top hlt⟩
    · cases heq
      simp [h.own] at hw
    · exact ⟨m, v, max_eq_left hgt.le, h.put_below hw hgt⟩
  | bcast x w q hw => exact ⟨m, v, rfl, h.bcast hw⟩
  | invOk d c w r hn hlt => exact ⟨m, v, rfl, Top.invOk hi h hn hlt⟩
  | invNo d c w r hn hge =>
    refine ⟨m, v, rfl, h.drop hn (fun x hx => ?_) nofun nofun⟩
    cases hx
    exact hge
  | ackMore x d w A r hn ha _ => exact ⟨m, v, rfl, h.ackMore hn ha⟩
  | ackLast x d w A r hn ha hf => exact ⟨m, v, rfl, Top.ackLast hi h hn ha hf⟩
  | ackNo x d w r hn ha =>
    refine ⟨m, v, rfl, h.drop hn nofun (fun y A hy hp => ?_) nofun⟩
    cases hy
    exact ha A ⟨hp, by simp [h.own]⟩
  | updOk d c w r hn ha => exact ⟨m, v, rfl, Top.updOk hi h hn ha⟩
  | updNo d c w r hn ha =>
    refine ⟨m, v, rfl, h.drop hn nofun nofun fun x hx hs hp => ?_⟩
    cases hx
    exact ha ⟨hp, hs⟩

theorem top_of_run [Nontrivial ι] {m₀ : ι} {v₀ s₀ es} (h : (system (toLex (v₀, m₀))).Run s₀ es s) :
    ∃ m v, highest (toLex (v₀, m₀)) es = toLex (v, m) ∧ Top s m v := by
  refine h.invariant (fun es s => ∃ m v, highest (toLex (v₀, m₀)) es = toLex (v, m) ∧ Top s m v) ?_ ?_
  · rintro rfl
    exact ⟨m₀, v₀, rfl, fun _ => le_rfl, rfl, .spreading rfl fun _ _ => ⟨rfl, .inl rfl⟩⟩
  · rintro es s e s' hr ⟨m, v, heq, ht⟩ hst
    obtain ⟨m', v', heq', ht'⟩ := ht.step (inv_of_run hr) hst
    exact ⟨m', v', by rw [highest_append, heq, heq'], ht'⟩

theorem init_lt_put {t₀ : ℕ ×ₗ ι} {s₀ es} (h : (system t₀).Run s₀ es s) :
    (∀ x, t₀ ≤ s.stamp x) ∧ ∀ m v, .put m v ∈ es → t₀ < toLex (v, m) := by
  refine h.invariant (fun es s => (∀ x, t₀ ≤ s.stamp x) ∧ ∀ m v, .put m v ∈ es → t₀ < toLex (v, m)) ?_ ?_
  · rintro rfl
    exact ⟨fun _ => le_rfl, by simp⟩
  · rintro es s e s' - ⟨hle, hlt⟩ hst
    refine ⟨fun x => (hle x).trans (hst.stamp_le x), fun m v hm => ?_⟩
    rcases List.mem_append.1 hm with hm | hm
    · exact hlt m v hm
    · cases List.mem_singleton.1 hm
      cases hst with
      | put _ _ hv => exact (hle m).trans_lt (Prod.Lex.lt_iff.2 (.inl hv))

/-- The highest stamp is the initial one as long as nothing was written, and then a put's. -/
theorem highest_of_run {t₀ : ℕ ×ₗ ι} {s₀ es} (h : (system t₀).Run s₀ es s) :
    ((∀ m v, .put m v ∉ es) → highest t₀ es = t₀) ∧
    ((∃ m v, .put m v ∈ es) → ∃ m v, .put m v ∈ es ∧ highest t₀ es = toLex (v, m)) := by
  obtain ⟨hin, hub⟩ : IsGreatest _ (highest t₀ es) := highest_isGreatest
  refine ⟨fun hno => ?_, fun ⟨m, v, hm⟩ => ?_⟩
  · rcases hin with he | ⟨m, v, hm, -⟩
    · exact he
    · exact absurd hm (hno m v)
  · rcases hin with he | ⟨m', v', hm', he⟩
    · have := ((init_lt_put h).2 m v hm).trans_le (hub (.inr ⟨m, v, hm, rfl⟩))
      exact absurd he.symm this.ne
    · exact ⟨m', v', hm', he⟩

/-- **Quiescent agreement.** When nothing is queued or in flight, every copy is valid and
holds the highest stamp handed out so far. -/
theorem agree_of_quiet [Nontrivial ι] {m₀ : ι} {v₀ s₀ es} (h : (system (toLex (v₀, m₀))).Run s₀ es s)
    (hw : s.waiting = 0) (hn : s.net = 0) (x : ι) :
    s.phase x = .valid ∧ s.stamp x = highest (toLex (v₀, m₀)) es := by
  obtain ⟨m, v, heq, ht⟩ := top_of_run h
  rw [heq]
  cases ht.stage with
  | collecting A hp hst =>
    -- Somebody still owes an acknowledgement, but no message is left to bring it.
    refine absurd (fun d hd => ?_) ((inv_of_run h).owing hp)
    rcases hst d hd with ⟨-, -, h1⟩ | ⟨-, h1⟩
    · simpa [hn] using h1
    · simp [hn, hw] at h1
  | spreading hp hst =>
    by_cases hx : x = m
    · exact ⟨hx ▸ hp, hx ▸ ht.own⟩
    · obtain ⟨h1, h2⟩ := hst x hx
      exact ⟨by simpa [hn] using h2, h1⟩

end Invalidation
