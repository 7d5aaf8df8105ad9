/-
A batch against its operations one at a time. The batch does all its lookups
first, so an insert that evicts, replaces or laps what a later operation has
found, or that puts in what a later operation has missed, is not seen by it;
and a GET answers with a pointer, so it shows what a later PUT of the batch
has written. Apart from these two effects a batch is the same as its
operations one by one (`batch_transparent`): it leaves the same store if its
PUTs are not disturbed, and an operation that is not disturbed has the same
answer.
-/
import CcKvs.Mica.Serve

namespace CcKvs

open MicaKv CircularLog

/-- What the caller gets for an operation: `val_ptr` is read when the call returns. -/
structure Answer where
  type : MicaRespType
  value : Option (List UInt8)
  deriving DecidableEq, Repr

namespace Backend

variable (s : Backend)

/-- A batch, as its caller sees it. -/
def run (kv : MicaKv) (ops : List Bytes) : Except Fault (MicaKv × List Answer) := do
  let x ← s.batch kv ops
  .ok (x.1, x.2.map fun y => ⟨y.2.type, x.1.deref y.2⟩)

/-- The operations in order, each as a batch of one. -/
def oneByOne (kv : MicaKv) : List Bytes → Except Fault (MicaKv × List Answer)
  | [] => .ok (kv, [])
  | op :: rest => do
    let a ← s.run kv [op]
    let b ← oneByOne a.1 rest
    .ok (b.1, a.2 ++ b.2)

end Backend

/-- The last PUT of the key. -/
def lastPut (key : UInt64) : List Bytes → Option Bytes
  | [] => none
  | op :: rest =>
    match lastPut key rest with
    | some w => some w
    | none => if (CacheOp.ofBytes op).opcode = .put ∧ (CacheOp.ofBytes op).key = key then some op else none

/-- When the turn of `op` comes one by one, after `l`, the key check finds with the pointer that
`ptr` says what it finds with the operation's own lookup. -/
def FindsBy (s : Backend) (ptr : UInt64 → Option ℕ) (kv : MicaKv) (l : List Bytes) (op : Bytes) : Prop :=
  ∀ kv' as, s.oneByOne kv l = .ok (kv', as) →
    kv'.inStore (CacheOp.ofBytes op).key (ptr (CacheOp.ofBytes op).key) = kv'.find (CacheOp.ofBytes op).key

/-- The operations `l` in front of `op` in the batch do not change what `op` finds. -/
def Undisturbed (s : Backend) (kv : MicaKv) (l : List Bytes) (op : Bytes) : Prop := FindsBy s kv.lookup kv l op

/-- The log of `kv'` has not come round to the record that the lookup in `kv` points at. -/
def MicaKv.Keeps (kv kv' : MicaKv) (key : UInt64) : Prop :=
  ∀ x, kv.Reaches x → kv.lookup key = some (kv.addr x) → Live kv.logCap kv'.logHead (kv.slot x).offset

/-! ## One operation -/

section

variable {s : Backend} {kv kv' : MicaKv} {op op' : Bytes} {ptr : Option ℕ} {r : KvResp}

/-- The store keeps its capacity, and the head moves forward. -/
structure Forward (kv kv' : MicaKv) : Prop where
  cap : kv'.logCap = kv.logCap
  mask : kv'.logMask = kv.logMask
  head : kv.logHead ≤ kv'.logHead

theorem Forward.trans {kv₁ kv₂ kv₃ : MicaKv} (h : Forward kv₁ kv₂) (h' : Forward kv₂ kv₃) : Forward kv₁ kv₃ :=
  ⟨h'.cap.trans h.cap, h'.mask.trans h.mask, h.head.trans h'.head⟩

theorem MicaKv.SameIndex.forward (h : SameIndex kv kv') : Forward kv kv' := ⟨h.cap, h.mask, h.head.ge⟩

theorem MicaKv.Shape.forward_insert {cfg : Config} {n : ℕ} (h : kv.Shape) (hok : kv.insertOne cfg op n = .ok kv') :
    Forward kv kv' := by
  obtain ⟨-, -, -, hhead, -, hcap, hmask⟩ := insertOne_eq_ok hok
  have hgrow := le_nextHead h cfg n
  exact ⟨hcap, hmask, by omega⟩

theorem Backend.Lawful.forward (hs : s.Lawful) (h : kv.Shape) (hok : s.serve kv op ptr = .ok (kv', op', r)) :
    Forward kv kv' := by
  rcases s.serve_cases hok with ⟨p, _, _, hg, _⟩ | ⟨p, _, _, _, hp, _⟩ | ⟨_, _, rfl, _⟩ | ⟨_, _, hi, _⟩
  · exact (hs.get hg).1.forward
  · exact (hs.put hp).toSameIndex.forward
  · exact (hs.getFail kv).1.forward
  · obtain ⟨cfg, op₁, n, -, hins⟩ := hs.insert hi
    exact h.forward_insert hins

end

/-! ## Runs -/

/-- The operations run in order, each with its pointer: the responses, and the store after
each of them. -/
inductive Trace (s : Backend) (ptr : UInt64 → Option ℕ) : MicaKv → List Bytes → List (KvResp × MicaKv) → MicaKv → Prop
  | nil : Trace s ptr kv [] [] kv
  | cons : s.serve kv op (ptr (CacheOp.ofBytes op).key) = .ok (kv', op', r) → Trace s ptr kv' ops rs kv'' →
    Trace s ptr kv (op :: ops) ((r, kv') :: rs) kv''

section

variable {s : Backend} {kv kv' kv'' : MicaKv} {op : Bytes} {ops : List Bytes} {ptr : UInt64 → Option ℕ}
  {rs : List (KvResp × MicaKv)}

theorem serveAll_eq_ok {ys : List (Bytes × KvResp)} :
    s.serveAll kv (ops.map fun op => (op, ptr (CacheOp.ofBytes op).key)) = .ok (kv', ys) →
    ∃ rs, Trace s ptr kv ops rs kv' ∧ ys.map (·.2) = rs.map (·.1) := by
  induction ops generalizing kv ys with
  | nil =>
    intro h
    cases h
    exact ⟨[], .nil, rfl⟩
  | cons op ops ih =>
    intro h
    obtain ⟨⟨kv₁, op₁, r⟩, ha, h⟩ := bind_eq_ok.1 h
    obtain ⟨⟨kv₂, zs⟩, hb, h⟩ := bind_eq_ok.1 h
    cases h
    obtain ⟨rs, ht, he⟩ := ih hb
    exact ⟨(r, kv₁) :: rs, .cons ha ht, congrArg (r :: ·) he⟩

theorem Trace.serveAll (h : Trace s ptr kv ops rs kv') :
    ∃ ys, s.serveAll kv (ops.map fun op => (op, ptr (CacheOp.ofBytes op).key)) = .ok (kv', ys) := by
  induction h with
  | nil => exact ⟨[], rfl⟩
  | cons hs _ ih =>
    obtain ⟨ys, hy⟩ := ih
    exact ⟨_, bind_eq_ok.2 ⟨_, hs, bind_eq_ok.2 ⟨_, hy, rfl⟩⟩⟩

/-- A batch that returns is a run with the lookups of its beginning. -/
theorem Backend.run_eq_ok {as : List Answer} (h : s.run kv ops = .ok (kv', as)) :
    ∃ rs, Trace s kv.lookup kv ops rs kv' ∧ as = rs.map fun x => ⟨x.1.type, kv'.deref x.1⟩ := by
  obtain ⟨⟨kv₁, ys⟩, hb, h⟩ := bind_eq_ok.1 h
  cases h
  obtain ⟨rs, ht, he⟩ := serveAll_eq_ok hb
  refine ⟨rs, ht, ?_⟩
  have hmap := congrArg (List.map fun r => (⟨r.type, kv₁.deref r⟩ : Answer)) he
  rw [List.map_map, List.map_map] at hmap
  exact hmap

theorem Trace.run_eq (h : Trace s kv.lookup kv ops rs kv') : ∃ as, s.run kv ops = .ok (kv', as) := by
  obtain ⟨ys, hy⟩ := h.serveAll
  exact ⟨_, bind_eq_ok.2 ⟨_, hy, rfl⟩⟩

/-- One operation on its own. -/
theorem Backend.run_single {as : List Answer} : s.run kv [op] = .ok (kv', as) ↔
    ∃ op' r, s.serve kv op (kv.lookup (CacheOp.ofBytes op).key) = .ok (kv', op', r) ∧
      as = [⟨r.type, kv'.deref r⟩] := by
  constructor
  · intro h
    obtain ⟨rs, ht, rfl⟩ := s.run_eq_ok h
    cases ht with
    | cons hs ht =>
      cases ht
      exact ⟨_, _, hs, rfl⟩
  · intro ⟨op', r, hs, he⟩
    subst he
    exact bind_eq_ok.2 ⟨_, bind_eq_ok.2 ⟨_, hs, rfl⟩, rfl⟩

/-- One operation, then the others. -/
theorem Backend.oneByOne_cons {as : List Answer} : s.oneByOne kv (op :: ops) = .ok (kv', as) ↔
    ∃ kv₁ as₁ as₂, s.run kv [op] = .ok (kv₁, as₁) ∧ s.oneByOne kv₁ ops = .ok (kv', as₂) ∧ as = as₁ ++ as₂ := by
  constructor
  · intro h
    obtain ⟨⟨kv₁, as₁⟩, ha, h⟩ := bind_eq_ok.1 h
    obtain ⟨⟨kv₂, as₂⟩, hb, h⟩ := bind_eq_ok.1 h
    cases h
    exact ⟨kv₁, as₁, as₂, ha, hb, rfl⟩
  · intro ⟨kv₁, as₁, as₂, ha, hb, he⟩
    subst he
    exact bind_eq_ok.2 ⟨_, ha, bind_eq_ok.2 ⟨_, hb, rfl⟩⟩

/-- A round depends on the pointer through the key check only. -/
theorem Backend.serve_congr {p q : Option ℕ} (h : kv.inStore (CacheOp.ofBytes op).key p = kv.inStore (CacheOp.ofBytes op).key q) :
    s.serve kv op p = s.serve kv op q := by
  simp only [serve, h]

theorem FindsBy.head (h : FindsBy s ptr kv [] op) :
    s.serve kv op (kv.lookup (CacheOp.ofBytes op).key) = s.serve kv op (ptr (CacheOp.ofBytes op).key) :=
  s.serve_congr (h kv [] rfl).symm

theorem FindsBy.tail {as : List Answer} {l : List Bytes} {op' : Bytes} (h : FindsBy s ptr kv (op' :: l) op)
    (ho : s.run kv [op'] = .ok (kv', as)) : FindsBy s ptr kv' l op :=
  fun kv₁ bs hl => h kv₁ (as ++ bs) (s.oneByOne_cons.2 ⟨_, _, _, ho, hl, rfl⟩)

/-- If every operation finds by its pointer what its own lookup finds, then what happens one by one
is the run with the pointers. -/
theorem oneByOne_eq_ok_of_findsBy {bs : List Answer} (h : ∀ l op r, ops = l ++ op :: r → FindsBy s ptr kv l op)
    (ho : s.oneByOne kv ops = .ok (kv', bs)) : ∃ rs, Trace s ptr kv ops rs kv' := by
  induction ops generalizing kv bs with
  | nil =>
    cases ho
    exact ⟨[], .nil⟩
  | cons op ops ih =>
    obtain ⟨kv₁, as, cs, ha, hb, rfl⟩ := s.oneByOne_cons.1 ho
    obtain ⟨rs, ht⟩ := ih (fun l op' r he => (h (op :: l) op' r (by rw [he]; rfl)).tail ha) hb
    obtain ⟨op', r, hs, rfl⟩ := s.run_single.1 ha
    rw [(h [] op ops rfl).head] at hs
    exact ⟨(r, kv₁) :: rs, .cons hs ht⟩

theorem Trace.oneByOne (h : ∀ l op r, ops = l ++ op :: r → FindsBy s ptr kv l op) (ht : Trace s ptr kv ops rs kv') :
    ∃ bs, s.oneByOne kv ops = .ok (kv', bs) := by
  induction ht with
  | nil => exact ⟨[], rfl⟩
  | @cons kv op kv' op' r ops rs kv'' hs _ ih =>
    rw [← (h [] op ops rfl).head] at hs
    have ho := s.run_single.2 ⟨_, _, hs, rfl⟩
    obtain ⟨bs, hb⟩ := ih fun l op₁ q he => (h (op :: l) op₁ q (by rw [he]; rfl)).tail ho
    exact ⟨_, s.oneByOne_cons.2 ⟨_, _, _, ho, hb, rfl⟩⟩

theorem Trace.append_inv {l r : List Bytes} (h : Trace s ptr kv (l ++ r) rs kv') :
    ∃ kv₁ rs₁ rs₂, Trace s ptr kv l rs₁ kv₁ ∧ Trace s ptr kv₁ r rs₂ kv' ∧ rs = rs₁ ++ rs₂ ∧ rs₁.length = l.length := by
  induction l generalizing kv rs with
  | nil => exact ⟨kv, [], rs, .nil, h, rfl, rfl⟩
  | cons op l ih =>
    cases h with
    | cons hs ht =>
      obtain ⟨kv₁, rs₁, rs₂, h₁, h₂, he, hl⟩ := ih ht
      subst he
      exact ⟨kv₁, _ :: rs₁, rs₂, .cons hs h₁, h₂, rfl, congrArg (· + 1) hl⟩

theorem Trace.length_eq (ht : Trace s ptr kv ops rs kv') : rs.length = ops.length := by
  induction ht with
  | nil => rfl
  | cons _ _ ih => exact congrArg (· + 1) ih

/-- The response of a GET that succeeded has a pointer. -/
theorem Trace.valPtr (ht : Trace s ptr kv ops rs kv') {x : KvResp × MicaKv} (hx : x ∈ rs)
    (hr : x.1.type = .getSuccess) : ∃ p, x.1.valPtr = some p := by
  induction ht with
  | nil => cases hx
  | cons hs _ ih =>
    rcases List.mem_cons.1 hx with rfl | hx
    · rcases s.serve_cases hs with ⟨_, _, _, _, rfl⟩ | ⟨_, _, _, _, _, rfl⟩ | ⟨_, _, _, rfl⟩ | ⟨_, _, _, rfl⟩
      · exact ⟨_, rfl⟩
      all_goals cases hr
    · exact ih hx

/-- A batch answers each of its operations. -/
theorem Backend.length_of_batch {ys : List (Bytes × KvResp)} (h : s.batch kv ops = .ok (kv', ys)) :
    ys.length = ops.length := by
  obtain ⟨rs, ht, he⟩ := serveAll_eq_ok h
  have hl := congrArg List.length he
  rw [List.length_map, List.length_map] at hl
  exact hl.trans ht.length_eq

theorem Backend.valPtr_of_batch {ys : List (Bytes × KvResp)} {y : Bytes × KvResp} (h : s.batch kv ops = .ok (kv', ys))
    (hy : y ∈ ys) (hr : y.2.type = .getSuccess) : ∃ p, y.2.valPtr = some p := by
  obtain ⟨rs, ht, he⟩ := serveAll_eq_ok h
  have hm : y.2 ∈ ys.map (·.2) := List.mem_map_of_mem hy
  rw [he] at hm
  obtain ⟨x, hx, hxy⟩ := List.mem_map.1 hm
  rw [← hxy] at hr ⊢
  exact ht.valPtr hx hr

theorem Trace.forward (hs : s.Lawful) (ht : Trace s ptr kv ops rs kv') (h : kv.Shape) : Forward kv kv' := by
  induction ht with
  | nil => exact ⟨rfl, rfl, Nat.le_refl _⟩
  | cons ho _ ih =>
    have hf := hs.forward h ho
    exact hf.trans (ih (h.congr hf.cap hf.mask))

end

/-! ## What the batch leaves of a record -/

/-- The record of a slot of `kv₀` still stands in `kv`, up to its value. -/
structure Kept (L : UInt8) (kv₀ : MicaKv) (x : ℕ × Fin 8) (kv : MicaKv) : Prop where
  key : (kv.record (kv₀.addr x)).key = (kv₀.record (kv₀.addr x)).key
  valLen : (kv.record (kv₀.addr x)).valLen = L

/-- The value after an operation: a PUT of the key writes it, nothing else does. -/
def valueAfter (L : UInt8) (key : UInt64) (op : Bytes) (old : List UInt8) : List UInt8 :=
  if (CacheOp.ofBytes op).opcode = .put ∧ (CacheOp.ofBytes op).key = key then
    (CacheOp.ofBytes op).value.toList L.toNat
  else old

section

variable {s : Backend} {L : UInt8} {kv₀ kv kv' : MicaKv} {x : ℕ × Fin 8} {op op' : Bytes} {ops : List Bytes}
  {r : KvResp} {rs : List (KvResp × MicaKv)}

theorem MicaKv.Inv.lookup_of_reaches (h : kv₀.Inv L) (hx : kv₀.Reaches x) :
    kv₀.lookup (kv₀.record (kv₀.addr x)).key = some (kv₀.addr x) := by
  have hf : kv₀.find (kv₀.record (kv₀.addr x)).key = some (kv₀.addr x) := h.find_eq_some.2 ⟨x, hx, rfl, rfl⟩
  exact (Option.filter_eq_some_iff.1 hf).1

/-- An operation on the key of a record that still stands finds it. -/
theorem Kept.inStore (hk : Kept L kv₀ x kv) (h : kv₀.Inv L) (hx : kv₀.Reaches x)
    (hkey : (CacheOp.ofBytes op).key = (kv₀.record (kv₀.addr x)).key) :
    kv.inStore (CacheOp.ofBytes op).key (kv₀.lookup (CacheOp.ofBytes op).key) = some (kv₀.addr x) := by
  rw [hkey, h.lookup_of_reaches hx]
  exact Option.filter_eq_some_iff.2 ⟨rfl, by simp [hk.key]⟩

/-- The same record, unless the operation is a PUT of its key. -/
theorem Kept.of_same (hk : Kept L kv₀ x kv)
    (hs : CacheOp.Same L.toNat (kv'.record (kv₀.addr x)) (kv.record (kv₀.addr x)))
    (hno : ¬ ((CacheOp.ofBytes op).opcode = .put ∧ (CacheOp.ofBytes op).key = (kv₀.record (kv₀.addr x)).key)) :
    Kept L kv₀ x kv' ∧ (kv'.record (kv₀.addr x)).value.toList L.toNat =
      valueAfter L (kv₀.record (kv₀.addr x)).key op ((kv.record (kv₀.addr x)).value.toList L.toNat) := by
  refine ⟨⟨hs.key.trans hk.key, hs.valLen.trans hk.valLen⟩, ?_⟩
  rw [valueAfter, if_neg hno]
  exact Bytes.toList_congr hs.value

theorem Kept.of_log_eq (hk : Kept L kv₀ x kv) (hlog : kv'.htLog = kv.htLog)
    (hno : ¬ ((CacheOp.ofBytes op).opcode = .put ∧ (CacheOp.ofBytes op).key = (kv₀.record (kv₀.addr x)).key)) :
    Kept L kv₀ x kv' ∧ (kv'.record (kv₀.addr x)).value.toList L.toNat =
      valueAfter L (kv₀.record (kv₀.addr x)).key op ((kv.record (kv₀.addr x)).value.toList L.toNat) := by
  refine hk.of_same ?_ hno
  unfold record
  rw [hlog]
  exact CacheOp.same_of_agree (.refl _ _)

/-- One operation, with the pointer the batch has for it, and the record of a slot that is not
lapped afterwards. -/
theorem Backend.Lawful.kept (hs : s.Lawful) (h : kv₀.Inv L) (hx : kv₀.Reaches x) (hf : Forward kv₀ kv)
    (hk : Kept L kv₀ x kv) (hop : Request L op)
    (hok : s.serve kv op (kv₀.lookup (CacheOp.ofBytes op).key) = .ok (kv', op', r))
    (hlive : Live kv₀.logCap kv'.logHead (kv₀.slot x).offset) :
    Kept L kv₀ x kv' ∧ (kv'.record (kv₀.addr x)).value.toList L.toNat =
      valueAfter L (kv₀.record (kv₀.addr x)).key op ((kv.record (kv₀.addr x)).value.toList L.toNat) := by
  rcases s.serve_cases hok with ⟨p, _, hg, hst, _⟩ | ⟨p, hp, hput, hl, hst, _⟩ | ⟨_, hg, rfl, _⟩ | ⟨hn, hng, hst, _⟩
  · exact hk.of_log_eq (hs.get hst).2 (by simp [hg])
  · have hL : (kv.record p).valLen = L := by
      rcases hop with hg | ⟨_, hv⟩
      · rw [hput] at hg
        cases hg
      · exact hl.symm.trans hv
    have u := hs.put hst
    rw [hL] at u
    by_cases hkey : (CacheOp.ofBytes op).key = (kv₀.record (kv₀.addr x)).key
    · rw [hk.inStore h hx hkey] at hp
      cases hp
      refine ⟨⟨u.key.trans hk.key, u.valLen.trans hk.valLen⟩, ?_⟩
      rw [valueAfter, if_pos ⟨hput, hkey⟩]
      exact Bytes.toList_congr u.value
    · -- the record belongs to another slot of the index the batch began with
      obtain ⟨hlook, hpk⟩ := Option.filter_eq_some_iff.1 hp
      obtain ⟨j, hy, _, hpy⟩ := h.lookup_eq_some.1 hlook
      have hyx : x ≠ (kv₀.bkt (CacheOp.ofBytes op).key, j) := by
        intro he
        rw [← he] at hpy
        rw [← hpy] at hpk
        exact hkey ((beq_iff_eq.1 hpk).symm.trans hk.key)
      have ha := h.apart hyx hx hy
      rw [hpy] at ha
      exact hk.of_same (CacheOp.same_of_agree (u.frame _ ha)) (fun hc => hkey hc.2)
  · exact hk.of_log_eq (hs.getFail kv).2 (by simp [hg])
  · have hkey : (CacheOp.ofBytes op).key ≠ (kv₀.record (kv₀.addr x)).key := by
      intro he
      rw [hk.inStore h hx he] at hn
      cases hn
    obtain ⟨cfg, op₁, n, -, hins⟩ := hs.insert hst
    have hb := h.below x hx.1
    have hh := hf.head
    rw [← hf.cap] at hlive
    have ha := insertOne_frame (h.shape.congr hf.cap hf.mask) hins hlive
      (show (kv₀.slot x).offset + recordLen L ≤ kv.logHead by omega)
    rw [hf.cap] at ha
    exact hk.of_same (CacheOp.same_of_agree ha) (fun hc => hkey hc.2)

/-- The value a record has after the whole run: that of the last PUT of its key. -/
theorem Trace.kept (hs : s.Lawful) (h : kv₀.Inv L) (hx : kv₀.Reaches x) (ht : Trace s kv₀.lookup kv ops rs kv')
    (hf : Forward kv₀ kv) (hk : Kept L kv₀ x kv) (hops : ∀ op ∈ ops, Request L op)
    (hlive : Live kv₀.logCap kv'.logHead (kv₀.slot x).offset) :
    Kept L kv₀ x kv' ∧ (kv'.record (kv₀.addr x)).value.toList L.toNat =
      (lastPut (kv₀.record (kv₀.addr x)).key ops).elim ((kv.record (kv₀.addr x)).value.toList L.toNat)
        fun w => (CacheOp.ofBytes w).value.toList L.toNat := by
  induction ht with
  | nil => exact ⟨hk, rfl⟩
  | @cons kv op kv₁ op' r ops rs kv' ho ht ih =>
    have hf₁ := hf.trans (hs.forward (h.shape.congr hf.cap hf.mask) ho)
    have hle := (ht.forward hs (h.shape.congr hf₁.cap hf₁.mask)).head
    obtain ⟨hk₁, hv₁⟩ := hs.kept h hx hf hk (hops op (by simp)) ho (hlive.of_le hle)
    obtain ⟨hk₂, hv₂⟩ := ih hf₁ hk₁ (fun o ho => hops o (by simp [ho])) hlive
    refine ⟨hk₂, hv₂.trans ?_⟩
    rw [hv₁, lastPut]
    cases lastPut (kv₀.record (kv₀.addr x)).key ops with
    | some w => rfl
    | none =>
      simp only [valueAfter, Option.elim_none]
      split <;> rfl

/-- What a GET that succeeds in the batch points at in the end. -/
theorem Trace.value {l q : List Bytes} {kv₁ : MicaKv} {rs₁ : List (KvResp × MicaKv)} (hs : s.Lawful) (h : kv₀.Inv L)
    (hops : ∀ o ∈ l ++ op :: q, Request L o) (ht : Trace s kv₀.lookup kv₀ l rs₁ kv₁)
    (ho : s.serve kv₁ op (kv₀.lookup (CacheOp.ofBytes op).key) = .ok (kv, op', r))
    (ht' : Trace s kv₀.lookup kv q rs kv') (hr : r.type = .getSuccess) (hkeep : kv₀.Keeps kv' (CacheOp.ofBytes op).key) :
    kv'.deref r = (lastPut (CacheOp.ofBytes op).key q).elim (kv.deref r)
      fun w => some ((CacheOp.ofBytes w).value.toList L.toNat) := by
  rcases s.serve_cases ho with ⟨p, hp, _, _, rfl⟩ | ⟨_, _, _, _, _, rfl⟩ | ⟨_, _, _, rfl⟩ | ⟨_, _, _, rfl⟩
  · obtain ⟨hlook, hkey⟩ := Option.filter_eq_some_iff.1 hp
    obtain ⟨j, hx, _, hpx⟩ := h.lookup_eq_some.1 hlook
    have hlive := hkeep _ hx (hlook.trans (congrArg some hpx.symm))
    -- the store before, at and after the GET
    have hf₁ := ht.forward hs h.shape
    have hget := hs.forward (h.shape.congr hf₁.cap hf₁.mask) ho
    have hf := hf₁.trans hget
    have hf' := ht'.forward hs (h.shape.congr hf.cap hf.mask)
    have hk₁ := (ht.kept hs h hx ⟨rfl, rfl, Nat.le_refl _⟩ ⟨rfl, h.valLen _ hx⟩
      (fun o ho => hops o (by simp [ho])) (hlive.of_le (hget.head.trans hf'.head))).1
    have hk := (hs.kept h hx hf₁ hk₁ (hops op (by simp)) ho (hlive.of_le hf'.head)).1
    have hv := (ht'.kept hs h hx hf hk (fun o ho => hops o (by simp [ho])) hlive).2
    have hkey₁ := hk₁.key
    have hlen₁ := hk₁.valLen
    rw [hpx] at hkey₁ hlen₁ hv
    rw [deref_value, deref_value, hlen₁, hv, (beq_iff_eq.1 hkey).symm.trans hkey₁]
    cases lastPut (kv₀.record p).key q <;> rfl
  all_goals cases hr

end

/-! ## The counters of GETs -/

/-- The store with other values in the counters of `mica_batch_op` for GETs. -/
def MicaKv.counted (kv : MicaKv) (gets fails : ℕ) : MicaKv := { kv with numGetOp := gets, numGetFail := fails }

/-- The stores are equal up to these counters. -/
def MicaKv.SameStore (kv kv' : MicaKv) : Prop := kv' = kv.counted kv'.numGetOp kv'.numGetFail

/-- A GET changes nothing else, and nothing depends on them. -/
structure Backend.Counting (s : Backend) : Prop where
  get : ∀ {kv p kv'}, s.get kv p = .ok kv' → SameStore kv kv'
  getFail : ∀ kv, SameStore kv (s.getFail kv)
  put : ∀ {kv op p x} (m n : ℕ), s.put kv op p = .ok x → s.put (kv.counted m n) op p = .ok (x.1.counted m n, x.2)
  insert : ∀ {kv op x} (m n : ℕ), s.insert kv op = .ok x → s.insert (kv.counted m n) op = .ok (x.1.counted m n, x.2)

theorem MicaKv.insertOne_counted {cfg : Config} {kv kv' : MicaKv} {op : Bytes} {len : ℕ} (m n : ℕ)
    (h : kv.insertOne cfg op len = .ok kv') : (kv.counted m n).insertOne cfg op len = .ok (kv'.counted m n) := by
  simp only [insertOne] at h ⊢
  split at h
  · next hroom =>
    cases h
    exact if_pos hroom
  · cases h

theorem mica_counting (cfg : Config) : (mica cfg).Counting where
  get h := by
    cases h
    rfl
  getFail _ := rfl
  put m n h := by
    cases h
    rfl
  insert m n h := by
    obtain ⟨kv', hi, he⟩ := bind_eq_ok.1 h
    cases he
    exact bind_eq_ok.2 ⟨_, insertOne_counted m n hi, rfl⟩

theorem micaCrcw_counting (cfg : Config) (machineId : UInt8) : (micaCrcw cfg machineId).Counting where
  get h := by
    simp only [micaCrcw] at h
    split at h
    · cases h
      rfl
    · cases h
  getFail _ := rfl
  put m n h := by
    obtain ⟨ol, hl, he⟩ := bind_eq_ok.1 h
    cases he
    exact bind_eq_ok.2 ⟨ol, hl, rfl⟩
  insert m n h := by
    obtain ⟨kv', hi, he⟩ := bind_eq_ok.1 h
    cases he
    exact bind_eq_ok.2 ⟨_, insertOne_counted m n hi, rfl⟩

section

variable {s : Backend} {kv kv' kv₂ : MicaKv} {op op' op₂ : Bytes} {ops : List Bytes} {p q : Option ℕ} {r r₂ : KvResp}
  {ptr : UInt64 → Option ℕ} {rs : List (KvResp × MicaKv)} {m n : ℕ}

theorem MicaKv.SameStore.deref (h : SameStore kv kv') (r : KvResp) : kv'.deref r = kv.deref r := by
  rw [SameStore] at h
  rw [h]
  rfl

/-- A GET is answered by what the key check finds. -/
theorem Backend.resp_of_get (hop : (CacheOp.ofBytes op).opcode = .get) (hok : s.serve kv op p = .ok (kv', op', r)) :
    r = (kv.inStore (CacheOp.ofBytes op).key p).elim ⟨.getFail, 0, none⟩
      fun a => ⟨.getSuccess, (kv.record a).valLen, some (a + micaOpMetadata)⟩ := by
  rcases s.serve_cases hok with ⟨a, ha, _, _, rfl⟩ | ⟨_, _, hput, _⟩ | ⟨hn, _, _, rfl⟩ | ⟨_, hng, _⟩
  · rw [ha]
    rfl
  · rw [hop] at hput
    cases hput
  · rw [hn]
    rfl
  · exact absurd hop hng

namespace Backend.Counting

theorem serve_get (hc : s.Counting) (hop : (CacheOp.ofBytes op).opcode = .get)
    (hok : s.serve kv op p = .ok (kv', op', r)) : SameStore kv kv' := by
  rcases s.serve_cases hok with ⟨a, _, _, hg, _⟩ | ⟨_, _, hput, _⟩ | ⟨_, _, rfl, _⟩ | ⟨_, hng, _⟩
  · exact hc.get hg
  · rw [hop] at hput
    cases hput
  · exact hc.getFail kv
  · exact absurd hop hng

theorem serve_put (hc : s.Counting) (hop : (CacheOp.ofBytes op).opcode = .put) (m n : ℕ)
    (hok : s.serve kv op p = .ok (kv', op', r)) : s.serve (kv.counted m n) op p = .ok (kv'.counted m n, op', r) := by
  rcases s.serve_cases hok with ⟨_, _, hg, _⟩ | ⟨a, ha, _, hl, hst, rfl⟩ | ⟨_, hg, _⟩ | ⟨hn, hng, hst, rfl⟩
  · rw [hop] at hg
    cases hg
  · have hput := hc.put m n hst
    change (kv.counted m n).inStore _ p = some a at ha
    simp only [serve, ha, hop, hput]
    exact if_pos hl
  · rw [hop] at hg
    cases hg
  · have hins := hc.insert m n hst
    change (kv.counted m n).inStore _ p = none at hn
    simp only [serve, hn, if_neg hng, hins]
    rfl

/-- The same round of the batch and one by one: the stores stay equal, and the answers are if the
pointer finds what the lookup finds. -/
theorem beside (hc : s.Counting) (hop : (CacheOp.ofBytes op).opcode = .get ∨ (CacheOp.ofBytes op).opcode = .put)
    (hput : (CacheOp.ofBytes op).opcode = .put →
      (kv.counted m n).inStore (CacheOp.ofBytes op).key p = (kv.counted m n).inStore (CacheOp.ofBytes op).key q)
    (hb : s.serve kv op p = .ok (kv', op', r)) (ho : s.serve (kv.counted m n) op q = .ok (kv₂, op₂, r₂)) :
    SameStore kv' kv₂ ∧
      ((kv.counted m n).inStore (CacheOp.ofBytes op).key p = (kv.counted m n).inStore (CacheOp.ofBytes op).key q → r = r₂) := by
  rcases hop with hop | hop
  · have hsame := hc.serve_get hop hb
    have hsame₂ := hc.serve_get hop ho
    refine ⟨?_, fun he => ?_⟩
    · rw [SameStore] at hsame hsame₂ ⊢
      rw [hsame₂, hsame]
      rfl
    · rw [s.resp_of_get hop hb, s.resp_of_get hop ho, ← he]
      rfl
  · have hb' := hc.serve_put hop m n hb
    rw [s.serve_congr (hput hop)] at hb'
    cases ho.symm.trans hb'
    exact ⟨rfl, fun _ => rfl⟩

end Backend.Counting

/-- The last loop beside the operations one by one. -/
theorem Trace.beside {bs : List Answer} (hc : s.Counting)
    (hops : ∀ op ∈ ops, (CacheOp.ofBytes op).opcode = .get ∨ (CacheOp.ofBytes op).opcode = .put)
    (hput : ∀ l op r, ops = l ++ op :: r → (CacheOp.ofBytes op).opcode = .put → FindsBy s ptr (kv.counted m n) l op)
    (ht : Trace s ptr kv ops rs kv') (ho : s.oneByOne (kv.counted m n) ops = .ok (kv₂, bs)) :
    SameStore kv' kv₂ ∧ ∃ rs₂ : List (KvResp × MicaKv), bs = rs₂.map (fun x => ⟨x.1.type, x.2.deref x.1⟩) ∧
      ∀ l op r, ops = l ++ op :: r → ∀ x, rs[l.length]? = some x → ∃ y, rs₂[l.length]? = some y ∧ SameStore x.2 y.2 ∧
        (FindsBy s ptr (kv.counted m n) l op → x.1 = y.1) := by
  induction ht generalizing m n bs with
  | nil =>
    cases ho
    exact ⟨rfl, [], rfl, fun l op r he => by cases l <;> cases he⟩
  | @cons kv op kv₁ op' r ops rs kv' hb ht ih =>
    obtain ⟨kv₂', as, cs, ha, hrest, rfl⟩ := s.oneByOne_cons.1 ho
    obtain ⟨op₂, r₂, hone, rfl⟩ := s.run_single.1 ha
    obtain ⟨hsame, hresp⟩ := hc.beside (hops op (by simp)) (fun hp => hput [] op ops rfl hp _ _ rfl) hb hone
    rw [SameStore] at hsame
    rw [hsame] at ha hrest
    have htail {l : List Bytes} {o : Bytes} (h : FindsBy s ptr (kv.counted m n) (op :: l) o) := h.tail ha
    obtain ⟨hsame', rs₂, rfl, hrs⟩ := ih (fun o hm => hops o (by simp [hm]))
      (fun l o q he hp => htail (hput (op :: l) o q (by rw [he]; rfl) hp)) hrest
    refine ⟨hsame', (r₂, kv₂') :: rs₂, rfl, fun l o q he x hx => ?_⟩
    cases l with
    | nil =>
      cases he
      cases hx
      exact ⟨_, rfl, hsame, fun hf => hresp (hf _ _ rfl)⟩
    | cons o' l =>
      obtain ⟨rfl, hops'⟩ := List.cons.inj he
      obtain ⟨y, hy, hsy, hfy⟩ := hrs l o q hops' x hx
      exact ⟨y, hy, hsy, fun hf => hfy (htail hf)⟩

end

/-- **Batching is transparent** up to its two effects. If the PUTs find what they would find one by
one, the batch leaves the same store; an operation that finds what it would find one by one has the
same answer, only that a GET whose record is not lapped shows the last PUT of its key behind it in
the batch. If that is so for all operations, the batch returns when its operations one by one do. -/
theorem batch_transparent {cfg : Config} {machineId : UInt8} {s : Backend} {L : UInt8} {kv : MicaKv}
    {ops : List Bytes} (hs : s = mica cfg ∨ s = micaCrcw cfg machineId) (h : kv.Inv L) (hops : ∀ op ∈ ops, Request L op)
    (hu : ∀ l op r, ops = l ++ op :: r → (CacheOp.ofBytes op).opcode = .put → Undisturbed s kv l op) :
    ((∀ l op r, ops = l ++ op :: r → Undisturbed s kv l op) →
      ∀ kv', (∃ as, s.run kv ops = .ok (kv', as)) ↔ ∃ bs, s.oneByOne kv ops = .ok (kv', bs)) ∧
    ∀ kv' kv₂ as bs, s.run kv ops = .ok (kv', as) → s.oneByOne kv ops = .ok (kv₂, bs) →
      SameStore kv' kv₂ ∧
      ∀ l op r, ops = l ++ op :: r → Undisturbed s kv l op →
        ∀ a b, as[l.length]? = some a → bs[l.length]? = some b →
          a.type = b.type ∧
          (a.type = .getSuccess → kv.Keeps kv' (CacheOp.ofBytes op).key →
            a.value = (lastPut (CacheOp.ofBytes op).key r).elim b.value
              fun w => some ((CacheOp.ofBytes w).value.toList L.toNat)) := by
  obtain ⟨hlaw, hcount⟩ : s.Lawful ∧ s.Counting := by
    rcases hs with rfl | rfl
    · exact ⟨mica_lawful cfg, mica_counting cfg⟩
    · exact ⟨micaCrcw_lawful cfg machineId, micaCrcw_counting cfg machineId⟩
  constructor
  · intro hall kv'
    constructor
    · rintro ⟨as, ha⟩
      obtain ⟨rs, ht, -⟩ := s.run_eq_ok ha
      exact ht.oneByOne hall
    · rintro ⟨bs, hb⟩
      obtain ⟨rs, ht⟩ := oneByOne_eq_ok_of_findsBy hall hb
      exact ht.run_eq
  · intro kv' kv₂ as bs ha hb
    obtain ⟨rs, ht, rfl⟩ := s.run_eq_ok ha
    obtain ⟨hsame, rs₂, rfl, hrs⟩ := ht.beside (m := kv.numGetOp) (n := kv.numGetFail) hcount
      (fun op hm => (hops op hm).imp_right And.left) hu hb
    refine ⟨hsame, fun l op r he hf a b hal hbl => ?_⟩
    subst he
    obtain ⟨kv₁, rs₁, rs₃, h₁, h₂, rfl, hlen⟩ := ht.append_inv
    cases h₂ with
    | @cons _ _ kv₃ op' resp _ rs₃ _ ho h₃ =>
      have hx : (rs₁ ++ (resp, kv₃) :: rs₃)[l.length]? = some (resp, kv₃) := by
        rw [← hlen, List.getElem?_append_right (Nat.le_refl _), Nat.sub_self]
        rfl
      obtain ⟨⟨resp₂, kv₄⟩, hy, hstore, hresp⟩ := hrs l op r rfl _ hx
      obtain rfl : resp = resp₂ := hresp hf
      rw [List.getElem?_map, hx] at hal
      rw [List.getElem?_map, hy] at hbl
      cases hal
      cases hbl
      refine ⟨rfl, fun hget hkeep => ?_⟩
      have hval := h₁.value hlaw h hops ho h₃ hget hkeep
      rw [← hstore.deref resp] at hval
      exact hval

/-! ## Batches without inserts -/

section

variable {s : Backend} {L : UInt8} {kv kv' : MicaKv} {op op' : Bytes} {ops : List Bytes} {as : List Answer} {r : KvResp}

/-- An operation that does not insert leaves the index as it is. -/
theorem Backend.Lawful.present (hs : s.Lawful) (h : kv.Inv L) (hop : Request L op)
    (hp : (CacheOp.ofBytes op).opcode = .put → kv.find (CacheOp.ofBytes op).key ≠ none)
    (hok : s.serve kv op (kv.lookup (CacheOp.ofBytes op).key) = .ok (kv', op', r)) :
    SameIndex kv kv' ∧ kv'.Inv L ∧ ∀ key, kv'.find key = kv.find key := by
  rcases s.serve_cases hok with ⟨_, _, _, hst, _⟩ | ⟨p, hf, hput, hl, hst, _⟩ | ⟨_, _, rfl, _⟩ | ⟨hn, hng, _, _⟩
  · obtain ⟨hi, hlog⟩ := hs.get hst
    exact ⟨hi, hi.inv_of_log_eq hlog h, hi.find hlog⟩
  · rcases hop with hg | ⟨_, hL⟩
    · rw [hput] at hg
      cases hg
    · have u := hs.put hst
      rw [← hl, hL] at u
      obtain ⟨x, hx, rfl, _⟩ := h.find_eq_some.1 hf
      exact ⟨u.toSameIndex, u.inv h hx, u.find_eq h hx⟩
  · obtain ⟨hi, hlog⟩ := hs.getFail kv
    exact ⟨hi, hi.inv_of_log_eq hlog h, hi.find hlog⟩
  · rcases hop with hg | ⟨hput, _⟩
    · exact absurd hg hng
    · exact absurd hn (hp hput)

theorem Backend.Lawful.oneByOne_present (hs : s.Lawful) (h : kv.Inv L) (hops : ∀ op ∈ ops, Request L op)
    (hp : ∀ op ∈ ops, (CacheOp.ofBytes op).opcode = .put → kv.find (CacheOp.ofBytes op).key ≠ none)
    (ho : s.oneByOne kv ops = .ok (kv', as)) : SameIndex kv kv' := by
  induction ops generalizing kv as with
  | nil =>
    cases ho
    exact ⟨rfl, rfl, rfl, rfl, rfl⟩
  | cons op ops ih =>
    obtain ⟨kv₁, _, _, ha, hb, -⟩ := Backend.oneByOne_cons.1 ho
    obtain ⟨op', r, hsv, -⟩ := s.run_single.1 ha
    obtain ⟨hi, h₁, hf⟩ := hs.present h (hops op (by simp)) (hp op (by simp)) hsv
    have hi' := ih h₁ (fun o hm => hops o (by simp [hm])) (fun o hm hput => by
      rw [hf]
      exact hp o (by simp [hm]) hput) hb
    exact hi.trans hi'

/-- **A batch that inserts nothing is undisturbed.** -/
theorem undisturbed_of_present (hs : s.Lawful) (h : kv.Inv L) (hops : ∀ op ∈ ops, Request L op)
    (hp : ∀ op ∈ ops, (CacheOp.ofBytes op).opcode = .put → kv.find (CacheOp.ofBytes op).key ≠ none)
    (l : List Bytes) (op : Bytes) (r : List Bytes) (he : ops = l ++ op :: r) : Undisturbed s kv l op := by
  intro kv' as ho
  subst he
  have hi := hs.oneByOne_present h (fun o hm => hops o (by simp [hm])) (fun o hm => hp o (by simp [hm])) ho
  rw [MicaKv.find, hi.lookup]

end

/-! ## Batches with inserts -/

section

variable {s : Backend} {L : UInt8} {kv kv' kv'' : MicaKv} {op op' : Bytes} {ops l : List Bytes} {as : List Answer} {r : KvResp}
  {key : UInt64} {ptr : UInt64 → Option ℕ} {rs : List (KvResp × MicaKv)}

/-- The bucket of the key is as it was in `kv`. -/
structure SameBucket (kv kv' : MicaKv) (key : UInt64) : Prop extends Forward kv kv' where
  bktMask : kv'.bktMask = kv.bktMask
  bucket : kv'.htIndex (kv.bkt key) = kv.htIndex (kv.bkt key)
  head_le : kv'.logHead ≤ 2 ^ 40

/-- A lookup in such a bucket finds the same, unless the log has come round. -/
theorem SameBucket.lookup (hb : SameBucket kv kv' key) (h : kv.Inv L) (hkeep : kv.Keeps kv' key) :
    kv'.lookup key = kv.lookup key := by
  have hslots : kv'.slots key = kv.slots key := by
    unfold slots MicaKv.bkt
    rw [hb.bktMask]
    exact hb.bucket
  have hof : kv'.slotOf key = kv.slotOf key := by
    unfold slotOf
    rw [hslots]
  unfold MicaKv.lookup
  rw [hof, hslots, hb.cap, hb.mask]
  cases hj : kv.slotOf key with
  | none => rfl
  | some j =>
    obtain ⟨huse, htag⟩ := slotOf_spec hj
    have hbelow := h.below (kv.bkt key, j) huse
    change (kv.slots key j).offset + _ ≤ _ at hbelow
    have hle := hb.head_le
    have hhead := hb.head
    -- the record is lapped in both stores or in neither
    have hiff : kv.logCap ≤ sub64 kv'.logHead (kv.slots key j).offset ↔ kv.logCap ≤ sub64 kv.logHead (kv.slots key j).offset := by
      rw [sub64_of_le (by omega) (by omega), sub64_of_le (by omega) (by omega)]
      refine ⟨fun hlap => ?_, fun hlap => by omega⟩
      by_contra hlive
      have hr : kv.Reaches (kv.bkt key, j) := ⟨huse, show kv.logHead < (kv.slots key j).offset + kv.logCap by omega⟩
      have hlive' : kv'.logHead < (kv.slots key j).offset + kv.logCap :=
        hkeep _ hr (h.lookup_eq_some.2 ⟨j, hr, htag, rfl⟩)
      omega
    simp only [hiff]

/-- A round keeps it, unless it inserts into the bucket. -/
theorem SameBucket.step (hb : SameBucket kv kv' key) (hs : s.Lawful) (h : kv.Shape) {p : Option ℕ}
    (hok : s.serve kv' op p = .ok (kv'', op', r))
    (hins : (CacheOp.ofBytes op).opcode ≠ .get → kv'.inStore (CacheOp.ofBytes op).key p = none →
      kv.bkt key ≠ kv.bkt (CacheOp.ofBytes op).key) : SameBucket kv kv'' key := by
  have hshape := h.congr hb.cap hb.mask
  have hsame (hi : SameIndex kv' kv'') : SameBucket kv kv'' key :=
    ⟨hb.toForward.trans hi.forward, hi.bktMask.trans hb.bktMask, hi.index ▸ hb.bucket, hi.head ▸ hb.head_le⟩
  rcases s.serve_cases hok with ⟨_, _, _, hst, _⟩ | ⟨_, _, _, _, hst, _⟩ | ⟨_, _, rfl, _⟩ | ⟨hn, hng, hst, _⟩
  · exact hsame (hs.get hst).1
  · exact hsame (hs.put hst).toSameIndex
  · exact hsame (hs.getFail kv').1
  · obtain ⟨cfg, op₁, n, hkey, hone⟩ := hs.insert hst
    obtain ⟨hroom, hidx, -, hhead, hbm, -, -⟩ := insertOne_eq_ok hone
    refine ⟨hb.toForward.trans (hshape.forward_insert hone), hbm.trans hb.bktMask, ?_, ?_⟩
    · have hbkt : kv'.bkt (CacheOp.ofBytes op₁).key = kv.bkt (CacheOp.ofBytes op).key := by
        unfold MicaKv.bkt
        rw [hkey, hb.bktMask]
      rw [hidx, hbkt, Function.update_of_ne (hins hng hn)]
      exact hb.bucket
    · have hle := hb.head_le
      rw [sub64_of_le hle (by omega)] at hroom
      rw [hhead]
      exact nextHead_le hshape cfg (by omega)

theorem Backend.oneByOne_snoc (ho : s.oneByOne kv (l ++ [op]) = .ok (kv', as)) :
    ∃ kv₁ as₁ as₂, s.oneByOne kv l = .ok (kv₁, as₁) ∧ s.run kv₁ [op] = .ok (kv', as₂) := by
  induction l generalizing kv as with
  | nil =>
    obtain ⟨kv₁, as₁, as₂, ha, hb, -⟩ := s.oneByOne_cons.1 ho
    cases hb
    exact ⟨kv, [], as₁, rfl, ha⟩
  | cons o l ih =>
    obtain ⟨kv₁, as₁, as₂, ha, hb, -⟩ := s.oneByOne_cons.1 ho
    obtain ⟨kv₂, bs₁, bs₂, hl, hlast⟩ := ih hb
    exact ⟨kv₂, _, bs₂, s.oneByOne_cons.2 ⟨_, _, _, ha, hl, rfl⟩, hlast⟩

theorem Trace.snoc (ht : Trace s ptr kv l rs kv') (hok : s.serve kv' op (ptr (CacheOp.ofBytes op).key) = .ok (kv'', op', r)) :
    Trace s ptr kv (l ++ [op]) (rs ++ [(r, kv'')]) kv'' := by
  induction ht with
  | nil => exact .cons hok .nil
  | cons ho _ ih => exact .cons ho (ih hok)

/-- **A batch is undisturbed** if the keys behind a PUT of an absent key are in other buckets, and
the log does not come round to what the operations have found. -/
theorem undisturbed_of_scattered (hs : s.Lawful) (h : kv.Inv L) (hops : ∀ op ∈ ops, Request L op)
    (hb : ops.Pairwise fun o op => (CacheOp.ofBytes o).opcode = .put → kv.find (CacheOp.ofBytes o).key = none →
      kv.bkt (CacheOp.ofBytes op).key ≠ kv.bkt (CacheOp.ofBytes o).key)
    (hkeep : ∀ l op q kv' as, ops = l ++ op :: q → s.oneByOne kv l = .ok (kv', as) → kv.Keeps kv' (CacheOp.ofBytes op).key)
    (l : List Bytes) (op : Bytes) (q : List Bytes) (he : ops = l ++ op :: q) : Undisturbed s kv l op := by
  intro kv' as ho
  suffices hrun : ∃ rs, Trace s kv.lookup kv l rs kv' ∧ ∀ x ∈ op :: q, SameBucket kv kv' (CacheOp.ofBytes x).key by
    obtain ⟨rs, -, hx⟩ := hrun
    rw [MicaKv.find, (hx op (by simp)).lookup h (hkeep l op q kv' as he ho)]
  induction l using List.reverseRecOn generalizing op q kv' as with
  | nil =>
    cases ho
    exact ⟨[], .nil, fun x _ => ⟨⟨rfl, rfl, Nat.le_refl _⟩, rfl, rfl, h.head_le⟩⟩
  | append_singleton l o ih =>
    obtain ⟨kv₁, as₁, as₂, hl, hlast⟩ := s.oneByOne_snoc ho
    obtain ⟨o', r, hserve, -⟩ := s.run_single.1 hlast
    have he' : ops = l ++ o :: (op :: q) := by rw [he, List.append_assoc]; rfl
    obtain ⟨rs, ht, hsame⟩ := ih o (op :: q) he' kv₁ as₁ hl
    have hlive := hkeep l o _ kv₁ as₁ he' hl
    rw [(hsame o (by simp)).lookup h hlive] at hserve
    refine ⟨_, ht.snoc hserve, fun x hx => (hsame x (List.mem_cons_of_mem _ hx)).step hs h.shape hserve fun hng hnone => ?_⟩
    -- an operation that inserts has not been there from the start
    have habsent : kv.find (CacheOp.ofBytes o).key = none := by
      by_contra hfind
      obtain ⟨p, hp⟩ := Option.ne_none_iff_exists'.1 hfind
      obtain ⟨y, hy, rfl, hkey⟩ := h.find_eq_some.1 hp
      have hlook := h.lookup_of_reaches hy
      rw [hkey] at hlook
      have hkept := (ht.kept hs h hy ⟨rfl, rfl, Nat.le_refl _⟩ ⟨rfl, h.valLen y hy⟩
        (fun o' hm => hops o' (by simp [he', hm])) (hlive y hy hlook)).1
      rw [hkept.inStore h hy hkey.symm] at hnone
      cases hnone
    rw [he'] at hb
    have hput : (CacheOp.ofBytes o).opcode = .put := ((hops o (by simp [he'])).resolve_left hng).1
    exact (List.pairwise_cons.1 (List.pairwise_append.1 hb).2.1).1 x hx hput habsent

/-- The first lap does not come round to anything. -/
theorem keeps_of_head_lt (h : kv'.logHead < kv.logCap) : kv.Keeps kv' key := fun x _ _ => by
  unfold Live
  omega

/-- Calls of the concurrent variant keep the invariant. -/
theorem oneByOne_inv {cfg : Config} {machineId : UInt8} (h : kv.Inv L) (hu : kv.Unlocked)
    (hops : ∀ op ∈ ops, Request L op) (ho : (micaCrcw cfg machineId).oneByOne kv ops = .ok (kv', as)) : kv'.Inv L := by
  induction ops generalizing kv as with
  | nil =>
    cases ho
    exact h
  | cons op ops ih =>
    obtain ⟨kv₁, _, _, ha, hb, -⟩ := Backend.oneByOne_cons.1 ho
    obtain ⟨op', r, hsv, -⟩ := Backend.run_single.1 ha
    have hrest : ∀ o ∈ ops, Request L o := fun o hm => hops o (by simp [hm])
    rcases hops op (by simp) with hg | ⟨hput, hL⟩
    · obtain ⟨r', hsv', -⟩ := @micaCrcw_get cfg machineId _ _ _ h hu hg
      cases hsv'.symm.trans hsv
      exact ih h hu hrest hb
    · obtain ⟨h₁, hu₁, -⟩ := micaCrcw_put h hu hput hL hsv
      exact ih h₁ hu₁ hrest hb

end

/-! ## The effects of batching -/

/-- A request for the key with the given number, with 32 bytes `v` as its value. -/
def request (key : ℕ) (opcode v : UInt8) : Bytes := fun i =>
  if i < 8 then 0 else if i < 16 then Bytes.le key (i - 8) else if i = 16 then opcode else if i = 17 then 32 else v

def getRequest (key : ℕ) : Bytes := request key 111 0

def putRequest (key : ℕ) (v : UInt8) : Bytes := request key 112 v

/-- An empty store with eight buckets. -/
def freshKv (logCap : ℕ) : MicaKv where
  htIndex _ _ := ⟨false, 0, 0⟩
  htLog _ := 0
  bktMask := 7
  logCap := logCap
  logMask := logCap - 1
  logHead := 0
  numGetOp := 0
  numPutOp := 0
  numGetFail := 0
  numInsertOp := 0
  numIndexEvictions := 0

theorem micaInit_freshKv (logCap : ℕ) :
    micaInit (fun _ _ => ⟨false, 0, 0⟩) (fun _ => 0) 8 logCap = .ok (freshKv logCap) := rfl

/-- The store the concurrent variant has after some operations. -/
def storeAfter (logCap : ℕ) (ops : List Bytes) : MicaKv :=
  match (micaCrcw .shipped 0).oneByOne (freshKv logCap) ops with
  | .ok x => x.1
  | .error _ => freshKv logCap

instance (L : UInt8) (op : Bytes) : Decidable (Request L op) := inferInstanceAs (Decidable (_ ∨ _))

theorem storeAfter_inv {L : UInt8} {k : ℕ} {ops : List Bytes} (hk : k ≤ 40) (hops : ∀ op ∈ ops, Request L op) :
    (storeAfter (2 ^ k) ops).Inv L := by
  have h := inv_init L rfl hk (micaInit_freshKv (2 ^ k))
  unfold storeAfter
  split
  · next x hx =>
    exact oneByOne_inv h (fun x hx => nomatch hx.1) hops hx
  · exact h

def answers (x : Except Fault (MicaKv × List Answer)) : Option (List Answer) := x.toOption.map (·.2)

/-- Whether the key is found afterwards. -/
def findsAfter (key : UInt64) (x : Except Fault (MicaKv × List Answer)) : Option Bool :=
  x.toOption.map fun y => (y.1.find key).isSome

/-- What a batch answers, and what its operations answer one by one, in both variants. -/
def AnswersDiffer (kv : MicaKv) (ops : List Bytes) (as bs : List Answer) : Prop :=
  (∀ op ∈ ops, Request 32 op) ∧ as ≠ bs ∧
  ∀ s ∈ [mica .shipped, micaCrcw .shipped 0], answers (s.run kv ops) = some as ∧ answers (s.oneByOne kv ops) = some bs

instance (kv : MicaKv) (ops : List Bytes) (as bs : List Answer) : Decidable (AnswersDiffer kv ops as bs) :=
  inferInstanceAs (Decidable (_ ∧ _))

/-- A GET behind the PUT that inserts its key fails in the batch; a GET in front of a PUT of its
key shows the new value; and one in front of inserts that lap its record shows another key's. Two
PUTs of one absent key are two inserts in the batch, and the second laps key 0. -/
theorem batch_not_transparent :
    ((storeAfter (2 ^ 30) []).Inv 32 ∧
      AnswersDiffer (storeAfter (2 ^ 30) []) [putRequest 0 1, getRequest 0]
        [⟨.putSuccess, none⟩, ⟨.getFail, none⟩]
        [⟨.putSuccess, none⟩, ⟨.getSuccess, some (List.replicate 32 1)⟩]) ∧
    ((storeAfter (2 ^ 30) [putRequest 0 1]).Inv 32 ∧
      AnswersDiffer (storeAfter (2 ^ 30) [putRequest 0 1]) [getRequest 0, putRequest 0 2]
        [⟨.getSuccess, some (List.replicate 32 2)⟩, ⟨.putSuccess, none⟩]
        [⟨.getSuccess, some (List.replicate 32 1)⟩, ⟨.putSuccess, none⟩]) ∧
    ((storeAfter (2 ^ 8) ((List.range 4).map fun k => putRequest k 1)).Inv 32 ∧
      AnswersDiffer (storeAfter (2 ^ 8) ((List.range 4).map fun k => putRequest k 1))
        [getRequest 1, putRequest 4 2, putRequest 5 3]
        [⟨.getSuccess, some (List.replicate 32 3)⟩, ⟨.putSuccess, none⟩, ⟨.putSuccess, none⟩]
        [⟨.getSuccess, some (List.replicate 32 1)⟩, ⟨.putSuccess, none⟩, ⟨.putSuccess, none⟩]) ∧
    (storeAfter (2 ^ 8) [putRequest 0 1, putRequest 1 1]).Inv 32 ∧ (∀ op ∈ [putRequest 2 2, putRequest 2 3], Request 32 op) ∧
    ∀ s ∈ [mica .shipped, micaCrcw .shipped 0],
      findsAfter 0 (s.run (storeAfter (2 ^ 8) [putRequest 0 1, putRequest 1 1]) [putRequest 2 2, putRequest 2 3]) = some false ∧
      findsAfter 0 (s.oneByOne (storeAfter (2 ^ 8) [putRequest 0 1, putRequest 1 1]) [putRequest 2 2, putRequest 2 3]) = some true := by
  refine ⟨⟨storeAfter_inv (by omega) (by decide), ?_⟩, ⟨storeAfter_inv (by omega) (by decide), ?_⟩,
    ⟨storeAfter_inv (by omega) (by decide), ?_⟩, storeAfter_inv (by omega) (by decide), by decide, ?_⟩
  all_goals decide +kernel

/-- An insert, and a GET and a PUT of a key that is in the store. -/
def insertGetPut : List Bytes := [putRequest 1 5, getRequest 0, putRequest 0 2]

theorem insertGetPut_undisturbed (l : List Bytes) (op : Bytes) (r : List Bytes) (he : insertGetPut = l ++ op :: r) :
    Undisturbed (micaCrcw .shipped 0) (storeAfter (2 ^ 30) [putRequest 0 1]) l op := by
  have h : (storeAfter (2 ^ 30) [putRequest 0 1]).Inv 32 := storeAfter_inv (by omega) (by decide)
  refine undisturbed_of_scattered (micaCrcw_lawful _ _) h (by decide) (by decide +kernel)
    (fun l op q kv' as he ho => keeps_of_head_lt ?_) l op r he
  have hl : l ∈ insertGetPut.inits := (List.mem_inits _ _).2 ⟨_, he.symm⟩
  have hheads : ∀ l ∈ insertGetPut.inits, ∀ x ∈ ((micaCrcw .shipped 0).oneByOne (storeAfter (2 ^ 30) [putRequest 0 1]) l).toOption,
      x.1.logHead < (storeAfter (2 ^ 30) [putRequest 0 1]).logCap := by decide +kernel
  exact hheads l hl (kv', as) (by rw [ho]; rfl)

theorem eq_ok_of_answers {x : Except Fault (MicaKv × List Answer)} {as : List Answer} (h : answers x = some as) :
    ∃ kv', x = .ok (kv', as) := by
  cases x with
  | error f => cases h
  | ok y =>
    cases h
    exact ⟨y.1, rfl⟩

/-- The batch and its operations one by one leave the same store. The GET shows in the batch what
the PUT behind it writes, and one by one what was there. -/
theorem batch_transparent_get_put :
    ∃ kv' kv₂ a b,
      (micaCrcw .shipped 0).run (storeAfter (2 ^ 30) [putRequest 0 1]) insertGetPut =
        .ok (kv', [⟨.putSuccess, none⟩, a, ⟨.putSuccess, none⟩]) ∧
      (micaCrcw .shipped 0).oneByOne (storeAfter (2 ^ 30) [putRequest 0 1]) insertGetPut =
        .ok (kv₂, [⟨.putSuccess, none⟩, b, ⟨.putSuccess, none⟩]) ∧
      SameStore kv' kv₂ ∧ b = ⟨.getSuccess, some (List.replicate 32 1)⟩ ∧ a.type = b.type ∧
      a.value = some ((CacheOp.ofBytes (putRequest 0 2)).value.toList 32) := by
  have h : (storeAfter (2 ^ 30) [putRequest 0 1]).Inv 32 := storeAfter_inv (by omega) (by decide)
  obtain ⟨kv', hrun⟩ : ∃ kv', (micaCrcw .shipped 0).run (storeAfter (2 ^ 30) [putRequest 0 1]) insertGetPut =
      .ok (kv', [⟨.putSuccess, none⟩, ⟨.getSuccess, some (List.replicate 32 2)⟩, ⟨.putSuccess, none⟩]) :=
    eq_ok_of_answers (by decide +kernel)
  obtain ⟨kv₂, hone⟩ : ∃ kv₂, (micaCrcw .shipped 0).oneByOne (storeAfter (2 ^ 30) [putRequest 0 1]) insertGetPut =
      .ok (kv₂, [⟨.putSuccess, none⟩, ⟨.getSuccess, some (List.replicate 32 1)⟩, ⟨.putSuccess, none⟩]) :=
    eq_ok_of_answers (by decide +kernel)
  have hhead : ∀ x ∈ ((micaCrcw .shipped 0).run (storeAfter (2 ^ 30) [putRequest 0 1]) insertGetPut).toOption,
      x.1.logHead < (storeAfter (2 ^ 30) [putRequest 0 1]).logCap := by decide +kernel
  have hkeep := hhead (kv', _) (by rw [hrun]; rfl)
  obtain ⟨hstore, hall⟩ := (batch_transparent (.inr rfl) h (by decide)
    fun l op r he _ => insertGetPut_undisturbed l op r he).2 _ _ _ _ hrun hone
  obtain ⟨htype, hvalue⟩ := hall [putRequest 1 5] (getRequest 0) [putRequest 0 2] rfl
    (insertGetPut_undisturbed _ _ _ rfl) _ _ rfl rfl
  exact ⟨kv', kv₂, _, _, hrun, hone, hstore, rfl, htype, hvalue rfl (keeps_of_head_lt hkeep)⟩

end CcKvs
