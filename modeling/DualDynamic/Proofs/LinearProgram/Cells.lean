import DualDynamic.Proofs.Exact
import DualDynamic.LinearProgram

/-!
# Cells of a linear program

The numbers of a program stand in cells: right hand sides, coefficients, costs and bounds. Each way
of overwriting data writes one cell and leaves all others and the shape of the program alone
(`WritesCell`).

`Extends D p q` says that `q` has the variables of `p`, its constraints and perhaps more of them
behind, and the same numbers as `p` in all cells of `p` outside `D`. Writing a cell of `D` keeps
this, whatever is written; writing the same to both programs takes the cell out of `D`. So two
programs that are set up anew by the same writes agree in the end if these writes cover `D`.
-/

namespace DualDynamic

/-- A place for a number in a program. -/
inductive Cell where
  | rhs (row : ℕ)
  | coefficient (row var : ℕ)
  | cost (var : ℕ)
  | lower (var : ℕ)
  | upper (var : ℕ)
  deriving DecidableEq

/-- The constraint that a cell belongs to. -/
def Cell.row? : Cell → Option ℕ
  | rhs c => some c
  | coefficient c _ => some c
  | _ => none

/-- The cells of the first `n` constraints, and all cells of variables. -/
def Cell.IsWithin (d : Cell) (n : ℕ) : Prop := ∀ c ∈ d.row?, c < n

@[simp] theorem Cell.isWithin_rhs {c n : ℕ} : (rhs c).IsWithin n ↔ c < n := by
  simp [IsWithin, row?]

@[simp] theorem Cell.isWithin_coefficient {c i n : ℕ} : (coefficient c i).IsWithin n ↔ c < n := by
  simp [IsWithin, row?]

@[simp] theorem Cell.isWithin_cost {i n : ℕ} : (cost i).IsWithin n := by simp [IsWithin, row?]

@[simp] theorem Cell.isWithin_lower {i n : ℕ} : (lower i).IsWithin n := by simp [IsWithin, row?]

@[simp] theorem Cell.isWithin_upper {i n : ℕ} : (upper i).IsWithin n := by simp [IsWithin, row?]

/-- The variable that a cell is about. -/
def Cell.column? : Cell → Option ℕ
  | rhs _ => none
  | coefficient _ i => some i
  | cost i => some i
  | lower i => some i
  | upper i => some i

/-- The cells of the first `n` variables, and all right hand sides. -/
def Cell.IsAmong (d : Cell) (n : ℕ) : Prop := ∀ i ∈ d.column?, i < n

@[simp] theorem Cell.isAmong_rhs {c n : ℕ} : (rhs c).IsAmong n := by simp [IsAmong, column?]

@[simp] theorem Cell.isAmong_coefficient {c i n : ℕ} : (coefficient c i).IsAmong n ↔ i < n := by
  simp [IsAmong, column?]

@[simp] theorem Cell.isAmong_cost {i n : ℕ} : (cost i).IsAmong n ↔ i < n := by
  simp [IsAmong, column?]

@[simp] theorem Cell.isAmong_lower {i n : ℕ} : (lower i).IsAmong n ↔ i < n := by
  simp [IsAmong, column?]

@[simp] theorem Cell.isAmong_upper {i n : ℕ} : (upper i).IsAmong n ↔ i < n := by
  simp [IsAmong, column?]

theorem Cell.IsWithin.mono {d : Cell} {n m : ℕ} (h : d.IsWithin n) (hnm : n ≤ m) : d.IsWithin m :=
  fun c hc => (h c hc).trans_le hnm

/-- The comparison that a constraint makes. -/
def Relation.Holds {K : Type} [ExactNumeral K] (r : Relation) (a b : K) : Prop :=
  match r with
  | .equal => a = b
  | .atMost => a ≤ b
  | .atLeast => b ≤ a

namespace LinearProgram

variable {K : Type}

section Numerals

variable [Numeral K]

/-! ## Reading -/

/-- The number in a cell, none for a bound that is missing. -/
def read (p : LinearProgram K) : Cell → Option K
  | .rhs c => p.constraints[c]?.map Constraint.rhs
  | .coefficient c i => some (p.coefficient c i)
  | .cost i => p.vars[i]?.map Variable.cost
  | .lower i => p.vars[i]?.bind Variable.lower
  | .upper i => p.vars[i]?.bind Variable.upper

/-- Which variables are integral, in order. -/
def kinds (p : LinearProgram K) : List Bool := p.vars.toList.map Variable.integral

/-- How the constraints compare, in order. -/
def relations (p : LinearProgram K) : List Relation := p.constraints.toList.map Constraint.relation

omit [Numeral K] in
@[simp] theorem length_kinds (p : LinearProgram K) : p.kinds.length = p.vars.size := by
  simp [kinds]

omit [Numeral K] in
@[simp] theorem length_relations (p : LinearProgram K) :
    p.relations.length = p.constraints.size := by
  simp [relations]

/-! ## Writing -/

/-- The change writes a cell: it leaves the shape and all other cells as they are, and what it puts
into the cell does not depend on what the program holds. -/
structure WritesCell (f : LinearProgram K → LinearProgram K) (d : Cell) : Prop where
  sense : ∀ p, (f p).sense = p.sense
  kinds : ∀ p, (f p).kinds = p.kinds
  relations : ∀ p, (f p).relations = p.relations
  row : ∀ p c, d.row? ≠ some c → (f p).constraints[c]? = p.constraints[c]?
  other : ∀ p d', d' ≠ d → (f p).read d' = p.read d'
  same : ∀ p q, (∀ i ∈ d.column?, i < p.vars.size ↔ i < q.vars.size) →
    d.IsWithin p.constraints.size → d.IsWithin q.constraints.size → (f p).read d = (f q).read d

omit [Numeral K] in
theorem map_modify_of_eq {A B : Type} (g : A → B) {f : A → A} (h : ∀ a, g (f a) = g a)
    (xs : Array A) (i : ℕ) : (xs.modify i f).toList.map g = xs.toList.map g := by
  refine List.ext_getElem? fun j => ?_
  simp only [List.getElem?_map, Array.getElem?_toList, Array.getElem?_modify]
  split_ifs with hij
  · subst hij
    cases xs[i]? <;> simp [h]
  · rfl

section Changes

omit [Numeral K]

variable (p : LinearProgram K) (i c j : ℕ) (f : Variable K → Variable K)
  (g : Constraint K → Constraint K)

theorem getElem?_changeVariable :
    (p.changeVariable i f).vars[j]? = if i = j then p.vars[j]?.map f else p.vars[j]? := by
  simp [changeVariable, Array.getElem?_modify]

theorem getElem?_changeConstraint : (p.changeConstraint c g).constraints[j]? =
    if c = j then p.constraints[j]?.map g else p.constraints[j]? := by
  simp [changeConstraint, Array.getElem?_modify]

theorem kinds_changeVariable (h : ∀ v, (f v).integral = v.integral) :
    (p.changeVariable i f).kinds = p.kinds := map_modify_of_eq _ h _ _

theorem relations_changeConstraint (h : ∀ v, (g v).relation = v.relation) :
    (p.changeConstraint c g).relations = p.relations := map_modify_of_eq _ h _ _

end Changes

omit [Numeral K] in
/-- A term put among others is the one that is found for its variable. -/
theorem lookup_putTerm (i j : ℕ) (a : K) (terms : List (ℕ × K)) :
    (putTerm i a terms).lookup j = if j = i then some a else terms.lookup j := by
  induction terms with
  | nil =>
    rcases eq_or_ne j i with rfl | h
    · simp [putTerm]
    · simp [putTerm, List.lookup_cons, h, beq_false_of_ne h]
  | cons t terms ih =>
    obtain ⟨k, b⟩ := t
    rcases eq_or_ne k i with rfl | hk
    · rcases eq_or_ne j k with rfl | h
      · simp [putTerm]
      · simp [putTerm, List.lookup_cons, h, beq_false_of_ne h]
    · rcases eq_or_ne j k with rfl | h
      · simp [putTerm, hk, beq_false_of_ne hk]
      · simp [putTerm, List.lookup_cons, beq_false_of_ne hk, beq_false_of_ne h, ih]

omit [Numeral K] in
theorem mem_putTerm {i : ℕ} {a : K} {terms : List (ℕ × K)} {t : ℕ × K}
    (h : t ∈ putTerm i a terms) : t = (i, a) ∨ t ∈ terms := by
  induction terms with
  | nil => exact Or.inl (List.mem_singleton.1 h)
  | cons u terms ih =>
    obtain ⟨j, b⟩ := u
    simp only [putTerm] at h
    split_ifs at h
    · rcases List.mem_cons.1 h with rfl | h
      · exact Or.inl rfl
      · exact Or.inr (by simp [h])
    · rcases List.mem_cons.1 h with rfl | h
      · exact Or.inr (by simp)
      · exact (ih h).imp_right fun h => by simp [h]

omit [Numeral K] in
/-- What replaces the items of arrays that both have them is the same everywhere. -/
theorem bind_eq_of_lt_iff {A B : Type} {xs ys : Array A} {i : ℕ} (h : i < xs.size ↔ i < ys.size)
    (b : Option B) : (xs[i]?.bind fun _ => b) = ys[i]?.bind fun _ => b := by
  by_cases hi : i < xs.size
  · rw [Array.getElem?_eq_getElem hi, Array.getElem?_eq_getElem (h.1 hi)]
    rfl
  · rw [Array.getElem?_eq_none (by omega), Array.getElem?_eq_none (by omega)]

/-- What changes a variable writes a cell of it, if the other numbers of the variable stay. -/
theorem writesCell_changeVariable {i : ℕ} {f : Variable K → Variable K} {d : Cell}
    (hd : d.column? = some i) (hkind : ∀ v, (f v).integral = v.integral)
    (hcost : d ≠ .cost i → ∀ v, (f v).cost = v.cost)
    (hlower : d ≠ .lower i → ∀ v, (f v).lower = v.lower)
    (hupper : d ≠ .upper i → ∀ v, (f v).upper = v.upper)
    (hsame : ∀ p q : LinearProgram K, (i < p.vars.size ↔ i < q.vars.size) →
      (p.changeVariable i f).read d = (q.changeVariable i f).read d) :
    WritesCell (changeVariable i f) d where
  sense _ := rfl
  kinds p := kinds_changeVariable _ _ _ hkind
  relations _ := rfl
  row _ _ _ := rfl
  other p e he := by
    cases e with
    | rhs j | coefficient j k => rfl
    | cost j =>
      simp only [read, getElem?_changeVariable]
      split_ifs with hij
      · subst hij
        cases p.vars[i]? <;> simp [hcost he.symm]
      · rfl
    | lower j =>
      simp only [read, getElem?_changeVariable]
      split_ifs with hij
      · subst hij
        cases p.vars[i]? <;> simp [hlower he.symm]
      · rfl
    | upper j =>
      simp only [read, getElem?_changeVariable]
      split_ifs with hij
      · subst hij
        cases p.vars[i]? <;> simp [hupper he.symm]
      · rfl
  same p q h _ _ := hsame p q (h i hd)

theorem writesCell_setCost (i : ℕ) (x : K) : WritesCell (setCost i x) (.cost i) := by
  refine writesCell_changeVariable rfl (fun _ => rfl) (fun h => absurd rfl h) (fun _ _ => rfl)
    (fun _ _ => rfl) fun p q h => ?_
  simp only [read, getElem?_changeVariable, if_true, Option.map_map]
  rw [Option.map_eq_bind, Option.map_eq_bind]
  exact bind_eq_of_lt_iff h (some x)

theorem writesCell_setLower (i : ℕ) (x : Option K) : WritesCell (setLower i x) (.lower i) := by
  refine writesCell_changeVariable rfl (fun _ => rfl) (fun _ _ => rfl) (fun h => absurd rfl h)
    (fun _ _ => rfl) fun p q h => ?_
  simp only [read, getElem?_changeVariable, if_true, Option.bind_map]
  exact bind_eq_of_lt_iff h x

theorem writesCell_setUpper (i : ℕ) (x : Option K) : WritesCell (setUpper i x) (.upper i) := by
  refine writesCell_changeVariable rfl (fun _ => rfl) (fun _ _ => rfl) (fun _ _ => rfl)
    (fun h => absurd rfl h) fun p q h => ?_
  simp only [read, getElem?_changeVariable, if_true, Option.bind_map]
  exact bind_eq_of_lt_iff h x

/-- What changes a constraint writes a cell of it, if the other numbers of the constraint stay. -/
theorem writesCell_changeConstraint {c : ℕ} {g : Constraint K → Constraint K} {d : Cell}
    (hd : d.row? = some c) (hrelation : ∀ r, (g r).relation = r.relation)
    (hrhs : d ≠ .rhs c → ∀ r, (g r).rhs = r.rhs)
    (hterms : ∀ i, d ≠ .coefficient c i → ∀ r, (g r).terms.lookup i = r.terms.lookup i)
    {x : Option K} (hself : ∀ p : LinearProgram K, c < p.constraints.size →
      (p.changeConstraint c g).read d = x) : WritesCell (changeConstraint c g) d where
  sense _ := rfl
  kinds _ := rfl
  relations p := relations_changeConstraint _ _ _ hrelation
  row p j hj := (getElem?_changeConstraint _ _ _ _).trans (if_neg fun h : c = j => hj (h ▸ hd))
  other p e he := by
    cases e with
    | cost j | lower j | upper j => rfl
    | rhs j =>
      simp only [read, getElem?_changeConstraint]
      split_ifs with hcj
      · subst hcj
        cases p.constraints[c]? <;> simp [hrhs he.symm]
      · rfl
    | coefficient j k =>
      simp only [read, coefficient, getElem?_changeConstraint]
      split_ifs with hcj
      · subst hcj
        cases p.constraints[c]? <;> simp [hterms k he.symm]
      · rfl
  same p q _ hp hq := (hself p (hp c hd)).trans (hself q (hq c hd)).symm

theorem read_setRhs_self (c : ℕ) (x : K) (p : LinearProgram K) (h : c < p.constraints.size) :
    (p.setRhs c x).read (.rhs c) = some x := by
  simp [read, setRhs, getElem?_changeConstraint, h]

theorem writesCell_setRhs (c : ℕ) (x : K) : WritesCell (setRhs c x) (.rhs c) :=
  writesCell_changeConstraint rfl (fun _ => rfl) (fun h => absurd rfl h) (fun _ _ _ => rfl)
    (read_setRhs_self c x)

theorem read_setCoefficient_self (c i : ℕ) (x : K) (p : LinearProgram K)
    (h : c < p.constraints.size) :
    (p.setCoefficient c i x).read (.coefficient c i) = some x := by
  simp [read, coefficient, setCoefficient, getElem?_changeConstraint, h, lookup_putTerm]

theorem writesCell_setCoefficient (c i : ℕ) (x : K) :
    WritesCell (setCoefficient c i x) (.coefficient c i) := by
  refine writesCell_changeConstraint rfl (fun _ => rfl) (fun _ _ => rfl) (fun k hk r => ?_)
    (read_setCoefficient_self c i x)
  have hne : k ≠ i := fun h => hk (by rw [h])
  rw [lookup_putTerm, if_neg hne]

/-! ## Programs that agree -/

/-- The program `q` has the variables and the constraints of `p`, perhaps with more constraints
behind, and the numbers of `p` outside of `D`. -/
structure Extends (D : Set Cell) (p q : LinearProgram K) : Prop where
  sense : q.sense = p.sense
  kinds : q.kinds = p.kinds
  relations : p.relations <+: q.relations
  read : ∀ d ∉ D, d.IsWithin p.constraints.size → q.read d = p.read d

namespace Extends

variable {D D' : Set Cell} {p q r : LinearProgram K} {f : LinearProgram K → LinearProgram K}
  {d : Cell}

theorem refl (D : Set Cell) (p : LinearProgram K) : Extends D p p :=
  ⟨rfl, rfl, List.prefix_rfl, fun _ _ _ => rfl⟩

theorem rows (h : Extends D p q) : p.constraints.size ≤ q.constraints.size := by
  simpa using h.relations.length_le

theorem vars (h : Extends D p q) : q.vars.size = p.vars.size := by
  simpa using congrArg List.length h.kinds

theorem trans (h : Extends D p q) (h' : Extends D q r) : Extends D p r :=
  ⟨h'.sense.trans h.sense, h'.kinds.trans h.kinds, h.relations.trans h'.relations,
    fun d hd hw => (h'.read d hd (hw.mono h.rows)).trans (h.read d hd hw)⟩

theorem mono (h : Extends D p q) (hD : D ⊆ D') : Extends D' p q :=
  ⟨h.sense, h.kinds, h.relations, fun d hd => h.read d fun h' => hd (hD h')⟩

/-- Without further constraints agreement goes both ways. -/
theorem symm (h : Extends D p q) (hrows : q.constraints.size = p.constraints.size) :
    Extends D q p :=
  ⟨h.sense.symm, h.kinds.symm,
    (h.relations.eq_of_length (by simp [hrows])).symm ▸ List.prefix_rfl,
    fun d hd hw => (h.read d hd (hrows ▸ hw)).symm⟩

/-- Beyond the last constraint there is nothing to read. -/
theorem read_eq (h : Extends ∅ p q) (hrows : q.constraints.size = p.constraints.size) :
    q.read = p.read := by
  funext d
  by_cases hd : d.IsWithin p.constraints.size
  · exact h.read d (Set.notMem_empty d) hd
  · cases d with
    | rhs c =>
      have hc : p.constraints.size ≤ c := by simpa using hd
      simp [LinearProgram.read, Array.getElem?_eq_none hc, Array.getElem?_eq_none (hrows ▸ hc)]
    | coefficient c i =>
      have hc : p.constraints.size ≤ c := by simpa using hd
      simp [LinearProgram.read, coefficient, Array.getElem?_eq_none hc,
        Array.getElem?_eq_none (hrows ▸ hc)]
    | _ => simp at hd

theorem size_write (h : WritesCell f d) (p : LinearProgram K) :
    (f p).constraints.size = p.constraints.size := by
  simpa using congrArg List.length (h.relations p)

/-- Whatever is written to a cell of `D` makes no difference. -/
theorem write_right (h : Extends D p q) (hf : WritesCell f d) (hd : d ∈ D) : Extends D p (f q) where
  sense := (hf.sense q).trans h.sense
  kinds := (hf.kinds q).trans h.kinds
  relations := hf.relations q ▸ h.relations
  read d' hd' hw := (hf.other q d' fun h' => hd' (h' ▸ hd)).trans (h.read d' hd' hw)

theorem write_left (h : Extends D p q) (hf : WritesCell f d) (hd : d ∈ D) :
    Extends D (f p) q where
  sense := h.sense.trans (hf.sense p).symm
  kinds := h.kinds.trans (hf.kinds p).symm
  relations := (hf.relations p).symm ▸ h.relations
  read d' hd' hw := (h.read d' hd' (size_write hf p ▸ hw)).trans
    (hf.other p d' fun h' => hd' (h' ▸ hd)).symm

/-- Writing the same to a cell of both programs makes them agree there. -/
theorem write_both (h : Extends D p q) (hf : WritesCell f d) (hw : d.IsWithin p.constraints.size) :
    Extends (D \ {d}) (f p) (f q) where
  sense := by rw [hf.sense, hf.sense, h.sense]
  kinds := by rw [hf.kinds, hf.kinds, h.kinds]
  relations := by rw [hf.relations, hf.relations]; exact h.relations
  read d' hd' hw' := by
    by_cases hdd : d' = d
    · subst hdd
      exact hf.same q p (fun i _ => by rw [h.vars]) (hw.mono h.rows) hw
    · rw [hf.other q d' hdd, hf.other p d' hdd]
      exact h.read d' (fun h' => hd' ⟨h', hdd⟩) (size_write hf p ▸ hw')

theorem addConstraint (h : Extends D p q) (c : Constraint K) : Extends D p (q.addConstraint c) where
  sense := h.sense
  kinds := h.kinds
  relations := h.relations.trans ⟨[c.relation], by simp [LinearProgram.addConstraint,
    LinearProgram.relations]⟩
  read d hd hw := by
    rw [← h.read d hd hw]
    cases d with
    | rhs j =>
      have hj : j < q.constraints.size := (hw j rfl).trans_le h.rows
      simp [LinearProgram.read, LinearProgram.addConstraint, Array.getElem?_push, hj.ne]
    | coefficient j i =>
      have hj : j < q.constraints.size := (hw j rfl).trans_le h.rows
      simp [LinearProgram.read, LinearProgram.coefficient, LinearProgram.addConstraint,
        Array.getElem?_push, hj.ne]
    | _ => rfl

/-- The same constraint put behind programs of one length. -/
theorem addConstraint_both (h : Extends D p q) (hrows : q.constraints.size = p.constraints.size)
    (c : Constraint K) : Extends D (p.addConstraint c) (q.addConstraint c) where
  sense := h.sense
  kinds := h.kinds
  relations := by
    have hsame : q.relations = p.relations := (h.relations.eq_of_length (by simp [hrows])).symm
    rw [LinearProgram.relations] at hsame
    simp [LinearProgram.addConstraint, LinearProgram.relations, hsame]
  read d hd hw := by
    have hold := h.read d hd
    cases d with
    | rhs j =>
      have hj : j < p.constraints.size + 1 := by
        simpa [LinearProgram.addConstraint] using hw j rfl
      simp only [LinearProgram.read, LinearProgram.addConstraint, Array.getElem?_push, hrows]
      split_ifs with hlast
      · rfl
      · exact hold (Cell.isWithin_rhs.2 (by omega))
    | coefficient j i =>
      have hj : j < p.constraints.size + 1 := by
        simpa [LinearProgram.addConstraint] using hw j rfl
      simp only [LinearProgram.read, LinearProgram.coefficient, LinearProgram.addConstraint,
        Array.getElem?_push, hrows]
      split_ifs with hlast
      · rfl
      · exact hold (Cell.isWithin_coefficient.2 (by omega))
    | cost i => exact hold Cell.isWithin_cost
    | lower i => exact hold Cell.isWithin_lower
    | upper i => exact hold Cell.isWithin_upper

end Extends

end Numerals

/-! ## Points -/

variable [ExactNumeral K]

/-- The expression of a constraint at a point. -/
def rowValue (p : LinearProgram K) (c : ℕ) (y : ℕ → K) : K :=
  ∑ i ∈ Finset.range p.vars.size, p.coefficient c i * y i

/-- The objective at a point. -/
def objective (p : LinearProgram K) (y : ℕ → K) : K :=
  ∑ i ∈ Finset.range p.vars.size, ((p.vars[i]?.map Variable.cost).getD 0) * y i

/-- A point between the bounds at which all constraints hold. -/
structure Feasible (p : LinearProgram K) (y : ℕ → K) : Prop where
  lower : ∀ i v a, p.vars[i]? = some v → v.lower = some a → a ≤ y i
  upper : ∀ i v a, p.vars[i]? = some v → v.upper = some a → y i ≤ a
  row : ∀ c (r : Constraint K), p.constraints[c]? = some r → r.relation.Holds (p.rowValue c y) r.rhs

/-- The objective values of the feasible points. -/
def values (p : LinearProgram K) : Set K := {v | ∃ y, p.Feasible y ∧ p.objective y = v}

theorem objective_eq_read (p : LinearProgram K) (y : ℕ → K) :
    p.objective y = ∑ i ∈ Finset.range p.vars.size, (p.read (.cost i)).getD 0 * y i := rfl

theorem rowValue_eq_read (p : LinearProgram K) (c : ℕ) (y : ℕ → K) : p.rowValue c y =
    ∑ i ∈ Finset.range p.vars.size, (p.read (.coefficient c i)).getD 0 * y i := rfl

/-- Feasibility in terms of the cells and the relations. -/
theorem feasible_iff_read {p : LinearProgram K} {y : ℕ → K} : p.Feasible y ↔
    (∀ i a, p.read (.lower i) = some a → a ≤ y i) ∧
    (∀ i a, p.read (.upper i) = some a → y i ≤ a) ∧
    ∀ c r b, p.relations[c]? = some r → p.read (.rhs c) = some b → r.Holds (p.rowValue c y) b := by
  refine ⟨fun h => ⟨fun i a ha => ?_, fun i a ha => ?_, fun c r b hr hb => ?_⟩,
    fun h => ⟨fun i v a hv ha => h.1 i a (by simp [read, hv, ha]),
      fun i v a hv ha => h.2.1 i a (by simp [read, hv, ha]),
      fun c r hr => h.2.2 c r.relation r.rhs (by simp [relations, hr]) (by simp [read, hr])⟩⟩
  · obtain ⟨v, hv, hva⟩ := Option.bind_eq_some_iff.1 ha
    exact h.lower i v a hv hva
  · obtain ⟨v, hv, hva⟩ := Option.bind_eq_some_iff.1 ha
    exact h.upper i v a hv hva
  · obtain ⟨row, hrow, rfl⟩ := Option.map_eq_some_iff.1 hb
    have hrelation : row.relation = r := by simpa [relations, hrow] using hr
    exact hrelation ▸ h.row c row hrow

namespace Extends

variable {p q : LinearProgram K} {y : ℕ → K}

theorem objective_eq {D : Set Cell} (h : Extends D p q) (hD : ∀ i, .cost i ∉ D) :
    q.objective y = p.objective y := by
  rw [objective_eq_read, objective_eq_read, h.vars]
  refine Finset.sum_congr rfl fun i _ => ?_
  rw [h.read _ (hD i) Cell.isWithin_cost]

theorem rowValue_eq {D : Set Cell} (h : Extends D p q) {c : ℕ} (hc : c < p.constraints.size)
    (hD : ∀ i, .coefficient c i ∉ D) : q.rowValue c y = p.rowValue c y := by
  rw [rowValue_eq_read, rowValue_eq_read, h.vars]
  refine Finset.sum_congr rfl fun i _ => ?_
  rw [h.read _ (hD i) (Cell.isWithin_coefficient.2 hc)]

/-- More constraints leave fewer feasible points. -/
theorem feasible (h : Extends ∅ p q) (hy : q.Feasible y) : p.Feasible y := by
  obtain ⟨hlower, hupper, hrow⟩ := feasible_iff_read.1 hy
  refine feasible_iff_read.2 ⟨fun i a ha => hlower i a ?_, fun i a ha => hupper i a ?_,
    fun c r b hr hb => ?_⟩
  · rw [h.read _ (Set.notMem_empty _) Cell.isWithin_lower, ha]
  · rw [h.read _ (Set.notMem_empty _) Cell.isWithin_upper, ha]
  · have hc : c < p.constraints.size := by
      have := (List.getElem?_eq_some_iff.1 hr).1
      simpa using this
    rw [← h.rowValue_eq hc fun _ => Set.notMem_empty _]
    refine hrow c r b ?_ ?_
    · obtain ⟨more, hmore⟩ := h.relations
      rw [← hmore, List.getElem?_append_left (by simpa using hc), hr]
    · rw [h.read _ (Set.notMem_empty _) (Cell.isWithin_rhs.2 hc), hb]

theorem values_subset (h : Extends ∅ p q) : q.values ⊆ p.values := by
  rintro v ⟨y, hy, rfl⟩
  exact ⟨y, h.feasible hy, (h.objective_eq fun _ => Set.notMem_empty _).symm⟩

end Extends

end LinearProgram

end DualDynamic
