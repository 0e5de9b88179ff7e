import DualDynamic.Proofs.CostToGo
import DualDynamic.Proofs.Subproblem.Decision
import DualDynamic.Proofs.Subproblem.Statement

/-!
# Approximated programs

The program of a node is the stated one with a variable for the cost of what comes behind and a row on
it for each of some cuts; behind the last stage there is nothing (`CostToGo.approximation`). Settings
write to the stated part and to the cost of the new variable, and to nothing else (`Agrees`).

A cost of what comes behind that respects the known bound and the cuts is a value of the new
variable (`CostToGo.Admits`). So value and duals of a solution bound the costs of every decision with
such a cost behind it, whatever the incoming state (`bounds_decision`).
-/

namespace DualDynamic

open Step LinearProgram

variable {K : Type} [ExactNumeral K]

namespace LinearProgram

/-! ## Programs that differ in settings -/

/-- The program `q` is `p` up to the numbers in `D`, and the rows from the `n`-th on are the same. -/
structure Agrees (D : Set Cell) (n : ℕ) (p q : LinearProgram K) : Prop where
  shape : Extends D p q
  size : q.constraints.size = p.constraints.size
  rows : ∀ c, n ≤ c → q.constraints[c]? = p.constraints[c]?

namespace Agrees

variable {D : Set Cell} {n : ℕ} {p q : LinearProgram K}

theorem refl (D : Set Cell) (n : ℕ) (p : LinearProgram K) : Agrees D n p p :=
  ⟨.refl D p, rfl, fun _ _ => rfl⟩

theorem write_right (h : Agrees D n p q) {f : LinearProgram K → LinearProgram K} {d : Cell}
    (hf : WritesCell f d) (hd : d ∈ D) (hn : d.IsWithin n) : Agrees D n p (f q) where
  shape := h.shape.write_right hf hd
  size := (Extends.size_write hf q).trans h.size
  rows c hc := by
    have hrow : d.row? ≠ some c := fun heq => absurd (hn c heq) (by omega)
    rw [hf.row q c hrow, h.rows c hc]

/-- The same constraint behind both. -/
theorem addConstraint (h : Agrees D n p q) (r : Constraint K) :
    Agrees D n (p.addConstraint r) (q.addConstraint r) where
  shape := by
    have hrelations : q.relations = p.relations :=
      (h.shape.relations.eq_of_length (by simp [h.size])).symm
    refine ⟨h.shape.sense, h.shape.kinds, ?_, fun d hd hw => ?_⟩
    · have hpush : ∀ p : LinearProgram K,
          (p.addConstraint r).relations = p.relations ++ [r.relation] := fun p => by
        simp [LinearProgram.relations, LinearProgram.addConstraint]
      rw [hpush, hpush, hrelations]
    · by_cases hrow : d.row? = some p.constraints.size
      · -- A cell of the new constraint.
        have hleft : (p.addConstraint r).constraints[p.constraints.size]? = some r := by
          simp [LinearProgram.addConstraint]
        have hright : (q.addConstraint r).constraints[p.constraints.size]? = some r := by
          simp [LinearProgram.addConstraint, ← h.size]
        cases d with
        | rhs c =>
          obtain rfl : c = p.constraints.size := Option.some.inj hrow
          rw [LinearProgram.read, LinearProgram.read, hleft, hright]
        | coefficient c i =>
          obtain rfl : c = p.constraints.size := Option.some.inj hrow
          simp only [LinearProgram.read, coefficient, hleft, hright]
        | _ => cases hrow
      · have hold : d.IsWithin p.constraints.size := fun c hc => by
          have hlt := hw c hc
          simp only [LinearProgram.addConstraint, Array.size_push] at hlt
          have hne : c ≠ p.constraints.size := fun heq => hrow (heq ▸ hc)
          omega
        have hadd := (LinearProgram.Extends.refl ∅ p).addConstraint r
        rw [((h.shape.addConstraint r).read d hd hold), hadd.read d (Set.notMem_empty d) hold]
  size := by simp [LinearProgram.addConstraint, h.size]
  rows c hc := by
    simp only [LinearProgram.addConstraint, Array.getElem?_push, h.size, h.rows c hc]

end Agrees

/-! ## Rows term by term -/

/-- A sum over positions with coefficients that are looked up is a sum over the terms. -/
theorem sum_lookup {terms : List (ℕ × K)} {n : ℕ} (hnodup : (terms.map Prod.fst).Nodup)
    (hlt : ∀ t ∈ terms, t.1 < n) (y : ℕ → K) :
    ∑ i ∈ Finset.range n, (terms.lookup i).getD 0 * y i =
      (terms.map fun t => t.2 * y t.1).sum := by
  induction terms with
  | nil => simp
  | cons t terms ih =>
    obtain ⟨j, a⟩ := t
    obtain ⟨hj, hnodup⟩ := List.nodup_cons.1 hnodup
    rw [List.forall_mem_cons] at hlt
    have hnone : terms.lookup j = none := List.lookup_eq_none_iff.2 fun t ht =>
      bne_iff_ne.2 fun heq => hj (List.mem_map.2 ⟨t, ht, heq.symm⟩)
    have hsplit : ∀ i, (((j, a) :: terms).lookup i).getD 0 * y i =
        (if i = j then a * y j else 0) + (terms.lookup i).getD 0 * y i := by
      intro i
      by_cases hi : i = j
      · subst hi
        simp [hnone]
      · simp [List.lookup_cons, beq_false_of_ne hi, hi]
    simp only [hsplit, Finset.sum_add_distrib, Finset.sum_ite_eq', Finset.mem_range, hlt.1,
      if_true, List.map_cons, List.sum_cons, ih hnodup hlt.2]

/-- Terms that name every variable once add up to the expression of their constraint. -/
theorem rowValue_eq_sum_terms {p : LinearProgram K} {c : ℕ} {r : Constraint K}
    (hr : p.constraints[c]? = some r) (hnodup : (r.terms.map Prod.fst).Nodup)
    (hlt : ∀ t ∈ r.terms, t.1 < p.vars.size) (y : ℕ → K) :
    p.rowValue c y = (r.terms.map fun t => t.2 * y t.1).sum := by
  have hcoefficient : ∀ i, p.coefficient c i = (r.terms.lookup i).getD 0 := fun i => by
    simp [coefficient, hr]
  simp only [rowValue, hcoefficient]
  exact sum_lookup hnodup hlt y

end LinearProgram

/-- The bound is of a size that counts: the solver takes larger ones for none. -/
def Frame.IsKept (f : Frame K) : Prop :=
  match f.sense with
  | .minimize => -boundLimit < f.bound
  | .maximize => f.bound < boundLimit

namespace CostToGo

/-! ## Approximations -/

/-- The stated program, and if there is something behind it a variable for the cost of that, with the
rows of cuts. -/
def approximation (behind : Option (Frame K)) (m : Subproblem K) (cuts : List (Cut K)) :
    LinearProgram K :=
  match behind with
  | none => m.program
  | some f =>
    { m.program with
      vars := m.program.vars.push (ribVariable f 0)
      constraints := m.program.constraints ++
        (cuts.map fun cut => cutRow m.program.vars.size cut m).toArray }

/-- A cost of what comes behind a state respects the known bound and the cuts. -/
def Admits (behind : Option (Frame K)) (cuts : List (Cut K)) (state : List K) (cost : K) : Prop :=
  match behind with
  | none => cost = 0
  | some f => f.sense.Bounds f.bound cost ∧
    ∀ cut ∈ cuts, cut.side = f.sense.cutSide ∧ f.sense.Bounds (cut.evaluate state) cost

variable {behind : Option (Frame K)} {f : Frame K} {m : Subproblem K} {cuts : List (Cut K)}

theorem approximation_nil (f : Frame K) (m : Subproblem K) :
    approximation (some f) m [] = (withRibVariables f 1 m).program := by
  simp [approximation, withRibVariables, List.range_succ, Subproblem.withVariable,
    LinearProgram.addVariable]

theorem approximation_concat (f : Frame K) (m : Subproblem K) (cuts : List (Cut K)) (cut : Cut K) :
    approximation (some f) m (cuts ++ [cut]) =
      (approximation (some f) m cuts).addConstraint (cutRow m.program.vars.size cut m) := by
  simp [approximation, LinearProgram.addConstraint]

/-- The stated program is embedded in its approximations. -/
theorem embeds_approximation
    (hterms : ∀ r ∈ m.program.constraints, ∀ t ∈ r.terms, t.1 < m.program.vars.size)
    (behind : Option (Frame K)) (cuts : List (Cut K)) :
    Embeds ∅ m.program (approximation behind m cuts) := by
  cases behind with
  | none => exact .refl hterms ∅
  | some f =>
    induction cuts using List.reverseRecOn with
    | nil =>
      have hnil : approximation (some f) m [] = m.program.addVariable (ribVariable f 0) := by
        simp [approximation, LinearProgram.addVariable]
      rw [hnil]
      exact .addVariable hterms (ribVariable f 0) ∅
    | append_singleton cuts cut ih =>
      rw [approximation_concat]
      exact ih.extends_right ((LinearProgram.Extends.refl ∅ _).addConstraint _) subset_rfl
        fun c i h => absurd h (Set.notMem_empty _)

theorem size_vars_approximation : (approximation behind m cuts).vars.size =
    m.program.vars.size + if behind.isSome then 1 else 0 := by
  cases behind <;> simp [approximation]

/-- The row of a cut at a point. -/
theorem rowValue_cutRow {q : LinearProgram K} {c x : ℕ} {cut : Cut K}
    (hr : q.constraints[c]? = some (cutRow x cut m)) (hstates : ∀ i ∈ m.states, i < q.vars.size)
    (hdistinct : m.states.Nodup) (hx : x < q.vars.size) (hbeyond : x ∉ m.states) (z : ℕ → K) :
    q.rowValue c z = z x - Scalar.dot cut.coefficients (m.states.map z) := by
  have hkeys : ∀ (is : List ℕ) (cs : List K),
      (List.zipWith (fun i c => (i, -c)) is cs).map Prod.fst = is.take cs.length := by
    intro is
    induction is with
    | nil => simp
    | cons i is ih =>
      intro cs
      cases cs <;> simp [ih]
  have hdot : ∀ (is : List ℕ) (cs : List K),
      ((List.zipWith (fun i c => (i, -c)) is cs).map fun t => t.2 * z t.1).sum =
        -Scalar.dot cs (is.map z) := by
    intro is
    induction is with
    | nil => intro cs; simp [Scalar.dot_eq]
    | cons i is ih =>
      intro cs
      cases cs with
      | nil => simp
      | cons c cs =>
        simp only [List.zipWith_cons_cons, List.map_cons, List.sum_cons, ih, Scalar.dot_cons]
        ring
  have hmem : ∀ t ∈ List.zipWith (fun i c => (i, -c)) m.states cut.coefficients,
      t.1 ∈ m.states := by
    intro t ht
    have hfst := List.mem_map_of_mem (f := Prod.fst) ht
    rw [hkeys] at hfst
    exact List.mem_of_mem_take hfst
  rw [rowValue_eq_sum_terms hr, cutRow, List.map_cons, List.sum_cons, hdot, Scalar.one_eq, one_mul,
    sub_eq_add_neg]
  · rw [cutRow, List.map_cons, hkeys, List.nodup_cons]
    exact ⟨fun h => hbeyond (List.mem_of_mem_take h), hdistinct.sublist (List.take_sublist _ _)⟩
  · rw [cutRow]
    intro t ht
    rcases List.mem_cons.1 ht with rfl | ht
    · exact hx
    · exact hstates _ (hmem t ht)

theorem isContinuous_approximation (h : m.program.IsContinuous) :
    (approximation behind m cuts).IsContinuous := by
  cases behind with
  | none => exact h
  | some f =>
    intro v hv
    simp only [approximation, Array.toList_push, List.mem_append, List.mem_singleton] at hv
    rcases hv with hv | rfl
    · exact h v hv
    · rfl

end CostToGo

namespace LinearProgram

/-- Cells outside the smaller program do not count. -/
theorem Embeds.of_among {D D' : Set Cell} {p q : LinearProgram K} (h : Embeds D' p q)
    (hD : ∀ d ∈ D', d.IsAmong p.vars.size → d ∈ D) : Embeds D p q :=
  { h with read := fun d hd hrow hcolumn => h.read d (fun h' => hd (hD d h' hcolumn)) hrow hcolumn }

/-- What the links pay, from state to state. -/
theorem sum_links {dual a b : ℕ → K} {links : List ℕ} {xs ys : List K}
    (hx : ∀ i c : ℕ, links[i]? = some c → xs[i]? = some (a c))
    (hy : ∀ i c : ℕ, links[i]? = some c → ys[i]? = some (b c)) :
    (links.map fun c => dual c * (a c - b c)).sum =
      Scalar.dot (links.map dual) xs - Scalar.dot (links.map dual) ys := by
  induction links generalizing xs ys with
  | nil => simp
  | cons c links ih =>
    have hfirst := hx 0 c rfl
    have hsecond := hy 0 c rfl
    cases xs with
    | nil => cases hfirst
    | cons x xs =>
      cases ys with
      | nil => cases hsecond
      | cons y ys =>
        obtain rfl : x = a c := Option.some.inj hfirst
        obtain rfl : y = b c := Option.some.inj hsecond
        have hrest : (links.map fun c => dual c * (a c - b c)).sum =
            Scalar.dot (links.map dual) xs - Scalar.dot (links.map dual) ys :=
          ih (fun i d hd => hx (i + 1) d hd) fun i d hd => hy (i + 1) d hd
        rw [List.map_cons, List.sum_cons, List.map_cons, Scalar.dot_cons, Scalar.dot_cons, hrest]
        ring

end LinearProgram

namespace CostToGo

variable {behind : Option (Frame K)} {m : Subproblem K} {cuts : List (Cut K)}

/-! ## Solutions -/

/-- The cells of an approximation that are written to when it is set up. -/
def settingCells (m : Subproblem K) : Set Cell := m.cells ∪ {.cost m.program.vars.size}

/-- The program of a node that has been made from the stated subproblem `m`. -/
def IsApproximation (behind : Option (Frame K)) (m : Subproblem K) (cuts : List (Cut K))
    (q : LinearProgram K) : Prop :=
  Agrees (settingCells m) m.program.constraints.size (approximation behind m cuts) q

variable {o : Option (Retry K) × Sense} {n : ℕ} {q : LinearProgram K}

theorem IsApproximation.embeds (h : IsApproximation behind m cuts q) (hm : m.IsLinked o n) :
    Embeds m.cells m.program q := by
  have hcells : ∀ d ∈ settingCells m, d.IsAmong m.program.vars.size → d ∈ m.cells := by
    rintro d (hd | rfl) hamong
    · exact hd
    · exact absurd hamong (by simp)
  have hcolumn : ∀ c i, .coefficient c i ∈ settingCells m → i < m.program.vars.size := by
    rintro c i ((⟨j, -, heq⟩ | hd) | heq)
    · cases heq
    · exact hm.wellFormed.isAmong _ hd i rfl
    · cases heq
  exact ((embeds_approximation hm.terms behind cuts).extends_right h.shape (Set.empty_subset _)
    hcolumn).of_among hcells

omit [ExactNumeral K] in
/-- Of the new variable nothing but the cost is written to. -/
theorem notMem_settingCells (hm : m.IsLinked o n) {d : Cell}
    (hcolumn : d.column? = some m.program.vars.size) (hd : d ≠ .cost m.program.vars.size) :
    d ∉ settingCells m := by
  rintro ((⟨c, -, rfl⟩ | hmem) | hmem)
  · cases hcolumn
  · exact absurd (hm.wellFormed.isAmong d hmem _ hcolumn) (lt_irrefl _)
  · exact hd hmem

theorem IsApproximation.size_vars (h : IsApproximation behind m cuts q) :
    q.vars.size = m.program.vars.size + if behind.isSome then 1 else 0 :=
  h.shape.vars.trans size_vars_approximation

/-- The rows behind the stated ones are those of the cuts. -/
theorem IsApproximation.exists_cut (h : IsApproximation behind m cuts q) {c : ℕ} {r : Constraint K}
    (hc : m.program.constraints.size ≤ c) (hr : q.constraints[c]? = some r) :
    ∃ f, behind = some f ∧ ∃ cut ∈ cuts, r = cutRow m.program.vars.size cut m := by
  rw [h.rows c hc] at hr
  cases behind with
  | none =>
    have hlt : c < m.program.constraints.size := (Array.getElem?_eq_some_iff.1 hr).1
    omega
  | some f =>
    refine ⟨f, rfl, ?_⟩
    simp only [approximation, Array.getElem?_append_right hc, List.getElem?_toArray,
      List.getElem?_map] at hr
    obtain ⟨cut, hcut, rfl⟩ := Option.map_eq_some_iff.1 hr
    exact ⟨cut, List.mem_of_getElem? hcut, rfl⟩

/-- The variable of a rib has no other bounds than the one of the frame, and that one if it is kept. -/
theorem ribVariable_bounds_iff {f : Frame K} {k : ℕ} {a : K} :
    ((∀ b ∈ (ribVariable f k).lower, b ≤ a) ∧ ∀ b ∈ (ribVariable f k).upper, a ≤ b) ↔
      (f.IsKept → f.sense.Bounds f.bound a) := by
  unfold ribVariable Frame.IsKept
  cases f.sense with
  | minimize =>
    by_cases h : f.bound ≤ -boundLimit
    · simp [lowerBound, h, not_lt.2 h]
    · simp [lowerBound, h, not_le.1 h, Sense.Bounds]
  | maximize =>
    by_cases h : boundLimit ≤ f.bound
    · simp [upperBound, h, not_lt.2 h]
    · simp [upperBound, h, not_le.1 h, Sense.Bounds]

/-- The row of a cut holds exactly where the cost of what comes behind respects the cut. -/
theorem holds_cutRow_iff {f : Frame K} {cut : Cut K} {state : List K} {cost : K}
    (hside : cut.side = f.sense.cutSide) (x : ℕ) :
    (cutRow x cut m).relation.Holds (cost - Scalar.dot cut.coefficients state)
      (cutRow x cut m).rhs ↔ f.sense.Bounds (cut.evaluate state) cost := by
  unfold cutRow
  rw [hside]
  cases f.sense with
  | minimize =>
    show cut.intercept ≤ cost - _ ↔ cut.intercept + _ ≤ cost
    exact le_sub_iff_add_le
  | maximize =>
    show cost - _ ≤ cut.intercept ↔ cost ≤ cut.intercept + _
    exact sub_le_iff_le_add

/-! ## Decisions -/

variable {p : LinearProgram K} {y : ℕ → K} {cost : K}

/-- A decision, with the cost of what comes behind as the value of the new variable. -/
def withCost (p : LinearProgram K) (y : ℕ → K) (cost : K) : ℕ → K :=
  fun i => if i < p.vars.size then y i else cost

omit [ExactNumeral K] in
theorem withCost_old {i : ℕ} (hi : i < p.vars.size) : withCost p y cost i = y i := if_pos hi

omit [ExactNumeral K] in
theorem withCost_new : withCost p y cost p.vars.size = cost := if_neg (lt_irrefl _)

section WithCost

variable (hm : m.IsLinked o n) (hq : IsApproximation behind m cuts q)
  (hvars : p.vars.size = m.program.vars.size) (hcost : Admits behind cuts (m.states.map y) cost)

include hq hvars hcost in
/-- The objective is the one of the stage with the cost of what comes behind. -/
theorem objective_withCost (hembeds : Embeds m.incomingCells p q)
    (hweight : behind.isSome = true → q.read (.cost m.program.vars.size) = some 1) :
    q.objective (withCost p y cost) = p.objective y + cost := by
  rw [hembeds.objective_eq (by rintro i ⟨c, -, hc⟩; cases hc) fun _ => withCost_old, hq.size_vars,
    ← hvars]
  cases behind with
  | none =>
    have hzero : cost = 0 := hcost
    simp [hzero]
  | some f =>
    have hone : q.read (.cost p.vars.size) = some 1 := hvars ▸ hweight rfl
    simp [hone, withCost_new]

include hm hq hvars hcost in
/-- The cost of what comes behind is within the bounds of the new variable. -/
theorem bounds_withCost {i : ℕ} {v : Variable K} (hi : p.vars.size ≤ i) (hv : q.vars[i]? = some v) :
    (∀ a ∈ v.lower, a ≤ withCost p y cost i) ∧ ∀ a ∈ v.upper, withCost p y cost i ≤ a := by
  have hsize := hq.size_vars
  have hlt : i < q.vars.size := (Array.getElem?_eq_some_iff.1 hv).1
  cases behind with
  | none =>
    simp only [Option.isSome_none] at hsize
    rw [hsize, ← hvars] at hlt
    simp at hlt
    omega
  | some f =>
    simp only [Option.isSome_some, if_true] at hsize
    obtain rfl : i = m.program.vars.size := by omega
    have hread : ∀ d : Cell, d.column? = some m.program.vars.size →
        d ≠ .cost m.program.vars.size → d.row? = none →
          q.read d = (approximation (some f) m cuts).read d := fun d hd hne hrow =>
      hq.shape.read d (notMem_settingCells hm hd hne) fun c hc => by simp [hrow] at hc
    have hlower := hread (.lower m.program.vars.size) rfl (by simp) rfl
    have hupper := hread (.upper m.program.vars.size) rfl (by simp) rfl
    simp only [LinearProgram.read, hv, approximation, Array.getElem?_push_size,
      Option.bind_some] at hlower hupper
    rw [hlower, hupper, ← hvars, withCost_new]
    exact ribVariable_bounds_iff.2 fun _ => hcost.1

include hm hq hvars hcost in
/-- The cost of what comes behind respects the rows of the cuts. -/
theorem rows_withCost {c : ℕ} {r : Constraint K} (hc : m.program.constraints.size ≤ c)
    (hr : q.constraints[c]? = some r) : r.relation.Holds (q.rowValue c (withCost p y cost)) r.rhs := by
  obtain ⟨f, rfl, cut, hcut, rfl⟩ := hq.exists_cut hc hr
  have hsize := hq.size_vars
  simp only [Option.isSome_some, if_true] at hsize
  have hstates : m.states.map (withCost p y cost) = m.states.map y := List.map_congr_left fun i hi =>
    withCost_old (hvars ▸ hm.wellFormed.states i hi)
  have hbefore : ∀ i ∈ m.states, i < m.program.vars.size := hm.wellFormed.states
  rw [rowValue_cutRow hr (fun i hi => (hbefore i hi).trans (by omega)) hm.wellFormed.distinct
    (by omega) fun hmem => lt_irrefl _ (hbefore _ hmem), hstates, ← hvars, withCost_new]
  exact (holds_cutRow_iff (hcost.2 cut hcut).1 _).2 (hcost.2 cut hcut).2

end WithCost

variable {engine : Engine K} {x x' : List K} {k : ℕ}

theorem some_rhsAt {a : Option K} {c : ℕ} (h : p.read (.rhs c) = a) (hc : c < p.constraints.size) :
    a = some (p.rhsAt c) := by
  subst h
  simp [LinearProgram.read, rhsAt, hc]

/-- Value and duals of a solution at one incoming state bound the costs of all decisions at any
other. -/
theorem bounds_decision (hm : m.IsLinked o n) (hq : IsApproximation behind m cuts q)
    (hweight : behind.isSome = true → q.read (.cost m.program.vars.size) = some 1)
    (hat : ∀ i c : ℕ, m.links[i]? = some c → q.read (.rhs c) = x'[i]?)
    (hp : m.IsSetUp x k p) (hembeds : Embeds m.incomingCells p q) (hy : p.Feasible y)
    (hcost : Admits behind cuts (m.states.map y) cost) (hduals : engine.HasDuals) {call : ℕ}
    {reductions : Bool} {s : Solution K} (hs : engine.solve call reductions q = .optimal s) :
    m.program.sense.Bounds (s.value + (Scalar.dot (m.links.map s.dualAt) x -
      Scalar.dot (m.links.map s.dualAt) x')) (p.objective y + cost) := by
  have hlike := hp.like hm.wellFormed hm.terms
  have hvars : p.vars.size = m.program.vars.size := hlike.shape.vars
  have hlinks : ∀ c ∈ m.links, c < p.constraints.size := fun c hc =>
    (hm.wellFormed.lt_of_mem_links hc).trans_le hlike.shape.rows
  have hrange : ∀ {i c : ℕ}, m.links[i]? = some c → c < p.constraints.size := fun hc =>
    hlinks _ (List.mem_of_getElem? hc)
  have hequal : ∀ c ∈ m.links, q.relations[c]? = some .equal := by
    intro c hc
    obtain ⟨more, hmore⟩ := (hq.embeds hm).relations
    have hlt := (List.getElem?_eq_some_iff.1 (hm.equal c hc)).1
    rw [← hmore, List.getElem?_append_left hlt, hm.equal c hc]
  have hcontinuous : q.IsContinuous :=
    hq.shape.isContinuous (isContinuous_approximation hm.continuous)
  have hsum : (m.links.map fun c => s.dualAt c * (p.rhsAt c - q.rhsAt c)).sum =
      Scalar.dot (m.links.map s.dualAt) x - Scalar.dot (m.links.map s.dualAt) x' :=
    sum_links (fun i c hc => some_rhsAt (hlike.links i c hc) (hrange hc))
      fun i c hc => some_rhsAt (hat i c hc) ((hrange hc).trans_le hembeds.rows)
  rw [← hsum, ← (hq.embeds hm).sense, ← objective_withCost hq hvars hcost hembeds hweight]
  exact hembeds.bounds hm.wellFormed.nodup_links hlinks hequal hduals hcontinuous hs hy
    (fun _ => withCost_old) (fun _ _ => bounds_withCost hm hq hvars hcost)
    fun _ _ hc => rows_withCost hm hq hvars hcost (hlike.shape.rows.trans hc)

end CostToGo

end DualDynamic
