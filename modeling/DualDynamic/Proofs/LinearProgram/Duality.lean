import DualDynamic.Proofs.LinearProgram.Cells

/-!
# Exact engines

What is assumed of a solver: the value of an optimal solution is the best objective value of a
feasible point, and the duals of the equations are a subgradient of the optimal value in their right
hand sides.

A solution that comes with a certificate has both properties (`IsCertificate.bounds`): its point is
feasible, its duals have the signs that the relations ask for, and no variable that has a reduced
cost could move to where this would help. So an engine that gives an answer only if it has checked a
certificate is exact, wherever its candidates come from.
-/

namespace DualDynamic

variable {K : Type} [ExactNumeral K]

namespace LinearProgram

/-- Whether all numbers between the bounds of all variables are allowed. -/
def IsContinuous (p : LinearProgram K) : Prop := ∀ v ∈ p.vars.toList, v.integral = false

omit [ExactNumeral K] in
theorem isContinuous_iff {p : LinearProgram K} : p.IsContinuous ↔ ∀ b ∈ p.kinds, b = false := by
  simp only [IsContinuous, kinds, List.forall_mem_map]

omit [ExactNumeral K] in
theorem Extends.isContinuous [Numeral K] {D : Set Cell} {p q : LinearProgram K} (h : Extends D p q)
    (hp : p.IsContinuous) : q.IsContinuous := by
  rw [isContinuous_iff] at *
  rwa [h.kinds]

/-- The program with other right hand sides. -/
def withRhs (p : LinearProgram K) (b : ℕ → K) : LinearProgram K :=
  { p with constraints := p.constraints.mapIdx fun c r => { r with rhs := b c } }

/-- The right hand side of a constraint, zero beyond the last one. -/
def rhsAt (p : LinearProgram K) (c : ℕ) : K := (p.constraints[c]?.map Constraint.rhs).getD 0

end LinearProgram

theorem LinearProgram.withRhs_rhsAt (p : LinearProgram K) : p.withRhs p.rhsAt = p := by
  have hconstraints : p.constraints.mapIdx (fun c r => { r with rhs := p.rhsAt c }) =
      p.constraints := by
    refine Array.ext_getElem? fun c => ?_
    rw [Array.getElem?_mapIdx]
    cases h : p.constraints[c]? with
    | none => rfl
    | some r => simp [LinearProgram.rhsAt, h]
  rw [LinearProgram.withRhs, hconstraints]

/-- The dual of a constraint, zero if there is none. -/
def Solution.dualAt (s : Solution K) (c : ℕ) : K := s.dual[c]?.getD 0

/-- Optimal values are exact. -/
def Engine.IsExact (engine : Engine K) : Prop :=
  ∀ call reductions (p : LinearProgram K) s, p.IsContinuous →
    engine.solve call reductions p = .optimal s → p.sense.IsOptimum p.values s.value

/-- Duals are subgradients: with other right hand sides of equations no feasible point does better than
value and duals say. -/
def Engine.HasDuals (engine : Engine K) : Prop :=
  ∀ call reductions (p : LinearProgram K) s, p.IsContinuous →
    engine.solve call reductions p = .optimal s → ∀ b y,
      (∀ c, p.relations[c]? ≠ some .equal → b c = p.rhsAt c) → (p.withRhs b).Feasible y →
      p.sense.Bounds
        (s.value + ∑ c ∈ Finset.range p.constraints.size, s.dualAt c * (b c - p.rhsAt c))
        (p.objective y)

/-! ## Certificates -/

namespace LinearProgram

variable (p : LinearProgram K)

/-- The cost of a variable less what the duals pay for it. -/
def reducedCost (dual : ℕ → K) (i : ℕ) : K :=
  (p.vars[i]?.map Variable.cost).getD 0 -
    ∑ c ∈ Finset.range p.constraints.size, dual c * p.coefficient c i

theorem reducedCost_eq_read (dual : ℕ → K) (i : ℕ) : p.reducedCost dual i =
    (p.read (.cost i)).getD 0 - ∑ c ∈ Finset.range p.constraints.size,
      dual c * (p.read (.coefficient c i)).getD 0 := rfl

/-- The objective is what the duals pay for the rows, and the reduced costs. -/
theorem objective_eq_dual (dual y : ℕ → K) : p.objective y =
    (∑ c ∈ Finset.range p.constraints.size, dual c * p.rowValue c y) +
      ∑ i ∈ Finset.range p.vars.size, p.reducedCost dual i * y i := by
  have hrows : ∑ c ∈ Finset.range p.constraints.size, dual c * p.rowValue c y =
      ∑ i ∈ Finset.range p.vars.size,
        (∑ c ∈ Finset.range p.constraints.size, dual c * p.coefficient c i) * y i := by
    simp only [rowValue, Finset.mul_sum, Finset.sum_mul]
    rw [Finset.sum_comm]
    exact Finset.sum_congr rfl fun i _ => Finset.sum_congr rfl fun c _ => by ring
  rw [hrows, objective, ← Finset.sum_add_distrib]
  refine Finset.sum_congr rfl fun i _ => ?_
  rw [reducedCost]
  ring

end LinearProgram

/-- A dual does not reward leaving a constraint on its open side. -/
def Relation.Admits (r : Relation) (a : K) : Prop :=
  match r with
  | .equal => True
  | .atMost => a ≤ 0
  | .atLeast => 0 ≤ a

instance (r : Relation) (a b : K) : Decidable (r.Holds a b) :=
  match r with
  | .equal => inferInstanceAs (Decidable (a = b))
  | .atMost => inferInstanceAs (Decidable (a ≤ b))
  | .atLeast => inferInstanceAs (Decidable (b ≤ a))

instance (r : Relation) (a : K) : Decidable (r.Admits a) :=
  match r with
  | .equal => inferInstanceAs (Decidable True)
  | .atMost => inferInstanceAs (Decidable (a ≤ 0))
  | .atLeast => inferInstanceAs (Decidable (0 ≤ a))

theorem Relation.Admits.pays {r : Relation} {a x b : K} (h : r.Admits a) (hx : r.Holds x b) :
    0 ≤ a * (x - b) := by
  cases r with
  | equal => simp [show x = b from hx]
  | atMost => exact mul_nonneg_of_nonpos_of_nonpos h (sub_nonpos.2 hx)
  | atLeast => exact mul_nonneg h (sub_nonneg.2 hx)

namespace LinearProgram

/-- A variable stands between its bounds, and at the bound to which its reduced cost draws it. -/
structure Variable.IsSettled (v : Variable K) (x a : K) : Prop where
  lower : ∀ b ∈ v.lower, b ≤ x
  upper : ∀ b ∈ v.upper, x ≤ b
  drawnDown : 0 < a → v.lower = some x
  drawnUp : a < 0 → v.upper = some x

/-- A constraint holds, its dual has the right sign and is zero unless the constraint is tight. -/
structure Constraint.IsSettled (r : Constraint K) (x a : K) : Prop where
  holds : r.relation.Holds x r.rhs
  admits : r.relation.Admits a
  tight : a = 0 ∨ x = r.rhs

/-- A point and duals that prove each other optimal. -/
structure IsCertificate (p : LinearProgram K) (y dual : ℕ → K) : Prop where
  vars : ∀ i v, p.vars[i]? = some v →
    Variable.IsSettled v (y i) (p.sense.unit * p.reducedCost dual i)
  rows : ∀ c r, p.constraints[c]? = some r →
    Constraint.IsSettled r (p.rowValue c y) (p.sense.unit * dual c)

namespace IsCertificate

variable {p : LinearProgram K} {y dual : ℕ → K}

theorem feasible (h : p.IsCertificate y dual) : p.Feasible y :=
  ⟨fun i v a hv ha => (h.vars i v hv).lower a ha, fun i v a hv ha => (h.vars i v hv).upper a ha,
    fun c r hr => (h.rows c r hr).holds⟩

/-- Reduced costs can only be raised by moving. -/
theorem reducedCost_le (h : p.IsCertificate y dual) {b z : ℕ → K} (hz : (p.withRhs b).Feasible z)
    {i : ℕ} (hi : i < p.vars.size) : p.sense.unit * (p.reducedCost dual i * y i) ≤
      p.sense.unit * (p.reducedCost dual i * z i) := by
  have hv : p.vars[i]? = some p.vars[i] := Array.getElem?_eq_getElem hi
  have hsettled := h.vars i _ hv
  rw [← mul_assoc, ← mul_assoc]
  rcases lt_trichotomy (p.sense.unit * p.reducedCost dual i) 0 with ha | ha | ha
  · exact mul_le_mul_of_nonpos_left (hz.upper i _ _ hv (hsettled.drawnUp ha)) ha.le
  · rw [ha, zero_mul, zero_mul]
  · exact mul_le_mul_of_nonneg_left (hz.lower i _ _ hv (hsettled.drawnDown ha)) ha.le

/-- What the duals pay for the rows at other right hand sides, compared with these. -/
theorem rows_le (h : p.IsCertificate y dual) {b z : ℕ → K} (hz : (p.withRhs b).Feasible z)
    {c : ℕ} (hc : c < p.constraints.size) :
    p.sense.unit * (dual c * p.rowValue c y + dual c * (b c - p.rhsAt c)) ≤
      p.sense.unit * (dual c * p.rowValue c z) := by
  have hr : p.constraints[c]? = some p.constraints[c] := Array.getElem?_eq_getElem hc
  have hsettled := h.rows c _ hr
  have hrhs : p.rhsAt c = p.constraints[c].rhs := by simp [rhsAt, hr]
  have hpays : 0 ≤ p.sense.unit * dual c * (p.rowValue c z - b c) := by
    have hrow := hz.row c { p.constraints[c] with rhs := b c } (by simp [withRhs, hr])
    have hvalue : (p.withRhs b).rowValue c z = p.rowValue c z := by
      simp only [rowValue, coefficient, withRhs, Array.getElem?_mapIdx, hr, Option.map_some,
        Option.bind_some]
    rw [hvalue] at hrow
    exact hsettled.admits.pays hrow
  have htight : p.sense.unit * dual c * (p.rowValue c y - p.rhsAt c) = 0 := by
    rcases hsettled.tight with h0 | h0
    · rw [h0, zero_mul]
    · rw [hrhs, h0, sub_self, mul_zero]
  linarith

/-- Weak duality, at all right hand sides at once. -/
theorem bounds (h : p.IsCertificate y dual) {b z : ℕ → K} (hz : (p.withRhs b).Feasible z) :
    p.sense.Bounds
      (p.objective y + ∑ c ∈ Finset.range p.constraints.size, dual c * (b c - p.rhsAt c))
      (p.objective z) := by
  rw [Sense.bounds_iff, p.objective_eq_dual dual y, p.objective_eq_dual dual z]
  have hvars := Finset.sum_le_sum fun i hi => h.reducedCost_le hz (Finset.mem_range.1 hi)
  have hrows := Finset.sum_le_sum fun c hc => h.rows_le hz (Finset.mem_range.1 hc)
  simp only [← Finset.mul_sum, Finset.sum_add_distrib] at hvars hrows
  linarith

theorem isOptimum (h : p.IsCertificate y dual) :
    p.sense.IsOptimum p.values (p.objective y) := by
  refine Sense.isOptimum_of_mem ⟨y, h.feasible, rfl⟩ ?_
  rintro v ⟨z, hz, rfl⟩
  have hbounds := h.bounds (b := p.rhsAt) (p.withRhs_rhsAt.symm ▸ hz)
  simpa using hbounds

/-- A certificate is about the data of a program. -/
theorem of_extends {q : LinearProgram K} (h : p.IsCertificate y dual) (hext : Extends ∅ p q)
    (hrows : q.constraints.size = p.constraints.size) : q.IsCertificate y dual := by
  have hread := hext.read_eq hrows
  have hcost : ∀ i, q.reducedCost dual i = p.reducedCost dual i := fun i => by
    rw [reducedCost_eq_read, reducedCost_eq_read, hrows, hread]
  refine ⟨fun i v hv => ?_, fun c r hr => ?_⟩
  · have hi : i < p.vars.size := hext.vars ▸ (Array.getElem?_eq_some_iff.1 hv).1
    have hu : p.vars[i]? = some p.vars[i] := Array.getElem?_eq_getElem hi
    have hlower : v.lower = p.vars[i].lower := by
      simpa [read, hv, hu] using congrFun hread (.lower i)
    have hupper : v.upper = p.vars[i].upper := by
      simpa [read, hv, hu] using congrFun hread (.upper i)
    rw [hext.sense, hcost]
    exact ⟨hlower ▸ (h.vars i _ hu).lower, hupper ▸ (h.vars i _ hu).upper,
      hlower ▸ (h.vars i _ hu).drawnDown, hupper ▸ (h.vars i _ hu).drawnUp⟩
  · have hc : c < p.constraints.size := hrows ▸ (Array.getElem?_eq_some_iff.1 hr).1
    have hu : p.constraints[c]? = some p.constraints[c] := Array.getElem?_eq_getElem hc
    have hrhs : r.rhs = p.constraints[c].rhs := by
      simpa [read, hr, hu] using congrFun hread (.rhs c)
    have hrelations : q.relations = p.relations :=
      (hext.relations.eq_of_length (by simp [hrows])).symm
    have hrelation : r.relation = p.constraints[c].relation := by
      simpa [relations, hr, hu] using congrArg (·[c]?) hrelations
    rw [hext.sense, hext.rowValue_eq hc fun _ => Set.notMem_empty _]
    exact ⟨hrelation ▸ hrhs ▸ (h.rows c _ hu).holds, hrelation ▸ (h.rows c _ hu).admits,
      hrhs ▸ (h.rows c _ hu).tight⟩

end IsCertificate

/-! ## Engines that check -/

/-- Whether a point and duals are a certificate. -/
def certifies (p : LinearProgram K) (y dual : ℕ → K) : Bool :=
  (p.vars.toList.zipIdx.all fun (v, i) =>
    let a := p.sense.unit * p.reducedCost dual i
    v.lower.all (decide <| · ≤ y i) && v.upper.all (decide <| y i ≤ ·) &&
      decide (0 < a → v.lower = some (y i)) && decide (a < 0 → v.upper = some (y i))) &&
  p.constraints.toList.zipIdx.all fun (r, c) =>
    let a := p.sense.unit * dual c
    decide (r.relation.Holds (p.rowValue c y) r.rhs) && decide (r.relation.Admits a) &&
      decide (a = 0 ∨ p.rowValue c y = r.rhs)

theorem isCertificate_of_certifies {p : LinearProgram K} {y dual : ℕ → K}
    (h : p.certifies y dual = true) : p.IsCertificate y dual := by
  simp only [certifies, Bool.and_eq_true, List.all_eq_true, decide_eq_true_iff] at h
  refine ⟨fun i v hv => ?_, fun c r hr => ?_⟩
  · have hmem : (v, i) ∈ p.vars.toList.zipIdx := by
      simpa [List.mk_mem_zipIdx_iff_getElem?] using hv
    obtain ⟨⟨⟨hlower, hupper⟩, hdown⟩, hup⟩ := h.1 _ hmem
    exact ⟨fun b hb => by simpa [Option.mem_def.1 hb] using hlower,
      fun b hb => by simpa [Option.mem_def.1 hb] using hupper, hdown, hup⟩
  · have hmem : (r, c) ∈ p.constraints.toList.zipIdx := by
      simpa [List.mk_mem_zipIdx_iff_getElem?] using hr
    obtain ⟨⟨hholds, hadmits⟩, htight⟩ := h.2 _ hmem
    exact ⟨hholds, hadmits, htight⟩

theorem IsCertificate.certifies {p : LinearProgram K} {y dual : ℕ → K}
    (h : p.IsCertificate y dual) : p.certifies y dual = true := by
  simp only [LinearProgram.certifies, Bool.and_eq_true, List.all_eq_true, decide_eq_true_iff]
  refine ⟨fun (v, i) hv => ?_, fun (r, c) hr => ?_⟩
  · have hsettled := h.vars i v (by simpa [List.mk_mem_zipIdx_iff_getElem?] using hv)
    exact ⟨⟨⟨by simpa [Option.all_eq_true] using hsettled.lower,
      by simpa [Option.all_eq_true] using hsettled.upper⟩, hsettled.drawnDown⟩, hsettled.drawnUp⟩
  · have hsettled := h.rows c r (by simpa [List.mk_mem_zipIdx_iff_getElem?] using hr)
    exact ⟨⟨hsettled.holds, hsettled.admits⟩, hsettled.tight⟩

end LinearProgram

/-- An engine that answers with a candidate if it comes with a certificate, and gives up
otherwise. -/
def Engine.certified (candidate : ℕ → LinearProgram K → Array K × Array K) : Engine K where
  solve call _ p :=
    let (y, dual) := candidate call p
    if p.certifies (y[·]?.getD 0) (dual[·]?.getD 0) then
      .optimal ⟨p.objective (y[·]?.getD 0), y, dual⟩
    else .infeasible
  elapsed _ := 0
  interval _ _ := .ok (0, 0)

namespace Engine

variable {candidate : ℕ → LinearProgram K → Array K × Array K}

theorem isCertificate_of_certified {call : ℕ} {reductions : Bool} {p : LinearProgram K}
    {s : Solution K} (h : (certified candidate).solve call reductions p = .optimal s) :
    p.IsCertificate (s.primal[·]?.getD 0) s.dualAt ∧
      s.value = p.objective (s.primal[·]?.getD 0) := by
  simp only [certified] at h
  split_ifs at h with hcheck
  obtain rfl := Outcome.optimal.inj h
  exact ⟨LinearProgram.isCertificate_of_certifies hcheck, rfl⟩

theorem isExact_certified : (certified candidate).IsExact := by
  intro call reductions p s _ h
  obtain ⟨hcertificate, hvalue⟩ := isCertificate_of_certified h
  exact hvalue ▸ hcertificate.isOptimum

end Engine

/-- The engine with another verdict on programs that it has no solution for. -/
def Engine.orUnbounded (engine : Engine K) : Engine K :=
  { engine with
    solve := fun call reductions p => match engine.solve call reductions p with
      | .optimal s => .optimal s
      | _ => .unbounded }

namespace Engine

variable {engine : Engine K}

omit [ExactNumeral K] in
theorem orUnbounded_eq_optimal {call : ℕ} {reductions : Bool} {p : LinearProgram K} {s : Solution K} :
    engine.orUnbounded.solve call reductions p = .optimal s ↔
      engine.solve call reductions p = .optimal s := by
  simp only [orUnbounded]
  cases engine.solve call reductions p <;> simp

theorem IsExact.orUnbounded (h : engine.IsExact) : engine.orUnbounded.IsExact :=
  fun call reductions p s hp hs => h call reductions p s hp (orUnbounded_eq_optimal.1 hs)

end Engine

end DualDynamic
