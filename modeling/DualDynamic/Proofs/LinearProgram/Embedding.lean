import DualDynamic.Proofs.LinearProgram.Duality

/-!
# Programs within programs

`Embeds D p q` says that `q` has the variables and the constraints of `p`, perhaps with more of both
behind, that no new variable occurs in an old constraint, and that all numbers of `p` are the same in
`q` outside `D`. Unlike an extension, an embedding leaves room for variables that stand for the cost
of what is still to come.

A feasible point of `p` is one of `q` at the same right hand sides, once values of the new variables
are added that respect the new bounds and constraints (`Embeds.feasible_withRhs`). Its objective is
the one in `p` and what the new variables cost (`Embeds.objective_eq`).
-/

namespace DualDynamic

namespace LinearProgram

variable {K : Type} [ExactNumeral K]

/-- The program `q` is `p` with more variables, more constraints and other numbers in `D`. -/
structure Embeds (D : Set Cell) (p q : LinearProgram K) : Prop where
  sense : q.sense = p.sense
  vars : p.vars.size ≤ q.vars.size
  relations : p.relations <+: q.relations
  read : ∀ d ∉ D, d.IsWithin p.constraints.size → d.IsAmong p.vars.size → q.read d = p.read d
  apart : ∀ c i, c < p.constraints.size → p.vars.size ≤ i → q.coefficient c i = 0

/-- A variable that does not occur in a constraint has the coefficient zero. -/
theorem coefficient_eq_zero {p : LinearProgram K} {n c i : ℕ}
    (hterms : ∀ r ∈ p.constraints, ∀ t ∈ r.terms, t.1 < n) (hi : n ≤ i) : p.coefficient c i = 0 := by
  unfold coefficient
  cases hrow : p.constraints[c]? with
  | none => simp
  | some r =>
    have hnone : r.terms.lookup i = none := by
      refine List.lookup_eq_none_iff.2 fun t ht => ?_
      have hlt := hterms r (Array.mem_of_getElem? hrow) t ht
      exact bne_iff_ne.2 (by omega)
    simp [hnone]

namespace Embeds

variable {D D' : Set Cell} {p q r : LinearProgram K} {f : LinearProgram K → LinearProgram K}
  {d : Cell}

theorem rows (h : Embeds D p q) : p.constraints.size ≤ q.constraints.size := by
  simpa using h.relations.length_le

theorem mono (h : Embeds D p q) (hD : D ⊆ D') : Embeds D' p q :=
  { h with read := fun d hd => h.read d fun h' => hd (hD h') }

/-- A program whose constraints are about its own variables. -/
theorem refl (hterms : ∀ r ∈ p.constraints, ∀ t ∈ r.terms, t.1 < p.vars.size) (D : Set Cell) :
    Embeds D p p :=
  ⟨rfl, le_rfl, List.prefix_rfl, fun _ _ _ _ => rfl, fun _ _ _ hi => coefficient_eq_zero hterms hi⟩

/-- A new variable. -/
theorem addVariable (hterms : ∀ r ∈ p.constraints, ∀ t ∈ r.terms, t.1 < p.vars.size)
    (v : Variable K) (D : Set Cell) : Embeds D p (p.addVariable v) where
  sense := rfl
  vars := by simp [LinearProgram.addVariable]
  relations := List.prefix_rfl
  read d _ _ hd := by
    cases d with
    | rhs c => rfl
    | coefficient c i => rfl
    | _ =>
      have hi := hd _ rfl
      simp [LinearProgram.read, LinearProgram.addVariable, Array.getElem?_push, hi.ne]
  apart _ _ _ hi := coefficient_eq_zero (p := p) hterms hi

theorem extends_right (h : Embeds D p q) (h' : Extends D' q r) (hD : D ⊆ D')
    (hapart : ∀ c i, .coefficient c i ∈ D' → i < p.vars.size) : Embeds D' p r where
  sense := h'.sense.trans h.sense
  vars := h.vars.trans h'.vars.ge
  relations := h.relations.trans h'.relations
  read d hd hrow hcolumn := (h'.read d hd (hrow.mono h.rows)).trans
    (h.read d (fun h => hd (hD h)) hrow hcolumn)
  apart c i hc hi := by
    have hread : some (r.coefficient c i) = some (q.coefficient c i) :=
      h'.read (.coefficient c i) (fun hmem => absurd (hapart c i hmem) (by omega))
        (Cell.isWithin_coefficient.2 (hc.trans_le h.rows))
    rw [Option.some.inj hread, h.apart c i hc hi]

/-! ## Writing -/

/-- Whatever is written to a cell of `D` in the smaller program makes no difference. -/
theorem write_left (h : Embeds D p q) (hf : WritesCell f d) (hd : d ∈ D) : Embeds D (f p) q := by
  have hvars : (f p).vars.size = p.vars.size := by
    simpa using congrArg List.length (hf.kinds p)
  refine ⟨h.sense.trans (hf.sense p).symm, hvars.trans_le h.vars,
    (hf.relations p).symm ▸ h.relations, fun d' hd' hrow hcolumn => ?_, fun c i hc hi => ?_⟩
  · rw [Extends.size_write hf] at hrow
    rw [hvars] at hcolumn
    exact (h.read d' hd' hrow hcolumn).trans (hf.other p d' fun h' => hd' (h' ▸ hd)).symm
  · rw [Extends.size_write hf] at hc
    exact h.apart c i hc (hvars ▸ hi)

/-- Nor does what is written to a new variable in the larger program. -/
theorem setCost_right (h : Embeds D p q) {i : ℕ} (hi : p.vars.size ≤ i) (x : K) :
    Embeds D p (q.setCost i x) where
  sense := h.sense
  vars := by simpa [setCost, changeVariable] using h.vars
  relations := h.relations
  read d hd hrow hcolumn := by
    rw [← h.read d hd hrow hcolumn]
    refine (writesCell_setCost i x).other q d fun h => ?_
    subst h
    have := hcolumn i rfl
    omega
  apart := h.apart

/-- Writing the same to a cell of both programs makes them agree there. -/
theorem write_both (h : Embeds D p q) (hf : WritesCell f d) (hrow : d.IsWithin p.constraints.size)
    (hcolumn : d.IsAmong p.vars.size) : Embeds (D \ {d}) (f p) (f q) := by
  have hvars : ∀ p : LinearProgram K, (f p).vars.size = p.vars.size := fun p => by
    simpa using congrArg List.length (hf.kinds p)
  refine ⟨by rw [hf.sense, hf.sense, h.sense], by rw [hvars, hvars]; exact h.vars,
    by rw [hf.relations, hf.relations]; exact h.relations, fun d' hd' hrow' hcolumn' => ?_,
    fun c i hc hi => ?_⟩
  · rw [Extends.size_write hf] at hrow'
    rw [hvars] at hcolumn'
    by_cases hdd : d' = d
    · subst hdd
      exact hf.same q p (fun i hi => ⟨fun _ => hcolumn i hi, fun hlt => hlt.trans_le h.vars⟩)
        (hrow.mono h.rows) hrow
    · rw [hf.other q d' hdd, hf.other p d' hdd]
      exact h.read d' (fun h' => hd' ⟨h', hdd⟩) hrow' hcolumn'
  · rw [Extends.size_write hf] at hc
    rw [hvars] at hi
    have hother : .coefficient c i ≠ d := fun heq => by
      have := hcolumn i (heq ▸ rfl)
      omega
    have hread : some ((f q).coefficient c i) = some (q.coefficient c i) := hf.other q _ hother
    rw [Option.some.inj hread, h.apart c i hc hi]

/-! ## Points -/

variable {y z : ℕ → K}

/-- Sums over the variables of the larger program, split where the new variables begin. -/
theorem sum_vars (h : Embeds D p q) (g : ℕ → K) : ∑ i ∈ Finset.range q.vars.size, g i =
    (∑ i ∈ Finset.range p.vars.size, g i) +
      ∑ i ∈ Finset.Ico p.vars.size q.vars.size, g i :=
  (Finset.sum_range_add_sum_Ico g h.vars).symm

theorem objective_eq (h : Embeds D p q) (hD : ∀ i, .cost i ∉ D)
    (hz : ∀ i < p.vars.size, z i = y i) : q.objective z = p.objective y +
      ∑ i ∈ Finset.Ico p.vars.size q.vars.size, (q.read (.cost i)).getD 0 * z i := by
  rw [objective_eq_read, objective_eq_read, h.sum_vars]
  congr 1
  refine Finset.sum_congr rfl fun i hi => ?_
  have hi := Finset.mem_range.1 hi
  rw [h.read _ (hD i) Cell.isWithin_cost (Cell.isAmong_cost.2 hi), hz i hi]

theorem rowValue_eq (h : Embeds D p q) (hD : ∀ c i, .coefficient c i ∉ D)
    (hz : ∀ i < p.vars.size, z i = y i) {c : ℕ} (hc : c < p.constraints.size) :
    q.rowValue c z = p.rowValue c y := by
  have hnew : ∑ i ∈ Finset.Ico p.vars.size q.vars.size, q.coefficient c i * z i = 0 :=
    Finset.sum_eq_zero fun i hi => by rw [h.apart c i hc (Finset.mem_Ico.1 hi).1, zero_mul]
  rw [rowValue, rowValue, h.sum_vars, hnew, add_zero]
  refine Finset.sum_congr rfl fun i hi => ?_
  have hi := Finset.mem_range.1 hi
  have hread : some (q.coefficient c i) = some (p.coefficient c i) :=
    h.read _ (hD c i) (Cell.isWithin_coefficient.2 hc) (Cell.isAmong_coefficient.2 hi)
  rw [Option.some.inj hread, hz i hi]

/-- A feasible point of the smaller program, with values of the new variables, is feasible in the
larger one at the same right hand sides. -/
theorem feasible_withRhs (h : Embeds D p q) (hD : ∀ d ∈ D, ∃ c, d = .rhs c) {b : ℕ → K}
    (hb : ∀ c < p.constraints.size, b c = p.rhsAt c) (hy : p.Feasible y)
    (hz : ∀ i < p.vars.size, z i = y i)
    (hvars : ∀ i v, p.vars.size ≤ i → q.vars[i]? = some v →
      (∀ a ∈ v.lower, a ≤ z i) ∧ ∀ a ∈ v.upper, z i ≤ a)
    (hrows : ∀ c r, p.constraints.size ≤ c → q.constraints[c]? = some r →
      r.relation.Holds (q.rowValue c z) (b c)) : (q.withRhs b).Feasible z := by
  have hD' : ∀ d ∈ D, ∃ c, Cell.rhs c = d := fun d hd => (hD d hd).imp fun _ => Eq.symm
  obtain ⟨hlower, hupper, hrow⟩ := feasible_iff_read.1 hy
  refine ⟨fun i v a hv ha => ?_, fun i v a hv ha => ?_, fun c r hr => ?_⟩
  · by_cases hi : i < p.vars.size
    · have hread : p.read (.lower i) = some a := by
        rw [← h.read _ (fun hd => by simpa using hD' _ hd) Cell.isWithin_lower
          (Cell.isAmong_lower.2 hi)]
        exact Option.bind_eq_some_iff.2 ⟨v, hv, ha⟩
      exact hz i hi ▸ hlower i a hread
    · exact (hvars i v (by omega) hv).1 a ha
  · by_cases hi : i < p.vars.size
    · have hread : p.read (.upper i) = some a := by
        rw [← h.read _ (fun hd => by simpa using hD' _ hd) Cell.isWithin_upper
          (Cell.isAmong_upper.2 hi)]
        exact Option.bind_eq_some_iff.2 ⟨v, hv, ha⟩
      exact hz i hi ▸ hupper i a hread
    · exact (hvars i v (by omega) hv).2 a ha
  · have hvalue : (q.withRhs b).rowValue c z = q.rowValue c z := by
      simp only [rowValue, coefficient, withRhs, Array.getElem?_mapIdx]
      cases q.constraints[c]? <;> rfl
    obtain ⟨r, hq, rfl⟩ : ∃ r', q.constraints[c]? = some r' ∧ r = { r' with rhs := b c } := by
      simpa [withRhs, eq_comm] using hr
    rw [hvalue]
    by_cases hc : c < p.constraints.size
    · rw [h.rowValue_eq (fun _ _ hd => by simpa using hD' _ hd) hz hc, hb c hc]
      obtain ⟨row, hp⟩ : ∃ row, p.constraints[c]? = some row := ⟨_, Array.getElem?_eq_getElem hc⟩
      have hrelation : p.relations[c]? = some r.relation := by
        obtain ⟨more, hmore⟩ := h.relations
        have hrelation : q.relations[c]? = some r.relation := by
          simp [LinearProgram.relations, hq]
        have hlt : c < p.relations.length := by simpa using hc
        rwa [← hmore, List.getElem?_append_left hlt] at hrelation
      exact hrow c r.relation (p.rhsAt c) hrelation (by simp [LinearProgram.read, rhsAt, hp])
    · exact hrows c r (by omega) hq

theorem rhsAt_eq (h : Embeds D p q) {c : ℕ} (hc : c < p.constraints.size) (hD : .rhs c ∉ D) :
    q.rhsAt c = p.rhsAt c := by
  have hread := h.read _ hD (Cell.isWithin_rhs.2 hc) Cell.isAmong_rhs
  exact congrArg (·.getD 0) hread

/-- The right hand sides of `p`, continued by those of `q`. -/
def rhsOver (p q : LinearProgram K) (c : ℕ) : K :=
  if c < p.constraints.size then p.rhsAt c else q.rhsAt c

theorem rhsOver_eq {links : List ℕ} (h : Embeds {d | ∃ c ∈ links, d = .rhs c} p q) {c : ℕ}
    (hc : c ∉ links) : rhsOver p q c = q.rhsAt c := by
  unfold rhsOver
  split_ifs with hlt
  · exact (h.rhsAt_eq hlt (by simpa using hc)).symm
  · rfl

/-- The links are all that counts when the right hand sides of `p` replace those of `q`. -/
theorem sum_rhsOver {links : List ℕ} (h : Embeds {d | ∃ c ∈ links, d = .rhs c} p q)
    (hnodup : links.Nodup) (hlinks : ∀ c ∈ links, c < p.constraints.size) (a : ℕ → K) :
    ∑ c ∈ Finset.range q.constraints.size, a c * (rhsOver p q c - q.rhsAt c) =
      (links.map fun c => a c * (p.rhsAt c - q.rhsAt c)).sum := by
  have hrange : links.toFinset ⊆ Finset.range q.constraints.size := fun c hc =>
    Finset.mem_range.2 ((hlinks c (List.mem_toFinset.1 hc)).trans_le h.rows)
  have hrest : ∀ c ∈ Finset.range q.constraints.size, c ∉ links.toFinset →
      a c * (rhsOver p q c - q.rhsAt c) = 0 := fun c _ hc => by
    rw [h.rhsOver_eq fun hmem => hc (List.mem_toFinset.2 hmem), sub_self, mul_zero]
  rw [← Finset.sum_subset hrange hrest, ← List.sum_toFinset _ hnodup]
  refine Finset.sum_congr rfl fun c hc => ?_
  rw [rhsOver, if_pos (hlinks c (List.mem_toFinset.1 hc))]

/-- What the duals of a solution of the larger program say about the smaller one. The two may differ in
the right hand sides of some equations, the links. -/
theorem bounds {links : List ℕ} (h : Embeds {d | ∃ c ∈ links, d = .rhs c} p q)
    (hnodup : links.Nodup) (hlinks : ∀ c ∈ links, c < p.constraints.size)
    (hequal : ∀ c ∈ links, q.relations[c]? = some .equal) {engine : Engine K}
    (hduals : engine.HasDuals) (hq : q.IsContinuous) {call : ℕ} {reductions : Bool} {s : Solution K}
    (hs : engine.solve call reductions q = .optimal s) (hy : p.Feasible y)
    (hz : ∀ i < p.vars.size, z i = y i)
    (hvars : ∀ i v, p.vars.size ≤ i → q.vars[i]? = some v →
      (∀ a ∈ v.lower, a ≤ z i) ∧ ∀ a ∈ v.upper, z i ≤ a)
    (hrows : ∀ c r, p.constraints.size ≤ c → q.constraints[c]? = some r →
      r.relation.Holds (q.rowValue c z) r.rhs) :
    q.sense.Bounds (s.value + (links.map fun c => s.dualAt c * (p.rhsAt c - q.rhsAt c)).sum)
      (q.objective z) := by
  have hfeasible : (q.withRhs (rhsOver p q)).Feasible z := by
    refine h.feasible_withRhs (fun d ⟨c, _, hd⟩ => ⟨c, hd⟩) (fun c hc => if_pos hc) hy hz hvars
      fun c r hc hr => ?_
    have hrhs : rhsOver p q c = r.rhs := by
      rw [rhsOver, if_neg (by omega)]
      simp [rhsAt, hr]
    exact hrhs ▸ hrows c r hc hr
  have hbounds := hduals call reductions q s hq hs (rhsOver p q) z
    (fun c hc => h.rhsOver_eq fun hmem => hc (hequal c hmem)) hfeasible
  rwa [h.sum_rhsOver hnodup hlinks] at hbounds

end Embeds

end LinearProgram

end DualDynamic
