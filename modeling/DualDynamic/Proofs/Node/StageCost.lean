import DualDynamic.Proofs.CostToGo.Envelope
import DualDynamic.Proofs.Node.Data
import DualDynamic.Proofs.PolicyGraph.Sound
import DualDynamic.Proofs.Subproblem.Verdict

/-!
# What the cost of a stage is made of

The cost of a stage is the optimal value less the cost-to-go, and both are read off the last solution. The
value is the objective at this solution; the cost-to-go is weighed as it was when the price was set. So
what is left is the objective without the variables that stand for the cost-to-go
(`Node.isCharged_of_observeDecision`), as long as nobody but the price writes to the costs of these variables: no name
stands for one of them (`CostToGo.IsApart`), so no noise, no rule and no action can.

The coefficients of the other variables are those that the node was set up with, unless a retry came in
between (`Subproblem.Answered`).
-/

namespace DualDynamic

open Step

variable {K : Type}

/-! ## Solutions as points -/

section Exact

variable [ExactNumeral K]

/-- The values of the variables in a solution. -/
def Solution.point (s : Solution K) (i : ℕ) : K := s.primal[i]?.getD 0

/-- The values of variables are the coordinates of the solution. -/
theorem Subproblem.eq_point_of_valueOf {m : Subproblem K} {s : Solution K}
    (hs : m.solution = some s) {i : ℕ} {x : K} (h : m.valueOf i = .ok x) : x = s.point i := by
  obtain ⟨t, ht, h⟩ := exceptBind_eq_ok.1 h
  obtain rfl : s = t := by simpa [currentSolution, hs] using ht
  cases hx : s.primal[i]? with
  | none => simp [hx] at h
  | some y =>
    simp only [hx] at h
    rw [Solution.point, hx]
    exact (Except.ok.inj h).symm

/-- The value of an optimal solution is the objective at its point. -/
def Engine.HasPoints (engine : Engine K) : Prop :=
  ∀ call reductions p s, engine.solve call reductions p = .optimal s → s.value = p.objective s.point

theorem Engine.hasPoints_certified {candidate : ℕ → LinearProgram K → Array K × Array K} :
    (certified candidate).HasPoints :=
  fun _ _ _ _ h => (isCertificate_of_certified h).2

theorem Engine.HasPoints.orUnbounded {engine : Engine K} (h : engine.HasPoints) :
    engine.orUnbounded.HasPoints :=
  fun call reductions p s hs => h call reductions p s (orUnbounded_eq_optimal.1 hs)

namespace LinearProgram

/-- The objective at a point without some of the variables. -/
def objectiveWithout (p : LinearProgram K) (xs : List ℕ) (y : ℕ → K) : K :=
  ∑ i ∈ Finset.range p.vars.size with i ∉ xs, (p.read (.cost i)).getD 0 * y i

theorem objectiveWithout_nil (p : LinearProgram K) (y : ℕ → K) :
    p.objectiveWithout [] y = p.objective y := by
  simp [objectiveWithout, objective_eq_read]

/-- What these variables contribute makes up for the rest. -/
theorem objectiveWithout_add {p : LinearProgram K} {xs : List ℕ} (hnodup : xs.Nodup)
    (hthere : ∀ x ∈ xs, x < p.vars.size) (y : ℕ → K) :
    p.objectiveWithout xs y + (xs.map fun x => (p.read (.cost x)).getD 0 * y x).sum =
      p.objective y := by
  have hxs : (Finset.range p.vars.size).filter (· ∈ xs) = xs.toFinset := by
    ext x
    simp only [Finset.mem_filter, Finset.mem_range, List.mem_toFinset]
    exact ⟨fun h => h.2, fun h => ⟨hthere x h, h⟩⟩
  rw [objective_eq_read, ← Finset.sum_filter_add_sum_filter_not _ (· ∈ xs), hxs,
    List.sum_toFinset _ hnodup, add_comm]
  rfl

end LinearProgram

end Exact

/-! ## What a solve has solved -/

namespace Subproblem

section Runs

variable [Numeral K] {engine : Engine K} {m : Subproblem K} {p : LinearProgram K}

/-- The subproblem has the optimal solution of its program. And this is the program `p`, unless the engine
came to no answer for `p` and a retry had it solved again: then it is `p` but for cells that the actions
of the retry write to. -/
structure Answered (engine : Engine K) (p : LinearProgram K) (s : Solution K) (m : Subproblem K) :
    Prop where
  solution : m.solution = some s
  optimal : engine.Answers m.program (.optimal s)
  program : m.program = p ∨ (∃ o, engine.Answers p o ∧ o.IsUnclear) ∧
    (∃ r ∈ m.retry, r.answer = true) ∧ LinearProgram.Extends m.retryCells p m.program

/-- A cell that no action of a retry writes to is solved as it was set up. -/
theorem Answered.read_eq {s : Solution K} (h : m.Answered engine p s) {d : Cell}
    (hd : d ∉ m.retryCells) (hwithin : d.IsWithin p.constraints.size) :
    m.program.read d = p.read d := by
  rcases h.program with hsame | ⟨-, -, hext⟩
  · rw [hsame]
  · exact hext.read d hd hwithin

theorem Answered.size_eq {s : Solution K} (h : m.Answered engine p s) :
    m.program.vars.size = p.vars.size := by
  rcases h.program with hsame | ⟨-, -, hext⟩
  · rw [hsame]
  · exact hext.vars

theorem retry_of_askRetry {u v : Watched (Subproblem K)} {status : ℕ}
    (h : askRetry status u = .ok true v) : ∃ r ∈ u.part.retry, r.answer = true := by
  rw [askRetry, Run.part_bind_apply] at h
  cases hr : u.part.retry with
  | none =>
    simp only [hr] at h
    cases h
  | some r =>
    simp only [hr] at h
    obtain ⟨_, _, -, h⟩ := bind_eq_ok.1 h
    obtain ⟨_, _, -, h⟩ := bind_eq_ok.1 h
    obtain ⟨hanswer, -⟩ := EStateM.Result.ok.inj h
    exact ⟨r, rfl, hanswer⟩

/-- A retry leaves the subproblem of the first answer as it was, but for what its actions write to. -/
theorem extends_of_askRetry {w u v : Watched (Subproblem K)} {rows status : ℕ} {o : Outcome K}
    {b : Bool} (hwell : w.part.WellFormed rows) (hknows : Knows engine w.part o u.part)
    (h : askRetry status u = .ok b v) : Extends w.part.retryCells w.part v.part := by
  have hblind : IsBlind w.part.retryCells (Extends w.part.retryCells w.part) :=
    isBlind_extends subset_rfl w.part
  have hkeeps := keeps_askRetry_of_isBlind hwell hblind (fun _ hm => hm.outline) status
  exact hkeeps.of_ok (s := u) (hblind _ _ (hknows.like.touches _) (.refl _ _)) h

/-- The answer to a program that is solved once more belongs to a program that the actions of the retry may
have changed. -/
theorem answered_of_granted {w u u' : Watched (Subproblem K)} {rows : ℕ} {o : Outcome K}
    {s : Solution K} (hwell : w.part.WellFormed rows) (hknows : Knows engine w.part o u.part)
    (ho : o.IsUnclear) (hgranted : askRetry o.status u = .ok true u')
    (hlast : (attemptAt engine u').outcome = .optimal s) :
    (attempted engine u').part.Answered engine w.part.program s := by
  have hext : Extends w.part.retryCells w.part u'.part := extends_of_askRetry hwell hknows hgranted
  have hcells : u'.part.retryCells = w.part.retryCells := retryCells_of_outline hext.outline
  have hretry : u'.part.retry = u.part.retry :=
    retry_of_outline (hext.outline.trans hknows.like.1.symm)
  refine ⟨?_, ⟨_, _, hlast⟩, Or.inr ⟨⟨o, hknows.answers, ho⟩, ?_, ?_⟩⟩
  · rw [attempted, hlast]
    rfl
  · show ∃ r ∈ u'.part.retry, r.answer = true
    rw [hretry]
    exact retry_of_askRetry hgranted
  · show LinearProgram.Extends u'.part.retryCells _ _
    rw [hcells]
    exact hext.program

/-- The value of a solve is that of the solution it leaves behind. -/
theorem answered_of_solve {w w' : Watched (Subproblem K)} {rows : ℕ}
    (hwell : w.part.WellFormed rows) {stage markov : Option ℤ} {v : K}
    (h : solve engine stage markov w = .ok v w') :
    w'.part.outline = w.part.outline ∧
      ∃ s, s.value = v ∧ w'.part.Answered engine w.part.program s := by
  have hattempt : attempt (solve engine stage markov) w = (.ok v, w') := by rw [attempt, h]
  obtain ⟨o, c, u, hrun, -⟩ := exists_decided engine w
  have hknows : Knows engine w.part o u.part :=
    ensures_optimizeDecided.of_ok (s := w) ⟨rfl, rfl⟩ hrun
  by_cases ho : o.IsUnclear
  · -- The retry was asked, and the program was solved once more.
    rw [attempt_solve_of_isUnclear ho hrun] at hattempt
    obtain ⟨asked, u', -, hrefused | ⟨-, hgranted⟩ | ⟨_, _, _, _, _, _, hfails⟩⟩ :=
      askRetry_cases o.status u
    · rw [attempt_followUp_of_refused hrefused] at hattempt
      cases (Prod.mk.inj hattempt).1
    · rw [attempt_followUp_of_granted hgranted] at hattempt
      obtain ⟨hvalue, rfl⟩ := Prod.mk.inj hattempt
      refine ⟨(extends_of_askRetry hwell hknows hgranted).outline, ?_⟩
      cases hlast : (attemptAt engine u').outcome with
      | optimal s =>
        rw [hlast] at hvalue
        exact ⟨s, Except.ok.inj hvalue, answered_of_granted hwell hknows ho hgranted hlast⟩
      | _ =>
        rw [hlast] at hvalue
        cases hvalue
    · rw [attempt_followUp_of_error hfails] at hattempt
      cases (Prod.mk.inj hattempt).1
  · -- The first answer was a solution.
    rw [attempt_solve_of_not_isUnclear ho hrun] at hattempt
    obtain ⟨hvalue, rfl⟩ := Prod.mk.inj hattempt
    refine ⟨hknows.like.1, ?_⟩
    cases o with
    | optimal s =>
      refine ⟨s, Except.ok.inj hvalue, hknows.solution, ?_, Or.inl hknows.like.2⟩
      rw [hknows.like.2]
      exact hknows.answers
    | _ => cases hvalue

end Runs

/-- The optimal value is the objective at the point of the solution. -/
theorem Answered.objective_eq_ok [ExactNumeral K] {engine : Engine K} {m : Subproblem K}
    {p : LinearProgram K} {s : Solution K} (h : m.Answered engine p s) (hpoints : engine.HasPoints) :
    m.objective = .ok (m.program.objective s.point) := by
  obtain ⟨call, reductions, hs⟩ := h.optimal
  rw [objective, currentSolution, h.solution, ← hpoints call reductions _ s hs]
  rfl

end Subproblem

/-! ## Variables that no name stands for -/

namespace CostToGo

/-- The variables that stand for the cost-to-go are variables of the subproblem, each once, and no name
stands for one of them. -/
structure IsApart (v : CostToGo K) (m : Subproblem K) : Prop where
  distinct : v.vars.Nodup
  there : ∀ x ∈ v.vars, x < m.program.vars.size
  unnamed : ∀ e ∈ m.variableNames, e.2 ∉ v.vars

variable {v : CostToGo K} {m : Subproblem K}

theorem isApart_of_nil (h : v.vars = []) (m : Subproblem K) : v.IsApart m := by
  constructor <;> simp [h]

/-- So no action of a retry writes to their costs. -/
theorem IsApart.notMem_retryCells (h : v.IsApart m) {x : ℕ} (hx : x ∈ v.vars) :
    Cell.cost x ∉ m.retryCells := by
  rintro ⟨r, -, a, -, hd⟩
  cases a with
  | cost name rule =>
    obtain ⟨i, hi, heq⟩ := hd
    obtain rfl := Cell.cost.inj heq
    obtain ⟨e, he, rfl⟩ := Subproblem.lookup_mem (Subproblem.variableNamed_eq_ok.1 hi)
    exact h.unnamed e he hx
  | rhs c rule =>
    obtain ⟨i, -, heq⟩ := hd
    cases heq
  | lower name rule =>
    obtain ⟨i, -, heq⟩ := hd
    cases heq
  | upper name rule =>
    obtain ⟨i, -, heq⟩ := hd
    cases heq
  | coefficient c name rule =>
    obtain ⟨i, j, -, -, heq⟩ := hd
    cases heq
  | interruptAt count => exact hd

/-! ## The cost-to-go in a solution -/

section Exact

variable [ExactNumeral K] {v : CostToGo K} {m m' : Subproblem K} {s : Solution K} {price : Option K}
  {ws : List (ℕ × K)}

/-- The value of an expression in the variables that stand for the cost-to-go, at a point. -/
def expressionAt (v : CostToGo K) (y : ℕ → K) : ℕ ⊕ List (ℕ × K) → K
  | .inl i => y (v.vars.getD i 0)
  | .inr terms => (terms.map fun t => t.2 * y (v.vars.getD t.1 0)).sum

/-- A single rib has all the weight. -/
theorem weights_of_ribCount (hone : v.ribCount = 1) (h : v.weights price = .ok ws) :
    ws = [(0, 1)] := by
  unfold weights at h
  cases hp : v.pricing with
  | none =>
    rw [hp] at h
    simpa using (Except.ok.inj h).symm
  | some p =>
    rw [hp] at h
    have hribs : p.ribs.length = 1 := by rwa [ribCount, hp] at hone
    simpa [Pricing.weights, hribs, eq_comm] using h

/-- The expression of the cost-to-go at a price is the weighted sum of the variables. -/
theorem exists_interpolation (hws : v.weights price = .ok ws) (hlt : ∀ w ∈ ws, w.1 < v.vars.length) :
    ∃ e, v.interpolation price = .ok e ∧
      ∀ y, v.expressionAt y e = (ws.map fun w => w.2 * y (v.vars.getD w.1 0)).sum := by
  have hany : ¬ (ws.any fun w => decide (v.vars.length ≤ w.1)) = true := by
    rw [List.any_eq_true]
    rintro ⟨w, hw, hle⟩
    exact absurd (hlt w hw) (not_lt.2 (of_decide_eq_true hle))
  refine ⟨_, exceptBind_eq_ok.2 ⟨ws, hws, if_neg hany⟩, fun y => ?_⟩
  by_cases hone : v.ribCount = 1
  · rw [weights_of_ribCount hone hws]
    simp [hone, expressionAt]
  · simp [hone, expressionAt]

/-- The cost-to-go at a price is that sum, at the point of the solution. -/
theorem futureCost_eq_ok (hs : m.solution = some s) {c : K} (h : v.futureCost price m = .ok c) :
    ∃ ws, v.weights price = .ok ws ∧ (∀ w ∈ ws, w.1 < v.vars.length) ∧
      (ws.map fun w => w.2 * s.point (v.vars.getD w.1 0)).sum = c := by
  obtain ⟨ws, hws, h⟩ := exceptBind_eq_ok.1 h
  obtain ⟨parts, hparts, h⟩ := exceptBind_eq_ok.1 h
  obtain rfl := Except.ok.inj h
  have hall : List.Forall₂ (fun (w : ℕ × K) part => w.1 < v.vars.length ∧
      w.2 * s.point (v.vars.getD w.1 0) = part) ws parts := by
    refine (forall₂_of_mapM hparts).imp fun w part hpart => ?_
    cases hx : v.vars[w.1]? with
    | none => simp [hx] at hpart
    | some x =>
      simp only [hx] at hpart
      obtain ⟨y, hy, hpart⟩ := exceptBind_eq_ok.1 hpart
      obtain rfl := Except.ok.inj hpart
      obtain ⟨hlt, rfl⟩ := List.getElem?_eq_some_iff.1 hx
      refine ⟨hlt, ?_⟩
      rw [List.getD_eq_getElem _ _ hlt, ← Subproblem.eq_point_of_valueOf hs hy]
  refine ⟨ws, hws, fun w hw => ?_, ?_⟩
  · obtain ⟨part, -, hlt, -⟩ := exists_left_of_forall₂ hall.flip hw
    exact hlt
  · have hparts : ws.map (fun w => w.2 * s.point (v.vars.getD w.1 0)) = parts :=
      List.forall₂_eq_eq_eq ▸ List.forall₂_map_left_iff.2 (hall.imp fun _ _ hpart => hpart.2)
    rw [hparts, Scalar.sum_eq]

/-- The cost-to-go at a price is the value of its expression at the point of the solution. -/
theorem exists_interpolation_of_futureCost (hs : m.solution = some s) {c : K}
    (h : v.futureCost price m = .ok c) :
    ∃ e, v.interpolation price = .ok e ∧ v.expressionAt s.point e = c := by
  obtain ⟨ws, hws, hlt, rfl⟩ := futureCost_eq_ok hs h
  obtain ⟨e, he, hsame⟩ := exists_interpolation hws hlt
  exact ⟨e, he, hsame _⟩

/-- The objective at a location is the cost-to-go and what the other variables contribute. -/
theorem IsApart.objective_eq {p : LinearProgram K} (h : v.IsApart m')
    (hset : v.setLocation price m = .ok m') (hws : v.weights price = .ok ws)
    (hsize : p.vars.size = m'.program.vars.size)
    (hcost : ∀ x ∈ v.vars, p.read (.cost x) = m'.program.read (.cost x)) (y : ℕ → K) :
    p.objectiveWithout v.vars y + (ws.map fun w => w.2 * y (v.vars.getD w.1 0)).sum =
      p.objective y := by
  obtain ⟨ws', hws', hlt, rfl⟩ := setLocation_eq_ok.1 hset
  obtain rfl : ws' = ws := Except.ok.inj (hws'.symm.trans hws)
  have hsum := sum_costs (p := p) (weights_shape hws).2 hlt (fun i hi => ?_) y
  · rw [← hsum]
    exact LinearProgram.objectiveWithout_add h.distinct (fun x hx => hsize ▸ h.there x hx) y
  · have hthere := h.there _ (List.getElem_mem hi)
    rw [(located_fields v ws' m).2.2] at hthere
    rw [hcost _ (List.getElem_mem hi)]
    exact cost_located h.distinct hi hthere ws'

end Exact

end CostToGo

/-! ## Decisions -/

namespace Node

section Runs

variable [Numeral K] {engine : Engine K} {n : Node K} {price : Option K} {k : ℕ}
  {w v : Watched (Node K)} {p : LinearProgram K}

/-- A node that is set up for a price remembers it, and the weights of the price are in its program. -/
theorem exists_of_setPrice (h : setPrice price w = .ok () v) : v.part.price = price ∧
    (v.part.isTerminal = false → ∃ m, v.part.costToGo.setLocation price m = .ok v.part.model) := by
  obtain ⟨⟨⟩, u, -, h⟩ := bind_eq_ok.1 h
  rw [Run.part_bind_apply] at h
  by_cases hterminal : u.part.isTerminal = true
  · rw [if_pos hterminal] at h
    cases h
    exact ⟨rfl, fun hnot => absurd hterminal (by simpa using hnot)⟩
  · rw [if_neg hterminal] at h
    obtain ⟨m, u', hrun, h⟩ := bind_eq_ok.1 h
    obtain ⟨hset, rfl⟩ := ofExcept_eq_ok.1 hrun
    cases h
    exact ⟨rfl, fun _ => ⟨u.part.model, hset⟩⟩

/-- What a decision comes to: the node is set up, its program is shown, and it is solved. -/
theorem exists_of_observeDecision {rows : ℕ} (hwell : w.part.model.WellFormed rows)
    (h : observeDecision engine price k w = .ok p v) : ∃ (n : Node K) (i j : Monitor) (value : K) (m : Subproblem K),
      Extends Set.univ w.part n ∧ n.model.program = p ∧ n.price = price ∧
      (n.isTerminal = false → ∃ m, n.costToGo.setLocation price m = .ok n.model) ∧
      Subproblem.solve engine (some n.stage) (some n.markov) ⟨i, n.model⟩ = .ok value ⟨j, m⟩ ∧
      v = ⟨j, { n with model := m }⟩ := by
  obtain ⟨p', u, hpresent, h⟩ := bind_eq_ok.1 h
  obtain ⟨⟨⟩, u₁, hrealization, hpresent⟩ := bind_eq_ok.1 hpresent
  obtain ⟨⟨⟩, u₂, hprice, hpresent⟩ := bind_eq_ok.1 hpresent
  rw [Run.part_bind_apply] at hpresent
  cases hpresent
  have hext : Extends Set.univ w.part u.part :=
    ((sets_setting hwell price k).keeps _ (isBlind_extends (Set.subset_univ _) w.part)
      fun _ h => h.outline).of_ok (.refl _ _) (bind_eq_ok.2 ⟨(), u₁, hrealization, hprice⟩)
  obtain ⟨hremembered, hlocated⟩ := exists_of_setPrice hprice
  rw [Run.part_bind_apply] at h
  obtain ⟨value, u₃, hsolve, h⟩ := bind_eq_ok.1 h
  cases h
  obtain ⟨x, hx, rfl⟩ := Run.within_eq_ok.1 hsolve
  exact ⟨u.part, u.monitor, x.monitor, value, x.part, hext, rfl, hremembered, hlocated, hx, rfl⟩

/-- Setting a node up and solving it takes nothing away from the variables of the cost-to-go. -/
theorem isApart_extends {n n' : Node K} {D : Set Cell} (h : n.costToGo.IsApart n.model)
    (hext : Extends D n n') : n'.costToGo.IsApart n'.model := by
  have hsize : n'.model.program.vars.size = n.model.program.vars.size := hext.program.vars
  obtain ⟨m, pools, installed, price, hm, rfl⟩ := exists_of_outline hext.outline
  obtain ⟨q, r, t, s, rfl⟩ := Subproblem.exists_of_outline hm
  exact ⟨h.distinct, fun x hx => (h.there x hx).trans_eq hsize.symm, h.unnamed⟩

end Runs

/-! ## The cost of a stage -/

section Exact

variable [ExactNumeral K] {engine : Engine K} {price : Option K} {k rows : ℕ} {w v : Watched (Node K)}
  {p : LinearProgram K} {cost : K}

/-- What a stage was charged after the program `p` was set up: the objective without the cost-to-go at the
last solution. In the last stage this is all of the objective; before, the rest is the cost-to-go for the
price of the node. For any price the cost-to-go is the value of its expression at the solution. -/
structure IsCharged (engine : Engine K) (n : Node K) (p : LinearProgram K) (cost : K)
    (s : Solution K) : Prop where
  answered : n.model.Answered engine p s
  rest : cost = n.model.program.objectiveWithout n.costToGo.vars s.point
  terminal : n.isTerminal = true → cost = n.model.program.objective s.point
  future : n.isTerminal = false → ∃ c, n.costToGo.futureCost n.price n.model = .ok c ∧
    cost + c = n.model.program.objective s.point
  interpolated : ∀ price c, n.costToGo.futureCost price n.model = .ok c →
    ∃ e, n.costToGo.interpolation price = .ok e ∧ n.costToGo.expressionAt s.point e = c

/-- A decision charges its stage. -/
theorem isCharged_of_observeDecision (hpoints : engine.HasPoints)
    (hwell : w.part.model.WellFormed rows) (hapart : w.part.costToGo.IsApart w.part.model)
    (hidle : w.part.isTerminal = true → w.part.costToGo.vars = [])
    (h : observeDecision engine price k w = .ok p v) (hcost : v.part.stageCost = .ok cost) :
    v.part.price = price ∧ ∃ s, v.part.IsCharged engine p cost s := by
  obtain ⟨n, i, j, value, m, hext, rfl, hprice, hlocated, hsolve, rfl⟩ :=
    exists_of_observeDecision hwell h
  have hwell' : n.model.WellFormed rows :=
    hwell.mono (model_outline hext.outline) hext.program.vars.ge hext.program.rows
  have hapart' := isApart_extends hapart hext
  have hidle' : n.isTerminal = true → n.costToGo.vars = [] := by
    obtain ⟨m, pools, installed, price, -, heq⟩ := exists_of_outline hext.outline
    rw [heq]
    exact hidle
  obtain ⟨houtline, s, -, hanswered⟩ := Subproblem.answered_of_solve hwell' hsolve
  obtain ⟨value', hvalue, hcost⟩ := exceptBind_eq_ok.1 hcost
  obtain rfl : m.program.objective s.point = value' :=
    Except.ok.inj ((hanswered.objective_eq_ok hpoints).symm.trans hvalue)
  have hinterpolated : ∀ price c, n.costToGo.futureCost price m = .ok c →
      ∃ e, n.costToGo.interpolation price = .ok e ∧ n.costToGo.expressionAt s.point e = c :=
    fun _ _ hc => CostToGo.exists_interpolation_of_futureCost hanswered.solution hc
  refine ⟨hprice, s, ?_⟩
  by_cases hterminal : n.isTerminal = true
  · rw [if_pos hterminal] at hcost
    obtain rfl := Except.ok.inj hcost
    refine ⟨hanswered, ?_, fun _ => rfl, fun hnot => absurd hterminal (by simpa using hnot),
      hinterpolated⟩
    show m.program.objective s.point = m.program.objectiveWithout n.costToGo.vars s.point
    rw [hidle' hterminal, LinearProgram.objectiveWithout_nil]
  · rw [if_neg hterminal] at hcost
    obtain ⟨c, hc, hcost⟩ := exceptBind_eq_ok.1 hcost
    obtain rfl := Except.ok.inj hcost
    obtain ⟨ws, hws, -, hsum⟩ := CostToGo.futureCost_eq_ok hanswered.solution hc
    obtain ⟨m₀, hset⟩ := hlocated (by simpa using hterminal)
    -- Nobody writes to the costs of these variables after the price.
    have hread : ∀ x ∈ n.costToGo.vars,
        m.program.read (.cost x) = n.model.program.read (.cost x) := fun x hx => by
      refine hanswered.read_eq ?_ Cell.isWithin_cost
      rw [Subproblem.retryCells_of_outline houtline]
      exact hapart'.notMem_retryCells hx
    have hsplit := hapart'.objective_eq hset (hprice ▸ hws) hanswered.size_eq hread s.point
    rw [hsum] at hsplit
    refine ⟨hanswered, ?_, fun hlast => absurd hlast hterminal,
      fun _ => ⟨c, hc, sub_add_cancel _ _⟩, hinterpolated⟩
    show m.program.objective s.point - c = m.program.objectiveWithout n.costToGo.vars s.point
    rw [← hsplit, add_sub_cancel_right]

end Exact

end Node

end DualDynamic
