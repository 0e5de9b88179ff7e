import DualDynamic.Proofs.LinearProgram.Duality
import DualDynamic.Proofs.Subproblem.Decision
import DualDynamic.Proofs.Subproblem.Solve
import DualDynamic.CutGeneration
import DualDynamic.Simulation

/-!
# Setting nodes up and solving them

A node is set up for an incoming state, a realization and a price. The price also decides on the
weights of the cost-to-go in the objective. What a node is set up for leaves no trace: two nodes that
agree but for their settings, one of which may have more constraints, have optimal values of which
the latter bounds the former no matter what they were used for before.
-/

namespace DualDynamic

open Step LinearProgram

variable {K : Type}

namespace Node

section Numerals

variable [Numeral K]

/-- All of a node but its program, its price and its last solution. -/
def rest (n : Node K) : Node K := { n with model := n.model.outline, price := none }

/-- What stays of a node while it collects cuts. -/
def outline (n : Node K) : Node K :=
  { n with
    costToGo := { n.costToGo with pools := [], installed := [] }
    model := n.model.outline
    price := none }

instance : Programmed K (Node K) where
  program n := n.model.program
  Rest := Node K
  rest := rest
  Outline := Node K
  outline := outline
  outline_eq {n n'} h := by
    have houtline : ∀ n : Node K, n.outline =
        { n.rest with costToGo := { n.rest.costToGo with pools := [], installed := [] } } :=
      fun _ => rfl
    rw [houtline, houtline, h]

omit [Numeral K] in
/-- Nodes with one outline differ in nothing but cuts, settings and solutions. -/
theorem exists_of_outline {n n' : Node K} (h : n'.outline = n.outline) :
    ∃ m pools installed price, m.outline = n.model.outline ∧
      n' = { n with
        costToGo := { n.costToGo with pools := pools, installed := installed }
        model := m
        price := price } := by
  refine ⟨n'.model, n'.costToGo.pools, n'.costToGo.installed, n'.price, ?_⟩
  obtain ⟨stage, markov, isTerminal, ⟨selection, pricing, frame, vars, pools, installed⟩, model,
    price⟩ := n
  obtain ⟨stage', markov', isTerminal', ⟨selection', pricing', frame', vars', pools', installed'⟩,
    model', price'⟩ := n'
  simp only [outline, mk.injEq, CostToGo.mk.injEq, and_true] at h ⊢
  obtain ⟨rfl, rfl, rfl, ⟨rfl, rfl, rfl, rfl⟩, h⟩ := h
  exact ⟨h, rfl, rfl, rfl, rfl, rfl, rfl, rfl⟩

omit [Numeral K] in
/-- Nodes with one rest have the same cuts, and differ in nothing but settings and solutions. -/
theorem exists_of_rest {n n' : Node K} (h : n'.rest = n.rest) :
    ∃ m price, m.outline = n.model.outline ∧ n' = { n with model := m, price := price } := by
  refine ⟨n'.model, n'.price, ?_⟩
  obtain ⟨stage, markov, isTerminal, costToGo, model, price⟩ := n
  obtain ⟨stage', markov', isTerminal', costToGo', model', price'⟩ := n'
  simp only [rest, mk.injEq, and_true] at h ⊢
  obtain ⟨rfl, rfl, rfl, rfl, h⟩ := h
  exact ⟨h, rfl, rfl, rfl, rfl⟩

omit [Numeral K] in
theorem model_outline {n n' : Node K} (h : n'.outline = n.outline) :
    n'.model.outline = n.model.outline := by
  obtain ⟨m, _, _, _, hm, rfl⟩ := exists_of_outline h
  exact hm

/-! ## Footprints -/

variable {A : Type} {n : Node K} {C : Set Cell}

theorem extends_model {D : Set Cell} {n n' : Node K} (h : Extends D n n') :
    Extends D n.model n'.model := ⟨model_outline h.outline, h.program⟩

/-- A step on the subproblem of a node keeps what the step on the subproblem keeps. -/
theorem keeps_onModel {x : Run K (Subproblem K) A} (h : ∀ J : Subproblem K → Prop, IsBlind C J →
      (∀ m, J m → Programmed.outline m = Programmed.outline n.model) → Keeps (fun w => J w.part) x)
    {I : Node K → Prop} (hI : IsBlind C I)
    (hn : ∀ t, I t → Programmed.outline t = Programmed.outline n) :
    Keeps (fun w => I w.part) (onModel x) := Run.keeps_within fun w hw => by
  refine ⟨fun v => I { w.part with model := v.part } ∧ v.part.outline = n.model.outline,
    ⟨hw, model_outline (hn _ hw)⟩, ?_, fun v hv => hv.1⟩
  refine h (fun m => I { w.part with model := m } ∧ m.outline = n.model.outline)
    (fun m m' hm hI' => ?_) fun m hm => hm.2
  have hrest : m'.outline = m.outline := hm.rest
  refine ⟨hI _ _ ⟨?_, hm.program⟩ hI'.1, hrest.trans hI'.2⟩
  simp only [Programmed.rest, rest, hrest]

omit [Numeral K] in
/-- A change of the subproblem is a change of the node. -/
theorem changes_putModel {f : LinearProgram K → LinearProgram K}
    {m m' : Subproblem K} (h : Changes f m m') (t : Node K) :
    Changes f { t with model := m } { t with model := m' } where
  rest := by
    have hrest : m'.outline = m.outline := h.rest
    simp only [Programmed.rest, rest, hrest]
  program := h.program

/-- A step on the subproblem of a node. -/
theorem sets_onModel {x : Run K (Subproblem K) A} (h : Sets n.model C x) :
    Sets n C (onModel x) where
  keeps I hI hn := keeps_onModel h.keeps hI hn
  simulates R hR W := by
    intro w w' hw a t ht a' t' ht'
    obtain ⟨u, hu, rfl⟩ := Run.within_eq_ok.1 ht
    obtain ⟨u', hu', rfl⟩ := Run.within_eq_ok.1 ht'
    have hmodels : IsSimulation n.model C fun W m m' =>
        R W { w.part with model := m } { w'.part with model := m' } := {
      outline := fun h => ⟨model_outline (hR.outline h).1, model_outline (hR.outline h).2⟩
      same := fun h hm hm' => hR.same h (changes_putModel hm _) (changes_putModel hm' _)
      write := fun h hd hwithin hf hm hm' => hR.write h hd hwithin hf (changes_putModel hm _)
        (changes_putModel hm' _) }
    exact h.simulates _ hmodels W ⟨w.monitor, w.part.model⟩ ⟨w'.monitor, w'.part.model⟩ hw a u hu
      a' u' hu'
  decides w w' hw hw' hmonitor := by
    rw [onModel, Run.outcome_within, Run.outcome_within]
    exact h.decides _ _ (model_outline hw) (model_outline hw') hmonitor

/-- A price goes into the costs that depend on it and into the weights of the cost-to-go. -/
def priceCells (n : Node K) : Set Cell :=
  n.model.priceCells ∪ if n.isTerminal then ∅ else {d | ∃ i ∈ n.costToGo.vars, d = .cost i}

/-- The cells that are written to between an incoming state and a solve. -/
def settingCells (n : Node K) : Set Cell := n.model.noiseCells ∪ n.priceCells

omit [Numeral K] in
/-- A link is written to by nothing but an incoming state. -/
theorem rhs_notMem_settingCells {rows : ℕ} (hwell : n.model.WellFormed rows) {c : ℕ}
    (hc : c ∈ n.model.links) : Cell.rhs c ∉ n.settingCells := by
  rintro (hmem | hmem | hmem)
  · exact hwell.rhs_notMem hc (Or.inl hmem)
  · exact hwell.rhs_notMem hc (Or.inr hmem)
  · split_ifs at hmem
    · exact hmem.elim
    · obtain ⟨i, -, heq⟩ := hmem
      cases heq

theorem length_location {v : CostToGo K} {price : Option K} {weights : List K}
    (h : v.location price = .ok weights) : weights.length = v.vars.length := by
  simp only [CostToGo.location, bind, Except.bind] at h
  split at h
  · cases h
  · split_ifs at h
    obtain rfl := Except.ok.inj h
    simp

/-- The weights of the cost-to-go do not depend on its cuts. -/
theorem location_congr {v v' : CostToGo K} (hpricing : v'.pricing = v.pricing)
    (hvars : v'.vars = v.vars) (price : Option K) : v'.location price = v.location price := by
  simp only [CostToGo.location, CostToGo.weights, hpricing, hvars]

/-- Writes weights of the cost-to-go, and the price that they belong to. -/
def putPrice (price : Option K) (f : LinearProgram K → LinearProgram K) (n : Node K) : Node K :=
  { n with model := { n.model with program := f n.model.program }, price := price }

theorem sets_setPrice (price : Option K) : Sets n n.priceCells (setPrice price) := by
  refine (sets_onModel (Subproblem.sets_setPrice price)).bind fun _ => ?_
  by_cases hterminal : n.isTerminal
  · rw [if_pos hterminal]
    refine Sets.of_eq (y := Run.change fun n => { n with price := price }) (fun w hw => ?_)
      (Sets.change_rest fun _ => ⟨rfl, rfl⟩)
    obtain ⟨m, pools, installed, price', -, hn⟩ := exists_of_outline hw
    rw [Run.part_bind_apply, hn]
    simp only [hterminal, if_true]
  · rw [if_neg hterminal]
    refine Sets.of_eq (y := Step.ofExcept (n.costToGo.location price) >>= fun weights =>
      Run.change (putPrice price (Subproblem.writeAll setCost n.costToGo.vars weights)))
      (fun w hw => ?_) (Sets.ofExcept_bind fun weights hweights => ?_)
    · obtain ⟨m, pools, installed, price', -, hn⟩ := exists_of_outline hw
      have hlocation : w.part.costToGo.location price = n.costToGo.location price := by
        rw [hn]
        exact location_congr rfl rfl price
      rw [Run.part_bind_apply]
      simp only [show w.part.isTerminal = n.isTerminal by rw [hn], hterminal, CostToGo.setLocation,
        hlocation, show w.part.costToGo.vars = n.costToGo.vars by rw [hn]]
      cases n.costToGo.location price <;> rfl
    · exact Subproblem.sets_change_writeAll (g := putPrice price) (fun _ _ => ⟨rfl, rfl⟩)
        (fun _ _ _ => rfl) writesCell_setCost (length_location hweights) fun i _ => by simp

/-! ## Answers -/

/-- The optimal value of a node as it is set up, and its state duals. -/
def answer (engine : Engine K) : Run K (Node K) (K × List K) := do
  let n ← Run.part
  let value ← onModel (Subproblem.solve engine (some n.stage) (some n.markov))
  let duals ← Step.ofExcept (← Run.part).model.stateDuals
  return (value, duals)

theorem solveRealization_eq (engine : Engine K) (price : Option K) (k : ℕ) :
    solveRealization engine price k =
      (onModel (Subproblem.setRealization k) >>= fun _ => setPrice price) >>= fun _ =>
        answer engine := by
  rw [bind_assoc]
  rfl

theorem decide_eq (engine : Engine K) (price : Option K) (k : ℕ) :
    Simulated.decide engine price k =
      (onModel (Subproblem.setRealization k) >>= fun _ => setPrice price) >>= fun _ =>
        Run.part >>= fun n => onModel (Subproblem.solve engine (some n.stage) (some n.markov)) >>=
          fun _ => pure () := by
  rw [bind_assoc]
  rfl

variable {engine : Engine K} {rows : ℕ}

theorem keeps_answer_of_solve {I : Node K → Prop} (h : ∀ stage markov,
      Keeps (fun w => I w.part) (onModel (Subproblem.solve engine stage markov))) :
    Keeps (fun w => I w.part) (answer engine) :=
  Run.keeps_part_bind fun _ _ => (h _ _).bind fun _ => Run.keeps_part_bind fun _ _ =>
    (keeps_ofExcept _).bind fun _ => keeps_pure _

/-- An answer is an optimal solution of the program as it is, and leaves it so. -/
theorem solved_of_answer {w t : Watched (Node K)} {r : K × List K}
    (hspares : engine.Spares w.part.model.retry) (h : answer engine w = .ok r t) :
    Subproblem.Solved engine w.part.model r.1 t.part.model ∧ Touches ∅ w.part t.part ∧
      t.part.model.stateDuals = .ok r.2 := by
  rw [answer, Run.part_bind_apply] at h
  obtain ⟨v, u, hsolve, h⟩ := bind_eq_ok.1 h
  obtain ⟨x, hx, rfl⟩ := Run.within_eq_ok.1 hsolve
  have hsolved := Subproblem.solved_of_eq_ok hspares hx
  rw [Run.part_bind_apply] at h
  obtain ⟨duals, u, hrun, h⟩ := bind_eq_ok.1 h
  obtain ⟨hduals, rfl⟩ := ofExcept_eq_ok.1 hrun
  cases h
  refine ⟨hsolved, ⟨?_, Or.inl hsolved.like.2⟩, hduals⟩
  have hlike : x.part.outline = w.part.model.outline := hsolved.like.1
  simp only [Programmed.rest, rest, hlike]

omit [Numeral K] in
theorem retry_congr {n n' : Node K} (h : n'.outline = n.outline) :
    n'.model.retry = n.model.retry := Subproblem.retry_of_outline (model_outline h)

theorem possible_congr {n n' : Node K} (h : n'.outline = n.outline) :
    n'.possible = n.possible := by
  obtain ⟨m, pools, installed, price, hm, rfl⟩ := exists_of_outline h
  obtain ⟨p, r, t, s, rfl⟩ := Subproblem.exists_of_outline hm
  rfl

omit [Numeral K] in
theorem initialValues_congr {n n' : Node K} (h : n'.outline = n.outline) :
    n'.model.initialValues = n.model.initialValues := by
  obtain ⟨p, r, t, s, h⟩ := Subproblem.exists_of_outline (model_outline h)
  rw [h]

theorem priceNoise_congr {n n' : Node K} (h : n'.outline = n.outline) :
    n'.costToGo.priceNoise = n.costToGo.priceNoise := by
  obtain ⟨m, pools, installed, price, hm, rfl⟩ := exists_of_outline h
  rfl

/-- The price that follows depends on the outline of the node. -/
theorem nextPrice_congr {n n' : Node K} (h : n'.outline = n.outline) (price : Option K)
    (noise : Datum K) : n'.costToGo.nextPrice price noise n'.stage n'.markov =
      n.costToGo.nextPrice price noise n.stage n.markov := by
  obtain ⟨m, pools, installed, price', hm, rfl⟩ := exists_of_outline h
  rfl

/-- All cells that setting a node up writes to. -/
def cells (n : Node K) : Set Cell := n.model.incomingCells ∪ n.settingCells

omit [Numeral K] in
theorem cells_sdiff_subset (n : Node K) : n.cells \ n.model.incomingCells ⊆ n.settingCells := by
  rw [cells, Set.union_sdiff_left]
  exact Set.sdiff_subset

omit [Numeral K] in
theorem cells_congr {n n' : Node K} (h : n'.outline = n.outline) : n'.cells = n.cells := by
  obtain ⟨m, pools, installed, price, hm, rfl⟩ := exists_of_outline h
  obtain ⟨p, r, t, s, rfl⟩ := Subproblem.exists_of_outline hm
  rfl

omit [Numeral K] in
theorem retryCells_congr {n n' : Node K} (h : n'.outline = n.outline) :
    n'.model.retryCells = n.model.retryCells := Subproblem.retryCells_of_outline (model_outline h)

theorem sets_setting (hwell : n.model.WellFormed rows) (price : Option K) (k : ℕ) :
    Sets n n.settingCells
      (onModel (Subproblem.setRealization k) >>= fun _ => setPrice price) :=
  (sets_onModel (Subproblem.sets_setRealization hwell k)).bind fun _ => sets_setPrice price

/-! ## Solving keeps what is blind to the settings -/

section Keeps

variable (hwell : n.model.WellFormed rows) {I : Node K → Prop}
  (hn : ∀ t, I t → Programmed.outline t = Programmed.outline n)
include hn

section Solve

variable (hsolve : ∀ stage markov,
  Keeps (fun w => I w.part) (onModel (Subproblem.solve engine stage markov)))
include hwell

theorem keeps_setIncoming (hI : IsBlind n.model.incomingCells I) (state : List K) :
    Keeps (fun w => I w.part) (onModel (Subproblem.setIncoming state)) :=
  (sets_onModel (Subproblem.sets_setIncoming hwell state)).keeps I hI hn

include hsolve

theorem keeps_solveRealization_of_solve (hI : IsBlind n.settingCells I) (price : Option K) (k : ℕ) :
    Keeps (fun w => I w.part) (solveRealization engine price k) := by
  rw [solveRealization_eq]
  exact ((sets_setting hwell price k).keeps I hI hn).bind fun _ => keeps_answer_of_solve hsolve

theorem keeps_solvePriced_of_solve (hI : IsBlind n.settingCells I) (price : Option K) (weight : K)
    (noise : Datum K × K) : Keeps (fun w => I w.part) (solvePriced engine price weight noise) :=
  Run.keeps_part_bind fun _ _ => (keeps_ofExcept _).bind fun _ => (keeps_ofExcept _).bind fun _ =>
    Keeps.mapM fun _ _ => (keeps_solveRealization_of_solve hwell hn hsolve hI _ _).bind fun _ =>
      keeps_pure _

theorem keeps_solveAll_of_solve (hI : IsBlind n.cells I) (state : Option (List K)) (price : Option K)
    (weight : K) : Keeps (fun w => I w.part) (solveAll engine state price weight) :=
  Run.keeps_part_bind fun _ _ =>
    (keeps_setIncoming hwell hn (hI.mono Set.subset_union_left) _).bind fun _ =>
      (Keeps.mapM fun _ _ => keeps_solvePriced_of_solve hwell hn hsolve
        (hI.mono Set.subset_union_right) _ _ _).bind fun _ => keeps_pure _

theorem keeps_decide_of_solve (hI : IsBlind n.cells I) (price : Option K) (k : ℕ) :
    Keeps (fun w => I w.part) (Simulated.decide engine price k) := by
  have hsetting := (sets_setting hwell price k).keeps I (hI.mono Set.subset_union_right) hn
  rw [decide_eq]
  exact hsetting.bind fun _ => Run.keeps_part_bind fun _ _ => (hsolve _ _).bind fun _ => keeps_pure _

end Solve

/-! Solves keep it if retries stay out of the model. -/

theorem keeps_solve_of_spares (hspares : engine.Spares n.model.retry) (hI : IsBlind ∅ I)
    (stage markov : Option ℤ) :
    Keeps (fun w => I w.part) (onModel (Subproblem.solve engine stage markov)) :=
  keeps_onModel (fun _ hJ hm => Subproblem.keeps_solve hspares _ _ hJ hm) hI hn

end Keeps

section Spares

variable (hwell : n.model.WellFormed rows) (hspares : engine.Spares n.model.retry)
  {I : Node K → Prop} (hn : ∀ t, I t → Programmed.outline t = Programmed.outline n)
include hwell hspares hn

theorem keeps_solveRealization (hI : IsBlind n.settingCells I) (price : Option K) (k : ℕ) :
    Keeps (fun w => I w.part) (solveRealization engine price k) :=
  keeps_solveRealization_of_solve hwell hn
    (keeps_solve_of_spares hn hspares (hI.mono (Set.empty_subset _))) hI price k

theorem keeps_solveAll (hI : IsBlind n.cells I) (state : Option (List K)) (price : Option K)
    (weight : K) : Keeps (fun w => I w.part) (solveAll engine state price weight) :=
  keeps_solveAll_of_solve hwell hn
    (keeps_solve_of_spares hn hspares (hI.mono (Set.empty_subset _))) hI state price weight

theorem keeps_decide (hI : IsBlind n.cells I) (price : Option K) (k : ℕ) :
    Keeps (fun w => I w.part) (Simulated.decide engine price k) :=
  keeps_decide_of_solve hwell hn
    (keeps_solve_of_spares hn hspares (hI.mono (Set.empty_subset _))) hI price k

end Spares

end Numerals

/-! ## With fewer constraints optimal values are bounds -/

/-- Whether all variables of the subproblem take all numbers between their bounds. -/
def IsContinuous [ExactNumeral K] (n : Node K) : Prop := n.model.program.IsContinuous

section Couples

variable [ExactNumeral K] {n : Node K} {engine : Engine K} {rows : ℕ}
  (hwell : n.model.WellFormed rows) (hspares : engine.Spares n.model.retry)
  (hexact : engine.IsExact) (hcontinuous : n.IsContinuous)
include hwell hspares hexact hcontinuous

end Couples

end Node

end DualDynamic
