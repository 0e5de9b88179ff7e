import DualDynamic.Proofs.Node

/-!
# Twins

Two things are twins if they differ in nothing but some cells of their programs. Nodes with the same cuts
that were used for different things are twins but for the cells that settings write to. Set up for the
same they have the same data, so that a solver whose solutions depend on nothing else gives the same
answers, whatever the nodes were used for before.
-/

namespace DualDynamic

open Step Programmed

/-- Optimal solutions depend on nothing but the data of the program. -/
def Engine.IsFunctional {K : Type} [Numeral K] (engine : Engine K) : Prop :=
  ∀ call call' reductions reductions' (p q : LinearProgram K) s s',
    LinearProgram.Extends ∅ p q → q.constraints.size = p.constraints.size →
      engine.solve call reductions p = .optimal s →
        engine.solve call' reductions' q = .optimal s' → s' = s

section Programs

variable {K S A : Type} [Numeral K] [Programmed K S] {s s' t t' : S} {C D D' : Set Cell}

/-- Both have the same rest, and programs with the same data outside of `D`. -/
structure Twins (D : Set Cell) (s t : S) : Prop where
  rest : rest t = rest s
  rows : (program t).constraints.size = (program s).constraints.size
  program : LinearProgram.Extends D (program s) (program t)

namespace Twins

theorem refl (D : Set Cell) (s : S) : Twins D s s := ⟨rfl, rfl, .refl D _⟩

theorem mono (h : Twins D s t) (hD : D ⊆ D') : Twins D' s t :=
  ⟨h.rest, h.rows, h.program.mono hD⟩

theorem outline (h : Twins D s t) : outline t = Programmed.outline s := outline_eq h.rest

/-- What happens to one of them in cells of `D` makes no difference. -/
theorem touches_left (h : Twins D s t) (hs : Touches C s s') (hC : C ⊆ D) : Twins D s' t := by
  obtain ⟨hrest, hsame | ⟨f, d, hd, hf, hwrite⟩⟩ := hs
  · exact ⟨h.rest.trans hrest.symm, hsame ▸ h.rows, hsame ▸ h.program⟩
  · exact ⟨h.rest.trans hrest.symm, by rw [hwrite, LinearProgram.Extends.size_write hf, h.rows],
      hwrite ▸ h.program.write_left hf (hC hd)⟩

theorem touches_right (h : Twins D s t) (ht : Touches C t t') (hC : C ⊆ D) : Twins D s t' := by
  obtain ⟨hrest, hsame | ⟨f, d, hd, hf, hwrite⟩⟩ := ht
  · exact ⟨hrest.trans h.rest, hsame ▸ h.rows, hsame ▸ h.program⟩
  · exact ⟨hrest.trans h.rest, by rw [hwrite, LinearProgram.Extends.size_write hf, h.rows],
      hwrite ▸ h.program.write_right hf (hC hd)⟩

end Twins

/-- Twins of which one extends `s`. -/
def TwinsFrom (s : S) (D : Set Cell) (t t' : S) : Prop := Extends Set.univ s t ∧ Twins D t t'

theorem TwinsFrom.mono (h : TwinsFrom s D t t') (hD : D ⊆ D') : TwinsFrom s D' t t' :=
  ⟨h.1, h.2.mono hD⟩

theorem TwinsFrom.outline (h : TwinsFrom s D t t') :
    Programmed.outline t = Programmed.outline s ∧ Programmed.outline t' = Programmed.outline s :=
  ⟨h.1.outline, h.2.outline.trans h.1.outline⟩

/-- Twins agree in the cells that were overwritten. -/
theorem isSimulation_twins (D : Set Cell) : IsSimulation s C fun W => TwinsFrom s (D \ W) where
  outline h := h.outline
  same {W t t' u u'} h hu hu' := by
    have hleft : Touches ∅ t u := ⟨hu.rest, Or.inl hu.program⟩
    have hright : Touches ∅ t' u' := ⟨hu'.rest, Or.inl hu'.program⟩
    exact ⟨isBlind_extends (Set.empty_subset _) s t u hleft h.1,
      (h.2.touches_left hleft (Set.empty_subset _)).touches_right hright (Set.empty_subset _)⟩
  write {W t t' u u' f d} h _ hwithin hf hu hu' := by
    have htouches : Touches {d} t u := ⟨hu.rest, Or.inr ⟨f, d, rfl, hf, hu.program⟩⟩
    refine ⟨isBlind_extends (Set.subset_univ _) s t u htouches h.1, ?_, ?_, ?_⟩
    · rw [hu'.rest, hu.rest, h.2.rest]
    · rw [hu.program, hu'.program, LinearProgram.Extends.size_write hf,
        LinearProgram.Extends.size_write hf, h.2.rows]
    · rw [hu.program, hu'.program, ← Set.union_singleton, ← Set.sdiff_sdiff]
      exact h.2.program.write_both hf (hwithin.mono h.1.program.rows)

/-- Twins that are set up for the same are twins without the cells that this overwrites. -/
theorem Sets.couples_twins {x : Run K S A} (h : Sets s C x) (D : Set Cell) :
    Couples (fun w w' => TwinsFrom s D w.part w'.part) x x
      fun a a' w w' => a = a' ∧ TwinsFrom s (D \ C) w.part w'.part := by
  have hsimulates := h.simulates _ (isSimulation_twins D) ∅
  rwa [Set.empty_union, Set.sdiff_empty] at hsimulates

end Programs

/-! ## Solutions -/

namespace Subproblem

variable {K : Type} [Numeral K] {m m' : Subproblem K}

omit [Numeral K] in
/-- What is read off a solution does not depend on the program. -/
theorem valueOf_congr (h : m'.solution = m.solution) (i : ℕ) : m'.valueOf i = m.valueOf i := by
  simp only [valueOf, currentSolution, h]

omit [Numeral K] in
theorem stateDuals_congr (h : m'.outline = m.outline) (hsolution : m'.solution = m.solution) :
    m'.stateDuals = m.stateDuals := by
  obtain ⟨p, r, t, s, rfl⟩ := exists_of_outline h
  obtain rfl : s = m.solution := hsolution
  rfl

/-- The outgoing state depends on the bounds of the variables too. -/
theorem outgoing_congr (h : Twins ∅ m m') (hsolution : m'.solution = m.solution) :
    m'.outgoing = m.outgoing := by
  simp only [outgoing, states_of_outline h.rest, valueOf_congr hsolution]
  refine congrArg (List.mapM · m.states) (funext fun i => bind_congr fun x => ?_)
  have hsize : m'.program.vars.size = m.program.vars.size := h.program.vars
  cases hv : m.program.vars[i]? with
  | none =>
    have hv' : m'.program.vars[i]? = none := by
      rw [Array.getElem?_eq_none_iff] at hv ⊢
      exact hsize.trans_le hv
    rw [hv']
  | some v =>
    obtain ⟨v', hv'⟩ : ∃ v', m'.program.vars[i]? = some v' :=
      ⟨_, Array.getElem?_eq_getElem (hsize ▸ (Array.getElem?_eq_some_iff.1 hv).1)⟩
    have hlower := h.program.read (.lower i) (Set.notMem_empty _) Cell.isWithin_lower
    have hupper := h.program.read (.upper i) (Set.notMem_empty _) Cell.isWithin_upper
    change (m'.program.vars[i]?.bind Variable.lower) = m.program.vars[i]?.bind Variable.lower at hlower
    change (m'.program.vars[i]?.bind Variable.upper) = m.program.vars[i]?.bind Variable.upper at hupper
    rw [hv, hv', Option.bind_some, Option.bind_some] at hlower hupper
    simp only [hv', clip, hlower, hupper]

end Subproblem

/-! ## Nodes -/

namespace Node

variable {K : Type} [Numeral K] {n n' : Node K} {engine : Engine K} {rows : ℕ}

theorem touches_putModel {m : Subproblem K} (h : Subproblem.IsLike n.model m) :
    Touches ∅ n { n with model := m } where
  rest := by
    have hlike : m.outline = n.model.outline := h.1
    simp only [Programmed.rest, rest, hlike]
  program := Or.inl h.2

/-- Twins that have taken the same decision. -/
structure Decided (n n' : Node K) : Prop where
  twins : Twins ∅ n n'
  price : n'.price = n.price
  solution : n'.model.solution = n.model.solution

/-- They have the same to say. -/
theorem Decided.report (h : Decided n n') : Simulated.report n' [] = Simulated.report n [] := by
  have hmodel : Twins ∅ n.model n'.model := ⟨model_outline h.twins.outline, h.twins.rows, h.twins.program⟩
  have houtgoing := Subproblem.outgoing_congr hmodel h.solution
  have hcost : n'.stageCost = n.stageCost := by
    obtain ⟨m, price, -, rfl⟩ := exists_of_rest h.twins.rest
    obtain rfl : price = n.price := h.price
    have hsolution : m.solution = n.model.solution := h.solution
    simp only [stageCost, Subproblem.objective, Subproblem.currentSolution, hsolution,
      CostToGo.futureCost, Subproblem.valueOf]
  have hmarkov : n'.rest.markov = n.rest.markov := congrArg Node.markov h.twins.rest
  simp only [Simulated.report, houtgoing, hcost, show n'.markov = n.markov from hmarkov, h.price,
    List.mapM_nil]

theorem ensures_setting (price : Option K) (k : ℕ) : Ensures (fun _ => True)
    (onModel (Subproblem.setRealization k) >>= fun _ => setPrice price)
    (fun _ w => w.part.price = price) fun _ => True := by
  have hany : ∀ {A : Type} (x : Run K (Node K) A),
      Ensures (fun _ => True) x (fun _ _ => True) fun _ => True := by
    intro A x w _
    cases x w <;> trivial
  refine (hany _).bind fun _ => (hany _).bind fun _ => Run.ensures_part_bind fun w _ => ?_
  split_ifs
  · exact fun _ _ => rfl
  · exact Ensures.bind (Q := fun _ _ => True) (ensures_ofExcept (fun _ _ _ _ => trivial)
      fun _ _ => trivial) fun _ _ _ => rfl

section Solves

variable (hwell : n.model.WellFormed rows) (hspares : engine.Spares n.model.retry)
  (hfunctional : engine.IsFunctional)
include hwell hspares hfunctional

omit hwell in
/-- Twins with the same data have the same answer. -/
theorem respects_twins_answer : Run.Respects (TwinsFrom n ∅) (answer engine) := by
  intro w w' hw r t ht r' t' ht'
  obtain ⟨hleft, hright⟩ := hw.outline
  obtain ⟨hsolved, htouches, hduals⟩ := solved_of_answer (retry_congr hleft ▸ hspares) ht
  obtain ⟨hsolved', htouches', hduals'⟩ := solved_of_answer (retry_congr hright ▸ hspares) ht'
  obtain ⟨s, ⟨call, reductions, hs⟩, hvalue, hsolution⟩ := hsolved.solution
  obtain ⟨s', ⟨call', reductions', hs'⟩, hvalue', hsolution'⟩ := hsolved'.solution
  obtain rfl : s' = s := hfunctional _ _ _ _ _ _ _ _ hw.2.program hw.2.rows hs hs'
  have hafter : Twins ∅ t.part t'.part :=
    (hw.2.touches_left htouches subset_rfl).touches_right htouches' subset_rfl
  have hsame := Subproblem.stateDuals_congr (model_outline hafter.outline)
    (hsolution'.trans hsolution.symm)
  rw [hduals, hduals'] at hsame
  exact ⟨Prod.ext (hvalue.symm.trans hvalue') (Except.ok.inj hsame).symm,
    isBlind_extends (Set.empty_subset _) _ _ _ htouches hw.1, hafter⟩

theorem respects_twins_solveRealization {D : Set Cell} (hD : D ⊆ n.settingCells) (price : Option K)
    (k : ℕ) : Run.Respects (TwinsFrom n D) (solveRealization engine price k) := by
  rw [solveRealization_eq]
  refine Couples.bind ((sets_setting hwell price k).couples_twins D) fun _ _ => ?_
  rw [Set.sdiff_eq_empty.2 hD]
  exact (respects_twins_answer hspares hfunctional).weaken (fun _ _ hw => hw.2)
    fun _ _ _ _ hr => ⟨hr.1, hr.2.mono (Set.empty_subset _)⟩

theorem respects_twins_solvePriced {D : Set Cell} (hD : D ⊆ n.settingCells) (price : Option K)
    (weight : K) (noise : Datum K × K) :
    Run.Respects (TwinsFrom n D) (solvePriced engine price weight noise) := by
  refine Run.respects_part_bind (fun m m' h => ?_) fun m => ?_
  · obtain ⟨hleft, hright⟩ := h.outline
    rw [nextPrice_congr hright, nextPrice_congr hleft, possible_congr hright, possible_congr hleft]
  · refine (respects_ofExcept _).bind fun next => (respects_ofExcept _).bind fun items =>
      Respects.mapM fun kp _ => ?_
    exact (respects_twins_solveRealization hwell hspares hfunctional hD next kp.1).bind
      fun _ => respects_pure _

omit hspares hfunctional in
/-- What the incoming state is written to agrees then. -/
theorem couples_twins_setIncoming (state : List K) : Couples
    (fun w w' => TwinsFrom n n.cells w.part w'.part)
    (onModel (Subproblem.setIncoming state)) (onModel (Subproblem.setIncoming state))
    fun _ _ w w' => TwinsFrom n n.settingCells w.part w'.part := by
  exact ((sets_onModel (Subproblem.sets_setIncoming hwell state)).couples_twins n.cells).weaken
    (fun _ _ => id) fun _ _ _ _ h => h.2.mono n.cells_sdiff_subset

/-- Twins that are solved for everything that can happen have the same answers. -/
theorem respects_twins_solveAll (state : Option (List K)) (price : Option K) (weight : K) :
    Run.Respects (TwinsFrom n n.cells) (solveAll engine state price weight) := by
  refine Run.respects_part_bind (fun m m' h => ?_) fun m => ?_
  · obtain ⟨hleft, hright⟩ := h.outline
    rw [initialValues_congr hright, initialValues_congr hleft, priceNoise_congr hright,
      priceNoise_congr hleft]
  · refine Couples.bind (couples_twins_setIncoming hwell _) fun _ _ => ?_
    have hparts : Run.Respects (TwinsFrom n n.settingCells)
        (m.costToGo.priceNoise.mapM (solvePriced engine price weight)) :=
      Respects.mapM fun noise _ =>
        respects_twins_solvePriced hwell hspares hfunctional subset_rfl price weight noise
    exact (hparts.bind fun parts => respects_pure parts.flatten).weaken (fun _ _ => id)
      fun _ _ _ _ h => ⟨h.1, h.2.mono Set.subset_union_right⟩

/-- Twins that take a decision are twins with the same solution then. -/
theorem couples_twins_decide (price : Option K) (k : ℕ) : Couples
    (fun w w' => TwinsFrom n n.settingCells w.part w'.part)
    (Simulated.decide engine price k) (Simulated.decide engine price k)
    fun _ _ w w' => Extends Set.univ n w.part ∧ Decided w.part w'.part := by
  have hset := ((sets_setting hwell price k).couples_twins n.settingCells).and_ensures
    (ensures_setting price k) (ensures_setting price k)
  rw [decide_eq]
  refine Couples.bind (hset.weaken (fun _ _ h => ⟨h, trivial, trivial⟩) fun _ _ _ _ => id)
    fun _ _ => Run.couples_part_bind_of fun v v' _ => ?_
  rintro w w' ⟨⟨-, hw, htwins⟩, hprice, hprice'⟩ a t ht a' t' ht'
  rw [Set.sdiff_self] at htwins
  have hleft : w.part.outline = n.outline := hw.outline
  have hright : w'.part.outline = n.outline := htwins.outline.trans hleft
  obtain ⟨x, u, hu, ht⟩ := bind_eq_ok.1 ht
  cases ht
  obtain ⟨x', u', hu', ht'⟩ := bind_eq_ok.1 ht'
  cases ht'
  obtain ⟨v, hv, rfl⟩ := Run.within_eq_ok.1 hu
  obtain ⟨v', hv', rfl⟩ := Run.within_eq_ok.1 hu'
  have hsolved := Subproblem.solved_of_eq_ok (retry_congr hleft ▸ hspares) hv
  have hsolved' := Subproblem.solved_of_eq_ok (retry_congr hright ▸ hspares) hv'
  obtain ⟨s, ⟨call, reductions, hs⟩, -, hsolution⟩ := hsolved.solution
  obtain ⟨s', ⟨call', reductions', hs'⟩, -, hsolution'⟩ := hsolved'.solution
  obtain rfl : s' = s := hfunctional _ _ _ _ _ _ _ _ htwins.program htwins.rows hs hs'
  have htouches := touches_putModel hsolved.like
  have htouches' := touches_putModel hsolved'.like
  exact ⟨isBlind_extends (Set.empty_subset _) _ _ _ htouches hw, {
    twins := (htwins.touches_left htouches subset_rfl).touches_right htouches' subset_rfl
    price := hprice'.trans hprice.symm
    solution := hsolution'.trans hsolution.symm }⟩

end Solves

end Node

end DualDynamic
