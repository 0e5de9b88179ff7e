import DualDynamic.Proofs.Node.Approximation
import DualDynamic.Proofs.RiskMeasure.CutValidity

/-!
# Valid cuts

A cut on the cost-to-go of a node is valid if it bounds, at every state, the expected costs of all that
can be done behind the node (`PolicyGraph.IsValid`). The costs are those of the stated programs, of
which no approximation is part.

Graphs are looked at that measure risk by the expectation and have no price axis, and whose known bound
holds. The proof goes backwards over stages and forwards over a run at the same time: that the nodes
of the next stage hold only valid cuts is all that is known about them when a cut is generated.
-/

namespace DualDynamic

open Step CostToGo

variable {K : Type} [ExactNumeral K]

/-! ## Weighted sums that are long enough -/

namespace Realizations

/-- A weighted sum of vectors is no longer than any of them. -/
theorem length_weightedSum_le {ι : Type} (width : ℕ) (l : List ι) (f : ι → K) (v : ι → List K) :
    ∀ i ∈ l, (weightedSum width (l.map f) (l.map v)).length ≤ (v i).length := by
  have hfold : ∀ (parts : List (K × List K)) (total : List K),
      (parts.foldl (fun t q => Scalar.addAll t (Scalar.scale q.1 q.2)) total).length ≤
        total.length ∧ ∀ q ∈ parts, (parts.foldl (fun t q =>
          Scalar.addAll t (Scalar.scale q.1 q.2)) total).length ≤ q.2.length := by
    intro parts
    induction parts with
    | nil => simp
    | cons q parts ih =>
      intro total
      obtain ⟨htotal, hparts⟩ := ih (Scalar.addAll total (Scalar.scale q.1 q.2))
      have hlength : (Scalar.addAll total (Scalar.scale q.1 q.2)).length =
          min total.length q.2.length := by simp [Scalar.addAll]
      rw [List.foldl_cons, List.forall_mem_cons]
      exact ⟨by omega, by omega, hparts⟩
  intro i hi
  refine (hfold (List.zip (l.map f) (l.map v)) (List.replicate width Scalar.zero)).2 (f i, v i) ?_
  rw [List.zip_map']
  exact List.mem_map.2 ⟨i, hi, rfl⟩

/-- The mean of lines, if the mean gradient is as long as the state. -/
theorem sum_weightedLine {rs : List (K × List K × K)} {x : List K}
    (hshort : ∀ r ∈ rs, r.2.1.length ≤ x.length)
    (hlength : (ofTriples rs).meanGradient.length = x.length) (y : List K) :
    (ofTriples rs).meanValue - Scalar.dot (ofTriples rs).meanGradient x +
      Scalar.dot (ofTriples rs).meanGradient y = (rs.map (Node.weightedLine x y)).sum := by
  have hle := length_weightedSum_le (ofTriples rs).width rs (·.2.2) (·.2.1)
  have hgradient : (ofTriples rs).meanGradient =
      weightedSum (ofTriples rs).width (rs.map (·.2.2)) (rs.map (·.2.1)) := rfl
  have hall : ∀ r ∈ rs, r.2.1.length = x.length := by
    intro r hr
    have hlong := hle r hr
    rw [← hgradient, hlength] at hlong
    exact (hshort r hr).antisymm hlong
  have hwidth : (ofTriples rs).width = x.length := by
    cases rs with
    | nil =>
      rw [hgradient] at hlength
      simpa [weightedSum] using hlength
    | cons r rs =>
      have hfirst : (ofTriples (r :: rs)).width = r.2.1.length := rfl
      rw [hfirst]
      exact hall r (by simp)
  have hdot : ∀ z, Scalar.dot (ofTriples rs).meanGradient z =
      (rs.map fun r => r.2.2 * Scalar.dot r.2.1 z).sum := by
    intro z
    rw [hgradient, hwidth]
    exact dot_weightedSum rs _ _ hall z
  have hvalue : (ofTriples rs).meanValue = (rs.map fun r => r.2.2 * r.1).sum :=
    Scalar.dot_map rs _ _
  rw [hdot, hdot, hvalue, sub_add_eq_add_sub, sub_eq_iff_eq_add, ← List.sum_map_add,
    ← List.sum_map_add]
  congr 1
  refine List.map_congr_left fun r _ => ?_
  rw [Node.weightedLine]
  ring

end Realizations

namespace PolicyGraph

/-! ## Valid cuts -/

/-- What comes behind a node of a stage: nothing, or a variable with the known bound. -/
def behind (g : PolicyGraph K) (t : ℕ) (m : Subproblem K) : Option (Frame K) :=
  if t + 1 = g.stages then none else some ⟨g.sense, g.knownBound.value, m.stateCount⟩

/-- The cut bounds the costs behind a stage and a Markov state, whatever is done there. -/
structure IsValid (g : PolicyGraph K) (recipe : Recipe K) (t k : ℕ) (cut : Cut K) : Prop where
  side : cut.side = g.sense.cutSide
  bounds : ∀ x, ∀ c ∈ g.costsToGo recipe t k x, g.sense.Bounds (cut.evaluate x) c

/-- The known bound bounds the costs behind every node that has something behind it. -/
def KnowsBound (g : PolicyGraph K) (recipe : Recipe K) : Prop :=
  ∀ t k, t + 1 < g.stages → ∀ x, ∀ c ∈ g.costsToGo recipe t k x,
    g.sense.Bounds g.knownBound.value c

/-- A node that stands where it belongs and was made from the program that is stated for it, with valid
cuts only. -/
structure Approximates (g : PolicyGraph K) (recipe : Recipe K) (t k : ℕ) (n : Node K) : Prop where
  stage : n.stage = t
  markov : n.markov = k
  lt : t < g.stages
  selection : n.costToGo.selection = g.template.selection
  made : ∃ m, g.newModel recipe t k = .ok m ∧ n.IsMade (g.behind t m) m (g.IsValid recipe t k)

variable {g : PolicyGraph K} {recipe : Recipe K} {t k : ℕ} {engine : Engine K} {n : Node K}

/-- Costs-to-go respect the known bound and all valid cuts. -/
theorem KnowsBound.admits (h : g.KnowsBound recipe) (ht : t < g.stages) (m : Subproblem K)
    (y : List K) : ∀ c ∈ g.costsToGo recipe t k y, ∀ cuts : List (Cut K),
      (∀ cut ∈ cuts, g.IsValid recipe t k cut) → Admits (g.behind t m) cuts y c := by
  intro c hc cuts hcuts
  unfold behind
  split_ifs with hlast
  · rw [costsToGo_last hlast] at hc
    exact hc
  · exact ⟨h t k (by omega) y c hc, fun cut hcut =>
      ⟨(hcuts cut hcut).side, (hcuts cut hcut).bounds y c hc⟩⟩

/-! ## Nodes stay as they are while they are solved -/

theorem Approximates.outline_eq {n' : Node K} (h : g.Approximates recipe t k n)
    (h' : g.Approximates recipe t k n') : n'.outline = n.outline := by
  obtain ⟨m, hm, hmade⟩ := h.made
  obtain ⟨m', hm', hmade'⟩ := h'.made
  obtain rfl := Except.ok.inj (hm.symm.trans hm')
  have hterminal : n'.isTerminal = n.isTerminal := hmade'.isTerminal.trans hmade.isTerminal.symm
  have hmodel : n'.model.outline = n.model.outline :=
    hmade'.fits.outline.trans hmade.fits.outline.symm
  simp only [Node.outline, h'.stage, h.stage, h'.markov, h.markov, hterminal, hmodel, h'.selection,
    h.selection, hmade'.fits.pricing, hmade.fits.pricing, hmade'.fits.frame, hmade.fits.frame,
    hmade'.fits.vars, hmade.fits.vars]

theorem isBlind_approximates (h : g.Approximates recipe t k n) :
    IsBlind n.cells (g.Approximates recipe t k) := by
  obtain ⟨m, hm, hmade⟩ := h.made
  obtain ⟨rows, hlinked⟩ := isLinked_newModel hm
  rintro l l' htouches hl
  obtain ⟨m', hm', hmade'⟩ := hl.made
  obtain rfl := Except.ok.inj (hm.symm.trans hm')
  have hrest : l'.rest = l.rest := htouches.rest
  exact {
    stage := (congrArg Node.stage hrest).trans hl.stage
    markov := (congrArg Node.markov hrest).trans hl.markov
    lt := h.lt
    selection := (congrArg (fun n => n.costToGo.selection) hrest).trans hl.selection
    made := ⟨m, hm, Node.isBlind_isMade hlinked _ _ l l' (htouches.mono hmade.cells_subset)
      hmade'⟩ }

theorem undisturbed_approximates (hspares : engine.Spares g.retry) :
    Undisturbed engine (g.Approximates recipe) where
  placed _ _ _ h := ⟨h.stage, h.markov⟩
  base t k n h := by
    obtain ⟨m, hm, hmade⟩ := h.made
    obtain ⟨rows, hlinked⟩ := isLinked_newModel hm
    refine ⟨n, rows, hmade.wellFormed hlinked, ?_, isBlind_approximates h, fun _ h' =>
      h.outline_eq h'⟩
    obtain ⟨p, r, u, s, heq⟩ := Subproblem.exists_of_outline hmade.fits.outline
    rw [heq]
    exact (show m.retry = g.retry from hlinked.retry) ▸ hspares

theorem accepts_approximates : Accepts (g.IsValid recipe) (g.Approximates recipe) where
  placed _ _ _ h := ⟨h.stage, h.markov⟩
  installCut {t k n cut rib state new n'} h hcut hrun := by
    obtain ⟨m, hm, hmade⟩ := h.made
    have hmade' := hmade.installCut hcut hrun
    have hsame : n'.stage = n.stage ∧ n'.markov = n.markov ∧
        n'.costToGo.selection = n.costToGo.selection := by
      have hext := Node.extends_installCut (Extends.refl ∅ n) hrun
      obtain ⟨m, pools, installed, price, -, rfl⟩ := Node.exists_of_outline hext.outline
      exact ⟨rfl, rfl, rfl⟩
    exact ⟨hsame.1.trans h.stage, hsame.2.1.trans h.markov, h.lt, hsame.2.2.trans h.selection, m, hm,
      hmade'⟩

/-! ## What the answers of a stage say -/

/-- The answers of a node of a stage, given its probability, are lines of the node. -/
def NodeLines (g : PolicyGraph K) (recipe : Recipe K) (t : ℕ) (state : Option (List K)) (kp : ℕ × K)
    (rs : List (K × List K × K)) : Prop :=
  t < g.stages ∧ ∃ m, g.newModel recipe t kp.1 = .ok m ∧
    Node.AreLines (g.behind t m) m (g.IsValid recipe t kp.1) (state.getD m.initialValues) kp.2 rs

/-- The answers of nodes of a stage. -/
def StageLines (g : PolicyGraph K) (recipe : Recipe K) (t : ℕ) (state : Option (List K))
    (nodes : List (ℕ × K)) (rs : List (K × List K × K)) : Prop :=
  ∃ parts, rs = parts.flatten ∧ List.Forall₂ (g.NodeLines recipe t state) nodes parts

theorem ensures_solveStage (hspares : engine.Spares g.retry) (hduals : engine.HasDuals) (t : ℕ)
    (nodes : List (ℕ × K)) (state : Option (List K)) (price : Option K) :
    Ensures (fun w => Holds g.frame (g.Approximates recipe) w.part)
      (solveStage engine t nodes state price)
      (fun r w => (∃ rs, r = .ofTriples rs ∧ g.StageLines recipe t state nodes rs) ∧
        Holds g.frame (g.Approximates recipe) w.part)
      fun w => Holds g.frame (g.Approximates recipe) w.part := by
  have hundisturbed : Undisturbed engine (g.Approximates recipe) := undisturbed_approximates hspares
  refine (Ensures.mapM fun kp _ => ensures_atNode hundisturbed.placed
    (Q := g.NodeLines recipe t state kp) fun t' k' ht hk => ?_).bind fun parts =>
      ensures_pure fun w hw => ⟨⟨parts.flatten, rfl, parts, rfl, hw.1⟩, hw.2⟩
  obtain rfl := ht t rfl
  obtain rfl := hk kp.1 rfl
  have hlines : Ensures (fun w => g.Approximates recipe t' kp.1 w.part)
      (Node.solveAll engine state price kp.2) (fun rs _ => g.NodeLines recipe t' state kp rs)
      fun _ => True := by
    intro w hw
    obtain ⟨m, hm, hmade⟩ := hw.made
    obtain ⟨rows, hlinked⟩ := isLinked_newModel hm
    have hretry : engine.Spares m.retry := (show m.retry = g.retry from hlinked.retry) ▸ hspares
    exact ((Node.ensures_lines hlinked hretry hduals hmade state price kp.2).weaken (fun _ => id)
      (fun _ _ h => ⟨hw.lt, m, hm, h⟩) fun _ => id) w rfl
  exact (hlines.and (hundisturbed.steady.keeps_solveAll t' kp.1 state price kp.2)).weaken (fun _ => id)
    (fun _ _ h => h) fun _ h => h.2

/-- The gradients of a stage are no longer than the incoming state. -/
theorem StageLines.length_le {x : List K} {nodes : List (ℕ × K)} {rs : List (K × List K × K)}
    (h : g.StageLines recipe t (some x) nodes rs) : ∀ r ∈ rs, r.2.1.length ≤ x.length := by
  obtain ⟨parts, rfl, hparts⟩ := h
  intro r hr
  obtain ⟨rs, hrs, hr⟩ := List.mem_flatten.1 hr
  obtain ⟨kp, -, -, m, -, hlength, items, -, hlines⟩ := exists_left_of_forall₂ hparts hrs
  obtain ⟨i, -, -, hline, -⟩ := exists_left_of_forall₂ hlines hr
  exact hline.1.trans_le hlength

/-- The lines of a stage together bound the expected costs of the stage. -/
theorem StageLines.bounds (hknown : g.KnowsBound recipe) {state y : Option (List K)}
    {nodes : List (ℕ × K)} {rs : List (K × List K × K)} (h : g.StageLines recipe t state nodes rs)
    (hpos : ∀ kp ∈ nodes, 0 < kp.2) {φ : K × List K × K → K}
    (hφ : ∀ z r, Node.weightedLine (state.getD z) (y.getD z) r = φ r) :
    ∀ c ∈ means (fun j => g.costsAt recipe t j (g.costsToGo recipe t j) y) nodes,
      g.sense.Bounds (rs.map φ).sum c := by
  obtain ⟨parts, rfl, hparts⟩ := h
  have hnodes : List.Forall₂ (fun kp rs => ∀ c ∈ g.costsAt recipe t kp.1
      (g.costsToGo recipe t kp.1) y, g.sense.Bounds (rs.map φ).sum (1 * (kp.2 * c)))
      nodes parts := by
    refine ((List.forall₂_and_left _ _).2 ⟨hpos, hparts⟩).imp ?_
    rintro kp rs ⟨hkp, hlt, m, hm, hlines⟩ c ⟨m', items, hm', hitems, hc⟩
    obtain rfl := Except.ok.inj (hm.symm.trans hm')
    obtain ⟨rows, hlinked⟩ := isLinked_newModel hm
    have hsense : m.program.sense = g.sense := hlinked.sense
    have hbounds := hlines.bounds hkp.le (hknown.admits hlt m) (y.getD m.initialValues) hitems c hc
    rw [hsense, List.map_congr_left fun r _ => hφ m.initialValues r] at hbounds
    rwa [one_mul]
  have hsum : ∀ c ∈ means (fun j => g.costsAt recipe t j (g.costsToGo recipe t j) y) nodes,
      g.sense.Bounds (parts.map fun rs => (rs.map φ).sum).sum (1 * c) := bounds_means 1 hnodes
  intro c hc
  have hflatten : (parts.flatten.map φ).sum = (parts.map fun rs => (rs.map φ).sum).sum := by
    rw [List.map_flatten, List.sum_flatten, List.map_map]
    rfl
  rw [hflatten, ← one_mul c]
  exact hsum c hc

/-! ## Generated cuts and computed bounds -/

/-- What a generated cut is made of. -/
theorem generateCut_eq_ok {state : List K} {rib : Option K} {iteration : Option ℤ}
    {w v : Watched (PolicyGraph K)} {cut : Cut K}
    (h : generateCut engine n state rib iteration w = .ok cut v) : ∃ r value gradient,
      solveStage engine (n.stage + 1) (w.part.successors n) (some state) rib w = .ok r v ∧
      v.part.measure.aggregate v.part.sense r = .ok (value, gradient) ∧
      gradient.length = state.length ∧ cut.side = w.part.sense.cutSide ∧
      cut.intercept = value - Scalar.dot gradient state ∧ cut.coefficients = gradient := by
  rw [generateCut, Run.part_bind_apply] at h
  obtain ⟨⟨value, gradient⟩, u, hstage, hcut⟩ := bind_eq_ok.1 h
  obtain ⟨r, t, hsolve, hrest⟩ := bind_eq_ok.1 hstage
  rw [Run.part_bind_apply] at hrest
  obtain ⟨haggregate, rfl⟩ := ofExcept_eq_ok.1 hrest
  refine ⟨r, value, gradient, ?_⟩
  dsimp only at hcut
  split_ifs at hcut with hlength
  · obtain ⟨⟨⟩, v', hthrow, -⟩ := bind_eq_ok.1 hcut
    cases hthrow
  · cases hcut
    exact ⟨hsolve, haggregate, by simpa using hlength, rfl, rfl, rfl⟩

section Neutral

variable (hspares : engine.Spares g.retry) (hduals : engine.HasDuals)
  (hknown : g.KnowsBound recipe) (hmeasure : g.measure = .expectation)
include hspares hduals hknown hmeasure

/-- Generated cuts are valid. -/
theorem generates_approximates :
    Generates engine g.frame (g.Approximates recipe) (g.IsValid recipe) := by
  intro t k n state rib iteration hn
  have hundisturbed : Undisturbed engine (g.Approximates recipe) := undisturbed_approximates hspares
  have hkeeps := keeps_generateCut (F := g.frame) hundisturbed.steady n state rib iteration
  refine ensures_iff.2 fun w hw => ⟨fun cut v hrun => ⟨?_, hkeeps.of_ok hw hrun⟩,
    fun e v hrun => hkeeps.of_error hw hrun⟩
  obtain ⟨r, value, gradient, hsolve, haggregate, hlength, hside, hintercept, hcoefficients⟩ :=
    generateCut_eq_ok hrun
  obtain ⟨⟨rs, rfl, hlines⟩, hv⟩ := (ensures_solveStage hspares hduals (n.stage + 1)
    (w.part.successors n) (some state) rib).of_ok hw hsolve
  have hwsense : w.part.sense = g.sense := congrArg (fun F => F.1.sense) hw.frame
  have hvmeasure : v.part.measure = g.measure := congrArg (fun F => F.1.measure) hv.frame
  rw [hvmeasure, hmeasure] at haggregate
  obtain ⟨rfl, rfl⟩ := Prod.mk.inj (Except.ok.inj haggregate)
  refine ⟨hside.trans (by rw [hwsense]), fun y c hc => ?_⟩
  have hsum := Realizations.sum_weightedLine hlines.length_le hlength y
  rw [Cut.evaluate, hintercept, hcoefficients, hsum]
  obtain ⟨m, -, hmade⟩ := hn.made
  have hrow : w.part.successors n = positive (w.part.transition n) := rfl
  by_cases hlast : t + 1 = g.stages
  · -- Nothing follows the last stage.
    have hterminal : n.isTerminal = true := by
      rw [hmade.isTerminal, behind, if_pos hlast]
      rfl
    rw [hrow, transition, if_pos hterminal] at hlines
    obtain ⟨parts, rfl, hparts⟩ := hlines
    obtain rfl : parts = [] := List.forall₂_nil_left_iff.1 hparts
    rw [costsToGo_last hlast] at hc
    obtain rfl : c = 0 := hc
    exact g.sense.bounds_refl 0
  · have hterminal : n.isTerminal = false := by
      rw [hmade.isTerminal, behind, if_neg hlast]
      rfl
    have htransitions : w.part.transitions = g.transitions :=
      congrArg (fun F => F.1.transitions) hw.frame
    rw [hrow, transition, hterminal, htransitions, hn.stage, hn.markov] at hlines
    have hlt := hn.lt
    rw [costsToGo_eq (by omega)] at hc
    exact hlines.bounds hknown pos_of_positive (y := some y) (fun _ _ => rfl) c hc

end Neutral

/-! ## Building and rebuilding -/

/-- A rebuilt node has the valid cuts that are active. -/
theorem Approximates.rebuilt {b : Builder K} {n' : Node K} (hn : g.Approximates b.recipe t k n)
    (hbuilder : g.builder = some b) (hagain : b.again = b.recipe) (h : g.rebuilt n = .ok n') :
    g.Approximates b.recipe t k n' := by
  obtain ⟨b', m', hb', hm', -, rfl⟩ := rebuilt_eq_ok h
  obtain rfl := Option.some.inj (hbuilder.symm.trans hb')
  obtain ⟨m, hm, hmade⟩ := hn.made
  rw [hagain, hn.stage, hn.markov] at hm'
  obtain rfl := Except.ok.inj (hm.symm.trans hm')
  have hfits := hmade.fits
  unfold behind at hmade hfits
  by_cases hlast : t + 1 = g.stages
  · rw [if_pos hlast] at hmade hfits
    have hterminal : n.isTerminal = true := hmade.isTerminal
    rw [if_pos hterminal]
    refine { hn with made := ⟨m, hm, ?_⟩ }
    rw [behind, if_pos hlast]
    exact ⟨hmade.isTerminal, { hfits with outline := rfl, program := ⟨[], by simp, .refl _ _ _⟩ }⟩
  · rw [if_neg hlast] at hmade hfits
    have hterminal : n.isTerminal = false := hmade.isTerminal
    have hselection : (n.costToGo.rebuild m).1.selection = n.costToGo.selection := by
      obtain ⟨rows, hlinked⟩ := isLinked_newModel hm
      exact (isSound_rebuild hlinked.isRegular).1
    rw [if_neg (by simp [hterminal])]
    refine { hn with selection := hselection.trans hn.selection, made := ⟨m, hm, ?_⟩ }
    rw [behind, if_neg hlast]
    exact ⟨hterminal, hfits.rebuild rfl⟩

theorem keeps_approximates_rebuild {b : Builder K} (hbuilder : g.builder = some b)
    (hagain : b.again = b.recipe) (hn : g.Approximates b.recipe t k n) :
    Keeps (Holds g.frame (g.Approximates b.recipe)) (rebuild n) := by
  refine keeps_rebuild_of_rebuilt (t := t) (k := k) (fun _ _ _ h => ⟨h.stage, h.markov⟩)
    fun g' n' hframe hn' => ?_
  have hsame : g'.rebuilt n = g.rebuilt n := congrArg (fun F => F.1.rebuilt n) hframe
  exact hn.rebuilt hbuilder hagain (hsame ▸ hn')

end PolicyGraph

end DualDynamic
