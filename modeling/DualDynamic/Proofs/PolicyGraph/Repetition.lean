import DualDynamic.Proofs.PolicyGraph.Open
import DualDynamic.Proofs.PolicyGraph.Twins
import DualDynamic.Proofs.Repetition
import DualDynamic.Proofs.RiskMeasure.CutValidity

/-!
# Aggregating a stage again

What was aggregated of a stage can be aggregated again later, as long as the nodes of this stage have got no
cuts since. The value is the same then, whatever the nodes were set up for in between and whatever cuts
came into other stages (`follows_expectedValue`). Gradients may differ, since programs may have
several dual solutions; the value does not look at them.
-/

namespace DualDynamic

open Step

variable {K : Type} [ExactNumeral K]

/-- The aggregated value depends on values and weights, not on gradients. -/
theorem RiskMeasure.exists_aggregate_of_values (m : RiskMeasure K) (s : Sense)
    {values weights gradient : List K} {gradients : List (List K)} {value : K}
    (h : m.aggregate s ⟨values, gradients, weights⟩ = .ok (value, gradient))
    (gradients' : List (List K)) :
    ∃ gradient', m.aggregate s ⟨values, gradients', weights⟩ = .ok (value, gradient') := by
  cases m with
  | expectation =>
    obtain ⟨rfl, -⟩ := Prod.mk.inj (Except.ok.inj h)
    exact ⟨_, rfl⟩
  | averageAtRisk level weight =>
    have hreaching : ∀ order, Realizations.reaching ⟨values, gradients', weights⟩ (Scalar.one - level)
        Scalar.zero order = Realizations.reaching ⟨values, gradients, weights⟩ (Scalar.one - level)
          Scalar.zero order := fun _ => Realizations.reaching_congr (by rfl) _ _
    have hstart : Realizations.tailStart s level ⟨values, gradients', weights⟩ =
        Realizations.tailStart s level ⟨values, gradients, weights⟩ := by
      simp only [Realizations.tailStart, hreaching]
      rfl
    simp only [aggregate, hstart] at h ⊢
    cases hfirst : Realizations.tailStart s level ⟨values, gradients, weights⟩ with
    | none =>
      rw [hfirst] at h
      cases h
    | some start =>
      rw [hfirst] at h
      obtain ⟨rfl, -⟩ := Prod.mk.inj (Except.ok.inj h)
      exact ⟨_, rfl⟩

omit [ExactNumeral K] in
theorem Node.exists_gradients_of_sameValue {rs rs' : List (K × List K × K)}
    (h : List.Forall₂ SameValue rs rs') : ∃ gradients, Realizations.ofTriples rs' =
      ⟨(Realizations.ofTriples rs).values, gradients, (Realizations.ofTriples rs).weights⟩ := by
  have hsame : rs'.map (·.1) = rs.map (·.1) ∧ rs'.map (·.2.2) = rs.map (·.2.2) := by
    induction h with
    | nil => exact ⟨rfl, rfl⟩
    | cons hr _ ih => simp only [List.map_cons, hr.1, hr.2, ih, and_self]
  exact ⟨_, by rw [Realizations.ofTriples, hsame.1, hsame.2]; rfl⟩

namespace PolicyGraph

variable {F : PolicyGraph K × List ℕ} {R : ℕ → ℕ → Node K → Node K → Prop} {g g' : PolicyGraph K}
  {A : Type} {engine : Engine K} {t k : ℕ}

omit [ExactNumeral K] in
/-- A step that succeeds on the node of one graph, done with the related node of the other one. -/
theorem Beside.follows_atNode {x : Run K (Node K) A} {Q : A → A → Prop} {S : Node K → Node K → Prop}
    (hS : ∀ n n', S n n' → n.IsSound F t k ∧ n'.rest = n.rest)
    (hx : Follows (fun w w' => R t k w.part w'.part) x x fun a a' w w' =>
      Q a a' ∧ S w.part w'.part) :
    Follows (fun w w' => Beside F R w.part w'.part) (atNode t k x) (atNode t k x) fun a a' w w' =>
      Q a a' ∧ Beside F (AtPlace t k S R) w.part w'.part := by
  intro w w' hw a v hv
  obtain ⟨n, u, hplace, hu, rfl⟩ := atNode_eq_ok hv
  obtain ⟨n', hplace', hR⟩ := hw.nodes t k n hplace
  have hstep : atNode t k x w' =
      Run.within (fun _ => n') (fun n g => PolicyGraph.putNode g n) x w' := by
    rw [atNode, Run.part_bind_apply]
    exact bind_of_ok (ofExcept_eq_ok.2 ⟨node_natCast hplace', rfl⟩)
  rw [hstep]
  obtain ⟨a', u', hu', hQ, hafter⟩ | ⟨u', hinterrupted⟩ := hx ⟨w.monitor, n⟩ ⟨w'.monitor, n'⟩ hR a u hu
  · obtain ⟨hsound, hrest⟩ := hS _ _ hafter
    exact Or.inl ⟨a', _, Run.within_eq_ok.2 ⟨u', hu', rfl⟩, hQ, hw.putNode hsound hrest hafter⟩
  · refine Or.inr ⟨⟨u'.monitor, w'.part.putNode u'.part⟩, ?_⟩
    unfold Run.within Step.within
    rw [hinterrupted]

/-- The nodes in one stage are twins, but for the cells that settings write to. -/
abbrev AreTwinsIn (F : PolicyGraph K × List ℕ) (stage : ℕ) : PolicyGraph K → PolicyGraph K → Prop :=
  Beside F fun t k n n' => t = stage → n.IsTwin F Node.cells t k n'

section Solves

variable (hspares : engine.Spares F.1.retry) (hexact : engine.IsExact) (hreliable : engine.IsReliable)
include hspares hexact hreliable

/-- A stage that was solved is solved again, with the same values. -/
theorem follows_solveStage (stage : ℕ) (nodes : List (ℕ × K)) (state : Option (List K))
    (price : Option K) : Follows (fun w w' => AreTwinsIn F stage w.part w'.part)
      (solveStage engine stage nodes state price) (solveStage engine stage nodes state price)
      fun r r' w w' => (∃ rs rs', r = .ofTriples rs ∧ r' = .ofTriples rs' ∧
        List.Forall₂ Node.SameValue rs rs') ∧ AreTwinsIn F stage w.part w'.part := by
  have hnode : ∀ kp ∈ nodes, Follows (fun w w' => AreTwinsIn F stage w.part w'.part)
      (atNode stage kp.1 (Node.solveAll engine state price kp.2))
      (atNode stage kp.1 (Node.solveAll engine state price kp.2))
      fun rs rs' w w' => List.Forall₂ Node.SameValue rs rs' ∧ AreTwinsIn F stage w.part w'.part := by
    intro kp _
    refine (Beside.follows_atNode (S := fun n n' => n.IsTwin F Node.cells stage kp.1 n')
      (fun n n' h => ⟨h.sound, h.twins.rest⟩) ?_).weaken (fun _ _ => id)
        fun _ _ _ _ h => ⟨h.1, h.2.of_atPlace fun _ _ h _ => h⟩
    intro w w' hw rs v hrs
    have htwin := hw rfl
    obtain ⟨rows, hwell⟩ := htwin.sound.model.wellFormed
    refine ((Node.follows_twins_solveAll hwell (htwin.sound.model.retry ▸ hspares) hexact hreliable
      htwin.sound.model.continuous state price kp.2) w w' ⟨.refl _ _, htwin.twins⟩ rs v hrs).imp_left ?_
    rintro ⟨rs', v', hrs', hsame, hfrom⟩
    refine ⟨rs', v', hrs', hsame, htwin.sound.extends hfrom.1, ?_⟩
    rw [Node.cells_congr hfrom.outline.1]
    exact hfrom.2
  refine (Follows.mapM hnode).bind fun parts parts' => follows_pure fun w w' h => ⟨?_, h.2⟩
  exact ⟨parts.flatten, parts'.flatten, rfl, rfl, List.rel_flatten h.1⟩

/-- A stage that was aggregated is aggregated again to the same value. -/
theorem follows_aggregateStage (stage : ℕ) (nodes : List (ℕ × K)) (state : Option (List K))
    (price : Option K) : Follows (fun w w' => AreTwinsIn F stage w.part w'.part)
      (aggregateStage engine stage nodes state price) (aggregateStage engine stage nodes state price)
      fun a a' _ _ => a'.1 = a.1 := by
  refine (follows_solveStage hspares hexact hreliable stage nodes state price).bind fun r r' =>
    Run.follows_part_bind fun w w' hw => ?_
  obtain ⟨⟨rs, rs', rfl, rfl, hsame⟩, hbeside⟩ := hw
  rw [hbeside.congr measure fun _ => rfl, hbeside.congr sense fun _ => rfl]
  refine follows_ofExcept fun a ha => ?_
  obtain ⟨gradients, hrs'⟩ := Node.exists_gradients_of_sameValue hsame
  obtain ⟨gradient, haggregate⟩ := RiskMeasure.exists_aggregate_of_values _ _ ha gradients
  exact ⟨(a.1, gradient), by rw [hrs']; exact haggregate, fun _ _ _ => rfl⟩

/-- What the aggregated value of the successors of a node was, it still is, as long as the stage has got no
cuts. -/
theorem expectedValue_again {n : Node K} {state : Option (List K)} {price : Option K}
    (h : AreTwinsIn F (n.stage + 1) g g') {i : Monitor} {a : K × List K}
    {v : Watched (PolicyGraph K)}
    (ha : aggregateStage engine (n.stage + 1) (g.successors n) state price ⟨i, g⟩ = .ok a v) (j : Monitor) :
    (∃ u, expectedValue engine n state price ⟨j, g'⟩ = .ok a.1 u) ∨
      ∃ u, expectedValue engine n state price ⟨j, g'⟩ = .error .interrupted u := by
  have hsuccessors : g'.successors n = g.successors n := h.congr (successors · n) fun _ => rfl
  rw [expectedValue, Run.part_bind_apply, hsuccessors]
  obtain ⟨a', u, ha', hvalue⟩ | ⟨u, hinterrupted⟩ := follows_aggregateStage hspares hexact hreliable
    (n.stage + 1) (g.successors n) state price ⟨i, g⟩ ⟨j, g'⟩ h a v ha
  · exact Or.inl ⟨u, bind_eq_ok.2 ⟨a', u, ha', by rw [hvalue]; rfl⟩⟩
  · exact Or.inr ⟨u, bind_of_error hinterrupted⟩

end Solves

end PolicyGraph

end DualDynamic
