import DualDynamic.Proofs.Node.Observed
import DualDynamic.Proofs.Node.Settings

/-!
# The data of a program

A program of a node has the data for a state, a price and a realization (`HasData`) if it holds, in
all cells that settings write to, what is written there for them. This determines these cells:
the right-hand sides that tie the state, what depends on noise, the costs that depend on the price and
the weights of the cost-to-go.

Every program that a node shows has the data for what it was set up for. The incoming state is
written once, before all realizations; it stays, since neither noise nor price nor the actions of a
retry write to a link.
-/

namespace DualDynamic

open Step

variable {K : Type} [Numeral K]

namespace Node

variable {engine : Engine K} {n n₀ : Node K} {rows : ℕ}

/-! ## What is written -/

/-- The program has the data of the node for a state, a price and a realization. -/
structure HasData (n : Node K) (state : List K) (price : Option K) (k : ℕ) (p : LinearProgram K) :
    Prop where
  incoming : Receives n n.model.incomingCells (onModel (Subproblem.setIncoming state)) p
  setting : Receives n n.settingCells
    (onModel (Subproblem.setRealization k) >>= fun _ => setPrice price) p

section WellFormed

variable (hwell : n₀.model.WellFormed rows)
include hwell

/-- Programs with the same data agree in all cells that settings write to. -/
theorem HasData.read_eq {state : List K} {price : Option K} {k : ℕ} {p q : LinearProgram K}
    (hp : n₀.HasData state price k p) (hq : n₀.HasData state price k q) :
    ∀ d ∈ n₀.cells, q.read d = p.read d := by
  rintro d (hd | hd)
  · exact (sets_onModel (Subproblem.sets_setIncoming hwell state)).read_eq_of_receives
      (fun d hd => isWithin_cells hwell d (Or.inl hd)) hp.incoming hq.incoming d hd
  · exact (sets_setting hwell price k).read_eq_of_receives
      (fun d hd => isWithin_cells hwell d (Or.inr hd)) hp.setting hq.setting d hd

omit [Numeral K] in
theorem disjoint_incomingCells :
    Disjoint n₀.model.incomingCells (n₀.settingCells ∪ n₀.model.retryCells) := by
  rw [Set.disjoint_left]
  rintro d ⟨c, hc, rfl⟩ (hmem | ⟨r, -, a, -, hmem⟩)
  · exact rhs_notMem_settingCells hwell hc hmem
  · exact hwell.rhs_notMem_actionCells hc a hmem

end WellFormed

/-! ## The incoming state stays -/

/-- The node is `n₀` with other numbers in its program and perhaps more constraints, but with this
incoming state. -/
structure IsEntered (n₀ : Node K) (state : List K) (n : Node K) : Prop where
  like : Extends Set.univ n₀ n
  incoming : Receives n₀ n₀.model.incomingCells (onModel (Subproblem.setIncoming state))
    n.model.program

section Run

variable (hwell : n₀.model.WellFormed rows) (state : List K)
include hwell

theorem isBlind_isEntered :
    IsBlind (n₀.settingCells ∪ n₀.model.retryCells) (IsEntered n₀ state) :=
  fun t t' htouches h => ⟨isBlind_extends (Set.subset_univ _) n₀ t t' htouches h.like,
    isBlind_receives (disjoint_incomingCells hwell) _ t t' htouches h.incoming⟩

theorem ensures_setIncoming : Ensures (fun w => Extends Set.univ n₀ w.part)
    (onModel (Subproblem.setIncoming state)) (fun _ w => IsEntered n₀ state w.part)
    fun w => Extends Set.univ n₀ w.part := by
  have hsets := sets_onModel (Subproblem.sets_setIncoming hwell state)
  have hkeeps := hsets.keeps _ (isBlind_extends (Set.subset_univ _) n₀) fun _ h => h.outline
  rw [ensures_iff]
  intro w hw
  refine ⟨fun a v h => ⟨hkeeps.of_ok hw h, ?_⟩, fun e v h => hkeeps.of_error hw h⟩
  exact hsets.receives (fun d hd => isWithin_cells hwell d (Or.inl hd)) hw h

/-- The program that is shown has the data for state, price and realization. -/
theorem ensures_present (price : Option K) (k : ℕ) :
    Ensures (fun w => IsEntered n₀ state w.part) (present price k)
      (fun p w => n₀.HasData state price k p ∧ IsEntered n₀ state w.part)
      fun w => IsEntered n₀ state w.part := by
  have hsets := sets_setting hwell price k
  have hkeeps := hsets.keeps _ ((isBlind_isEntered hwell state).mono Set.subset_union_left)
    fun _ h => h.like.outline
  have hsetting : Ensures (fun w => IsEntered n₀ state w.part)
      (onModel (Subproblem.setRealization k) >>= fun _ => setPrice price)
      (fun _ w => n₀.HasData state price k w.part.model.program ∧ IsEntered n₀ state w.part)
      fun w => IsEntered n₀ state w.part := by
    rw [ensures_iff]
    intro w hw
    refine ⟨fun a v h => ?_, fun e v h => hkeeps.of_error hw h⟩
    have hv := hkeeps.of_ok hw h
    exact ⟨⟨hv.incoming, hsets.receives (fun d hd => isWithin_cells hwell d (Or.inr hd)) hw.like h⟩,
      hv⟩
  rw [present_eq]
  exact hsetting.bind fun _ => Run.ensures_part_bind fun w hw => ensures_pure fun v hv => hv ▸ hw

theorem keeps_isEntered_solve (stage markov : Option ℤ) :
    Keeps (fun w => IsEntered n₀ state w.part) (onModel (Subproblem.solve engine stage markov)) :=
  keeps_onModel (fun _ hJ hm => Subproblem.keeps_solve_of_isBlind hwell hJ hm stage markov)
    ((isBlind_isEntered hwell state).mono Set.subset_union_right) fun _ h => h.like.outline

theorem ensures_observeDecision (price : Option K) (k : ℕ) :
    Ensures (fun w => IsEntered n₀ state w.part) (observeDecision engine price k)
      (fun p w => n₀.HasData state price k p ∧ IsEntered n₀ state w.part)
      fun w => IsEntered n₀ state w.part := by
  refine (ensures_present hwell state price k).bind fun p w hw => ?_
  have hsolve : ∀ stage markov, Ensures (fun w => IsEntered n₀ state w.part)
      (onModel (Subproblem.solve engine stage markov) >>= fun _ => pure p)
      (fun p w => n₀.HasData state price k p ∧ IsEntered n₀ state w.part)
      fun w => IsEntered n₀ state w.part := fun stage markov =>
    Ensures.bind (keeps_isEntered_solve hwell state stage markov) fun _ =>
      ensures_pure fun v hv => ⟨hw.1, hv⟩
  exact hsolve _ _ w hw.2

end Run

/-! ## All that can happen -/

end Node

end DualDynamic
