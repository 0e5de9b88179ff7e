import DualDynamic.Proofs.PolicyGraph.Sound

/-!
# Constructions that fail

Building a graph looks at the parameters of the builder first, and a builder that is refused there
leaves no trace. Then the builder is kept, before it has made a single node, and the nodes are kept
before their numbers of state variables are compared. So a construction that fails at a node leaves
the old nodes with the new builder, which makes them from then on when they are rebuilt, and one that
fails in the comparison leaves new nodes that do not fit together (`build_eq_error`).

Rebuilding a node does better: the graph is touched when all of the new node is there.
-/

namespace DualDynamic

open Step

variable {K : Type}

namespace PolicyGraph

variable [Numeral K] {g g' : PolicyGraph K} {b : Builder K} {e : Fault K}

/-! ## The node that fails -/

/-- The nodes are made stage by stage. This is the first one that cannot be made, and why. -/
def FailsAt (g : PolicyGraph K) (b : Builder K) (t k : ℕ) (e : Fault K) : Prop :=
  (t < g.stages ∧ k < g.transitions.sizes.getD t 0 ∧ g.newNode b t k = .error e) ∧
    (∀ t' < t, ∀ k' < g.transitions.sizes.getD t' 0, ∃ n, g.newNode b t' k' = .ok n) ∧
    ∀ k' < k, ∃ n, g.newNode b t k' = .ok n

theorem newNodes_eq_error : g.newNodes b = .error e ↔ ∃ t k, g.FailsAt b t k e := by
  unfold newNodes
  rw [mapM_range_eq_error]
  simp only [mapM_range_eq_error, exists_mapM_range]
  constructor
  · rintro ⟨t, ht, ⟨k, hk, hfails, hrow⟩, hrows⟩
    exact ⟨t, k, ⟨ht, hk, hfails⟩, hrows, hrow⟩
  · rintro ⟨t, k, ⟨ht, hk, hfails⟩, hrows, hrow⟩
    exact ⟨t, ht, ⟨k, hk, hfails, hrow⟩, hrows⟩

/-! ## What is left -/

/-- Building, fault by fault: what it comes to, and the graph that it leaves. -/
theorem build_apply (b : Builder K) (g : PolicyGraph K) : build b g =
    match b.check, g.newNodes b with
    | .error e, _ => .error e g
    | .ok _, .error e => .error e { g with builder := some b }
    | .ok _, .ok nodes =>
      match checkStates 0 none nodes with
      | .error e => .error e { g with builder := some b, nodes := nodes }
      | .ok _ => .ok () { g with builder := some b, nodes := nodes } := by
  unfold build
  cases b.check with
  | error e => rfl
  | ok _ =>
    rw [ofExcept_ok_bind_apply]
    have hnew : ({ g with builder := some b } : PolicyGraph K).newNodes b = g.newNodes b := rfl
    show (Step.ofExcept (({ g with builder := some b } : PolicyGraph K).newNodes b) >>= _) _ = _
    rw [hnew]
    cases g.newNodes b with
    | error e => rfl
    | ok nodes =>
      rw [ofExcept_ok_bind_apply]
      show Step.ofExcept (checkStates 0 none nodes) { g with builder := some b, nodes := nodes } = _
      dsimp only
      cases checkStates 0 none nodes <;> rfl

/-- Everything that a construction can fail at, and the graph that it leaves. -/
theorem build_eq_error : build b g = .error e g' ↔
    b.check = .error e ∧ g' = g ∨
    b.check = .ok () ∧
      ((∃ t k, g.FailsAt b t k e) ∧ g' = { g with builder := some b } ∨
        ∃ nodes, g.newNodes b = .ok nodes ∧ checkStates 0 none nodes = .error e ∧
          g' = { g with builder := some b, nodes := nodes }) := by
  rw [← newNodes_eq_error, build_apply]
  cases b.check with
  | error e' => simp [eq_comm]
  | ok _ =>
    cases g.newNodes b with
    | error e' => simp [eq_comm]
    | ok nodes =>
      dsimp only
      cases hstates : checkStates 0 none nodes <;> simp [hstates, eq_comm]

/-- The graph is touched when all of the new node is there. -/
theorem rebuild_eq_error {n : Node K} :
    rebuild n g = .error e g' ↔ g.rebuilt n = .error e ∧ g' = g := by
  have hrun : rebuild n g =
      (Step.ofExcept (g.rebuilt n) >>= fun n => modify fun g => g.putNode n : Step K _ Unit) g := rfl
  rw [hrun]
  cases g.rebuilt n with
  | error e' => simp [ofExcept_error_bind_apply, eq_comm]
  | ok n' =>
    rw [ofExcept_ok_bind_apply]
    refine iff_of_false ?_ fun h => by cases h.1
    intro h
    cases h

/-! ## Constructions that leave no trace -/

/-- If the construction fails, the graph has the nodes that it had, and they are rebuilt by the
builder that it had. -/
def BuildsCleanly (g : PolicyGraph K) (b : Builder K) : Prop :=
  ∀ e g', build b g = .error e g' → g'.nodes = g.nodes ∧ g'.builder = g.builder

/-- If the node cannot be rebuilt, nothing changes. -/
def RebuildsCleanly (g : PolicyGraph K) (n : Node K) : Prop :=
  ∀ e g', rebuild n g = .error e g' → g' = g

/-- Whatever has happened to a graph, no trace is left by a node that cannot be rebuilt. A
construction leaves none exactly if it does not fail, or if the builder is refused for its parameters,
or if what it leaves was there before: the same builder, and the same nodes in case all of them can be
made. -/
theorem buildsCleanly_iff (g : PolicyGraph K) (b : Builder K) :
    (g.BuildsCleanly b ↔ succeeds (build b) g = true ∨ (∃ e, b.check = .error e) ∨
      g.builder = some b ∧ ∀ nodes, g.newNodes b = .ok nodes → g.nodes = nodes) ∧
    ∀ n, g.RebuildsCleanly n := by
  refine ⟨⟨fun h => ?_, ?_⟩, fun n e g' h => (rebuild_eq_error.1 h).2⟩
  · cases hsucceeds : succeeds (build b) g with
    | true => exact Or.inl rfl
    | false =>
      obtain ⟨e, hfails⟩ := exists_eq_error_final hsucceeds
      obtain ⟨hnodes, hbuilder⟩ := h _ _ hfails
      obtain ⟨hcheck, -⟩ | ⟨-, ⟨hnode, hg'⟩ | ⟨nodes, hnew, -, hg'⟩⟩ := build_eq_error.1 hfails
      · exact Or.inr (Or.inl ⟨e, hcheck⟩)
      · rw [hg'] at hbuilder
        refine Or.inr (Or.inr ⟨hbuilder.symm, fun nodes hnew => ?_⟩)
        rw [newNodes_eq_error.2 hnode] at hnew
        cases hnew
      · rw [hg'] at hnodes hbuilder
        refine Or.inr (Or.inr ⟨hbuilder.symm, fun nodes' hnew' => ?_⟩)
        rw [← hnodes, ← Except.ok.inj (hnew.symm.trans hnew')]
  · rintro (hsucceeds | ⟨e', hcheck⟩ | ⟨hbuilder, hsame⟩) e g' hfails
    · unfold Step.succeeds at hsucceeds
      rw [hfails] at hsucceeds
      cases hsucceeds
    · obtain ⟨-, rfl⟩ | ⟨hok, -⟩ := build_eq_error.1 hfails
      · exact ⟨rfl, rfl⟩
      · rw [hcheck] at hok
        cases hok
    · obtain ⟨-, rfl⟩ | ⟨-, ⟨-, rfl⟩ | ⟨nodes, hnew, -, rfl⟩⟩ := build_eq_error.1 hfails
      · exact ⟨rfl, rfl⟩
      · exact ⟨rfl, hbuilder.symm⟩
      · exact ⟨(hsame nodes hnew).symm, hbuilder.symm⟩

end PolicyGraph

/-! ## A yard -/

namespace Yard

/-- Stock is kept. -/
def recipe : Recipe ℚ := fun _ _ => [.state "stock" ⟨0, 10, 0, "C"⟩ (.real 0) .absent]

def builder : Builder ℚ := ⟨some 3, recipe, recipe⟩

/-- Stock is moved too, from the second stage on in whole pallets. -/
def movingRecipe : Recipe ℚ := fun stage _ =>
  [.state "stock" ⟨0, 10, 0, "C"⟩ (.real 0) .absent,
    .var "moved" ⟨0, 5, 0, if stage = 0 then "C" else "I"⟩ .absent]

def mover : Builder ℚ := ⟨some 3, movingRecipe, movingRecipe⟩

/-- The problem before it is built. -/
def unbuilt : PolicyGraph ℚ :=
  { stages := 2, sense := .minimize, knownBound := .whole 0, transitions := .trivial 2,
    template := .single .keepAll }

def graph : PolicyGraph ℚ := final (PolicyGraph.build builder) unbuilt

/-- What the second builder leaves of the graph. -/
def rest : PolicyGraph ℚ := final (PolicyGraph.build mover) graph

/-- The numbers of variables of a node and of what it becomes when it is rebuilt. -/
def sizes (g : PolicyGraph ℚ) (n : Node ℚ) : Option (ℕ × ℕ) :=
  (g.rebuilt n).toOption.map fun n' => (n.model.program.vars.size, n'.model.program.vars.size)

end Yard

namespace PolicyGraph

/-- The nodes of the yard are in place when a builder is tried that makes an integer variable in the
second stage. The construction fails and leaves the nodes. But when the node of the first stage is
rebuilt after that, it becomes one of the builder that failed, with a variable more. -/
theorem not_buildsCleanly_yard : build Yard.builder Yard.unbuilt = .ok () Yard.graph ∧
    ¬ Yard.graph.BuildsCleanly Yard.mover ∧
    ∃ e n, build Yard.mover Yard.graph = .error e Yard.rest ∧ Yard.graph.nodeAt 0 0 = some n ∧
      Yard.rest.nodeAt 0 0 = some n ∧ Yard.sizes Yard.graph n = some (3, 3) ∧
      Yard.sizes Yard.rest n = some (3, 4) := by
  have hbuilt : succeeds (build Yard.builder) Yard.unbuilt = true := by decide +kernel
  have hintegral : (Yard.graph.newNodes Yard.mover).isOk = false := by decide +kernel
  have hfirst : (Yard.graph.nodeAt 0 0).any (fun n =>
      decide (Yard.sizes Yard.graph n = some (3, 3) ∧ Yard.sizes Yard.rest n = some (3, 4))) =
        true := by decide +kernel
  have hstatements : Yard.graph.builder.map (fun b => (b.recipe 0 0).length) = some 1 := by
    decide +kernel
  obtain ⟨e, hnew⟩ : ∃ e, Yard.graph.newNodes Yard.mover = .error e := by
    cases hnew : Yard.graph.newNodes Yard.mover with
    | ok nodes =>
      rw [hnew] at hintegral
      cases hintegral
    | error e => exact ⟨e, rfl⟩
  have hfails : build Yard.mover Yard.graph =
      .error e { Yard.graph with builder := some Yard.mover } :=
    build_eq_error.2 (Or.inr ⟨rfl, Or.inl ⟨newNodes_eq_error.1 hnew, rfl⟩⟩)
  have hrest : Yard.rest = { Yard.graph with builder := some Yard.mover } := final_of_error hfails
  obtain ⟨n, hn, htest⟩ := (Option.any_eq_true _ _).1 hfirst
  obtain ⟨hbefore, hafter⟩ := of_decide_eq_true htest
  refine ⟨eq_ok_final hbuilt, fun hclean => ?_, e, n, hrest ▸ hfails, hn, ?_, hbefore, hafter⟩
  · rw [← (hclean _ _ hfails).2] at hstatements
    exact absurd hstatements (by decide)
  · rw [hrest]
    exact hn

end PolicyGraph

end DualDynamic
