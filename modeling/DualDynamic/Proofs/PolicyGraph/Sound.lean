import DualDynamic.Proofs.CostToGo
import DualDynamic.Proofs.PolicyGraph
import DualDynamic.Proofs.Subproblem.Statement

/-!
# Sound graphs

A node is sound if it stands where it belongs and its subproblem is regular: well-formed, without
integral variables, with the sense and the retry of the graph. Building makes sound nodes, and
rebuilding does.

Everything else that happens to a node leaves its data alone and at most adds constraints: the graph
grows (`Grows`).
-/

namespace DualDynamic

open Step

variable {K : Type}

/-! ## Regular subproblems -/

namespace Subproblem

/-- A subproblem that can be set up and solved, with a retry and a sense. -/
structure IsRegular (o : Option (Retry K) × Sense) (m : Subproblem K) : Prop where
  retry : m.retry = o.1
  sense : m.program.sense = o.2
  wellFormed : ∃ n, m.WellFormed n
  continuous : ∀ v ∈ m.program.vars.toList, v.integral = false

variable {o : Option (Retry K) × Sense} {n : ℕ} {m : Subproblem K}

theorem IsLinked.isRegular (h : IsLinked o n m) : IsRegular o m :=
  ⟨h.retry, h.sense, ⟨n, h.wellFormed⟩, h.continuous⟩

theorem IsRegular.withVariable (h : IsRegular o m) {v : Variable K} (hv : v.integral = false) :
    IsRegular o (m.withVariable v) where
  retry := h.retry
  sense := h.sense
  wellFormed := h.wellFormed.imp fun _ hw =>
    hw.mono rfl (by simp [Subproblem.withVariable, LinearProgram.addVariable]) le_rfl
  continuous u hu := by
    have hu' : u ∈ m.program.vars ∨ u = v := by
      simpa [Subproblem.withVariable, LinearProgram.addVariable] using hu
    rcases hu' with hu' | rfl
    · exact h.continuous u (Array.mem_toList_iff.2 hu')
    · exact hv

theorem IsRegular.withConstraint (h : IsRegular o m) (c : Constraint K) :
    IsRegular o (m.withConstraint c) where
  retry := h.retry
  sense := h.sense
  wellFormed := h.wellFormed.imp fun _ hw =>
    hw.mono rfl le_rfl (by simp [Subproblem.withConstraint, LinearProgram.addConstraint])
  continuous := h.continuous

theorem IsRegular.extends [Numeral K] {D : Set Cell} {m' : Subproblem K} (h : IsRegular o m)
    (hm : Extends D m m') : IsRegular o m' where
  retry := by
    obtain ⟨p, r, t, s, rfl⟩ := exists_of_outline hm.outline
    exact h.retry
  sense := hm.program.sense.trans h.sense
  wellFormed := h.wellFormed.imp fun _ hw => hw.mono hm.outline hm.program.vars.ge hm.program.rows
  continuous := hm.program.isContinuous h.continuous

end Subproblem

namespace CostToGo

variable [Numeral K] {o : Option (Retry K) × Sense} {m : Subproblem K}

theorem isRegular_withRibVariables (h : m.IsRegular o) (f : Frame K) (n : ℕ) :
    (withRibVariables f n m).IsRegular o := by
  have hfold : ∀ (is : List ℕ) (m : Subproblem K), m.IsRegular o →
      ((is.map (ribVariable f)).foldl Subproblem.withVariable m).IsRegular o := by
    intro is
    induction is with
    | nil => exact fun _ hm => hm
    | cons i is ih => exact fun m hm => ih _ (hm.withVariable rfl)
  exact hfold _ m h

end CostToGo

/-! ## Sound nodes -/

/-- A node that stands where it belongs, with a regular subproblem and a cost-to-go of the
configuration of the graph. -/
structure Node.IsSound (F : PolicyGraph K × List ℕ) (t k : ℕ) (n : Node K) : Prop where
  stage : n.stage = t
  markov : n.markov = k
  model : n.model.IsRegular (F.1.retry, F.1.sense)
  selection : n.costToGo.selection = F.1.template.selection
  pricing : n.costToGo.pricing = F.1.template.pricing
  terminal : n.isTerminal = (t + 1 == F.1.stages)

theorem Node.isPlaced_isSound (F : PolicyGraph K × List ℕ) : PolicyGraph.IsPlaced (Node.IsSound F) :=
  fun _ _ _ h => ⟨h.stage, h.markov⟩

theorem Node.IsSound.extends [Numeral K] {F : PolicyGraph K × List ℕ} {t k : ℕ} {D : Set Cell}
    {n n' : Node K} (h : n.IsSound F t k) (hn : Extends D n n') : n'.IsSound F t k := by
  have hmodel := h.model.extends (extends_model hn)
  obtain ⟨m, pools, installed, price, -, rfl⟩ := exists_of_outline hn.outline
  exact { h with model := hmodel }

namespace PolicyGraph

/-- All nodes are sound. -/
def IsSound (g : PolicyGraph K) : Prop := Holds g.frame (Node.IsSound g.frame) g

theorem isSound_of_holds {g : PolicyGraph K} {F : PolicyGraph K × List ℕ}
    (h : Holds F (Node.IsSound F) g) : g.IsSound := by
  obtain rfl := h.frame
  exact ⟨rfl, h.nodes⟩

variable [Numeral K] {g g' : PolicyGraph K} {n n' : Node K} {F : PolicyGraph K × List ℕ}

/-- What a new node comes to: in the last stage it has no cost-to-go, and before it has one that was
started on its subproblem. -/
theorem newNode_eq_ok {b : Builder K} {t k : ℕ} (h : g.newNode b t k = .ok n) :
    ∃ m, g.newModel b.recipe t k = .ok m ∧
      (t + 1 = g.stages ∧ n = ⟨t, k, true, g.template.spawn, m, none⟩ ∨
        t + 1 ≠ g.stages ∧ ∃ f : Frame K, f = ⟨g.sense, g.knownBound.value, m.stateCount⟩ ∧
          n = ⟨t, k, false, g.template.spawn.started f m,
            CostToGo.withRibVariables f g.template.spawn.ribCount m, none⟩) := by
  obtain ⟨m, hm, h⟩ := exceptBind_eq_ok.1 h
  refine ⟨m, hm, ?_⟩
  split_ifs at h with hlast
  · exact Or.inl ⟨beq_iff_eq.1 hlast, (Except.ok.inj h).symm⟩
  · rw [CostToGo.start_sign] at h
    exact Or.inr ⟨fun heq => hlast (beq_iff_eq.2 heq), _, rfl, (Except.ok.inj h).symm⟩

/-- New nodes are sound. -/
theorem isSound_newNode {b : Builder K} {t k : ℕ} (h : g.newNode b t k = .ok n) :
    n.IsSound g.frame t k := by
  obtain ⟨m, hm, ⟨hlast, rfl⟩ | ⟨hlast, f, -, rfl⟩⟩ := newNode_eq_ok h <;>
  obtain ⟨rows, hlinked⟩ := isLinked_newModel hm
  · exact ⟨rfl, rfl, hlinked.isRegular, rfl, rfl, (beq_iff_eq.2 hlast).symm⟩
  · exact ⟨rfl, rfl, CostToGo.isRegular_withRibVariables hlinked.isRegular _ _, rfl, rfl,
      (beq_eq_false_iff_ne.2 hlast).symm⟩

theorem rebuilt_eq_ok (h : g.rebuilt n = .ok n') : ∃ b m, g.builder = some b ∧
    g.newModel b.again n.stage n.markov = .ok m ∧ m.stateCount = n.model.stateCount ∧
    n' = if n.isTerminal then { n with model := m, price := none }
      else { n with
        costToGo := (n.costToGo.rebuild m).1, model := (n.costToGo.rebuild m).2, price := none } := by
  unfold rebuilt at h
  cases hb : g.builder with
  | none =>
    rw [hb] at h
    cases h
  | some b =>
    rw [hb] at h
    obtain ⟨m, hm, h⟩ := exceptBind_eq_ok.1 h
    by_cases hcount : (m.stateCount != n.model.stateCount) = true
    · dsimp only at h
      rw [if_pos hcount] at h
      obtain ⟨⟨⟩, hthrow, -⟩ := exceptBind_eq_ok.1 h
      cases hthrow
    · dsimp only at h
      rw [if_neg hcount] at h
      refine ⟨b, m, rfl, hm, by simpa using hcount, ?_⟩
      split_ifs at h ⊢ <;> exact (Except.ok.inj h).symm

theorem isSound_rebuild {v : CostToGo K} {m : Subproblem K} {o : Option (Retry K) × Sense}
    (hm : m.IsRegular o) : (v.rebuild m).1.selection = v.selection ∧
      (v.rebuild m).1.pricing = v.pricing ∧ (v.rebuild m).2.IsRegular o := by
  unfold CostToGo.rebuild
  cases v.frame with
  | none => exact ⟨rfl, rfl, hm⟩
  | some f =>
    exact CostToGo.installActive_induction
      (P := fun v' m => v'.selection = v.selection ∧ v'.pricing = v.pricing ∧ m.IsRegular o)
      ⟨rfl, rfl, CostToGo.isRegular_withRibVariables hm _ _⟩
      fun v' m' i x cut pool h _ _ _ => ⟨h.1, h.2.1, h.2.2.withConstraint _⟩

/-- Rebuilt nodes are sound. -/
theorem isSound_rebuilt {t k : ℕ} (hn : n.IsSound g.frame t k) (h : g.rebuilt n = .ok n') :
    n'.IsSound g.frame t k := by
  obtain ⟨b, m, -, hm, -, rfl⟩ := rebuilt_eq_ok h
  obtain ⟨rows, hlinked⟩ := isLinked_newModel hm
  split_ifs
  · exact { hn with model := hlinked.isRegular }
  · obtain ⟨hselection, hpricing, hmodel⟩ := isSound_rebuild (v := n.costToGo) hlinked.isRegular
    exact { hn with
      model := hmodel
      selection := hselection.trans hn.selection
      pricing := hpricing.trans hn.pricing }

/-! ## Building and rebuilding -/

theorem eq_of_getElem?_range {n i j : ℕ} (h : (List.range n)[i]? = some j) : j = i := by
  obtain ⟨hi, h⟩ := List.getElem?_eq_some_iff.1 h
  rw [← h, List.getElem_range]

theorem newNode_of_newNodes {b : Builder K} {nodes : List (List (Node K))} {t k : ℕ}
    (h : g.newNodes b = .ok nodes) (hn : nodes[t]?.bind (·[k]?) = some n) :
    t < g.stages ∧ g.newNode b t k = .ok n := by
  obtain ⟨row, hrow, hk⟩ := Option.bind_eq_some_iff.1 hn
  obtain ⟨t', ht, hrows⟩ := getElem?_of_forall₂ (forall₂_of_mapM h) hrow
  obtain ⟨k', hk', hnode⟩ := getElem?_of_forall₂ (forall₂_of_mapM hrows) hk
  rw [eq_of_getElem?_range ht, eq_of_getElem?_range hk'] at hnode
  exact ⟨by simpa using (List.getElem?_eq_some_iff.1 ht).1, hnode⟩

/-- What building comes to if it succeeds: new nodes with equally many state variables, and the builder is
kept. -/
theorem build_eq_ok {b : Builder K} (h : build b g = .ok () g') : ∃ nodes,
    g' = { g with builder := some b, nodes := nodes } ∧ g'.newNodes b = .ok nodes ∧
      checkStates 0 none nodes = .ok () := by
  obtain ⟨⟨⟩, g₁, hcheck, h⟩ := bind_eq_ok.1 h
  obtain ⟨-, rfl⟩ := ofExcept_eq_ok.1 hcheck
  obtain ⟨⟨⟩, g₂, hbuilder, h⟩ := bind_eq_ok.1 h
  cases hbuilder
  obtain ⟨g₃, g₃', hget, h⟩ := bind_eq_ok.1 h
  cases hget
  obtain ⟨nodes, g₄, hnew, h⟩ := bind_eq_ok.1 h
  obtain ⟨hnodes, rfl⟩ := ofExcept_eq_ok.1 hnew
  obtain ⟨⟨⟩, g₅, hput, h⟩ := bind_eq_ok.1 h
  cases hput
  obtain ⟨hstates, rfl⟩ := ofExcept_eq_ok.1 h
  exact ⟨nodes, rfl, hnodes, hstates⟩

/-- All nodes of a graph that was built are new. -/
theorem newNode_of_build {b : Builder K} {t k : ℕ} (h : build b g = .ok () g')
    (hn : g'.nodeAt t k = some n) : t < g'.stages ∧ g'.newNode b t k = .ok n := by
  obtain ⟨nodes, hbuilt, hnodes, -⟩ := build_eq_ok h
  have hrows : g'.nodes = nodes := by rw [hbuilt]
  rw [nodeAt, hrows] at hn
  exact newNode_of_newNodes hnodes hn

/-- Building makes a sound graph. -/
theorem isSound_build {b : Builder K} (h : build b g = .ok () g') : g'.IsSound :=
  ⟨rfl, fun _ _ _ hn => isSound_newNode (newNode_of_build h hn).2⟩

/-- What rebuilt nodes have, a graph keeps while nodes are rebuilt. -/
theorem keeps_rebuild_of_rebuilt {J : ℕ → ℕ → Node K → Prop} {t k : ℕ} (hJ : IsPlaced J)
    (h : ∀ (g : PolicyGraph K) n', g.frame = F → g.rebuilt n = .ok n' → J t k n') : Keeps (Holds F J) (rebuild n) := by
  refine ensures_get_bind fun g hg => ?_
  refine Ensures.bind (Q := fun n' s => s = g ∧ g.rebuilt n = .ok n')
    (ensures_ofExcept (fun n' hn' s hs => ⟨hs, hn'⟩) fun s hs => hs ▸ hg) fun n' => ?_
  rintro s ⟨rfl, hn'⟩
  exact hg.putNode_of_placed hJ (h s n' hg.frame hn')

/-- And while retired cuts are removed. -/
theorem keeps_clean_of_rebuilt {J : ℕ → ℕ → Node K → Prop} (hJ : IsPlaced J)
    (h : ∀ t k n (g : PolicyGraph K) n', J t k n → g.frame = F → g.rebuilt n = .ok n' → J t k n') :
    Keeps (Holds F J) clean := by
  refine ensures_get_bind fun g hg => ?_
  refine Ensures.weaken (Keeps.each fun n hn => ?_) (fun s hs => hs ▸ hg) (fun _ _ => id)
    fun _ => id
  obtain ⟨t, k, hplace⟩ := mem_allNodes.1 (List.mem_of_mem_filter hn)
  exact keeps_rebuild_of_rebuilt hJ fun g' n' => h t k n g' n' (hg.nodes t k n hplace)

/-- Where no cuts retire there is nothing to remove. -/
theorem clean_of_forall (h : ∀ n ∈ g.allNodes, n.costToGo.prunes = false) : clean g = .ok () g := by
  have hnone : g.allNodes.filter isCleanable = [] :=
    List.filter_eq_nil_iff.2 fun n hn => by simp [isCleanable, h n hn]
  have hclean : clean g = each (g.allNodes.filter isCleanable) rebuild g := rfl
  rw [hclean, hnone]
  rfl

/-- Removing retired cuts keeps a graph sound. -/
theorem keeps_clean : Keeps (Holds F (Node.IsSound F)) clean := by
  refine keeps_clean_of_rebuilt (Node.isPlaced_isSound F) fun t k n g n' hn hframe hn' => ?_
  rw [← hframe] at hn ⊢
  exact isSound_rebuilt hn hn'

end PolicyGraph

end DualDynamic
