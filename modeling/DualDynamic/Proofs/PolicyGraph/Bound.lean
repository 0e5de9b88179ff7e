import DualDynamic.Proofs.Node.Observed
import DualDynamic.Proofs.PolicyGraph.Costs
import DualDynamic.Proofs.PolicyGraph.Growth
import DualDynamic.Proofs.Probability
import DualDynamic.Proofs.RiskMeasure.Monotone

/-!
# Bounds of growing graphs

The bound of a graph is an aggregate of optimal values of its first stage. When the graph has grown,
the same programs are solved for the same realizations with the same weights, only with more
constraints. So the earlier bound bounds the later one.
-/

namespace DualDynamic

open Step

variable {K : Type} [ExactNumeral K]

/-! ## Weights -/

theorem Subproblem.nonneg_of_chances {m : Subproblem K} {items : List (ℕ × K)}
    (h : m.chances = .ok items) : ∀ kp ∈ items, 0 ≤ kp.2 := by
  obtain ⟨weights, hweights, h⟩ := exceptBind_eq_ok.1 h
  obtain rfl := Except.ok.inj h
  intro kp hkp
  obtain ⟨pk, hpk, rfl⟩ := List.mem_map.1 hkp
  exact Probability.nonneg_of_check (mapError_eq_ok.1 hweights) _
    (List.fst_mem_of_mem_zipIdx (List.mem_of_mem_filter hpk))

namespace Node

variable {n : Node K}

theorem nonneg_of_possible {items : List (ℕ × K)} (h : n.possible = .ok items) :
    ∀ kp ∈ items, 0 ≤ kp.2 := Subproblem.nonneg_of_chances h

theorem pos_of_priceNoise : ∀ x ∈ n.costToGo.priceNoise, 0 < x.2 := by
  intro x hx
  unfold CostToGo.priceNoise at hx
  cases hpricing : n.costToGo.pricing with
  | none =>
    rw [hpricing] at hx
    rw [List.mem_singleton.1 hx, Scalar.one_eq]
    exact one_pos
  | some p =>
    rw [hpricing] at hx
    simpa [Pricing.positiveNoise] using (List.mem_filter.1 hx).2

end Node

namespace PolicyGraph

variable {A : Type} {g g' : PolicyGraph K} {engine : Engine K}

theorem mem_positive {row : List K} {kp : ℕ × K} :
    kp ∈ positive row ↔ row[kp.1]? = some kp.2 ∧ 0 < kp.2 := by
  obtain ⟨k, p⟩ := kp
  simp [positive, List.mem_zipIdx_iff_getElem?]

theorem pos_of_positive {row : List K} : ∀ kp ∈ positive row, 0 < kp.2 :=
  fun _ hkp => (mem_positive.1 hkp).2

/-- The probabilities of what can happen sum to one: over the Markov states of the first stage, over
the realizations of the price noise, and over the realizations of a node. -/
structure SumsToOne (g : PolicyGraph K) : Prop where
  first : (g.first.map Prod.snd).sum = 1
  price : ∀ t k n, g.nodeAt t k = some n → (n.costToGo.priceNoise.map Prod.snd).sum = 1
  scenario : ∀ t k n, g.nodeAt t k = some n → ∀ items, n.possible = .ok items →
    (items.map Prod.snd).sum = 1

theorem SumsToOne.of_grows (h : g.SumsToOne) (hg : Grows g g') : g'.SumsToOne where
  first := by
    have hfirst : g'.first = g.first := congrArg (fun F => F.1.first) hg.frame
    exact hfirst ▸ h.first
  price t k n' hn' := by
    obtain ⟨n, hn, hext⟩ := hg.nodes t k n' hn'
    exact Node.priceNoise_congr hext.outline ▸ h.price t k n hn
  scenario t k n' hn' items hitems := by
    obtain ⟨n, hn, hext⟩ := hg.nodes t k n' hn'
    exact h.scenario t k n hn items (Node.possible_congr hext.outline ▸ hitems)

theorem sumsToOne_iff : g.SumsToOne ↔ (g.first.map Prod.snd).sum = 1 ∧ ∀ n ∈ g.allNodes,
    (n.costToGo.priceNoise.map Prod.snd).sum = 1 ∧
      ∀ items ∈ n.possible.toOption, (items.map Prod.snd).sum = 1 := by
  have hitems : ∀ (n : Node K) items, items ∈ n.possible.toOption ↔ n.possible = .ok items := by
    intro n items
    cases n.possible <;> simp [Except.toOption]
  simp only [mem_allNodes, hitems]
  constructor
  · intro h
    refine ⟨h.first, ?_⟩
    rintro n ⟨t, k, hn⟩
    exact ⟨h.price t k n hn, h.scenario t k n hn⟩
  · rintro ⟨hfirst, hall⟩
    exact ⟨hfirst, fun t k n hn => (hall n ⟨t, k, hn⟩).1, fun t k n hn => (hall n ⟨t, k, hn⟩).2⟩

instance : Decidable g.SumsToOne := decidable_of_iff _ sumsToOne_iff.symm

/-! ## Solving a stage -/

section Shares

variable (hg : g.IsSound) (hspares : engine.Spares g.retry) (hsums : g.SumsToOne)
include hg hspares hsums

end Shares

/-! ## Side by side -/

/-- Two graphs that stand for the same programs, node by node, the second one perhaps with more
constraints. -/
structure Between (g u u' : PolicyGraph K) : Prop where
  left : u.frame = g.frame
  right : u'.frame = g.frame
  nodes : ∀ t k m m', u.nodeAt t k = some m → u'.nodeAt t k = some m' →
    ∃ n, g.nodeAt t k = some n ∧ Extends Set.univ n m ∧ Extends n.cells m m'

theorem Grows.between (h : Grows g g') : Between g g g' where
  left := rfl
  right := h.frame
  nodes t k m m' hm hm' := by
    obtain ⟨n, hn, hext⟩ := h.nodes t k m' hm'
    obtain rfl := Option.some.inj (hn.symm.trans hm)
    exact ⟨n, hn, .refl _ n, hext⟩

theorem Between.putNode {u u' : PolicyGraph K} (h : Between g u u') (hg : g.IsSound) {t k : ℕ}
    {n m m' : Node K} (hn : g.nodeAt t k = some n) (hm : Extends Set.univ n m)
    (hm' : Extends n.cells m m') : Between g (u.putNode m) (u'.putNode m') where
  left := (frame_putNode u m).trans h.left
  right := (frame_putNode u' m').trans h.right
  nodes i j l l' hl hl' := by
    have hsound := (hg.nodes t k n hn).extends hm
    have hsound' := hsound.extends hm'
    rw [nodeAt_putNode, hsound.stage, hsound.markov] at hl
    rw [nodeAt_putNode, hsound'.stage, hsound'.markov] at hl'
    by_cases hplace : i = t ∧ j = k
    · rw [if_pos hplace] at hl hl'
      obtain ⟨-, -, rfl⟩ := Option.map_eq_some_iff.1 hl
      obtain ⟨-, -, rfl⟩ := Option.map_eq_some_iff.1 hl'
      obtain ⟨rfl, rfl⟩ := hplace
      exact ⟨n, hn, hm, hm'⟩
    · rw [if_neg hplace] at hl hl'
      exact h.nodes i j l l' hl hl'

/-- A step on the same node of both graphs. -/
theorem couples_atNode (hg : g.IsSound) {R : A → A → Prop} {x : Run K (Node K) A} {t k : ℕ}
    (h : ∀ n, g.nodeAt t k = some n → Couples
      (fun w w' => Extends Set.univ n w.part ∧ Extends n.cells w.part w'.part) x x
      fun a a' w w' => R a a' ∧ Extends Set.univ n w.part ∧ Extends n.cells w.part w'.part) :
    Couples (fun w w' => Between g w.part w'.part) (atNode t k x) (atNode t k x)
      fun a a' w w' => R a a' ∧ Between g w.part w'.part := by
  intro w w' hw a v hv a' v' hv'
  obtain ⟨m, r, hplace, hr, rfl⟩ := atNode_eq_ok hv
  obtain ⟨m', r', hplace', hr', rfl⟩ := atNode_eq_ok hv'
  obtain ⟨n, hn, hext, hext'⟩ := hw.nodes t k m m' hplace hplace'
  have hstep := h n hn ⟨w.monitor, m⟩ ⟨w'.monitor, m'⟩ ⟨hext, hext'⟩ a r hr a' r' hr'
  exact ⟨hstep.1, hw.putNode hg hn hstep.2.1 hstep.2.2⟩

/-! ## Bounds -/

end PolicyGraph

end DualDynamic
