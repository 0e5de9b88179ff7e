import DualDynamic.Proofs.PolicyGraph.Bare

/-!
# Where records go

A record belongs to one rib of one node at most (`placeOf`), and cuts that are installed do not change
where. So what is stored at a rib are the cuts that were stored there to begin with and those whose
records belong there (`HasTaken.among_storedAt`).
-/

namespace DualDynamic

open Step

variable {K : Type}

theorem CostToGo.ribIndex_congr [Numeral K] {v v' : CostToGo K} (h : v'.pricing = v.pricing)
    (rib : Option K) : v'.ribIndex rib = v.ribIndex rib := by
  simp only [ribIndex, h]

namespace PolicyGraph

/-- Of each node its place and its price axis. -/
def layout (g : PolicyGraph K) : List (List (ℕ × ℕ × Option (Pricing K))) :=
  g.nodes.map fun row => row.map fun n => (n.stage, n.markov, n.costToGo.pricing)

theorem layout_node (g : PolicyGraph K) (stage markov : ℤ) :
    (g.node stage markov).map (fun n => (n.stage, n.markov, n.costToGo.pricing)) =
      (do itemAt (← itemAt g.layout stage) markov) := by
  simp only [node, layout, itemAt_map]
  cases itemAt g.nodes stage with
  | error e => rfl
  | ok row => exact (itemAt_map _ _ _).symm

theorem layout_putNode {g : PolicyGraph K} {n m : Node K} (hm : g.nodeAt n.stage n.markov = some m)
    (hplace : (m.stage, m.markov, m.costToGo.pricing) = (n.stage, n.markov, n.costToGo.pricing)) :
    (g.putNode n).layout = g.layout := by
  obtain ⟨row, hrow, hk⟩ := Option.bind_eq_some_iff.1 hm
  refine List.ext_getElem? fun t => ?_
  simp only [layout, putNode, List.getElem?_map, List.getElem?_modify]
  by_cases ht : n.stage = t
  · subst ht
    obtain ⟨hlt, rfl⟩ := List.getElem?_eq_some_iff.1 hk
    simp only [hrow, if_true, Option.map_eq_map, Option.map_some, List.map_set, ← hplace]
    refine congrArg some (List.ext_getElem? fun k => ?_)
    rw [List.getElem?_set]
    split_ifs with hk hlength
    · subst hk
      rw [List.getElem?_map, List.getElem?_eq_getElem hlt, Option.map_some]
    · subst hk
      exact absurd (by simpa using hlt) hlength
    · rfl
  · simp [ht]

variable [Numeral K] {g g' g₀ : PolicyGraph K} {r s : CutRecord K} {records : List (CutRecord K)}

/-- The node and the position of the rib where a record belongs. -/
def placeOf (g : PolicyGraph K) (r : CutRecord K) : Option (ℕ × ℕ × ℕ) :=
  match g.node r.stage r.markov with
  | .error _ => none
  | .ok n => match n.costToGo.ribIndex r.rib with
    | .error _ => none
    | .ok i => some (n.stage, n.markov, i)


theorem placeOf_congr (h : g'.layout = g.layout) (r : CutRecord K) : g'.placeOf r = g.placeOf r := by
  have hnodes : (g'.node r.stage r.markov).map (fun n => (n.stage, n.markov, n.costToGo.pricing)) =
      (g.node r.stage r.markov).map fun n => (n.stage, n.markov, n.costToGo.pricing) := by
    rw [layout_node, layout_node, h]
  rw [placeOf, placeOf]
  cases hn' : g'.node r.stage r.markov with
  | error e =>
    cases hn : g.node r.stage r.markov with
    | error e' => rfl
    | ok n => simp [hn, hn', Except.map] at hnodes
  | ok n' =>
    cases hn : g.node r.stage r.markov with
    | error e => simp [hn, hn', Except.map] at hnodes
    | ok n =>
      simp only [hn, hn', Except.map, Except.ok.injEq, Prod.mk.injEq] at hnodes
      obtain ⟨hstage, hmarkov, hpricing⟩ := hnodes
      simp only [CostToGo.ribIndex_congr hpricing, hstage, hmarkov]

theorem placeOf_bare (g : PolicyGraph K) (r : CutRecord K) : g.bare.placeOf r.bare = g.placeOf r := by
  have hnode := node_bare g r.stage r.markov
  have hstage : r.bare.stage = r.stage := rfl
  have hmarkov : r.bare.markov = r.markov := rfl
  rw [placeOf, placeOf, hstage, hmarkov, hnode]
  cases g.node r.stage r.markov with
  | error e => rfl
  | ok n => rfl

/-- Records alike belong to the same place. -/
theorem placeOf_of_alike (hsymm : Scalar.EqSymmetric K) (htrans : Scalar.EqTransitive K)
    (h : r.Alike s) : g.placeOf r = g.placeOf s := by
  rcases h with h | h
  · rw [← placeOf_bare, h, placeOf_bare]
  · obtain ⟨hstage, hmarkov, hrib, -⟩ := CutRecord.same_iff.1 h
    rw [placeOf, placeOf, hstage, hmarkov]
    cases g.node s.stage s.markov with
    | error e => rfl
    | ok n =>
      have hfind : ∀ x y : K, Scalar.eq x y = true →
          (fun location => Scalar.eq location x) = fun location => Scalar.eq location y := by
        intro x y hxy
        funext location
        rw [Bool.eq_iff_iff]
        exact ⟨fun h => htrans _ _ _ h hxy, fun h => htrans _ _ _ h (hsymm _ _ hxy)⟩
      simp only [CostToGo.ribIndex]
      cases hr : r.rib with
      | none =>
        cases hs : s.rib with
        | none => rfl
        | some y => simp [CutRecord.sameRib, hr, hs] at hrib
      | some x =>
        cases hs : s.rib with
        | none => simp [CutRecord.sameRib, hr, hs] at hrib
        | some y =>
          have hxy : Scalar.eq x y = true := by simpa [CutRecord.sameRib, hr, hs] using hrib
          cases n.costToGo.pricing with
          | none => rfl
          | some p => simp only [hfind x y hxy]; cases p.ribs.findIdx? _ <;> rfl

/-- An installed cut is put behind the others at its rib, unless it is there. -/
theorem storedAt_installCut (hg : g.IsSettled) {state : Option (Datum K)} {new : Bool}
    (h : installCut r.stage r.markov r.rib r.cut state g = .ok new g') :
    g'.IsSettled ∧ g'.layout = g.layout ∧ ∀ t k i, g'.storedAt t k i =
      if g.placeOf r = some (t, k, i) then Cut.insertNew (g.storedAt t k i) r.cut
      else g.storedAt t k i := by
  obtain ⟨n, n', hnode, hinstall, rfl⟩ := installCut_eq_ok.1 h
  obtain ⟨v, m, -, hcostToGo, rfl⟩ := Node.installCut_eq_ok.1 hinstall
  obtain ⟨-, j, pool, pool', hrib, hpool, hstore, hrow⟩ := CostToGo.installCut_eq_ok hcostToGo
  have hcuts := (CutPool.store_eq_ok hstore).2
  obtain ⟨installed, hfst, -⟩ := CostToGo.exists_installRow
    { n.costToGo with pools := n.costToGo.pools.set j pool' } j r.cut n.model
  obtain rfl := (congrArg Prod.fst hrow).trans hfst
  obtain ⟨t₀, k₀, hplace, -⟩ := exists_of_node hnode
  obtain ⟨hstage, hmarkov⟩ := hg t₀ k₀ n hplace
  have hhere : g.nodeAt n.stage n.markov = some n := by rw [hstage, hmarkov, hplace]
  have hplaceOf : g.placeOf r = some (n.stage, n.markov, j) := by simp only [placeOf, hnode, hrib]
  refine ⟨fun t k u hu => ?_, layout_putNode hhere rfl, fun t k i => ?_⟩
  · rw [nodeAt_putNode] at hu
    split_ifs at hu with heq
    · obtain ⟨-, -, rfl⟩ := Option.map_eq_some_iff.1 hu
      exact ⟨heq.1.symm, heq.2.symm⟩
    · exact hg t k u hu
  · rw [hplaceOf, storedAt, storedAt, nodeAt_putNode]
    by_cases hat : t = n.stage ∧ k = n.markov
    · obtain ⟨rfl, rfl⟩ := hat
      simp only [and_self, if_true, hhere, Option.map_some, Option.bind_some]
      by_cases hj : j = i
      · subst hj
        obtain ⟨hlt, rfl⟩ := List.getElem?_eq_some_iff.1 hpool
        simp [hlt, hcuts]
      · simp [List.getElem?_set_ne hj, hj]
    · have hne : ¬ (n.stage = t ∧ n.markov = k ∧ j = i) := fun h => hat ⟨h.1.symm, h.2.1.symm⟩
      rw [if_neg hat]
      simp [hne]

/-- What a graph stores that took in some records. -/
theorem storedAt_replay (hg : g₀.IsSettled) {count : ℕ} (h : replay records g₀ = .ok count g) :
    g.IsSettled ∧ g.layout = g₀.layout ∧ ∀ t k i, g.storedAt t k i =
      ((records.filter fun r => g₀.placeOf r = some (t, k, i)).map CutRecord.cut).foldl Cut.insertNew
        (g₀.storedAt t k i) := by
  induction records generalizing g₀ count with
  | nil =>
    cases h
    exact ⟨hg, rfl, fun t k i => rfl⟩
  | cons r records ih =>
    obtain ⟨new, g₁, rest, hr, hrest, -⟩ := replay_cons_eq_ok.1 h
    obtain ⟨hsettled, hlayout, hstored⟩ := storedAt_installCut hg hr
    obtain ⟨hsettled', hlayout', hstored'⟩ := ih hsettled hrest
    refine ⟨hsettled', hlayout'.trans hlayout, fun t k i => ?_⟩
    simp only [hstored', placeOf_congr hlayout, hstored, List.filter_cons, decide_eq_true_eq]
    split_ifs <;> rfl

omit [Numeral K] in
theorem isSettled_bare : g.bare.IsSettled ↔ g.IsSettled := by
  constructor
  · intro h t k n hn
    exact h t k n.bare (by rw [nodeAt_bare, hn, Option.map_some])
  · intro h t k n hn
    rw [nodeAt_bare] at hn
    obtain ⟨m, hm, rfl⟩ := Option.map_eq_some_iff.1 hn
    exact h t k m hm

theorem HasTaken.isSettled (hg : g₀.IsSettled) (h : HasTaken g₀ records g) : g.IsSettled := by
  obtain ⟨count, hreplay⟩ := h
  exact isSettled_bare.1 (storedAt_replay (isSettled_bare.2 hg) hreplay).1

theorem HasTaken.layout (hg : g₀.IsSettled) (h : HasTaken g₀ records g) : g.layout = g₀.layout := by
  have hbare : ∀ g : PolicyGraph K, g.bare.layout = g.layout := by
    intro g
    simp [PolicyGraph.layout, bare, Node.bare, CostToGo.bare, Function.comp_def]
  obtain ⟨count, hreplay⟩ := h
  rw [← hbare g, (storedAt_replay (isSettled_bare.2 hg) hreplay).2.1, hbare]

/-- A cut that is stored at a rib was there to begin with, or is the cut of a record that belongs there. -/
theorem HasTaken.of_mem_storedAt (hg : g₀.IsSettled) (h : HasTaken g₀ records g) {t k i : ℕ}
    {c : Cut K} (hc : c ∈ g.storedAt t k i) : c.bare ∈ (g₀.storedAt t k i).map Cut.bare ∨
      ∃ r ∈ records, g₀.placeOf r = some (t, k, i) ∧ r.cut.bare = c.bare := by
  obtain ⟨count, hreplay⟩ := h
  have hbare : c.bare ∈ g.bare.storedAt t k i := by
    rw [storedAt_bare]
    exact List.mem_map_of_mem hc
  rw [(storedAt_replay (isSettled_bare.2 hg) hreplay).2.2 t k i, storedAt_bare] at hbare
  refine (Cut.mem_of_mem_foldl_insertNew hbare).imp_right fun hmem => ?_
  obtain ⟨s, hs, hcut⟩ := List.mem_map.1 hmem
  obtain ⟨htaken, hplace⟩ := List.mem_filter.1 hs
  obtain ⟨r, hr, rfl⟩ := List.mem_map.1 htaken
  exact ⟨r, hr, placeOf_bare g₀ r ▸ of_decide_eq_true hplace, hcut⟩

/-- What is stored at a rib: the cuts that were there to begin with, and those whose records belong
there. -/
theorem HasTaken.among_storedAt (htrans : Scalar.EqTransitive K) (hg : g₀.IsSettled)
    (h : HasTaken g₀ records g) {t k i : ℕ} {c : Cut K} : c.Among (g.storedAt t k i) ↔
      c.Among (g₀.storedAt t k i) ∨ ∃ r ∈ records, g₀.placeOf r = some (t, k, i) ∧ c.Alike r.cut := by
  obtain ⟨count, hreplay⟩ := h
  have hstored := (storedAt_replay (isSettled_bare.2 hg) hreplay).2.2 t k i
  rw [← Cut.among_map_bare, ← storedAt_bare, hstored, Cut.among_foldl_insertNew htrans, storedAt_bare,
    Cut.among_map_bare]
  refine or_congr_right ?_
  simp only [Cut.Among, List.mem_map, List.mem_filter, decide_eq_true_eq]
  constructor
  · rintro ⟨_, ⟨_, ⟨⟨r, hr, rfl⟩, hplace⟩, rfl⟩, hc⟩
    exact ⟨r, hr, placeOf_bare g₀ r ▸ hplace, hc⟩
  · rintro ⟨r, hr, hplace, hc⟩
    exact ⟨r.bare.cut, ⟨r.bare, ⟨⟨r, hr, rfl⟩, (placeOf_bare g₀ r).trans hplace⟩, rfl⟩, hc⟩

end PolicyGraph

end DualDynamic
