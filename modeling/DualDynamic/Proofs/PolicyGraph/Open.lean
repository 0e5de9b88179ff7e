import DualDynamic.Proofs.PolicyGraph.Bare

/-!
# Graphs that are open to cuts

In a graph that was built, every node but those of the last stage takes every cut of the right side
and the right number of coefficients, at each of its ribs (`IsOpen`). Whatever happens to the graph,
this stays so. So a cut that was generated is also installed, and a record that one copy of the graph
has taken is taken by every other copy.
-/

namespace DualDynamic

open Step

variable {K : Type} [Numeral K]

namespace CutPool

variable {p p' : CutPool K} {c : Cut K} {state : Option (Datum K)} {new : Bool} {d : ℕ}

/-- A pool that has stored a cut has the dimension of this cut, as it had before if it had any. -/
theorem dimension_of_store (h : p.store c state = .ok (new, p')) :
    p'.dimension = some c.dimension ∧ p.dimension.getD c.dimension = c.dimension := by
  have hstore := store_bare_of_eq_ok h
  obtain ⟨q, hcheck, hrest⟩ := exceptBind_eq_ok.1 (show p.bare.storeAt c.bare none = _ from hstore)
  obtain ⟨hq, hdimension⟩ : q.dimension = some c.dimension ∧
      p.dimension.getD c.dimension = c.dimension := by
    have hbare : p.bare.dimension = p.dimension := rfl
    have hcut : c.bare.dimension = c.dimension := rfl
    simp only [checkCut, hbare, hcut] at hcheck
    split_ifs at hcheck with heq
    have hsame := (beq_iff_eq.1 heq).symm
    obtain rfl := Except.ok.inj hcheck
    exact ⟨congrArg some hsame, hsame⟩
  have hselection : q.selection = .keepAll := (checkCut_eq_ok hcheck).2
  simp only [hselection] at hrest
  obtain ⟨-, heq⟩ := Prod.mk.inj (Except.ok.inj hrest)
  have hbare : p'.bare.dimension = some c.dimension := by
    rw [← heq]
    split_ifs <;> exact hq
  exact ⟨hbare, hdimension⟩

/-- The dimension of a pool, once it is fixed, stays. -/
theorem dimension_store (hd : p.dimension = some d) (h : p.store c state = .ok (new, p')) :
    p'.dimension = some d := by
  obtain ⟨hp', hdimension⟩ := dimension_of_store h
  rw [hd, Option.getD_some] at hdimension
  rw [hp', hdimension]

/-- A pool takes the cuts of its dimension, at a state of its dimension. -/
theorem exists_store (hd : p.dimension = some d) (hc : c.dimension = d)
    (hstate : ∀ s ∈ state, ∃ x : List K, x.length = d ∧ s = .list (x.map .real)) :
    ∃ new p', p.store c state = .ok (new, p') := by
  have hcheck : p.checkCut c = .ok { p with dimension := some d } := by
    simp only [checkCut, hd, Option.getD_some, hc, beq_self_eq_true, if_true]
  have hstoreAt : ∀ x, ∃ new p', p.storeAt c x = .ok (new, p') := by
    intro x
    rw [storeAt, hcheck]
    cases hselection : p.selection with
    | keepAll => exact ⟨_, _, rfl⟩
    | levelOne tolerance => exact ⟨_, _, rfl⟩
  cases state with
  | none => exact hstoreAt none
  | some s =>
    obtain ⟨x, hx, rfl⟩ := hstate s rfl
    obtain ⟨y, hread⟩ : ∃ y, p.readState c (.list (x.map .real)) = .ok y := by
      unfold readState
      split_ifs
      · refine ⟨some x, ?_⟩
        rw [Datum.block_reals, hd, Option.getD_some, hx]
        simp only [Except.mapError, bind, Except.bind, beq_self_eq_true, if_true]
        rfl
      · exact ⟨none, rfl⟩
    obtain ⟨new, p', hstore⟩ := hstoreAt y
    exact ⟨new, p', exceptBind_eq_ok.2 ⟨y, hread, hstore⟩⟩

end CutPool

/-! ## Open nodes -/

/-- A node of the graph `g`, at a place, whose cost-to-go is open to cuts about `d` state variables if
there are stages behind it. -/
structure Node.IsOpen (g : PolicyGraph K) (d t k : ℕ) (n : Node K) : Prop where
  stage : n.stage = t
  markov : n.markov = k
  terminal : n.isTerminal = (t + 1 == g.stages)
  pricing : n.costToGo.pricing = g.template.pricing
  frame : n.isTerminal = false → ∃ bound, n.costToGo.frame = some ⟨g.sense, bound, d⟩
  pools : n.isTerminal = false → n.costToGo.pools.length = n.costToGo.ribCount
  dimension : ∀ pool ∈ n.costToGo.pools, pool.dimension = some d
  states : n.model.states.length = d
  stateCount : n.model.stateCount = d

namespace Node

variable {g : PolicyGraph K} {d t k : ℕ} {n n' : Node K}

omit [Numeral K] in
theorem isPlaced_isOpen (g : PolicyGraph K) (d : ℕ) : PolicyGraph.IsPlaced (IsOpen g d) :=
  fun _ _ _ h => ⟨h.stage, h.markov⟩

omit [Numeral K] in
/-- Whether a node is open does not depend on what it stores, nor on what it is set up for. -/
theorem IsOpen.of_bare (h : n.IsOpen g d t k) (hbare : n'.bare = n.bare)
    (hstates : n'.model.states.length = d) (hstateCount : n'.model.stateCount = d) :
    n'.IsOpen g d t k := by
  have hstage : n'.bare.stage = n.bare.stage := by rw [hbare]
  have hmarkov : n'.bare.markov = n.bare.markov := by rw [hbare]
  have hterminal : n'.isTerminal = n.isTerminal :=
    show n'.bare.isTerminal = n.bare.isTerminal by rw [hbare]
  have hpricing : n'.costToGo.pricing = n.costToGo.pricing :=
    show n'.bare.costToGo.pricing = n.bare.costToGo.pricing by rw [hbare]
  have hframe : n'.costToGo.frame = n.costToGo.frame :=
    show n'.bare.costToGo.frame = n.bare.costToGo.frame by rw [hbare]
  have hpools : n'.costToGo.pools.map CutPool.bare = n.costToGo.pools.map CutPool.bare :=
    show n'.bare.costToGo.pools = n.bare.costToGo.pools by rw [hbare]
  have hcount : n'.costToGo.ribCount = n.costToGo.ribCount := by
    rw [CostToGo.ribCount, hpricing, CostToGo.ribCount]
  constructor
  · exact hstage.trans h.stage
  · exact hmarkov.trans h.markov
  · exact hterminal.trans h.terminal
  · exact hpricing.trans h.pricing
  · exact fun hlast => hframe ▸ h.frame (hterminal ▸ hlast)
  · intro hlast
    have hlength := congrArg List.length hpools
    rw [List.length_map, List.length_map] at hlength
    rw [hlength, hcount, h.pools (hterminal ▸ hlast)]
  · intro pool hpool
    have hmem : pool.bare ∈ n.costToGo.pools.map CutPool.bare := hpools ▸ List.mem_map_of_mem hpool
    obtain ⟨pool', hpool', heq⟩ := List.mem_map.1 hmem
    have hdimension : pool'.dimension = pool.dimension :=
      show pool'.bare.dimension = pool.bare.dimension by rw [heq]
    exact hdimension ▸ h.dimension pool' hpool'
  · exact hstates
  · exact hstateCount

omit [Numeral K] in
theorem IsOpen.withModel (h : n.IsOpen g d t k) {m : Subproblem K} (hm : m.outline = n.model.outline)
    (x : Option K) : IsOpen g d t k { n with model := m, price := x } := by
  obtain ⟨p, r, s, u, rfl⟩ := Subproblem.exists_of_outline hm
  exact h.of_bare rfl h.states h.stateCount

end Node

namespace CostToGo

variable {v v' : CostToGo K} {m m' : Subproblem K}

/-- A cut that is installed changes one pool, what counts as installed, and the rows of the program. -/
theorem changes_installCut {cut : Cut K} {rib : Option K} {state : Option (Datum K)} {new : Bool}
    (h : v.installCut cut rib state m = .ok (new, v', m')) : ∃ i pool pool' installed,
      v.pools[i]? = some pool ∧ pool.store cut state = .ok (new, pool') ∧
      v' = { v with pools := v.pools.set i pool', installed := installed } ∧
      m'.outline = m.outline := by
  obtain ⟨-, i, pool, pool', -, hpool, hstore, hrow⟩ := installCut_eq_ok h
  rcases installRow_cases { v with pools := v.pools.set i pool' } i cut m with ⟨heq, -⟩ | ⟨x, -, heq⟩
  · obtain ⟨rfl, rfl⟩ := Prod.mk.inj (hrow.trans heq)
    exact ⟨i, pool, pool', v.installed, hpool, hstore, rfl, rfl⟩
  · obtain ⟨rfl, rfl⟩ := Prod.mk.inj (hrow.trans heq)
    exact ⟨i, pool, pool', _, hpool, hstore, rfl, rfl⟩

theorem outline_withRibVariables (f : Frame K) (count : ℕ) (m : Subproblem K) :
    (withRibVariables f count m).outline = m.outline := by
  have hfold : ∀ (is : List ℕ) (m : Subproblem K),
      ((is.map (ribVariable f)).foldl Subproblem.withVariable m).outline = m.outline := by
    intro is
    induction is with
    | nil => exact fun _ => rfl
    | cons i is ih => exact fun m => ih _
  exact hfold _ m

theorem outline_rebuild (v : CostToGo K) (m : Subproblem K) :
    (v.rebuild m).2.outline = m.outline := by
  unfold rebuild
  split
  · rfl
  · exact installActive_induction (P := fun _ m' => m'.outline = m.outline)
      (outline_withRibVariables _ _ m) fun _ _ _ _ _ _ h _ _ _ => h

end CostToGo

namespace PolicyGraph

variable {g g' g₀ : PolicyGraph K} {d t k : ℕ} {n n' : Node K} {engine : Engine K}
  {F : PolicyGraph K × List ℕ}

/-- Open nodes stay open when they are set up and solved. -/
theorem steady_isOpen (g : PolicyGraph K) (d : ℕ) : Steady engine (Node.IsOpen g d) :=
  steady_of_ignoring (Node.isPlaced_isOpen g d) fun _ _ _ _ _ hn hm => hn.withModel hm _

/-- And when cuts are installed. -/
theorem accepts_isOpen (g : PolicyGraph K) (d : ℕ) :
    Accepts (fun _ _ _ => True) (Node.IsOpen g d) where
  placed := Node.isPlaced_isOpen g d
  installCut {t k n cut rib state new n'} hn _ h := by
    obtain ⟨v, m, -, hinstall, rfl⟩ := Node.installCut_eq_ok.1 h
    obtain ⟨i, pool, pool', installed, hpool, hstore, rfl, houtline⟩ :=
      CostToGo.changes_installCut hinstall
    obtain ⟨p, r, s, u, rfl⟩ := Subproblem.exists_of_outline houtline
    refine { hn with pools := fun hlast => ?_, dimension := fun p hp => ?_ }
    · have hlength : (n.costToGo.pools.set i pool').length = n.costToGo.pools.length :=
        List.length_set
      exact hlength.trans (hn.pools hlast)
    · rcases List.mem_or_eq_of_mem_set hp with hp | rfl
      · exact hn.dimension p hp
      · exact CutPool.dimension_store (hn.dimension pool (List.mem_of_getElem? hpool)) hstore

/-- And when nodes are rebuilt. -/
theorem isOpen_rebuilt (hn : n.IsOpen g d t k) (h : g'.rebuilt n = .ok n') : n'.IsOpen g d t k := by
  refine hn.of_bare (bare_rebuilt h) ?_ ?_
  all_goals
    obtain ⟨b, m, -, hm, hcount, rfl⟩ := rebuilt_eq_ok h
    obtain ⟨rows, hlinked⟩ := isLinked_newModel hm
    have hstateCount : m.stateCount = d := hcount.trans hn.stateCount
    have hstates : m.states.length = d := hlinked.wellFormed.stateCount.trans hstateCount
  · split_ifs
    · exact hstates
    · rw [Subproblem.states_of_outline (CostToGo.outline_rebuild n.costToGo m)]
      exact hstates
  · split_ifs
    · exact hstateCount
    · rw [Subproblem.stateCount_of_outline (CostToGo.outline_rebuild n.costToGo m)]
      exact hstateCount

theorem keeps_isOpen_clean : Keeps (Holds F (Node.IsOpen g d)) clean :=
  keeps_clean_of_rebuilt (Node.isPlaced_isOpen g d) fun _ _ _ _ _ hn _ => isOpen_rebuilt hn

/-! ## Built graphs -/

theorem isOpen_newNode {b : Builder K} (h : g.newNode b t k = .ok n) (hd : n.model.stateCount = d) :
    n.IsOpen g d t k := by
  obtain ⟨m, hm, ⟨hlast, rfl⟩ | ⟨hlast, f, rfl, rfl⟩⟩ := newNode_eq_ok h <;>
  obtain ⟨rows, hlinked⟩ := isLinked_newModel hm
  · exact {
      stage := rfl
      markov := rfl
      terminal := (beq_iff_eq.2 hlast).symm
      pricing := rfl
      frame := by simp
      pools := by simp
      dimension := by simp [CostToGo.spawn]
      states := hlinked.wellFormed.stateCount.trans hd
      stateCount := hd }
  · have houtline := CostToGo.outline_withRibVariables
      ⟨g.sense, g.knownBound.value, m.stateCount⟩ g.template.spawn.ribCount m
    have hcount : m.stateCount = d := by
      rwa [Subproblem.stateCount_of_outline houtline] at hd
    exact {
      stage := rfl
      markov := rfl
      terminal := (beq_eq_false_iff_ne.2 hlast).symm
      pricing := rfl
      frame := fun _ => ⟨g.knownBound.value, by rw [← hcount]; rfl⟩
      pools := fun _ => CostToGo.length_pools_started ..
      dimension := fun pool hpool => by
        rw [CostToGo.eq_empty_of_mem_started _ _ _ hpool, ← hcount]
        rfl
      states := by
        rw [Subproblem.states_of_outline houtline]
        exact hlinked.wellFormed.stateCount.trans hcount
      stateCount := hd }

omit [Numeral K] in
theorem exists_of_checkStates {previous : Option ℕ} {rows : List (List (Node K))}
    (h : checkStates t previous rows = .ok ()) :
    ∃ d, (∀ p ∈ previous, p = d) ∧ ∀ row ∈ rows, ∀ n ∈ row, n.model.stateCount = d := by
  induction rows generalizing t previous with
  | nil =>
    refine ⟨previous.getD 0, fun p hp => ?_, by simp⟩
    rw [Option.mem_def.1 hp, Option.getD_some]
  | cons row rows ih =>
    obtain ⟨d, hstage, h⟩ := exceptBind_eq_ok.1 h
    have hsplit : checkStates (t + 1) (some d) rows = .ok () ∧ ∀ p ∈ previous, p = d := by
      cases previous with
      | none => exact ⟨h, by simp⟩
      | some p =>
        by_cases hne : (d != p) = true
        · dsimp only at h
          rw [if_pos hne] at h
          obtain ⟨⟨⟩, hthrow, -⟩ := exceptBind_eq_ok.1 h
          cases hthrow
        · dsimp only at h
          rw [if_neg hne] at h
          refine ⟨h, fun q hq => ?_⟩
          obtain rfl := Option.some.inj hq
          exact (show d = p by simpa using hne).symm
    obtain ⟨hrest, hprevious⟩ := hsplit
    obtain ⟨d', hd', hrows⟩ := ih hrest
    obtain rfl : d = d' := hd' d rfl
    refine ⟨d, hprevious, List.forall_mem_cons.2 ⟨fun n hn => ?_, hrows⟩⟩
    · have hcount : n.model.stateCount ∈ row.map fun n => n.model.stateCount :=
        List.mem_map_of_mem hn
      unfold stageStates at hstage
      cases hcounts : row.map fun n => n.model.stateCount with
      | nil => simp [hcounts] at hstage
      | cons c others =>
        simp only [hcounts] at hstage
        split_ifs at hstage with hall
        obtain rfl := Except.ok.inj hstage
        rw [hcounts] at hcount
        rcases List.mem_cons.1 hcount with heq | hmem
        · exact heq
        · exact beq_iff_eq.1 (List.all_eq_true.1 hall _ hmem)

/-- All nodes of a graph that was built are open. -/
theorem exists_isOpen_build {b : Builder K} (h : build b g = .ok () g₀) :
    ∃ d, Holds g₀.frame (Node.IsOpen g₀ d) g₀ := by
  obtain ⟨nodes, hbuilt, -, hstates⟩ := build_eq_ok h
  obtain ⟨d, -, hd⟩ := exists_of_checkStates hstates
  refine ⟨d, rfl, fun t k n hn => isOpen_newNode (newNode_of_build h hn).2 ?_⟩
  have hrows : g₀.nodes = nodes := by rw [hbuilt]
  obtain ⟨row, hrow, hk⟩ := Option.bind_eq_some_iff.1 hn
  rw [hrows] at hrow
  exact hd row (List.mem_of_getElem? hrow) n (List.mem_of_getElem? hk)

/-! ## Cuts that are taken -/

/-- The record of a cut that is about `d` state variables and belongs into the graph. -/
structure Fits (g : PolicyGraph K) (d : ℕ) (r : CutRecord K) : Prop where
  place : ∃ t k : ℕ, r.stage = t ∧ r.markov = k ∧ (g.nodeAt t k).isSome ∧ t + 1 ≠ g.stages
  rib : r.rib ∈ g.template.ribs
  dimension : r.cut.dimension = d
  side : r.cut.side = g.sense.cutSide

/-- Every rib is equal to itself: no location is a NaN. -/
def HasRibs (g : PolicyGraph K) : Prop := ∀ rib ∈ g.template.ribs, CutRecord.sameRib rib rib = true

omit [Numeral K] in
theorem isSome_nodeAt_of_frame (h : g'.frame = g.frame) (t k : ℕ) :
    (g'.nodeAt t k).isSome = (g.nodeAt t k).isSome := by
  have hlengths : g'.nodes.map List.length = g.nodes.map List.length := congrArg Prod.snd h
  have hrow : g'.nodes[t]?.map List.length = g.nodes[t]?.map List.length := by
    rw [← List.getElem?_map, hlengths, List.getElem?_map]
  rw [nodeAt, nodeAt]
  generalize g'.nodes[t]? = row' at hrow ⊢
  generalize g.nodes[t]? = row at hrow ⊢
  cases row' with
  | none =>
    cases row with
    | none => rfl
    | some row => simp at hrow
  | some row' =>
    cases row with
    | none => simp at hrow
    | some row =>
      have hlength : row'.length = row.length := Option.some.inj hrow
      rw [Option.bind_some, Option.bind_some, Bool.eq_iff_iff, isSome_getElem?, isSome_getElem?, hlength]

omit [Numeral K] in
theorem node_natCast (h : g.nodeAt t k = some n) : g.node t k = .ok n := by
  obtain ⟨row, hrow, hk⟩ := Option.bind_eq_some_iff.1 h
  simp only [node, itemAt_natCast.2 hrow]
  exact itemAt_natCast.2 hk

end PolicyGraph

namespace CostToGo

theorem exists_ribIndex {v : CostToGo K} {rib : Option K} (hrib : rib ∈ v.ribs)
    (hself : CutRecord.sameRib rib rib = true) : ∃ i < v.ribCount, v.ribIndex rib = .ok i := by
  unfold ribs at hrib
  unfold ribCount ribIndex
  cases hpricing : v.pricing with
  | none =>
    rw [hpricing] at hrib
    obtain rfl := List.mem_singleton.1 hrib
    exact ⟨0, by simp, rfl⟩
  | some p =>
    rw [hpricing] at hrib
    obtain ⟨x, hx, rfl⟩ := List.mem_map.1 hrib
    cases hfind : p.ribs.findIdx? fun r => Scalar.eq r x with
    | none =>
      have hne : (fun r => Scalar.eq r x) x = false := List.findIdx?_eq_none_iff.1 hfind x hx
      have hself : Scalar.eq x x = true := hself
      simp [hself] at hne
    | some i =>
      have hi : i < p.ribs.length := (List.findIdx?_eq_some_iff_findIdx_eq.1 hfind).1
      exact ⟨i, hi, by simp only [hfind]⟩

/-- An open cost-to-go takes every cut that fits, at a state that fits. -/
theorem exists_installCut {v : CostToGo K} {f : Frame K} {cut : Cut K} {rib : Option K}
    {state : Option (Datum K)} (hframe : v.frame = some f) (hpools : v.pools.length = v.ribCount)
    (hdimension : ∀ pool ∈ v.pools, pool.dimension = some f.dimension) (hrib : rib ∈ v.ribs)
    (hself : CutRecord.sameRib rib rib = true) (hcut : cut.dimension = f.dimension)
    (hside : cut.side = f.sense.cutSide)
    (hstate : ∀ s ∈ state, ∃ x : List K, x.length = f.dimension ∧ s = .list (x.map .real))
    (m : Subproblem K) : ∃ q, v.installCut cut rib state m = .ok q := by
  have hcheck : v.checkCut cut = .ok () := by
    simp only [checkCut, side, hframe, Option.map_some, hcut, hside, bne_self_eq_false]
    rfl
  obtain ⟨i, hi, hindex⟩ := exists_ribIndex hrib hself
  have hlt : i < v.pools.length := hpools ▸ hi
  obtain ⟨new, pool, hstore⟩ :=
    CutPool.exists_store (hdimension v.pools[i] (List.getElem_mem hlt)) hcut hstate
  refine ⟨(new, ({ v with pools := v.pools.set i pool }).installRow i cut m), ?_⟩
  rw [installCut, hcheck, hindex]
  simp only [bind, Except.bind, List.getElem?_eq_getElem hlt, hstore]
  rfl

end CostToGo

namespace PolicyGraph

variable {g g' : PolicyGraph K} {d : ℕ} {r : CutRecord K} {engine : Engine K}

/-- An open graph takes every cut that fits, at a state that fits. -/
theorem exists_installCut (hg : Holds g.frame (Node.IsOpen g d) g') (hribs : g.HasRibs)
    (hr : g.Fits d r) (state : Option (Datum K))
    (hstate : ∀ s ∈ state, ∃ x : List K, x.length = d ∧ s = .list (x.map .real)) :
    ∃ new g'', installCut r.stage r.markov r.rib r.cut state g' = .ok new g'' := by
  obtain ⟨t, k, hstage, hmarkov, hsome, hlast⟩ := hr.place
  rw [← isSome_nodeAt_of_frame hg.frame] at hsome
  obtain ⟨n, hn⟩ := Option.isSome_iff_exists.1 hsome
  have hopen := hg.nodes t k n hn
  have hterminal : n.isTerminal = false := by
    rw [hopen.terminal]
    simpa using hlast
  obtain ⟨bound, hframe⟩ := hopen.frame hterminal
  have hrib : r.rib ∈ n.costToGo.ribs := by
    rw [CostToGo.ribs, hopen.pricing]
    exact hr.rib
  obtain ⟨⟨new, v, m⟩, hinstall⟩ := CostToGo.exists_installCut hframe (hopen.pools hterminal)
    hopen.dimension hrib (hribs r.rib hr.rib) hr.dimension hr.side hstate n.model
  refine ⟨new, _, installCut_eq_ok.2 ⟨n, _, ?_,
    Node.installCut_eq_ok.2 ⟨v, m, hterminal, hinstall, rfl⟩, rfl⟩⟩
  rw [hstage, hmarkov]
  exact node_natCast hn

/-- A generated cut has one coefficient per state variable and the side of the problem. -/
theorem dimension_generateCut {n : Node K} {state : List K} {rib : Option K} {iteration : Option ℤ}
    {w v : Watched (PolicyGraph K)} {cut : Cut K}
    (h : generateCut engine n state rib iteration w = .ok cut v) :
    cut.dimension = state.length ∧ cut.side = w.part.sense.cutSide := by
  rw [generateCut, Run.part_bind_apply] at h
  obtain ⟨⟨value, gradient⟩, u, -, h⟩ := bind_eq_ok.1 h
  by_cases hlength : (gradient.length != state.length) = true
  · dsimp only at h
    rw [if_pos hlength] at h
    obtain ⟨⟨⟩, u', hthrow, -⟩ := bind_eq_ok.1 h
    cases hthrow
  · dsimp only at h
    rw [if_neg hlength] at h
    cases h
    have hsame : gradient.length = state.length := by simpa using hlength
    exact ⟨hsame, rfl⟩

end PolicyGraph

/-- The outgoing state has one entry per state variable. -/
theorem Subproblem.length_outgoing {m : Subproblem K} {x : List K} (h : m.outgoing = .ok x) :
    x.length = m.states.length := (forall₂_of_mapM h).length_eq.symm

theorem Simulated.length_state_report {n : Node K} {query : List String} {v : Visit K}
    (h : report n query = .ok v) : v.state.length = n.model.states.length := by
  obtain ⟨state, hstate, h⟩ := exceptBind_eq_ok.1 h
  obtain ⟨queried, -, h⟩ := exceptBind_eq_ok.1 h
  obtain ⟨cost, -, h⟩ := exceptBind_eq_ok.1 h
  obtain rfl := Except.ok.inj h
  exact Subproblem.length_outgoing hstate

end DualDynamic
