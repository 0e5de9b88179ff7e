import DualDynamic.Proofs.Node.Twins
import DualDynamic.Proofs.PolicyGraph.Growth
import DualDynamic.Proofs.PolicyGraph.Rows

/-!
# Graphs of twins

Two graphs are beside each other if the nodes at each place are related. Graphs of twins remain graphs of
twins, with equal results, if both do the same: compute the bound, generate cuts, install them and clean
retired ones away. What one of them was set up for before makes no difference.
-/

namespace DualDynamic

open Step

variable {K A B : Type} [Numeral K]

/-! ## Nodes -/

namespace Node

variable {n n' m m' : Node K} {F : PolicyGraph K × List ℕ} {C C' : Node K → Set Cell} {t k : ℕ}
  {engine : Engine K}

/-- A sound node and a twin of it, but for some of its cells. -/
structure IsTwin (F : PolicyGraph K × List ℕ) (C : Node K → Set Cell) (t k : ℕ) (n n' : Node K) :
    Prop where
  sound : n.IsSound F t k
  twins : Twins (C n) n n'

theorem IsTwin.refl (h : n.IsSound F t k) : n.IsTwin F C t k n := ⟨h, .refl _ n⟩

omit [Numeral K] in
theorem stage_eq_of_rest (h : n'.rest = n.rest) : n'.stage = n.stage ∧ n'.markov = n.markov := by
  obtain ⟨m, price, -, rfl⟩ := exists_of_rest h
  exact ⟨rfl, rfl⟩

omit [Numeral K] in
theorem settingCells_congr (h : n'.outline = n.outline) : n'.settingCells = n.settingCells := by
  obtain ⟨m, pools, installed, price, hm, rfl⟩ := exists_of_outline h
  obtain ⟨p, r, t, s, rfl⟩ := Subproblem.exists_of_outline hm
  rfl

/-- What a step makes of twins. -/
theorem couples_isTwin {x : Run K (Node K) A} {Q : A → A → Prop}
    {T : Node K → Node K → Node K → Prop} (hspares : engine.Spares F.1.retry)
    (h : ∀ n : Node K, ∀ rows, n.model.WellFormed rows → engine.Spares n.model.retry → Couples
      (fun w w' => TwinsFrom n (C n) w.part w'.part) x x
      fun a a' w w' => Q a a' ∧ Extends Set.univ n w.part ∧ T n w.part w'.part) :
    Couples (fun w w' => w.part.IsTwin F C t k w'.part) x x
      fun a a' w w' => Q a a' ∧ w.part.IsSound F t k ∧
        ∃ n, w.part.outline = n.outline ∧ T n w.part w'.part := by
  intro w w' hw a v hv a' v' hv'
  obtain ⟨rows, hwell⟩ := hw.sound.model.wellFormed
  obtain ⟨hQ, hext, hT⟩ := h w.part rows hwell (hw.sound.model.retry ▸ hspares) w w'
    ⟨.refl _ _, hw.twins⟩ a v hv a' v' hv'
  exact ⟨hQ, hw.sound.extends hext, w.part, hext.outline, hT⟩

section Solves

variable (hspares : engine.Spares F.1.retry) (hfunctional : engine.IsFunctional)
include hspares hfunctional

theorem respects_isTwin_solveAll (state : Option (List K)) (price : Option K) (weight : K) :
    Run.Respects (IsTwin F cells t k) (solveAll engine state price weight) :=
  (couples_isTwin hspares fun _ _ hwell hspares => respects_twins_solveAll hwell hspares hfunctional
    state price weight).weaken (fun _ _ => id) fun _ _ _ _ ⟨hrs, hsound, _, houtline, htwins⟩ =>
      ⟨hrs, hsound, cells_congr houtline ▸ htwins⟩

omit hfunctional in
theorem couples_isTwin_setIncoming (state : List K) : Couples
    (fun w w' => w.part.IsTwin F cells t k w'.part)
    (onModel (Subproblem.setIncoming state)) (onModel (Subproblem.setIncoming state))
    fun _ _ w w' => w.part.IsTwin F settingCells t k w'.part := by
  refine (couples_isTwin (Q := fun _ _ => True) hspares fun n rows hwell _ =>
    (couples_twins_setIncoming hwell state).weaken (fun _ _ => id) fun _ _ _ _ h =>
      ⟨trivial, h⟩).weaken (fun _ _ => id) ?_
  rintro _ _ w w' ⟨-, hsound, n, houtline, htwins⟩
  exact ⟨hsound, settingCells_congr houtline ▸ htwins⟩

theorem couples_isTwin_decide (price : Option K) (realization : ℕ) : Couples
    (fun w w' => w.part.IsTwin F settingCells t k w'.part)
    (Simulated.decide engine price realization) (Simulated.decide engine price realization)
    fun _ _ w w' => w.part.IsSound F t k ∧ w.part.Decided w'.part := by
  refine (couples_isTwin (Q := fun _ _ => True) (T := fun _ => Decided) hspares
    fun n rows hwell hspares => (couples_twins_decide hwell hspares hfunctional price
      realization).weaken (fun _ _ => id) fun _ _ _ _ h => ⟨trivial, h⟩).weaken (fun _ _ => id) ?_
  rintro _ _ w w' ⟨-, hsound, n, -, hdecided⟩
  exact ⟨hsound, hdecided⟩

end Solves

/-- Twins that take the same cut are twins. -/
theorem twins_installCut {D : Set Cell} {cut : Cut K} {rib : Option K} {state : Option (Datum K)}
    {new new' : Bool} (h : Twins D n m) (hn : n.installCut cut rib state = .ok (new, n'))
    (hm : m.installCut cut rib state = .ok (new', m')) : new' = new ∧ Twins D n' m' := by
  obtain ⟨p, price, hp, rfl⟩ := exists_of_rest h.rest
  obtain ⟨v, q, -, hv, rfl⟩ := installCut_eq_ok.1 hn
  obtain ⟨v', q', -, hv', rfl⟩ := installCut_eq_ok.1 hm
  obtain ⟨-, i, pool, pool₁, hi, hpool, hstore, hrow⟩ := CostToGo.installCut_eq_ok hv
  obtain ⟨-, i', pool', pool₁', hi', hpool', hstore', hrow'⟩ := CostToGo.installCut_eq_ok hv'
  obtain rfl : i = i' := Except.ok.inj (hi.symm.trans hi')
  obtain rfl : pool = pool' := Option.some.inj (hpool.symm.trans hpool')
  obtain ⟨rfl, rfl⟩ := Prod.mk.inj (Except.ok.inj (hstore.symm.trans hstore'))
  refine ⟨rfl, ?_⟩
  rcases CostToGo.installRow_everywhere { n.costToGo with pools := n.costToGo.pools.set i pool₁ } i cut
    with ⟨heq, -⟩ | ⟨x, -, heq⟩
  · obtain ⟨rfl, rfl⟩ := Prod.mk.inj (hrow.trans (heq _))
    obtain ⟨rfl, rfl⟩ := Prod.mk.inj (hrow'.trans (heq _))
    exact ⟨by simp only [Programmed.rest, rest, hp], h.rows, h.program⟩
  · obtain ⟨rfl, rfl⟩ := Prod.mk.inj (hrow.trans (heq _))
    obtain ⟨rfl, rfl⟩ := Prod.mk.inj (hrow'.trans (heq _))
    have hstates : p.states = n.model.states := Subproblem.states_of_outline hp
    rw [CostToGo.cutRow_congr x cut hstates]
    have houtline : ∀ (m : Subproblem K) c, (m.withConstraint c).outline = m.outline :=
      fun _ _ => rfl
    refine ⟨by simp only [Programmed.rest, rest, houtline, hp], ?_, ?_⟩
    · have hrows : p.program.constraints.size = n.model.program.constraints.size := h.rows
      simp [Programmed.program, Subproblem.withConstraint, LinearProgram.addConstraint, hrows]
    · exact h.program.addConstraint_both h.rows _

end Node

/-! ## Graphs -/

namespace PolicyGraph

variable {F : PolicyGraph K × List ℕ} {R : ℕ → ℕ → Node K → Node K → Prop} {g g' : PolicyGraph K}
  {engine : Engine K} {t k : ℕ}

/-- Two graphs with one frame whose nodes are related, place by place. -/
structure Beside (F : PolicyGraph K × List ℕ) (R : ℕ → ℕ → Node K → Node K → Prop)
    (g g' : PolicyGraph K) : Prop where
  left : g.frame = F
  right : g'.frame = F
  nodes : ∀ t k n, g.nodeAt t k = some n → ∃ n', g'.nodeAt t k = some n' ∧ R t k n n'

/-- Nodes at a place that are related in one way, among others that are related in another way. -/
def AtPlace (t k : ℕ) (S : Node K → Node K → Prop) (R : ℕ → ℕ → Node K → Node K → Prop) (i j : ℕ)
    (n n' : Node K) : Prop := if i = t ∧ j = k then S n n' else R i j n n'

/-- The nodes of the two graphs are twins, but for the cells that settings write to. -/
abbrev AreTwins (F : PolicyGraph K × List ℕ) : PolicyGraph K → PolicyGraph K → Prop :=
  Beside F (Node.IsTwin F Node.cells)

theorem AreTwins.refl (hg : g.IsSound) : AreTwins g.frame g g :=
  ⟨rfl, rfl, fun t k n hn => ⟨n, hn, .refl (hg.nodes t k n hn)⟩⟩

section Nodes

omit [Numeral K]

theorem Beside.nodeAt (h : Beside F R g g') {n n' : Node K} (hn : g.nodeAt t k = some n)
    (hn' : g'.nodeAt t k = some n') : R t k n n' := by
  obtain ⟨m, hm, hR⟩ := h.nodes t k n hn
  exact Option.some.inj (hn'.symm.trans hm) ▸ hR

/-- What does not depend on their nodes is the same. -/
theorem Beside.congr (h : Beside F R g g') (f : PolicyGraph K → B)
    (hf : ∀ g : PolicyGraph K, f g = f { g with nodes := [], bound := none }) : f g' = f g := by
  have hdata : { g' with nodes := [], bound := none } = { g with nodes := [], bound := none } :=
    congrArg Prod.fst (h.right.trans h.left.symm)
  rw [hf g', hdata, ← hf g]

/-- A step that looks at something else than nodes. -/
theorem Beside.respects_part_bind {f : PolicyGraph K → Run K (PolicyGraph K) A}
    (hf : ∀ g : PolicyGraph K, f g = f { g with nodes := [], bound := none })
    (h : ∀ g, Run.Respects (Beside F R) (f g)) : Run.Respects (Beside F R) (Run.part >>= f) :=
  Run.respects_part_bind (fun _ _ hg => hg.congr f hf) h

theorem Beside.putNode (h : Beside F R g g') {S : Node K → Node K → Prop} {n n' : Node K}
    (hsound : n.IsSound F t k) (hrest : n'.rest = n.rest) (hS : S n n') :
    Beside F (AtPlace t k S R) (g.putNode n) (g'.putNode n') where
  left := (frame_putNode g n).trans h.left
  right := (frame_putNode g' n').trans h.right
  nodes i j m hm := by
    obtain ⟨hstage, hmarkov⟩ := Node.stage_eq_of_rest hrest
    rw [nodeAt_putNode, hsound.stage, hsound.markov] at hm
    rw [nodeAt_putNode, hstage, hmarkov, hsound.stage, hsound.markov]
    by_cases hplace : i = t ∧ j = k
    · rw [if_pos hplace] at hm ⊢
      obtain ⟨l, hl, rfl⟩ := Option.map_eq_some_iff.1 hm
      obtain ⟨l', hl', -⟩ := h.nodes i j l hl
      exact ⟨n', by rw [hl', Option.map_some], by rwa [AtPlace, if_pos hplace]⟩
    · rw [if_neg hplace] at hm ⊢
      obtain ⟨m', hm', hR⟩ := h.nodes i j m hm
      exact ⟨m', hm', by rwa [AtPlace, if_neg hplace]⟩

theorem Beside.of_atPlace {S : Node K → Node K → Prop} (h : Beside F (AtPlace t k S R) g g')
    (hS : ∀ n n', S n n' → R t k n n') : Beside F R g g' where
  left := h.left
  right := h.right
  nodes i j n hn := by
    obtain ⟨n', hn', hR⟩ := h.nodes i j n hn
    refine ⟨n', hn', ?_⟩
    rw [AtPlace] at hR
    split_ifs at hR with hplace
    · obtain ⟨rfl, rfl⟩ := hplace
      exact hS n n' hR
    · exact hR

/-- A step on the nodes at one place. -/
theorem Beside.couples_atNode {x : Run K (Node K) A} {Q : A → A → Prop} {S : Node K → Node K → Prop}
    (hS : ∀ n n', S n n' → n.IsSound F t k ∧ n'.rest = n.rest)
    (hx : Couples (fun w w' => R t k w.part w'.part) x x fun a a' w w' =>
      Q a a' ∧ S w.part w'.part) :
    Couples (fun w w' => Beside F R w.part w'.part) (atNode t k x) (atNode t k x) fun a a' w w' =>
      Q a a' ∧ Beside F (AtPlace t k S R) w.part w'.part := by
  intro w w' hw a v hv a' v' hv'
  obtain ⟨n, u, hplace, hu, rfl⟩ := atNode_eq_ok hv
  obtain ⟨n', u', hplace', hu', rfl⟩ := atNode_eq_ok hv'
  obtain ⟨hQ, hafter⟩ := hx ⟨w.monitor, n⟩ ⟨w'.monitor, n'⟩ (hw.nodeAt hplace hplace') a u hu a' u' hu'
  obtain ⟨hsound, hrest⟩ := hS _ _ hafter
  exact ⟨hQ, hw.putNode hsound hrest hafter⟩

end Nodes

section Solves

variable (hspares : engine.Spares F.1.retry) (hfunctional : engine.IsFunctional)
include hspares hfunctional

theorem respects_solveStage (stage : ℕ) (nodes : List (ℕ × K)) (state : Option (List K))
    (price : Option K) : Run.Respects (AreTwins F) (solveStage engine stage nodes state price) := by
  refine (Respects.mapM fun kp _ => ?_).bind fun parts => respects_pure _
  exact (Beside.couples_atNode (fun n n' h => ⟨h.sound, h.twins.rest⟩)
    (Node.respects_isTwin_solveAll hspares hfunctional state price kp.2)).weaken (fun _ _ => id)
    fun _ _ _ _ h => ⟨h.1, h.2.of_atPlace fun _ _ => id⟩

theorem respects_aggregateStage (stage : ℕ) (nodes : List (ℕ × K)) (state : Option (List K))
    (price : Option K) :
    Run.Respects (AreTwins F) (aggregateStage engine stage nodes state price) :=
  (respects_solveStage hspares hfunctional stage nodes state price).bind fun _ =>
    Beside.respects_part_bind (fun _ => rfl) fun _ => respects_ofExcept _

/-- Twin graphs have the same bound. -/
theorem respects_computeBound : Run.Respects (AreTwins F) (computeBound engine) :=
  Beside.respects_part_bind (fun _ => rfl) fun _ =>
    (respects_aggregateStage hspares hfunctional _ _ _ _).bind fun _ => respects_pure _

theorem respects_generateCut (n : Node K) (state : List K) (rib : Option K) (iteration : Option ℤ) :
    Run.Respects (AreTwins F) (generateCut engine n state rib iteration) := by
  refine Beside.respects_part_bind (fun _ => rfl) fun g =>
    (respects_aggregateStage hspares hfunctional _ _ _ _).bind fun r => ?_
  obtain ⟨value, gradient⟩ := r
  dsimp only
  split_ifs
  · exact (respects_throw _).bind fun _ => respects_pure _
  · exact respects_pure _

end Solves

/-- Twin graphs that take the same cut are twins. -/
theorem respects_installCut (stage markov : ℤ) (rib : Option K) (cut : Cut K)
    (state : Option (Datum K)) :
    Respects (AreTwins F) (installCut stage markov rib cut state : Step K (PolicyGraph K) Bool) := by
  intro g g' h new g₁ hg new' g₁' hg'
  obtain ⟨n, m, hn, hm, rfl⟩ := installCut_eq_ok.1 hg
  obtain ⟨n', m', hn', hm', rfl⟩ := installCut_eq_ok.1 hg'
  obtain ⟨t, k, hplace, hfound⟩ := exists_place (h.right.trans h.left.symm) hn
  obtain ⟨l, hl, htwin⟩ := h.nodes t k n hplace
  obtain rfl : l = n' := Except.ok.inj ((hfound l hl).symm.trans hn')
  obtain ⟨rfl, htwins⟩ := Node.twins_installCut htwin.twins hm hm'
  have hgrown : Extends Set.univ n m := Node.extends_installCut (.refl _ n) hm
  have hsound : m.IsSound F t k := htwin.sound.extends hgrown
  rw [← Node.cells_congr hgrown.outline] at htwins
  exact ⟨rfl, (h.putNode hsound htwins.rest ⟨hsound, htwins⟩).of_atPlace fun _ _ => id⟩

/-! ### Cleaning -/

omit [Numeral K] in
theorem Beside.map_rest (h : Beside F R g g') (hR : ∀ t k n n', R t k n n' → n'.rest = n.rest) :
    g'.nodes.map (List.map Node.rest) = g.nodes.map (List.map Node.rest) := by
  have hlengths : g'.nodes.map List.length = g.nodes.map List.length :=
    congrArg Prod.snd (h.right.trans h.left.symm)
  refine List.ext_getElem? fun t => ?_
  have hrow := congrArg (·[t]?) hlengths
  simp only [List.getElem?_map] at hrow ⊢
  cases hg : g.nodes[t]? with
  | none => simpa [hg] using hrow
  | some row =>
    rw [hg, Option.map_some] at hrow
    obtain ⟨row', hg', hlength⟩ := Option.map_eq_some_iff.1 hrow
    rw [hg']
    refine congrArg some (List.ext_getElem? fun k => ?_)
    rw [List.getElem?_map, List.getElem?_map]
    cases hk : row[k]? with
    | none =>
      rw [List.getElem?_eq_none_iff, ← hlength] at hk
      rw [List.getElem?_eq_none hk]
    | some n =>
      obtain ⟨n', hn', hnn'⟩ := h.nodes t k n (by rw [PolicyGraph.nodeAt, hg, Option.bind_some, hk])
      rw [PolicyGraph.nodeAt, hg', Option.bind_some] at hn'
      rw [hn', Option.map_some, Option.map_some, hR t k n n' hnn']

/-- Rebuilding asks for nothing but the rest of a node. -/
theorem rebuild_rest (n : Node K) : rebuild n.rest = rebuild n := rfl

theorem each_rebuild_congr {ns ms : List (Node K)} (h : ms.map Node.rest = ns.map Node.rest) :
    Step.each ms rebuild = Step.each ns rebuild := by
  have hrest : ∀ ns : List (Node K), Step.each (ns.map Node.rest) rebuild = Step.each ns rebuild := by
    intro ns
    induction ns with
    | nil => rfl
    | cons n ns ih =>
      change (rebuild n.rest >>= fun _ => Step.each (ns.map Node.rest) rebuild) =
        rebuild n >>= fun _ => Step.each ns rebuild
      rw [ih, rebuild_rest]
  rw [← hrest ms, h, hrest]

/-- Whatever was done with a node, two graphs put the same one into its place when they rebuild it. -/
theorem respects_rebuild {n : Node K} (hn : n.IsSound F t k) : Respects (AreTwins F) (rebuild n) := by
  intro g g' h u v hu u' v' hu'
  obtain ⟨g₁, s, hs, hu⟩ := bind_eq_ok.1 hu
  cases hs
  obtain ⟨m, s, hrebuilt, hu⟩ := bind_eq_ok.1 hu
  obtain ⟨hm, rfl⟩ := ofExcept_eq_ok.1 hrebuilt
  cases hu
  obtain ⟨g₁', s', hs', hu'⟩ := bind_eq_ok.1 hu'
  cases hs'
  obtain ⟨m', s', hrebuilt', hu'⟩ := bind_eq_ok.1 hu'
  obtain ⟨hm', rfl⟩ := ofExcept_eq_ok.1 hrebuilt'
  cases hu'
  rw [h.congr (rebuilt · n) fun _ => rfl, hm] at hm'
  obtain rfl := Except.ok.inj hm'
  have hsound : m.IsSound F t k := by
    rw [← h.left] at hn ⊢
    exact isSound_rebuilt hn hm
  exact ⟨rfl, (h.putNode hsound rfl (Node.IsTwin.refl hsound)).of_atPlace fun _ _ => id⟩

/-- Twin graphs that remove retired cuts are twins. -/
theorem respects_clean : Respects (AreTwins F) (clean : Step K (PolicyGraph K) Unit) := by
  intro g g' h
  have hnodes : (g'.allNodes.filter isCleanable).map Node.rest =
      (g.allNodes.filter isCleanable).map Node.rest := by
    have hall : g'.allNodes.map Node.rest = g.allNodes.map Node.rest := by
      rw [allNodes, allNodes, List.map_flatten, List.map_flatten,
        h.map_rest fun _ _ _ _ hR => hR.twins.rest]
    have hcleanable : ∀ ns : List (Node K), (ns.filter isCleanable).map Node.rest =
        (ns.map Node.rest).filter isCleanable := fun ns => by
      rw [List.filter_map]
      rfl
    rw [hcleanable, hcleanable, hall]
  have hclean : ∀ g : PolicyGraph K, clean g = Step.each (g.allNodes.filter isCleanable) rebuild g :=
    fun _ => rfl
  rw [hclean, hclean, each_rebuild_congr hnodes]
  refine (Respects.each fun n hn => ?_) g g' h
  obtain ⟨t, k, hplace⟩ := mem_allNodes.1 (List.mem_of_mem_filter hn)
  obtain ⟨n', -, htwin⟩ := h.nodes t k n hplace
  exact respects_rebuild htwin.sound

end PolicyGraph

end DualDynamic
