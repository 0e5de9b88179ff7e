import DualDynamic.Proofs.PolicyGraph.Repetition
import DualDynamic.Proofs.PolicyGraph.Shown
import DualDynamic.Proofs.PolicyGraph.Validity

/-!
# Tight cuts

A backward pass goes through the stages from the last one to the first, and what it does at a stage
leaves the nodes of the stage behind alone, but for settings. So what was aggregated there when a cut was
generated can be aggregated again when the pass is through, and comes to the same value: the one that the
cut has at the state at which it was generated. All cuts of the pass are tight in the graph that the pass
leaves, and have their rows there (`Recorded.cuts_stay_tight`).
-/

namespace DualDynamic

open Step

variable {K : Type}

/-! ## What is known of a record -/

namespace PolicyGraph

section Records

variable [Numeral K] {g g₀ g₁ : PolicyGraph K} {d T : ℕ} {r : CutRecord K} {engine : Engine K}

/-- The node came of the graph `g` by settings and cuts, and has the rows of the cuts that it has booked. -/
def Displays (g g₀ : PolicyGraph K) (d t k : ℕ) (n : Node K) : Prop :=
  Grown g t k n ∧ n.ShowsCuts g₀ d t k

/-- The node is what it was in the graph `g₁`, but for settings, if it stands in stage `T`. -/
def Unchanged (g₁ : PolicyGraph K) (T t k : ℕ) (n : Node K) : Prop :=
  t = T → ∀ n₁, g₁.nodeAt t k = some n₁ → Twins n₁.cells n₁ n

/-- The node has taken the cut of a record, if it stands where the record says. -/
def HasCutOf (r : CutRecord K) (t k : ℕ) (n : Node K) : Prop :=
  r.stage = t → r.markov = k → n.isTerminal = false ∧ n.costToGo.HasCut r.rib r.cut

/-- What is known of a node once a cut was generated from stage `T` of the graph `g₁`. -/
def Awaits (g g₀ g₁ : PolicyGraph K) (d T t k : ℕ) (n : Node K) : Prop :=
  Displays g g₀ d t k n ∧ Unchanged g₁ T t k n

/-- What is known of it when the cut has been installed. -/
def Backs (g g₀ g₁ : PolicyGraph K) (d T : ℕ) (r : CutRecord K) (t k : ℕ) (n : Node K) : Prop :=
  Awaits g g₀ g₁ d T t k n ∧ HasCutOf r t k n

section Undisturbed

variable (hg : g.IsSound) (hspares : engine.Spares g.retry)
include hg hspares

theorem undisturbed_displays : Undisturbed engine (Displays g g₀ d) :=
  (undisturbed_grown hg hspares).and fun _ hn htouches =>
    (unreached_showsCuts g₀ d).touches hn (htouches.mono Set.subset_union_left)

theorem undisturbed_awaits : Undisturbed engine (Awaits g g₀ g₁ d T) :=
  (undisturbed_displays hg hspares).and fun _ hn htouches ht n₁ hn₁ => by
    have htwins := hn ht n₁ hn₁
    rw [Node.cells_congr htwins.outline] at htouches
    exact htwins.touches_right htouches subset_rfl

theorem undisturbed_backs : Undisturbed engine (Backs g g₀ g₁ d T r) :=
  (undisturbed_awaits hg hspares).and fun _ hn htouches => by
    obtain ⟨m, price, -, rfl⟩ := Node.exists_of_rest htouches.rest
    exact hn

end Undisturbed

section Accepts

variable (hg : g.IsSound)
include hg

theorem accepts_displays : Accepts (fun _ _ _ => True) (Displays g g₀ d) :=
  (accepts_grown hg).and (fun _ => trivial) fun _ hn _ h =>
    (isLasting_showsCuts g₀ d).accepts.installCut hn trivial h

/-- No cut may come into the stage that the cut was generated from. -/
theorem accepts_awaits : Accepts (fun t _ _ => t ≠ T) (Awaits g g₀ g₁ d T) :=
  (accepts_displays hg).and (fun _ => trivial) fun _ _ hne _ ht => absurd ht hne

theorem accepts_backs : Accepts (fun t _ _ => t ≠ T) (Backs g g₀ g₁ d T r) :=
  (accepts_awaits hg).and id fun _ hn _ h hstage hmarkov => by
    obtain ⟨hterminal, hcut⟩ := hn hstage hmarkov
    obtain ⟨v, m, -, hinstall, rfl⟩ := Node.installCut_eq_ok.1 h
    exact ⟨hterminal, hcut.of_installCut hinstall⟩

end Accepts

theorem expectedValue_congr {n n' : Node K} (hstage : n'.stage = n.stage)
    (hmarkov : n'.markov = n.markov) (hterminal : n'.isTerminal = n.isTerminal) :
    expectedValue engine n' = expectedValue engine n := by
  funext state price
  simp only [expectedValue, successors, transition, hstage, hmarkov, hterminal]

end Records

section Exact

variable [ExactNumeral K] {g g₀ g₁ s s' : PolicyGraph K} {d T : ℕ} {r : CutRecord K} {engine : Engine K}
  {n : Node K} {state : List K}

/-- When the cut of a record has been installed, its node has taken it. -/
theorem holds_backs (hs : Holds g.frame (Awaits g g₀ g₁ d T) s) (hg : g.IsSound) {t k : ℕ}
    (hstage : r.stage = t) (hmarkov : r.markov = k) (ht : t ≠ T) {x : Option (Datum K)} {new : Bool}
    (h : installCut t k r.rib r.cut x s = .ok new s') : Holds g.frame (Backs g g₀ g₁ d T r) s' := by
  have hs' := (keeps_installCut (accepts_awaits hg) (isFor_natCast ht) r.rib x).of_ok hs h
  refine ⟨hs'.frame, fun i j m hm => ⟨hs'.nodes i j m hm, fun hi hj => ?_⟩⟩
  obtain rfl : t = i := by exact_mod_cast hstage.symm.trans hi
  obtain rfl : k = j := by exact_mod_cast hmarkov.symm.trans hj
  obtain ⟨l, l', hl, hinstall, rfl⟩ := installCut_eq_ok.1 h
  obtain ⟨v, p, hterminal, hv, rfl⟩ := Node.installCut_eq_ok.1 hinstall
  have hplace := hs.nodes t k l (nodeAt_of_node hl)
  have hroom := hplace.1.2.hasRoom
  rw [nodeAt_putNode, if_pos ⟨hroom.stage.symm, hroom.markov.symm⟩, nodeAt_of_node hl, Option.map_some] at hm
  obtain rfl := Option.some.inj hm
  exact ⟨hterminal, CostToGo.hasCut_of_installCut hroom.room
    (Cut.same_self fun a _ => Scalar.eq_iff.2 rfl) hv⟩

/-- The cut of the record was generated for the node `n` at a state, and this can still be told. -/
def IsBacked (engine : Engine K) (g g₀ : PolicyGraph K) (d : ℕ) (n : Node K) (state : List K)
    (r : CutRecord K) (s : PolicyGraph K) : Prop :=
  ∃ g₁ i gradient v, g₁.frame = g.frame ∧ g₁.IsSound ∧
    aggregateStage engine (n.stage + 1) (g₁.successors n) (some state) r.rib ⟨i, g₁⟩ =
      .ok (r.cut.evaluate state, gradient) v ∧
    Holds g.frame (Backs g g₀ g₁ d (n.stage + 1) r) s

/-- The cut of the record has its row in the node that the record names. And it is tight there: what lies
behind this node is worth at `state` what the cut says, if it is aggregated on this graph, whatever has
been counted before. Only an interruption can prevent that. -/
def IsTight (engine : Engine K) (g : PolicyGraph K) (state : List K) (r : CutRecord K) : Prop :=
  ∃ n, g.node r.stage r.markov = .ok n ∧ n.HasCutRow r.rib r.cut ∧ ∀ i,
    (∃ v, expectedValue engine n (some state) r.rib ⟨i, g⟩ = .ok (r.cut.evaluate state) v) ∨
      ∃ v, expectedValue engine n (some state) r.rib ⟨i, g⟩ = .error .interrupted v

theorem IsBacked.isTight (hspares : engine.Spares g.retry) (hexact : engine.IsExact)
    (hreliable : engine.IsReliable) (h : IsBacked engine g g₀ d n state r s)
    (hn : Grown g n.stage n.markov n) (hstage : r.stage = n.stage) (hmarkov : r.markov = n.markov)
    {m : Node K} (hm : s.nodeAt n.stage n.markov = some m) : s.IsTight engine state r := by
  obtain ⟨g₁, i, gradient, v, hframe, hsound, hrun, hs⟩ := h
  obtain ⟨⟨⟨hgrown, hshows⟩, -⟩, htaken⟩ := hs.nodes _ _ m hm
  obtain ⟨hterminal, hcut⟩ := htaken hstage hmarkov
  refine ⟨m, by rw [hstage, hmarkov]; exact node_natCast hm, hshows.hasCutRow hterminal hcut, fun j => ?_⟩
  -- The nodes of the stage behind are twins of those that the cut was generated from.
  have hbeside : AreTwinsIn g.frame (n.stage + 1) g₁ s := by
    refine ⟨hframe, hs.frame, fun t k n₁ hn₁ => ?_⟩
    have hsome : (s.nodeAt t k).isSome := by
      rw [isSome_nodeAt_of_frame (hs.frame.trans hframe.symm), hn₁]
      rfl
    obtain ⟨n', hn'⟩ := Option.isSome_iff_exists.1 hsome
    exact ⟨n', hn', fun ht => ⟨hframe ▸ hsound.nodes t k n₁ hn₁, (hs.nodes t k n' hn').1.2 ht n₁ hn₁⟩⟩
  obtain ⟨l, hl, hext⟩ := hn
  obtain ⟨l', hl', hext'⟩ := hgrown
  obtain rfl := Option.some.inj (hl.symm.trans hl')
  obtain ⟨p, pools, installed, price, -, hfrom⟩ :=
    Node.exists_of_outline (hext'.outline.trans hext.outline.symm)
  have hsame : expectedValue engine m = expectedValue engine n :=
    expectedValue_congr (by rw [hfrom]) (by rw [hfrom]) (by rw [hfrom])
  rw [hsame]
  exact expectedValue_again hspares hexact hreliable hbeside hrun j

/-- The value of a cut at the state that it was generated at is what the stage behind was aggregated to. -/
theorem aggregateStage_of_generateCut {rib : Option K} {iteration : Option ℤ}
    {w v : Watched (PolicyGraph K)} {cut : Cut K}
    (h : generateCut engine n state rib iteration w = .ok cut v) :
    ∃ gradient, aggregateStage engine (n.stage + 1) (w.part.successors n) (some state) rib w =
      .ok (cut.evaluate state, gradient) v := by
  obtain ⟨rs, value, gradient, hsolve, haggregate, -, -, hintercept, hcoefficients⟩ := generateCut_eq_ok h
  have hvalue : cut.evaluate state = value := by
    rw [Cut.evaluate, hintercept, hcoefficients, sub_add_cancel]
  refine ⟨gradient, bind_eq_ok.2 ⟨rs, v, hsolve, ?_⟩⟩
  rw [Run.part_bind_apply, hvalue]
  exact ofExcept_eq_ok.2 ⟨haggregate, rfl⟩

end Exact

end PolicyGraph

/-! ## Passes -/

namespace Recorded

open PolicyGraph

variable [ExactNumeral K] {A : Type} {g g₀ : PolicyGraph K} {d : ℕ} {engine : Engine K} {n : Node K}
  {state : List K} {r : CutRecord K} {path : List ℤ} {states : List (List K)} {iteration : Option ℤ}

/-- The record of a cut for a rib of a node. -/
def IsRecordOf (engine : Engine K) (g g₀ : PolicyGraph K) (d : ℕ) (n : Node K) (state : List K)
    (rib : Option K) (r : CutRecord K) (s : Recorded K) : Prop :=
  r.stage = n.stage ∧ r.markov = n.markov ∧ r.rib = rib ∧ IsBacked engine g g₀ d n state r s.graph

/-- The records of the cuts for all ribs of the node that a path visits at a stage. -/
def AreRecordsOf (engine : Engine K) (g g₀ : PolicyGraph K) (d : ℕ) (path : List ℤ)
    (states : List (List K)) (t : ℕ) (part : List (CutRecord K)) (s : Recorded K) : Prop :=
  ∃ m state n, itemAt (K := K) path t = .ok m ∧ itemAt (K := K) states t = .ok state ∧ n.stage = t ∧
    Grown g n.stage n.markov n ∧
    (∀ (s : PolicyGraph K) n', s.frame = g.frame → s.nodeAt n.stage n.markov = some n' →
      s.node t m = .ok n') ∧
    List.Forall₂ (fun rib r => IsRecordOf engine g g₀ d n state rib r s) n.costToGo.ribs part

section Pass

variable (hg : g.IsSound) (hspares : engine.Spares g.retry)
include hg hspares

/-- Cuts in other stages than the one behind do a record no harm. -/
theorem keeps_isRecordOf {rib : Option K} {x : Run K (Recorded K) A}
    (hx : ∀ J, Steady engine J → Accepts (fun t _ _ => t ≠ n.stage + 1) J →
      Keeps (fun w => Holds g.frame J w.part.graph) x) :
    Keeps (fun w => IsRecordOf engine g g₀ d n state rib r w.part) x := by
  rintro w ⟨hstage, hmarkov, hrib, g₁, i, gradient, v, hframe, hsound, hrun, hbacks⟩
  exact ((hx _ (undisturbed_backs hg hspares).steady (accepts_backs hg)).weaken (fun _ => id)
    (fun _ _ h => ⟨hstage, hmarkov, hrib, g₁, i, gradient, v, hframe, hsound, hrun, h⟩)
    fun _ h => ⟨hstage, hmarkov, hrib, g₁, i, gradient, v, hframe, hsound, hrun, h⟩) w hbacks

theorem ensures_isRecordOf_updateRib (n : Node K) (state : List K) (iteration : Option ℤ)
    (rib : Option K) : Ensures (fun w => Holds g.frame (Displays g g₀ d) w.part.graph)
      (updateRib engine n state iteration rib)
      (fun r w => IsRecordOf engine g g₀ d n state rib r w.part ∧
        Holds g.frame (Displays g g₀ d) w.part.graph) fun _ => True := by
  refine ensures_iff.2 fun w hw => ⟨fun r w' h => ?_, fun _ _ _ => trivial⟩
  obtain ⟨cut, w₁, hcut, hrest⟩ := bind_eq_ok.1 h
  obtain ⟨v, hgenerate, rfl⟩ := Run.within_eq_ok.1 hcut
  obtain ⟨⟨⟩, w₂, hwrite, hrest⟩ := bind_eq_ok.1 hrest
  cases hwrite
  obtain ⟨new, w₃, hinstall, hrest⟩ := bind_eq_ok.1 hrest
  cases hrest
  obtain ⟨u, hu, rfl⟩ := Run.within_eq_ok.1 hinstall
  obtain ⟨s, hs, rfl⟩ := Run.ofStep_eq_ok.1 hu
  have hawaits : Holds g.frame (Awaits g g₀ w.part.graph d (n.stage + 1)) w.part.graph :=
    ⟨hw.frame, fun t k m hm => ⟨hw.nodes t k m hm, fun _ m' hm' => by
      obtain rfl := Option.some.inj (hm.symm.trans hm')
      exact .refl _ _⟩⟩
  have hgenerated := (keeps_generateCut (undisturbed_awaits hg hspares).steady n state rib
    iteration).of_ok (s := ⟨w.monitor, w.part.graph⟩) hawaits hgenerate
  have hbacks : Holds g.frame
      (Backs g g₀ w.part.graph d (n.stage + 1) ⟨n.stage, n.markov, rib, cut⟩) s :=
    holds_backs hgenerated hg rfl rfl (by omega) hs
  have hsound : w.part.graph.IsSound :=
    hg.of_grows ⟨hw.frame, fun t k m hm => (hw.nodes t k m hm).1⟩
  obtain ⟨gradient, hrun⟩ := aggregateStage_of_generateCut hgenerate
  exact ⟨⟨rfl, rfl, rfl, w.part.graph, w.monitor, gradient, v, hw.frame, hsound, hrun, hbacks⟩,
    hbacks.frame, fun t k m hm => (hbacks.nodes t k m hm).1.1⟩

/-- The ribs of a node get a record each, and the records of the first ones outlast the other ones. -/
theorem ensures_isRecordOf_update (n : Node K) (state : List K) (iteration : Option ℤ) :
    Ensures (fun w => Holds g.frame (Displays g g₀ d) w.part.graph) (update engine n state iteration)
      (fun part w => List.Forall₂ (fun rib r => IsRecordOf engine g g₀ d n state rib r w.part)
        n.costToGo.ribs part ∧ Holds g.frame (Displays g g₀ d) w.part.graph) fun _ => True := by
  refine Ensures.mapM_lasting (R := fun rib r (w : Watched (Recorded K)) =>
    IsRecordOf engine g g₀ d n state rib r w.part)
    (fun rib _ => ensures_isRecordOf_updateRib hg hspares n state iteration rib)
    (List.pairwise_of_forall fun rib rib' r => ?_)
  exact (keeps_isRecordOf hg hspares fun J hJ haccepts => keeps_updateRib hJ haccepts
    (fun _ => by omega) state iteration rib').weaken (fun _ hw => hw.1) (fun _ _ => id)
      fun _ _ => trivial

theorem ensures_areRecordsOf_updateStage (t : ℕ) :
    Ensures (fun w => Holds g.frame (Displays g g₀ d) w.part.graph)
      (updateStage engine path states iteration t)
      (fun part w => AreRecordsOf engine g g₀ d path states t part w.part ∧
        Holds g.frame (Displays g g₀ d) w.part.graph) fun _ => True := by
  refine ensures_iff.2 fun w hw => ⟨fun part v h => ?_, fun _ _ _ => trivial⟩
  rw [updateStage, Run.part_bind_apply] at h
  obtain ⟨n, w₁, hn, h⟩ := bind_eq_ok.1 h
  obtain ⟨hvisited, rfl⟩ := ofExcept_eq_ok.1 hn
  obtain ⟨m, hm, hnode⟩ := exceptBind_eq_ok.1 hvisited
  obtain ⟨state, w₂, hread, hupdate⟩ := bind_eq_ok.1 h
  obtain ⟨hstate, rfl⟩ := ofExcept_eq_ok.1 hread
  obtain ⟨t', k, hplace, ht, -⟩ := exists_of_node hnode
  obtain rfl := ht t rfl
  obtain ⟨hgrown, hshows⟩ := hw.nodes t' k n hplace
  obtain ⟨rfl, rfl⟩ : n.stage = t' ∧ n.markov = k := ⟨hshows.isOpen.stage, hshows.isOpen.markov⟩
  obtain ⟨hrecords, hend⟩ := (ensures_isRecordOf_update hg hspares n state iteration).of_ok hw hupdate
  refine ⟨⟨m, state, n, hm, hstate, rfl, hgrown, fun s n' hframe hn' => ?_, hrecords⟩, hend⟩
  obtain ⟨i, j, hat, hfound⟩ := exists_place (hframe.trans hw.frame.symm) hnode
  have hopen := (hw.nodes i j n hat).2.isOpen
  obtain ⟨rfl, rfl⟩ : n.stage = i ∧ n.markov = j := ⟨hopen.stage, hopen.markov⟩
  exact hfound n' hn'

/-- Stages in front do the records of a stage no harm. -/
theorem keeps_areRecordsOf_updateStage {t t' : ℕ} (ht : t' < t) (part : List (CutRecord K)) :
    Keeps (fun w => AreRecordsOf engine g g₀ d path states t part w.part)
      (updateStage engine path states iteration t') := by
  refine keeps_iff_final.2 ?_
  rintro w ⟨m, state, n, hm, hstate, rfl, hgrown, hplace, hrecords⟩
  refine ⟨m, state, n, hm, hstate, rfl, hgrown, hplace, hrecords.imp fun rib r hr => ?_⟩
  exact keeps_iff_final.1 (keeps_isRecordOf hg hspares fun J hJ haccepts => keeps_updateStage hJ haccepts
    (fun _ _ => by omega) path states iteration) w hr

theorem ensures_areRecordsOf_backward :
    Ensures (fun w => Holds g.frame (Displays g g₀ d) w.part.graph)
      (backward engine path states iteration)
      (fun records w => (∃ parts, records = parts.flatten ∧
        List.Forall₂ (fun t part => AreRecordsOf engine g g₀ d path states t part w.part)
          (List.range (g.stages - 1)).reverse parts) ∧
        Holds g.frame (Displays g g₀ d) w.part.graph) fun _ => True := by
  refine Run.ensures_part_bind fun w hw => ?_
  have hstages : w.part.graph.stages = g.stages := congrArg (fun F => F.1.stages) hw.frame
  rw [hstages]
  have hparts : Ensures (fun w => Holds g.frame (Displays g g₀ d) w.part.graph)
      ((List.range (g.stages - 1)).reverse.mapM (updateStage engine path states iteration))
      (fun parts w => List.Forall₂ (fun t part => AreRecordsOf engine g g₀ d path states t part w.part)
        (List.range (g.stages - 1)).reverse parts ∧
          Holds g.frame (Displays g g₀ d) w.part.graph) fun _ => True := by
    refine Ensures.mapM_lasting (R := fun t part (w : Watched (Recorded K)) =>
      AreRecordsOf engine g g₀ d path states t part w.part)
      (fun t _ => ensures_areRecordsOf_updateStage hg hspares t)
      (List.pairwise_reverse.2 (List.pairwise_lt_range.imp fun ht part => ?_))
    exact (keeps_areRecordsOf_updateStage hg hspares ht part).weaken (fun _ hw => hw.1)
      (fun _ _ => id) fun _ _ => trivial
  exact (hparts.bind fun parts => ensures_pure fun v hv => ⟨⟨parts, rfl, hv.1⟩, hv.2⟩).weaken
    (fun v hv => hv ▸ hw) (fun _ _ => id) fun _ => id

end Pass

/-- All cuts of a backward pass are tight in the graph that the pass leaves, and have their rows there: a pass
that succeeds gives one record for each rib of the node that the path visits at a stage, from the last
but one stage to the first, and what lies behind this node is worth what the cut says, at the state that was
handed in for the stage, if it is aggregated in the end. -/
theorem cuts_stay_tight {b : Builder K} {unbuilt : PolicyGraph K}
    (hbuild : PolicyGraph.build b unbuilt = .ok () g₀) (hreach : Reaches g₀ g)
    (hexact : engine.IsExact) (hreliable : engine.IsReliable) (hspares : engine.Spares g.retry)
    {i : Monitor} {log : CutFile.Log} {records : List (CutRecord K)} {w : Watched (Recorded K)}
    (h : backward engine path states iteration ⟨i, ⟨g, log⟩⟩ = .ok records w) :
    ∃ parts, records = parts.flatten ∧ List.Forall₂ (fun (t : ℕ) part => ∃ m state n,
      itemAt (K := K) path t = .ok m ∧ itemAt (K := K) states t = .ok state ∧
      w.part.graph.node t m = .ok n ∧
      List.Forall₂ (fun rib (r : CutRecord K) => r.stage = t ∧ r.markov = n.markov ∧
        (0 ≤ m → r.markov = m) ∧ r.rib = rib ∧ w.part.graph.IsTight engine state r)
        n.costToGo.ribs part)
      (List.range (g.stages - 1)).reverse parts := by
  have hg : g.IsSound := (isSound_build hbuild).of_reaches hreach
  obtain ⟨d, hshows⟩ := exists_showsCuts_reached hbuild
  have hstart : Holds g.frame (Displays g g₀ d) g :=
    ⟨rfl, fun t k n hn => ⟨(Grows.refl g).nodes t k n hn, (hshows g hreach).nodes t k n hn⟩⟩
  obtain ⟨⟨parts, hrecords, hparts⟩, hend⟩ :=
    (ensures_areRecordsOf_backward hg hspares).of_ok (s := ⟨i, ⟨g, log⟩⟩) hstart h
  refine ⟨parts, hrecords, hparts.imp ?_⟩
  rintro _ part ⟨m, state, n, hm, hstate, rfl, hgrown, hplace, hpart⟩
  obtain ⟨n₀, hn₀, hext⟩ := hgrown
  have hsome : (w.part.graph.nodeAt n.stage n.markov).isSome := by
    rw [isSome_nodeAt_of_frame hend.frame, hn₀]
    rfl
  obtain ⟨n', hn'⟩ := Option.isSome_iff_exists.1 hsome
  obtain ⟨n₁, hn₁, hext'⟩ := (hend.nodes _ _ n' hn').1
  obtain rfl := Option.some.inj (hn₀.symm.trans hn₁)
  obtain ⟨p, pools, installed, price, -, hfrom⟩ :=
    Node.exists_of_outline (hext'.outline.trans hext.outline.symm)
  have hribs : n'.costToGo.ribs = n.costToGo.ribs := by rw [hfrom]; rfl
  have hnode := hplace w.part.graph n' hend.frame hn'
  refine ⟨m, state, n', hm, hstate, hnode, ?_⟩
  rw [hribs]
  refine hpart.imp ?_
  rintro rib r ⟨hstage, hmarkov, hrib, hbacked⟩
  refine ⟨hstage, by rw [hmarkov, hfrom], fun hm => ?_, hrib,
    hbacked.isTight hspares hexact hreliable ⟨n₀, hn₀, hext⟩ hstage hmarkov hn'⟩
  obtain ⟨i, j, hat, -, hj⟩ := exists_of_node hnode
  obtain ⟨k, rfl⟩ := Int.eq_ofNat_of_zero_le hm
  have hopen := (hend.nodes i j n' hat).2.isOpen
  rw [hmarkov, ← hj k rfl, ← hopen.markov, hfrom]

end Recorded

/-! ## A supplier with two demands to meet -/

open PolicyGraph

namespace Supply

/-- Stock is bought at the price one in the first two stages; in the last two a demand has to be met. -/
def relay : Recipe ℚ := fun stage _ =>
  .state "stock" (amount (if stage == 2 then 0 else 1)) (.real 0) .absent ::
    if stage == 0 then []
    else
      [.var "short" (amount 3) .absent,
        .constr "demand" ⟨[("short", 1), (Statement.copyName "stock", 1)], .atLeast, 0⟩
          (.inr [("rhs", .list [.real 1, .real 3])])]

def unbuiltRelay : PolicyGraph ℚ :=
  { stages := 3, sense := .minimize, knownBound := .whole 0, transitions := .trivial 3,
    template := .single .keepAll }

def relayer : Builder ℚ := ⟨some 3, relay, relay⟩

def relayed : PolicyGraph ℚ := final (PolicyGraph.build relayer) unbuiltRelay

theorem build_relayed : PolicyGraph.build relayer unbuiltRelay = .ok () relayed := by
  have hsucceeds : succeeds (PolicyGraph.build relayer) unbuiltRelay = true := by decide +kernel
  exact eq_ok_final hsucceeds

/-- What is short is bought, and stock for the next demand as far as a cut asks for it. -/
def replenish (read : Cell → Option ℚ) : Array ℚ × Array ℚ :=
  let demand := (read (.rhs 0)).getD 0
  let stock := (read (.rhs 1)).getD 0
  let price := if stock < demand then 3 else 0
  (#[2 / 3 * (read (.rhs 2)).getD 0, stock, max 0 (demand - stock)], #[price, -price, 2 / 3])

def replenisher : Engine ℚ := .certified fun _ p => replenish p.read

end Supply

/-- From a stock of one, what lies behind each of the two stages is expected to cost three more. -/
theorem Recorded.cuts_stay_tight_relay :
    let states := [[1], [1], [0]]
    let pass := Recorded.backward Supply.replenisher [0, 0, 0] states none
    let w := final pass ⟨{}, ⟨Supply.relayed, {}⟩⟩
    (PolicyGraph.build Supply.relayer Supply.unbuiltRelay = .ok () Supply.relayed ∧
      Reaches Supply.relayed Supply.relayed ∧ Supply.replenisher.IsExact ∧
      Supply.replenisher.IsReliable ∧ Supply.replenisher.Spares Supply.relayed.retry) ∧
    ∃ records, pass ⟨{}, ⟨Supply.relayed, {}⟩⟩ = .ok records w ∧
      records.map (fun r => (r.stage, r.cut.evaluate [1])) = [(1, 3), (0, 6)] ∧
      ∀ r ∈ records, w.part.graph.IsTight Supply.replenisher [1] r := by
  intro states pass w
  have hretry : Supply.relayed.retry.isNone = true := by decide +kernel
  have hspares : Supply.replenisher.Spares Supply.relayed.retry := by
    rw [Option.isNone_iff_eq_none.1 hretry]
    exact Or.inl (by simp)
  have hvalues : ((attempt pass ⟨{}, ⟨Supply.relayed, {}⟩⟩).1.toOption.any fun records =>
      records.map (fun r => (r.stage, r.cut.evaluate [1])) == [(1, 3), (0, 6)]) = true := by
    decide +kernel
  obtain ⟨records, hrun, hvalues⟩ := exists_eq_ok_of_any hvalues
  have hexact : Supply.replenisher.IsExact := Engine.isExact_certified
  have hreliable : Supply.replenisher.IsReliable := Engine.isReliable_certified _
  obtain ⟨parts, rfl, hparts⟩ :=
    Recorded.cuts_stay_tight Supply.build_relayed (.refl _) hexact hreliable hspares hrun
  refine ⟨⟨Supply.build_relayed, .refl _, hexact, hreliable, hspares⟩, _, hrun,
    by simpa using hvalues, fun r hr => ?_⟩
  obtain ⟨part, hpart, hr⟩ := List.mem_flatten.1 hr
  obtain ⟨t, ht, m, state, n, -, hstate, -, hrecords⟩ := exists_left_of_forall₂ hparts hpart
  obtain ⟨rib, -, -, -, -, -, htight⟩ := exists_left_of_forall₂ hrecords hr
  have hstages : Supply.relayed.stages = 3 := by decide +kernel
  rw [hstages] at ht
  have ht : t ≤ 1 := by simpa using ht
  obtain rfl | rfl : t = 1 ∨ t = 0 := by omega
  · obtain rfl : [1] = state := Except.ok.inj hstate
    exact htight
  · obtain rfl : [1] = state := Except.ok.inj hstate
    exact htight

/-! ## A trader who is told what to trade -/

namespace Trade

/-- A stock is handed on. Then a quantity is bought or sold, at the price one. -/
def recipe : Recipe ℚ := fun stage _ =>
  .state "stock" ⟨0, 10, 0, "C"⟩ (.real 0) .absent ::
    if stage == 0 then [] else [.var "quantity" (Supply.amount 0) (.list [.real 1, .real (-1)])]

def unbuilt : PolicyGraph ℚ :=
  { stages := 2, sense := .minimize, knownBound := .whole (-100), transitions := .trivial 2,
    template := .single .keepAll }

def builder : Builder ℚ := ⟨some 3, recipe, recipe⟩

def built : PolicyGraph ℚ := final (PolicyGraph.build builder) unbuilt

theorem build_built : PolicyGraph.build builder unbuilt = .ok () built := by
  have hsucceeds : succeeds (PolicyGraph.build builder) unbuilt = true := by decide +kernel
  exact eq_ok_final hsucceeds

/-- Who finds that no quantity is the best one to sell is told to trade at least one and at most five. -/
def graph : PolicyGraph ℚ := built.setRetry <| some
  { answer := true
    actions := [.lower "quantity" (.constant (.real 1)), .upper "quantity" (.constant (.real 5))] }

/-- Buys as little and sells as much as possible. -/
def haggle (read : Cell → Option ℚ) : Array ℚ × Array ℚ :=
  let quantity := if (read (.cost 2)).getD 0 < 0 then read (.upper 2) else read (.lower 2)
  (#[0, (read (.rhs 0)).getD 0, quantity.getD 0], #[0])

def haggler : Engine ℚ := (Engine.certified fun _ p => haggle p.read).orUnbounded

/-- A backward pass from a stock of three. -/
def pass : Run ℚ (Recorded ℚ) (List (CutRecord ℚ)) :=
  Recorded.backward haggler [0, 0] [[3], [3]] none

/-- The graph after the pass. -/
def traded : Watched (PolicyGraph ℚ) :=
  let w := final pass ⟨{}, ⟨graph, {}⟩⟩
  ⟨w.monitor, w.part.graph⟩

end Trade

/-- A retry that narrows a program once it was asked slackens a cut: it was generated while nothing had to be
bought, and afterwards something has to. -/
theorem Recorded.cuts_slacken_trade :
    (PolicyGraph.build Trade.builder Trade.unbuilt = .ok () Trade.built ∧
      Reaches Trade.built Trade.graph ∧ Trade.graph.measure = .expectation ∧ Trade.haggler.IsExact ∧
      Trade.haggler.IsReliable) ∧
    ∃ r w n v, Trade.pass ⟨{}, ⟨Trade.graph, {}⟩⟩ = .ok [r] w ∧ r.stage = 0 ∧ r.markov = 0 ∧
      r.rib = none ∧ r.cut.evaluate [3] = -5 / 2 ∧ w.part.graph.node 0 0 = .ok n ∧
      expectedValue Trade.haggler n (some [3]) none ⟨w.monitor, w.part.graph⟩ = .ok (-2) v := by
  obtain ⟨nodes, hnodes, -⟩ := PolicyGraph.build_eq_ok Trade.build_built
  have hmeasure : Trade.graph.measure = .expectation := by
    show Trade.built.measure = .expectation
    rw [hnodes]
    rfl
  have hrecords : ((attempt Trade.pass ⟨{}, ⟨Trade.graph, {}⟩⟩).1.toOption.any fun records =>
      records.map (fun r => (r.stage, r.markov, r.rib, r.cut.evaluate [3])) ==
        [(0, 0, none, -5 / 2)]) = true := by decide +kernel
  obtain ⟨records, hrun, hrecords⟩ := exists_eq_ok_of_any hrecords
  obtain ⟨r, rfl, hr⟩ := List.map_eq_singleton_iff.1 (eq_of_beq hrecords)
  obtain ⟨hstage, hmarkov, hrib, hvalue⟩ : r.stage = 0 ∧ r.markov = 0 ∧ r.rib = none ∧
      r.cut.evaluate [3] = -5 / 2 := by simpa using hr
  have hagain : ((attempt (do
      let n ← Step.ofExcept (Trade.traded.part.node 0 0)
      return (n, ← expectedValue Trade.haggler n (some [3]) none)) Trade.traded).1.toOption.any
        fun nv => nv.2 == -2) = true := by decide +kernel
  obtain ⟨⟨n, value⟩, hagain, hsame⟩ := exists_eq_ok_of_any hagain
  obtain ⟨n', w, hlookup, hagain⟩ := bind_eq_ok.1 hagain
  obtain ⟨hn, rfl⟩ := ofExcept_eq_ok.1 hlookup
  obtain ⟨value', w', hvalue', hagain⟩ := bind_eq_ok.1 hagain
  cases hagain
  obtain rfl : value = -2 := eq_of_beq hsame
  exact ⟨⟨Trade.build_built, .tail (.refl _) (.retry _), hmeasure, Engine.isExact_certified.orUnbounded,
    (Engine.isReliable_certified Trade.haggle).orUnbounded⟩, r, _, n, _, hrun, hstage, hmarkov, hrib,
    hvalue, hn, hvalue'⟩

end DualDynamic
