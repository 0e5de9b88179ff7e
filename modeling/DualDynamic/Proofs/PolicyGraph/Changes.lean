import DualDynamic.Proofs.PolicyGraph.Open

/-!
# What becomes of a graph

A graph that was built is set up and solved, takes in cuts, has its nodes rebuilt and is given another
measure or another retry (`Changes`), one after the other and in any order (`Reaches`). A step that fails
half way counts with what it has done.

None of this ends a property of nodes that looks at their data and at the shape of their cuts only
(`IsLasting`), nor does it touch the design of the graph. So what building ensures of every node is true of
all graphs that come about.
-/

namespace DualDynamic

open Step

variable {K : Type} [Numeral K]

namespace PolicyGraph

/-- What may happen to a graph at a time. -/
inductive Changes (g : PolicyGraph K) : PolicyGraph K → Prop
  | measure (m : RiskMeasure K) : Changes g { g with measure := m }
  | retry (r : Option (Retry K)) : Changes g (g.setRetry r)
  | bound (x : Option K) : Changes g { g with bound := x }
  /-- A simulation, an evaluation, a bound that is computed or a cut that is generated. -/
  | solve {A : Type} {engine : Engine K} {x : Run K (PolicyGraph K) A} (k : Monitor) :
      IsSolving engine x → Changes g (final x ⟨k, g⟩).part
  | install (stage markov : ℤ) (rib : Option K) (cut : Cut K) (state : Option (Datum K)) :
      Changes g (final (installCut stage markov rib cut state) g)
  | rebuild {n : Node K} : n ∈ g.allNodes → Changes g (final (rebuild n) g)
  | clean : Changes g (final clean g)

/-- The graph `g` may become of the graph `g₀`. -/
def Reaches (g₀ g : PolicyGraph K) : Prop := Relation.ReflTransGen Changes g₀ g

/-- What stays of a graph: all but measure, retry and bound, and how many nodes there are in each stage. -/
def design (g : PolicyGraph K) : PolicyGraph K × List ℕ :=
  ({ g with nodes := [], bound := none, measure := .expectation, retry := none },
    g.nodes.map List.length)

variable {g g' g₀ : PolicyGraph K} {n n' : Node K} {J : ℕ → ℕ → Node K → Prop}

theorem Reaches.refl (g : PolicyGraph K) : Reaches g g := Relation.ReflTransGen.refl

theorem Reaches.tail (h : Reaches g₀ g) (hchange : Changes g g') : Reaches g₀ g' :=
  Relation.ReflTransGen.tail h hchange

omit [Numeral K] in
theorem design_of_frame (h : g'.frame = g.frame) : g'.design = g.design :=
  congrArg (fun F : PolicyGraph K × List ℕ =>
    (({ F.1 with measure := .expectation, retry := none } : PolicyGraph K), F.2)) h

omit [Numeral K] in
theorem design_setRetry (g : PolicyGraph K) (r : Option (Retry K)) : (g.setRetry r).design = g.design := by
  have hlengths : (g.setRetry r).nodes.map List.length = g.nodes.map List.length := by
    simp [setRetry]
  exact Prod.ext rfl hlengths

omit [Numeral K] in
theorem nodeAt_setRetry (g : PolicyGraph K) (r : Option (Retry K)) (t k : ℕ) :
    (g.setRetry r).nodeAt t k =
      (g.nodeAt t k).map fun n => { n with model := { n.model with retry := r } } := by
  simp only [nodeAt, setRetry, List.getElem?_map]
  cases g.nodes[t]? <;> simp

/-- A property of nodes that nothing ends that happens to a graph. -/
structure IsLasting (J : ℕ → ℕ → Node K → Prop) : Prop where
  steady : ∀ engine, Steady engine J
  accepts : Accepts (fun _ _ _ => True) J
  rebuilt : ∀ {g : PolicyGraph K} {t k n n'}, J t k n → g.rebuilt n = .ok n' → J t k n'
  retry : ∀ {t k n} (r : Option (Retry K)), J t k n → J t k { n with model := { n.model with retry := r } }

/-- A change keeps the design of a graph, and properties of its nodes that last. -/
theorem IsLasting.of_changes (hJ : IsLasting J) (hg : Holds g.frame J g) (h : Changes g g') :
    Holds g'.frame J g' ∧ g'.design = g.design := by
  have hkept : ∀ {g' : PolicyGraph K}, Holds g.frame J g' →
      Holds g'.frame J g' ∧ g'.design = g.design := fun hg' =>
    ⟨⟨rfl, hg'.nodes⟩, design_of_frame hg'.frame⟩
  cases h with
  | measure m => exact ⟨⟨rfl, hg.nodes⟩, rfl⟩
  | retry r =>
    refine ⟨⟨rfl, fun t k n hn => ?_⟩, design_setRetry g r⟩
    rw [nodeAt_setRetry] at hn
    obtain ⟨m, hm, rfl⟩ := Option.map_eq_some_iff.1 hn
    exact hJ.retry r (hg.nodes t k m hm)
  | bound x => exact ⟨⟨rfl, hg.nodes⟩, rfl⟩
  | solve k hx => exact hkept ((hx g.frame J (hJ.steady _)).final hg)
  | install stage markov rib cut state =>
    exact hkept ((keeps_installCut hJ.accepts (fun _ _ _ _ => trivial) rib state).final hg)
  | rebuild hn =>
    obtain ⟨t, k, hplace⟩ := mem_allNodes.1 hn
    exact hkept ((keeps_rebuild_of_rebuilt hJ.accepts.placed fun _ _ _ hrebuilt =>
      hJ.rebuilt (hg.nodes t k _ hplace) hrebuilt).final hg)
  | clean =>
    exact hkept ((keeps_clean_of_rebuilt hJ.accepts.placed fun _ _ _ _ _ hn _ hrebuilt =>
      hJ.rebuilt hn hrebuilt).final hg)

/-- And so do all changes that follow each other. -/
theorem IsLasting.of_reaches (hJ : IsLasting J) (hg₀ : Holds g₀.frame J g₀) (h : Reaches g₀ g) :
    Holds g.frame J g ∧ g.design = g₀.design := by
  induction h with
  | refl => exact ⟨hg₀, rfl⟩
  | tail _ hchange ih =>
    obtain ⟨hg, hdesign⟩ := ih
    obtain ⟨hg', hdesign'⟩ := hJ.of_changes hg hchange
    exact ⟨hg', hdesign'.trans hdesign⟩

/-- Whatever a graph was reached from, it still is when records are replayed. -/
theorem keeps_reaches_replay (records : List (CutRecord K)) :
    Keeps (Reaches g₀) (replay records) := by
  induction records with
  | nil => exact keeps_pure _
  | cons r records ih =>
    have hinstall : Keeps (Reaches g₀) (installRecord r) := keeps_iff_final.2 fun g hg =>
      Reaches.tail hg (.install r.stage r.markov r.rib r.cut none)
    exact hinstall.bind fun _ => ih.bind fun _ => keeps_pure _

theorem keeps_reaches_readCuts (path text : String) : Keeps (Reaches g₀) (readCuts path text) := by
  refine (keeps_reaches_replay _).bind fun _ => ?_
  split
  · exact keeps_throw _
  · exact keeps_pure _

/-! ## Open nodes -/

theorem isLasting_isOpen (g : PolicyGraph K) (d : ℕ) : IsLasting (Node.IsOpen g d) where
  steady _ := steady_isOpen g d
  accepts := accepts_isOpen g d
  rebuilt hn h := isOpen_rebuilt hn h
  retry _ hn := hn.of_bare rfl hn.states hn.stateCount

end PolicyGraph

/-! ## Nodes that keep their cuts -/

/-- A node that stands where it belongs and whose cuts never retire. -/
structure Node.KeepsCuts (t k : ℕ) (n : Node K) : Prop where
  stage : n.stage = t
  markov : n.markov = k
  prunes : n.costToGo.prunes = false

namespace PolicyGraph

variable {g g' g₀ : PolicyGraph K}

theorem isLasting_keepsCuts : IsLasting (Node.KeepsCuts (K := K)) where
  steady _ := steady_of_ignoring (fun _ _ _ h => ⟨h.stage, h.markov⟩) fun _ _ _ _ _ h _ => { h with }
  accepts := {
    placed := fun _ _ _ h => ⟨h.stage, h.markov⟩
    installCut := fun {_ _ n _ _ _ _ _} hn _ h => by
      obtain ⟨v, m, -, hinstall, rfl⟩ := Node.installCut_eq_ok.1 h
      obtain ⟨i, pool, pool', installed, -, -, rfl, -⟩ := CostToGo.changes_installCut hinstall
      exact { hn with } }
  rebuilt {_ _ _ n _} hn h := by
    obtain ⟨b, m, -, hm, -, rfl⟩ := rebuilt_eq_ok h
    obtain ⟨rows, hlinked⟩ := isLinked_newModel hm
    split_ifs
    · exact { hn with }
    · have hselection := (isSound_rebuild (v := n.costToGo) hlinked.isRegular).1
      exact ⟨hn.stage, hn.markov, (congrArg Selection.prunes hselection).trans hn.prunes⟩
  retry _ hn := { hn with }

/-- In a graph that was built to keep its cuts there is never anything to remove. -/
theorem clean_of_reaches {b : Builder K} (hbuild : build b g = .ok () g₀)
    (hkeep : g.template.prunes = false) (h : Reaches g₀ g') : clean g' = .ok () g' := by
  have hstart : Holds g₀.frame Node.KeepsCuts g₀ := by
    have hsound := isSound_build hbuild
    obtain ⟨nodes, hbuilt, -, -⟩ := build_eq_ok hbuild
    have htemplate : g₀.template = g.template := by rw [hbuilt]
    refine ⟨rfl, fun t k n hn => ?_⟩
    obtain ⟨hstage, hmarkov, -, hselection, -, -⟩ := hsound.nodes t k n hn
    refine ⟨hstage, hmarkov, ?_⟩
    rw [CostToGo.prunes, hselection]
    exact (congrArg CostToGo.prunes htemplate).trans hkeep
  have hnodes := (isLasting_keepsCuts.of_reaches hstart h).1.nodes
  refine clean_of_forall fun n hn => ?_
  obtain ⟨t, k, hplace⟩ := mem_allNodes.1 hn
  exact (hnodes t k n hplace).prunes

end PolicyGraph

end DualDynamic
