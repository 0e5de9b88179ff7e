import DualDynamic.Proofs.CutRecord
import DualDynamic.Proofs.CutRecord.File
import DualDynamic.Proofs.PolicyGraph.Open
import DualDynamic.Proofs.Training

/-!
# What a training records

A training writes every cut before it puts it into its graph, whether the cut comes from a backward pass
of its own or from a worker, and no cut that was written is refused. So at any time the file holds just
the records that the graph has taken in (`Trainer.IsTrace`), however the training goes and wherever it
is broken off.

Read into another graph from the same builder, the file therefore gives every rib of every node the cuts
that are stored there, in the same order (`readCuts_reproduces`).
-/

namespace DualDynamic

open Step PolicyGraph

variable {K A : Type} [Numeral K] {engine : Engine K}

namespace PolicyGraph

/-- The step leaves open nodes open and what the graph stores as it is. -/
def IsQuiet (g : PolicyGraph K) (d : ℕ) (x : Run K (PolicyGraph K) A) : Prop :=
  ∀ b, Keeps (fun w => Holds g.frame (Node.IsOpen g d) w.part ∧ w.part.bare = b) x

variable {g : PolicyGraph K} {d : ℕ}

omit [Numeral K] in
theorem isQuiet_of_isSettled {x : Run K (PolicyGraph K) A}
    (hopen : Keeps (fun w => Holds g.frame (Node.IsOpen g d) w.part) x)
    (hbare : ∀ b, Keeps (fun w => w.part.IsSettled ∧ w.part.bare = b) x) : IsQuiet g d x := by
  intro b
  refine (hopen.and (hbare b)).weaken (fun w hw => ⟨hw.1, ?_, hw.2⟩)
    (fun _ w hw => ⟨hw.1, hw.2.2⟩) fun w hw => ⟨hw.1, hw.2.2⟩
  exact isSettled_of_holds (Node.isPlaced_isOpen g d) hw.1

/-- Setting nodes up and solving them is quiet. -/
theorem IsSolving.isQuiet {x : Run K (PolicyGraph K) A} (hx : IsSolving engine x) : IsQuiet g d x :=
  isQuiet_of_isSettled (hx g.frame (Node.IsOpen g d) (steady_isOpen g d)) hx.keeps_bare

/-- So is the removal of retired cuts. -/
theorem isQuiet_clean : IsQuiet g d (Run.ofStep clean) :=
  isQuiet_of_isSettled (Run.keeps_ofStep fun _ _ => keeps_isOpen_clean)
    fun b => Run.keeps_ofStep fun _ _ => keeps_bare_clean b

end PolicyGraph

/-! ## Graphs with a cut file -/

namespace Recorded

/-- The graph has come from `g` by taking in the records, and is open to cuts about `d` state variables.
If `W` holds, then all records have been written. -/
structure IsTrace (g : PolicyGraph K) (d : ℕ) (W : Prop) (records : List (CutRecord K))
    (s : Recorded K) : Prop where
  taken : HasTaken g records s.graph
  nodes : Holds g.frame (Node.IsOpen g d) s.graph
  written : W → s.log.isOpen = true ∧ s.log.text = CutFile.textOf records

/-- The graph has taken in the records, and some more after them. -/
def IsTraced (g : PolicyGraph K) (d : ℕ) (W : Prop) (records : List (CutRecord K))
    (s : Recorded K) : Prop := ∃ more, records <+: more ∧ IsTrace g d W more s

variable {g : PolicyGraph K} {d : ℕ} {W : Prop} {records : List (CutRecord K)}

theorem IsTrace.isTraced {s : Recorded K} (h : s.IsTrace g d W records) : s.IsTraced g d W records :=
  ⟨records, List.prefix_rfl, h⟩

theorem IsTraced.of_longer {s : Recorded K} {more : List (CutRecord K)} (h : s.IsTraced g d W more)
    (hmore : records <+: more) : s.IsTraced g d W records := by
  obtain ⟨all, hall, htrace⟩ := h
  exact ⟨all, hmore.trans hall, htrace⟩

/-- Results that come with records, of which each is taken in. -/
theorem ensures_isTrace_mapM {B : Type} (left : B → List (CutRecord K)) {items : List A}
    {f : A → Run K (Recorded K) B}
    (h : ∀ a ∈ items, ∀ records, Ensures (fun w => IsTrace g d W records w.part) (f a)
      (fun b w => (∀ r ∈ left b, g.Fits d r) ∧ IsTrace g d W (records ++ left b) w.part)
      fun w => IsTraced g d W records w.part) (records : List (CutRecord K)) :
    Ensures (fun w => IsTrace g d W records w.part) (items.mapM f)
      (fun bs w => (∀ r ∈ bs.flatMap left, g.Fits d r) ∧
        IsTrace g d W (records ++ bs.flatMap left) w.part)
      fun w => IsTraced g d W records w.part := by
  have hall := Ensures.mapM_append left (R := fun b => ∀ r ∈ left b, g.Fits d r)
    (J := fun more (w : Watched (Recorded K)) => records <+: more ∧ IsTrace g d W more w.part)
    (E := fun w => IsTraced g d W records w.part) (f := f)
    (fun a (ha : a ∈ items) more => ensures_iff.2 fun w hw => ?_) records
  · refine hall.weaken (fun w hw => ⟨List.prefix_rfl, hw⟩) (fun bs w hw => ⟨fun r hr => ?_, hw.2.2⟩)
      fun _ => id
    obtain ⟨b, hb, hr⟩ := List.mem_flatMap.1 hr
    exact hw.1 b hb r hr
  · obtain ⟨hlonger, hw⟩ := hw
    obtain ⟨hok, herror⟩ := ensures_iff.1 (h a ha more) w hw
    refine ⟨fun b v hv => ?_, fun e v hv => (herror e v hv).of_longer hlonger⟩
    exact ⟨(hok b v hv).1, hlonger.trans (List.prefix_append ..), (hok b v hv).2⟩

theorem IsTrace.written_write {s : Recorded K} (h : s.IsTrace g d W records) (r : CutRecord K) :
    W → (s.log.write r).isOpen = true ∧ (s.log.write r).text = CutFile.textOf (records ++ [r]) := by
  intro hW
  obtain ⟨hopen, htext⟩ := h.written hW
  rw [CutFile.Log.write, if_pos hopen, CutFile.textOf_concat, htext]
  exact ⟨hopen, rfl⟩

/-- A quiet step takes in nothing. -/
theorem keeps_isTrace_onGraph {x : Run K (PolicyGraph K) A} (hx : IsQuiet g d x) :
    Keeps (fun w => IsTrace g d W records w.part) (onGraph x) := by
  refine Run.keeps_within fun w hw => ⟨fun v => Holds g.frame (Node.IsOpen g d) v.part ∧
    v.part.bare = w.part.graph.bare, ⟨hw.nodes, rfl⟩, hx _, fun v hv => ?_⟩
  exact ⟨hw.taken.of_bare hv.2, hv.1, hw.written⟩

/-- A record that is written and put into the graph. -/
theorem IsTrace.install {s : Recorded K} (h : s.IsTrace g d W records) {r : CutRecord K}
    {state : Option (Datum K)} {new : Bool} {graph : PolicyGraph K}
    (hinstall : PolicyGraph.installCut r.stage r.markov r.rib r.cut state s.graph = .ok new graph) :
    IsTrace g d W (records ++ [r]) ⟨graph, s.log.write r⟩ where
  taken := h.taken.trans (.of_installCut r hinstall)
  nodes := (keeps_installCut (accepts_isOpen g d) (fun _ _ _ _ => trivial) r.rib state).of_ok h.nodes
    hinstall
  written := h.written_write r

section Backward

variable (hribs : g.HasRibs)
include hribs

/-- A generated cut is written, and it is not refused. -/
theorem ensures_isTrace_updateRib {t k : ℕ} {n : Node K} (hn : n.IsOpen g d t k)
    (hplace : (g.nodeAt t k).isSome) (hlast : t + 1 ≠ g.stages) {state : List K}
    (hstate : state.length = d) (iteration : Option ℤ) {rib : Option K} (hrib : rib ∈ n.costToGo.ribs) :
    Ensures (fun w => IsTrace g d W records w.part) (updateRib engine n state iteration rib)
      (fun r w => g.Fits d r ∧ IsTrace g d W (records ++ [r]) w.part)
      fun w => IsTrace g d W records w.part := by
  have hgenerate : Ensures (fun w => IsTrace g d W records w.part)
      (onGraph (PolicyGraph.generateCut engine n state rib iteration))
      (fun cut w => (cut.dimension = d ∧ cut.side = g.sense.cutSide) ∧ IsTrace g d W records w.part)
      fun w => IsTrace g d W records w.part := by
    have hquiet : IsSolving engine (PolicyGraph.generateCut engine n state rib iteration) :=
      isSolving_generateCut n state rib iteration
    have hkeeps : Keeps (fun w => IsTrace g d W records w.part)
        (onGraph (PolicyGraph.generateCut engine n state rib iteration)) :=
      keeps_isTrace_onGraph hquiet.isQuiet
    rw [Keeps, ensures_iff] at hkeeps
    refine ensures_iff.2 fun w hw => ⟨fun cut v hv => ⟨?_, (hkeeps w hw).1 cut v hv⟩,
      (hkeeps w hw).2⟩
    obtain ⟨u, hu, -⟩ := Run.within_eq_ok.1 hv
    obtain ⟨hdimension, hside⟩ := dimension_generateCut hu
    have hsense : w.part.graph.sense = g.sense := congrArg (fun F => F.1.sense) hw.nodes.frame
    exact ⟨hdimension.trans hstate, hsense ▸ hside⟩
  refine hgenerate.bind fun cut w hw => ?_
  obtain ⟨⟨hdimension, hside⟩, hw⟩ := hw
  have hfits : g.Fits d ⟨n.stage, n.markov, rib, cut⟩ := {
    place := ⟨t, k, by rw [hn.stage], by rw [hn.markov], hplace, hlast⟩
    rib := by rwa [CostToGo.ribs, hn.pricing] at hrib
    dimension := hdimension
    side := hside }
  obtain ⟨new, graph, hinstall⟩ := exists_installCut hw.nodes hribs hfits
    (some (.list (state.map .real))) fun s hs => ⟨state, hstate, (Option.some.inj hs).symm⟩
  have hput : onGraph (Run.ofStep (PolicyGraph.installCut n.stage n.markov rib cut
      (some (.list (state.map .real))))) { w with part :=
        { w.part with log := w.part.log.write ⟨n.stage, n.markov, rib, cut⟩ } } =
      .ok new ⟨w.monitor, ⟨graph, w.part.log.write ⟨n.stage, n.markov, rib, cut⟩⟩⟩ :=
    Run.within_eq_ok.2 ⟨_, Run.ofStep_eq_ok.2 ⟨graph, hinstall, rfl⟩, rfl⟩
  have hrun : (write ⟨n.stage, n.markov, rib, cut⟩ >>= fun _ =>
      onGraph (Run.ofStep (PolicyGraph.installCut n.stage n.markov rib cut
        (some (.list (state.map .real))))) >>= fun _ =>
          pure (⟨n.stage, n.markov, rib, cut⟩ : CutRecord K)) w =
      .ok ⟨n.stage, n.markov, rib, cut⟩
        ⟨w.monitor, ⟨graph, w.part.log.write ⟨n.stage, n.markov, rib, cut⟩⟩⟩ :=
    bind_eq_ok.2 ⟨(), _, rfl, bind_eq_ok.2 ⟨new, _, hput, rfl⟩⟩
  rw [hrun]
  exact ⟨hfits, hw.install hinstall⟩

theorem ensures_isTrace_update {t k : ℕ} {n : Node K} (hn : n.IsOpen g d t k)
    (hplace : (g.nodeAt t k).isSome) (hlast : t + 1 ≠ g.stages) {state : List K}
    (hstate : state.length = d) (iteration : Option ℤ) :
    Ensures (fun w => IsTrace g d W records w.part) (update engine n state iteration)
      (fun rs w => (∀ r ∈ rs, g.Fits d r) ∧ IsTrace g d W (records ++ rs) w.part)
      fun w => IsTraced g d W records w.part := by
  have hone : ∀ rib ∈ n.costToGo.ribs, ∀ records, Ensures (fun w => IsTrace g d W records w.part)
      (updateRib engine n state iteration rib)
      (fun r w => (∀ s ∈ [r], g.Fits d s) ∧ IsTrace g d W (records ++ [r]) w.part)
      fun w => IsTraced g d W records w.part := by
    intro rib hrib records
    refine (ensures_isTrace_updateRib hribs hn hplace hlast hstate iteration hrib).weaken (fun _ => id)
      (fun r w hw => ⟨?_, hw.2⟩) fun _ hw => hw.isTraced
    exact List.forall_mem_singleton.2 hw.1
  have hall := ensures_isTrace_mapM (fun r => [r]) hone records
  have hleft : ∀ rs : List (CutRecord K), rs.flatMap (fun r => [r]) = rs := by simp
  simp only [hleft] at hall
  exact hall

theorem ensures_isTrace_updateStage (path : List ℤ) {states : List (List K)}
    (hstates : ∀ x ∈ states, x.length = d) (iteration : Option ℤ) {stage : ℕ}
    (hlast : stage + 1 ≠ g.stages) :
    Ensures (fun w => IsTrace g d W records w.part) (updateStage engine path states iteration stage)
      (fun rs w => (∀ r ∈ rs, g.Fits d r) ∧ IsTrace g d W (records ++ rs) w.part)
      fun w => IsTraced g d W records w.part := by
  refine Run.ensures_part_bind fun w hw => ?_
  have hhere : ∀ v, v = w → IsTraced g d W records v.part := fun v hv => hv ▸ hw.isTraced
  refine Ensures.bind (Q := fun n v => (∃ k, w.part.graph.nodeAt stage k = some n) ∧ v = w)
    (ensures_ofExcept (fun n hn v hv => ⟨?_, hv⟩) hhere) fun n => ?_
  · obtain ⟨markov, -, hnode⟩ := exceptBind_eq_ok.1 hn
    obtain ⟨t, k, hplace, ht, -⟩ := exists_of_node hnode
    exact ⟨k, ht stage rfl ▸ hplace⟩
  · refine Ensures.bind (Q := fun x v => (∃ k, w.part.graph.nodeAt stage k = some n) ∧
      x.length = d ∧ v = w) (ensures_ofExcept (fun x hx v hv => ?_) fun v hv => hhere v hv.2)
      fun state => ?_
    · exact ⟨hv.1, hstates x (mem_of_itemAt hx), hv.2⟩
    · rintro v ⟨⟨k, hplace⟩, hstate, rfl⟩
      have hsome : (g.nodeAt stage k).isSome := by
        rw [← isSome_nodeAt_of_frame hw.nodes.frame, hplace]
        rfl
      exact ensures_isTrace_update hribs (hw.nodes.nodes stage k n hplace) hsome hlast hstate iteration
        v hw

/-- A backward pass takes in what it generates. All of it fits. -/
theorem ensures_isTrace_backward (path : List ℤ) {states : List (List K)}
    (hstates : ∀ x ∈ states, x.length = d) (iteration : Option ℤ) :
    Ensures (fun w => IsTrace g d W records w.part) (backward engine path states iteration)
      (fun rs w => (∀ r ∈ rs, g.Fits d r) ∧ IsTrace g d W (records ++ rs) w.part)
      fun w => IsTraced g d W records w.part := by
  refine Run.ensures_part_bind fun w hw => ?_
  have hstages : w.part.graph.stages = g.stages := congrArg (fun F => F.1.stages) hw.nodes.frame
  rw [hstages]
  have hlast : ∀ stage ∈ (List.range (g.stages - 1)).reverse, stage + 1 ≠ g.stages := by
    intro stage hstage
    have := List.mem_range.1 (List.mem_reverse.1 hstage)
    omega
  generalize (List.range (g.stages - 1)).reverse = stages at hlast
  have hone : ∀ stage ∈ stages, ∀ records, Ensures (fun w => IsTrace g d W records w.part)
      (updateStage engine path states iteration stage)
      (fun rs w => (∀ r ∈ id rs, g.Fits d r) ∧ IsTrace g d W (records ++ id rs) w.part)
      fun w => IsTraced g d W records w.part := fun stage hstage records =>
    ensures_isTrace_updateStage hribs path hstates iteration (hlast stage hstage)
  have hall := ensures_isTrace_mapM id hone records
  have hleft : ∀ parts : List (List (CutRecord K)), parts.flatMap id = parts.flatten :=
    fun _ => List.flatMap_id' ..
  simp only [hleft] at hall
  exact Ensures.weaken (hall.bind fun parts => ensures_pure fun _ => id) (fun v hv => hv ▸ hw)
    (fun _ _ => id) fun _ => id

end Backward

end Recorded

/-! ## Trainers -/

namespace Trainer

/-- A property of trainers that does not look at programs, nor at the history. -/
structure Overlooks (engine : Engine K) (J : Trainer K → Prop) : Prop where
  solving : ∀ {A : Type} {x : Run K (PolicyGraph K) A}, IsSolving engine x →
    Keeps (fun w => J w.part) (onGraph x)
  change : ∀ {f : Trainer K → Trainer K}, (∀ t, { (f t).graph with bound := none } =
    { t.graph with bound := none } ∧ (f t).log = t.log ∧ (f t).known = t.known) →
      Keeps (fun w => J w.part) (Run.change f : Run K (Trainer K) Unit)

variable {J : Trainer K → Prop} {plan : TrainingPlan K}

theorem keeps_cleanIfDue (hclean : Keeps (fun w => J w.part) (onGraph (Run.ofStep clean)))
    (every : Option ℤ) (i : ℕ) : Keeps (fun w => J w.part) (cleanIfDue every i) :=
  (keeps_ofExcept _).bind fun _ => Keeps.ite hclean (keeps_pure _)

theorem Overlooks.keeps_finishIteration (hJ : Overlooks engine J) (value : K) :
    Keeps (fun w => J w.part) (finishIteration engine plan value) :=
  keeps_finishIteration_of_parts (hJ.solving isSolving_computeBound)
    (fun bound value time => hJ.change (f := addIteration bound value time) fun _ => ⟨rfl, rfl, rfl⟩)
    (keeps_evaluateIfDue_of_parts (hJ.solving (isSolving_evaluation _)) fun gap =>
      hJ.change (f := fun t => { t with gap := some gap }) fun _ => ⟨rfl, rfl, rfl⟩)
    (fun reason => hJ.change (f := fun t => { t with stopReason := some reason })
      fun _ => ⟨rfl, rfl, rfl⟩) value

/-- The trainer has taken in the records since its graph was `g` and it knew the old ones, and it knows no
others. If `W` holds, then all of them have been written. -/
structure IsTrace (g : PolicyGraph K) (d : ℕ) (W : Prop) (old records : List (CutRecord K))
    (t : Trainer K) : Prop where
  recorded : Recorded.IsTrace g d W records ⟨t.graph, t.log⟩
  known : ∀ r ∈ t.known, r ∈ old ∨ r ∈ records

/-- The trainer has taken in some records since then. -/
def IsTraced (g : PolicyGraph K) (d : ℕ) (W : Prop) (old : List (CutRecord K)) (t : Trainer K) : Prop :=
  ∃ records, IsTrace g d W old records t

variable {g : PolicyGraph K} {d : ℕ} {W : Prop} {old records : List (CutRecord K)}
  {plan : TrainingPlan K}

theorem IsTrace.isTraced {t : Trainer K} (h : t.IsTrace g d W old records) : t.IsTraced g d W old :=
  ⟨records, h⟩

/-- What the numbers of the history are does not matter. -/
theorem IsTrace.same {t t' : Trainer K} (h : t.IsTrace g d W old records) (hbare : t'.graph.bare = t.graph.bare)
    (hnodes : Holds g.frame (Node.IsOpen g d) t'.graph) (hlog : t'.log = t.log)
    (hknown : t'.known = t.known) : t'.IsTrace g d W old records where
  recorded := ⟨h.recorded.taken.of_bare hbare, hnodes, fun hW => hlog ▸ h.recorded.written hW⟩
  known := hknown ▸ h.known

theorem keeps_isTrace_change {f : Trainer K → Trainer K}
    (hf : ∀ t, { (f t).graph with bound := none } = { t.graph with bound := none } ∧
      (f t).log = t.log ∧ (f t).known = t.known) :
    Keeps (fun w => IsTrace g d W old records w.part) (Run.change f : Run K (Trainer K) Unit) := by
  refine Run.keeps_change fun w hw => ?_
  obtain ⟨hgraph, hlog, hknown⟩ := hf w.part
  have hbare := congrArg PolicyGraph.bare hgraph
  have hframe := congrArg PolicyGraph.frame hgraph
  have hnodes := congrArg PolicyGraph.nodes hgraph
  dsimp only at hnodes
  refine hw.same hbare ⟨?_, fun t k n hn => ?_⟩ hlog hknown
  · exact Eq.trans hframe hw.recorded.nodes.frame
  · rw [nodeAt, hnodes] at hn
    exact hw.recorded.nodes.nodes t k n hn

theorem keeps_isTrace_onGraph {x : Run K (PolicyGraph K) A} (hx : IsQuiet g d x) :
    Keeps (fun w => IsTrace g d W old records w.part) (onGraph x) := by
  refine Run.keeps_within fun w hw => ⟨fun v => Holds g.frame (Node.IsOpen g d) v.part ∧
    v.part.bare = w.part.graph.bare, ⟨hw.recorded.nodes, rfl⟩, hx _, fun v hv => ?_⟩
  exact hw.same hv.2 hv.1 rfl rfl

/-! ### Records from elsewhere -/

section Taking

variable (hribs : g.HasRibs)
include hribs

/-- A record that fits is written, put into the graph and known, and nothing fails. -/
theorem ensures_isTrace_installRecord {r : CutRecord K} (hr : g.Fits d r) :
    Ensures (fun w => IsTrace g d W old records w.part) (installRecord r)
      (fun _ w => IsTrace g d W old (records ++ [r]) w.part) fun _ => False := by
  intro w hw
  obtain ⟨new, graph, hinstall⟩ := exists_installCut hw.recorded.nodes hribs hr none (by simp)
  have hput : onGraph (Run.ofStep (PolicyGraph.installRecord r))
      { w with part := { w.part with log := w.part.log.write r } } =
      .ok new ⟨w.monitor, { w.part with graph, log := w.part.log.write r }⟩ :=
    Run.within_eq_ok.2 ⟨_, Run.ofStep_eq_ok.2 ⟨graph, hinstall, rfl⟩, rfl⟩
  have hrun : installRecord r w = .ok () ⟨w.monitor, { w.part with
      graph, log := w.part.log.write r, known := CutRecord.learn w.part.known r }⟩ :=
    bind_eq_ok.2 ⟨(), _, rfl, bind_eq_ok.2 ⟨new, _, hput, rfl⟩⟩
  rw [hrun]
  refine ⟨hw.recorded.install hinstall, fun s hs => ?_⟩
  rcases CutRecord.mem_of_mem_learn hs with hs | rfl
  · exact (hw.known s hs).imp_right fun hmem => List.mem_append_left _ hmem
  · simp

theorem ensures_isTrace_installRecords {more : List (CutRecord K)} (hmore : ∀ r ∈ more, g.Fits d r) :
    Ensures (fun w => IsTrace g d W old records w.part) (installRecords more)
      (fun fresh w => (∀ r ∈ fresh, g.Fits d r) ∧ IsTrace g d W old (records ++ fresh) w.part)
      fun _ => False := by
  refine Run.ensures_part_bind fun w hw => ?_
  have hfresh : ∀ r ∈ CutRecord.fresh more w.part.known, g.Fits d r :=
    fun r hr => hmore r (CutRecord.mem_of_mem_fresh hr).1
  have hall := Ensures.each_append
    (J := fun records (w : Watched (Trainer K)) => IsTrace g d W old records w.part)
    (fun r (hr : r ∈ CutRecord.fresh more w.part.known) cs => ensures_isTrace_installRecord hribs (hfresh r hr)) records
  exact Ensures.weaken (hall.bind fun _ => ensures_pure fun v hv => ⟨hfresh, hv⟩) (fun v hv => hv ▸ hw)
    (fun _ _ => id) fun _ => id

/-! ### Records of its own -/

theorem ensures_isTrace_backward (path : List ℤ) {states : List (List K)}
    (hstates : ∀ x ∈ states, x.length = d) (iteration : ℤ) :
    Ensures (fun w => IsTrace g d W old records w.part) (backward engine path states iteration)
      (fun rs w => (∀ r ∈ rs, g.Fits d r) ∧ IsTrace g d W old (records ++ rs) w.part)
      fun w => IsTraced g d W old w.part := by
  have hrecorded : Ensures (fun w => IsTrace g d W old records w.part)
      (onRecorded (Recorded.backward engine path states (some iteration)))
      (fun rs w => ((∀ r ∈ rs, g.Fits d r) ∧ Recorded.IsTrace g d W (records ++ rs)
        ⟨w.part.graph, w.part.log⟩) ∧ ∀ r ∈ w.part.known, r ∈ old ∨ r ∈ records)
      fun w => IsTraced g d W old w.part := by
    refine Ensures.within fun w hw => ?_
    refine (Recorded.ensures_isTrace_backward hribs path hstates (some iteration)).weaken
      (fun v hv => hv ▸ hw.recorded) (fun rs v hv => ⟨hv, hw.known⟩) fun v hv => ?_
    obtain ⟨more, hlonger, htrace⟩ := hv
    exact ⟨more, htrace, fun r hr => (hw.known r hr).imp_right fun hmem => hlonger.subset hmem⟩
  refine hrecorded.bind fun rs => ?_
  refine Ensures.bind (Q := fun _ w => (∀ r ∈ rs, g.Fits d r) ∧ IsTrace g d W old (records ++ rs) w.part)
    (ensures_modify fun w hw => ⟨hw.1.1, hw.1.2, fun r hr => ?_⟩) fun _ => ensures_pure fun _ => id
  rw [List.mem_append, ← or_assoc]
  exact (CutRecord.mem_of_mem_learnAll hr).imp_left (hw.2 r)

/-- The passes of an iteration. The states that the simulated pass leaves behind have one entry per
state variable. -/
theorem ensures_isTrace_passes (stream : MersenneTwister) (iteration : ℤ) :
    Ensures (fun w => IsTrace g d W old records w.part) (passes engine stream iteration)
      (fun p w => (∀ r ∈ p.2, g.Fits d r) ∧ IsTrace g d W old (records ++ p.2) w.part)
      fun w => IsTraced g d W old w.part := by
  have hlength : ∀ t k n query v, Node.IsOpen g d t k n → Simulated.report n query = .ok v →
      v.state.length = d :=
    fun t k n query v hn hv => (Simulated.length_state_report hv).trans hn.states
  have hpass : Ensures (fun w => IsTrace g d W old records w.part)
      (onGraph (Simulated.onGraph stream (Simulated.forward engine [])))
      (fun pass w => (∀ v ∈ pass, v.state.length = d) ∧ IsTrace g d W old records w.part)
      fun w => IsTraced g d W old w.part := by
    have hquiet : IsSolving engine (Simulated.onGraph stream (Simulated.forward engine [])) :=
      isSolving_simulation stream []
    have hkeeps : Keeps (fun w => IsTrace g d W old records w.part)
        (onGraph (Simulated.onGraph stream (Simulated.forward engine []))) :=
      keeps_isTrace_onGraph hquiet.isQuiet
    refine (Ensures.and (Q := fun pass _ => ∀ v ∈ pass, v.state.length = d) (E := fun _ => True) ?_
      hkeeps).weaken (fun _ => id) (fun _ _ => id) fun w hw => hw.2.isTraced
    refine Ensures.within fun w hw => Ensures.within ?_
    rintro v rfl
    refine (Simulated.ensures_forward (F := g.frame) (steady_isOpen g d) hlength []).weaken ?_
      (fun _ _ hu => hu.1) fun _ _ => trivial
    rintro u rfl
    exact hw.recorded.nodes
  refine hpass.bind fun pass w hw => ?_
  refine (Ensures.bind (ensures_isTrace_backward hribs pass.path (fun x hx => ?_) iteration)
    fun rs => ensures_pure (Q := fun (p : K × List (CutRecord K)) (w : Watched (Trainer K)) => (∀ r ∈ p.2, g.Fits d r) ∧
      IsTrace g d W old (records ++ p.2) w.part) fun _ => id) w hw.2
  obtain ⟨v, hv, rfl⟩ := List.mem_map.1 hx
  exact hw.1 v hv

theorem ensures_isTraced_installRecords {more : List (CutRecord K)}
    (hmore : ∀ r ∈ more, g.Fits d r) :
    Ensures (fun w => IsTraced g d W old w.part) (installRecords more)
      (fun fresh w => (∀ r ∈ fresh, g.Fits d r) ∧ IsTraced g d W old w.part)
      fun w => IsTraced g d W old w.part := by
  rintro w ⟨records, hw⟩
  exact (ensures_isTrace_installRecords hribs hmore).weaken (fun _ => id)
    (fun _ v hv => ⟨hv.1, hv.2.isTraced⟩) (fun _ hv => hv.elim) w hw

theorem keeps_isTraced_installRecords {more : List (CutRecord K)} (hmore : ∀ r ∈ more, g.Fits d r) :
    Keeps (fun w => IsTraced g d W old w.part) (installRecords more) :=
  (ensures_isTraced_installRecords hribs hmore).weaken (fun _ => id) (fun _ _ hw => hw.2) fun _ => id

theorem ensures_isTraced_passes (stream : MersenneTwister) (iteration : ℤ) :
    Ensures (fun w => IsTraced g d W old w.part) (passes engine stream iteration)
      (fun p w => (∀ r ∈ p.2, g.Fits d r) ∧ IsTraced g d W old w.part)
      fun w => IsTraced g d W old w.part := by
  rintro w ⟨records, hw⟩
  exact (ensures_isTrace_passes hribs stream iteration).weaken (fun _ => id)
    (fun _ v hv => ⟨hv.1, hv.2.isTraced⟩) (fun _ => id) w hw

end Taking

/-! ### A run -/

theorem keeps_isTraced {x : Run K (Trainer K) A}
    (h : ∀ records, Keeps (fun w => IsTrace g d W old records w.part) x) :
    Keeps (fun w => IsTraced g d W old w.part) x := by
  rintro w ⟨records, hw⟩
  exact (h records).weaken (fun _ => id) (fun _ _ hv => hv.isTraced) (fun _ hv => hv.isTraced) w hw

theorem overlooks_isTrace : Overlooks engine (IsTrace g d W old records) where
  solving hx := keeps_isTrace_onGraph hx.isQuiet
  change hf := keeps_isTrace_change hf

theorem keeps_isTraced_cleanIfDue (every : Option ℤ) (i : ℕ) :
    Keeps (fun w => IsTraced g d W old w.part) (cleanIfDue every i) :=
  keeps_isTraced fun _ => keeps_cleanIfDue (keeps_isTrace_onGraph isQuiet_clean) every i

theorem keeps_isTraced_finishIteration (value : K) :
    Keeps (fun w => IsTraced g d W old w.part) (finishIteration engine plan value) :=
  keeps_isTraced fun _ => overlooks_isTrace.keeps_finishIteration value

theorem keeps_isTraced_iterations (hribs : g.HasRibs) (n : ℕ) :
    Keeps (fun w => IsTraced g d W old w.part) (iterations engine plan n) :=
  keeps_iterations_of_parts (fun stream i => (ensures_isTraced_passes hribs stream i).weaken
    (fun _ => id) (fun _ _ hw => hw.2) fun _ => id) keeps_isTraced_finishIteration
    (keeps_isTraced_cleanIfDue _) n

/-- Between trainings: the file, closed as it is, holds the records that the graph has taken in, if `W`
holds. -/
def IsRecord (g : PolicyGraph K) (d : ℕ) (W : Prop) (t : Trainer K) : Prop :=
  ∃ records, IsTrace g d False [] records t ∧ (W → t.log.text = CutFile.textOf records)

theorem IsRecord.isTraced_opened {t : Trainer K} (h : t.IsRecord g d W) {writes : Bool}
    (hwrites : W → writes = true) : (opened writes t).IsTraced g d W [] := by
  obtain ⟨records, htrace, htext⟩ := h
  exact ⟨records, ⟨htrace.recorded.taken, htrace.recorded.nodes, fun hW => ⟨hwrites hW, htext hW⟩⟩,
    htrace.known⟩

theorem IsTraced.isRecord_closed {t : Trainer K} (h : t.IsTraced g d W []) :
    (closed t).IsRecord g d W := by
  obtain ⟨records, htrace⟩ := h
  exact ⟨records, ⟨⟨htrace.recorded.taken, htrace.recorded.nodes, False.elim⟩, htrace.known⟩,
    fun hW => (htrace.recorded.written hW).2⟩

theorem keeps_isRecord_training {step : Run K (Trainer K) Unit} (hwrites : W → plan.writes = true)
    (hstep : Keeps (fun w => IsTraced g d W [] w.part) step) :
    Keeps (fun w => IsRecord g d W w.part) (training plan step) := by
  refine Ensures.bind (Q := fun _ w => IsTraced g d W [] w.part)
    (ensures_modify fun w hw => hw.isTraced_opened hwrites) fun _ => ?_
  refine Run.ensures_andThen (Run.keeps_untilInterrupted hstep (keeps_isTraced fun _ => ?_))
    fun _ hw => hw.isRecord_closed
  exact keeps_isTrace_change (by exact fun _ => ⟨rfl, rfl, rfl⟩)

end Trainer

/-! ## Teams -/

/-- The records that are posted. -/
def Posted.records : Posted K → List (CutRecord K)
  | .result _ _ records => records
  | .failure _ _ => []

/-- The worker has taken in some records since its graph was `g`, and what waits for it fits. -/
structure Worker.IsTraced (g : PolicyGraph K) (d : ℕ) (w : Worker K) : Prop where
  trainer : w.trainer.part.IsTraced g d False []
  mailbox : ∀ message ∈ w.mailbox, ∀ r ∈ message, g.Fits d r

/-- All members have taken in some records since their graphs were `g`, and all that is on the way fits. If
`W` holds, then the coordinator has written what it took in. -/
structure Team.IsTraced (g : PolicyGraph K) (d : ℕ) (W : Prop) (team : Team K) : Prop where
  coordinator : team.coordinator.IsTraced g d W []
  workers : ∀ w ∈ team.workers, w.IsTraced g d
  results : ∀ post ∈ team.results, ∀ r ∈ post.records, g.Fits d r

/-- What may happen in a team at any time: the coordinator takes the result that waits longest, a worker
merges the message that waits longest, or a worker goes through an iteration and posts the result. -/
inductive Team.Happens (engine : Engine K) (plan : TrainingPlan K) :
    Watched (Team K) → Watched (Team K) → Prop
  | collect {w post rest} : w.part.results = post :: rest → Happens engine plan w
      (final (collect engine plan post) { w with part := { w.part with results := rest } })
  | merge {w p worker message rest} : w.part.workers[p]? = some worker →
      worker.mailbox = message :: rest → Happens engine plan w { w with part := { w.part with
        workers := w.part.workers.set p { worker with
          trainer := final (Trainer.installRecords message) worker.trainer, mailbox := rest } } }
  | iterate {w p worker} : w.part.workers[p]? = some worker → Happens engine plan w { w with
      part := { w.part with
        workers := w.part.workers.set p { ({ worker with mailbox := [] } : Worker K).turn engine p
          plan.cleanEvery |>.2 with mailbox := worker.mailbox }
        results := w.part.results ++
          (({ worker with mailbox := [] } : Worker K).turn engine p plan.cleanEvery).1.toList } }

namespace Worker

variable {p : ℤ} {cleanEvery : Option ℤ} {w : Worker K} {v : Watched (Trainer K)}

/-- A worker whose iteration succeeds posts the result. -/
theorem turn_of_ok {result : K × List (CutRecord K)}
    (h : (mergeAll w.mailbox >>= fun _ => iterate engine p cleanEvery w.iterations) w.trainer =
      .ok result v) :
    w.turn engine p cleanEvery = (some (.result p result.1 result.2),
      { w with trainer := v, mailbox := [], iterations := w.iterations + 1 }) := by
  simp only [turn, h]

/-- A worker whose iteration fails posts the fault, if anything, and is gone. -/
theorem turn_of_error {f : Fault K}
    (h : (mergeAll w.mailbox >>= fun _ => iterate engine p cleanEvery w.iterations) w.trainer =
      .error f v) :
    w.turn engine p cleanEvery =
      (lastPost p f, { w with trainer := v, mailbox := [], fault := some f }) := by
  simp only [turn, h]

end Worker

section Events

variable {g : PolicyGraph K} {d : ℕ} {W : Prop} {plan : TrainingPlan K} (hribs : g.HasRibs)
include hribs

/-- What a worker posts fits. -/
theorem Worker.IsTraced.turn {w : Worker K} (h : w.IsTraced g d) (p : ℤ) (cleanEvery : Option ℤ) :
    (∀ post ∈ (w.turn engine p cleanEvery).1, ∀ r ∈ post.records, g.Fits d r) ∧
      (w.turn engine p cleanEvery).2.IsTraced g d := by
  have hmerge : Keeps (fun v => Trainer.IsTraced g d False [] v.part) (mergeAll w.mailbox) :=
    Keeps.each fun message hmessage => Keeps.bind
      (Trainer.keeps_isTraced_installRecords hribs (h.mailbox message hmessage)) fun _ => keeps_pure _
  have hiterate : Ensures (fun v => Trainer.IsTraced g d False [] v.part)
      (iterate engine p cleanEvery w.iterations)
      (fun (result : K × List (CutRecord K)) v => (∀ r ∈ result.2, g.Fits d r) ∧
        Trainer.IsTraced g d False [] v.part) fun v => Trainer.IsTraced g d False [] v.part := by
    refine Ensures.bind (keeps_ofExcept _) fun seed => Run.ensures_part_bind fun v hv => ?_
    refine Ensures.weaken (Ensures.bind (Trainer.ensures_isTraced_passes hribs seed.stream _)
      fun result => Ensures.bind (Q := fun _ u => (∀ r ∈ result.2, g.Fits d r) ∧
        Trainer.IsTraced g d False [] u.part) ?_ fun _ => ensures_pure fun _ => id)
      (fun u hu => hu ▸ hv) (fun _ _ => id) fun _ => id
    rintro u ⟨hresult, hu⟩
    exact (Trainer.keeps_isTraced_cleanIfDue cleanEvery _).weaken (fun _ => id)
      (fun _ _ hu => ⟨hresult, hu⟩) (fun _ => id) u hu
  have hstep := Ensures.bind hmerge (fun _ => hiterate) w.trainer h.trainer
  cases hrun : (mergeAll w.mailbox >>= fun _ => iterate engine p cleanEvery w.iterations)
    w.trainer with
  | ok result trainer =>
    rw [hrun] at hstep
    rw [Worker.turn_of_ok hrun]
    refine ⟨fun post hpost => ?_, hstep.2, by simp⟩
    obtain rfl := Option.some.inj hpost
    exact hstep.1
  | error f trainer =>
    rw [hrun] at hstep
    rw [Worker.turn_of_error hrun]
    refine ⟨fun post hpost => ?_, hstep, by simp⟩
    cases f <;> cases hpost <;> simp [Posted.records]

namespace Team

theorem keeps_isTraced_collect {post : Posted K} (hpost : ∀ r ∈ post.records, g.Fits d r) :
    Keeps (fun w => IsTraced g d W w.part) (collect engine plan post) := by
  cases post with
  | failure p f => exact keeps_throw _
  | result p value records =>
    have hinstall : Ensures (fun w => IsTraced g d W w.part)
        (onCoordinator (Trainer.installRecords records))
        (fun fresh w => (∀ r ∈ fresh, g.Fits d r) ∧ IsTraced g d W w.part)
        fun w => IsTraced g d W w.part := Ensures.within fun w hw =>
      (Trainer.ensures_isTraced_installRecords hribs hpost).weaken (fun v hv => hv ▸ hw.coordinator)
        (fun _ _ hv => ⟨hv.1, { hw with coordinator := hv.2 }⟩)
        fun _ hv => { hw with coordinator := hv }
    have hshare : Keeps (fun w => IsTraced g d W w.part) (share p records) := by
      refine hinstall.bind fun fresh => ?_
      by_cases hfresh : (!fresh.isEmpty) = true
      · rw [if_pos hfresh]
        refine ensures_modify fun w hw => { hw.2 with workers := fun worker hworker => ?_ }
        obtain ⟨q, hq, rfl⟩ := List.mem_mapIdx.1 hworker
        have hold := hw.2.workers _ (List.getElem_mem hq)
        split_ifs
        · exact hold
        · refine { hold with mailbox := fun message hmessage => ?_ }
          rcases List.mem_append.1 hmessage with hmessage | hmessage
          · exact hold.mailbox message hmessage
          · exact List.mem_singleton.1 hmessage ▸ hw.1
      · rw [if_neg hfresh]
        exact ensures_pure fun _ hw => hw.2
    exact hshare.bind fun _ => Run.keeps_within fun w hw =>
      ⟨fun v => v.part.IsTraced g d W [], hw.coordinator, Trainer.keeps_isTraced_finishIteration value,
        fun _ hv => { hw with coordinator := hv }⟩

theorem IsTraced.turnOf {team : Team K} (h : team.IsTraced g d W) (cleanEvery : Option ℤ) (p : ℕ) :
    (turnOf engine cleanEvery p team).IsTraced g d W := by
  unfold Team.turnOf
  cases hp : team.workers[p]? with
  | none => exact h
  | some w =>
    obtain ⟨hpost, hworker⟩ :
        (∀ post ∈ (w.turn engine p cleanEvery).1, ∀ r ∈ post.records, g.Fits d r) ∧
          (w.turn engine p cleanEvery).2.IsTraced g d :=
      (h.workers w (List.mem_of_getElem? hp)).turn hribs p cleanEvery
    refine { h with workers := fun v hv => ?_, results := fun post hmem => ?_ }
    · rcases List.mem_or_eq_of_mem_set hv with hv | rfl
      · exact h.workers v hv
      · exact hworker
    · rcases List.mem_append.1 hmem with hmem | hmem
      · exact h.results post hmem
      · exact hpost post (Option.mem_toList.1 hmem)

theorem keeps_isTraced_lockstep (schedule : List ℕ) (steps i : ℕ) :
    Keeps (fun w => IsTraced g d W w.part) (lockstep engine plan schedule steps i) := by
  refine keeps_lockstep_of_moves (fun w v hmove hw => ?_) _ _ _
  cases hmove with
  | collect hresults =>
    refine (keeps_isTraced_collect hribs (hw.results _ (by simp [hresults]))).final ?_
    exact { hw with results := fun post hpost => hw.results post (by simp [hresults, hpost]) }
  | turn p => exact hw.turnOf hribs _ _

/-- Whatever happens in a team, all that the coordinator takes in is written. -/
theorem IsTraced.of_happens {w v : Watched (Team K)} (h : w.part.IsTraced g d W)
    (hruns : Relation.ReflTransGen (Happens engine plan) w v) : v.part.IsTraced g d W := by
  induction hruns with
  | refl => exact h
  | tail _ hstep ih =>
    cases hstep with
    | collect hresults =>
      refine (keeps_isTraced_collect hribs (ih.results _ (by simp [hresults]))).final ?_
      exact { ih with results := fun post hpost => ih.results post (by simp [hresults, hpost]) }
    | merge hp hmailbox =>
      rename_i p worker message rest
      have hworker := ih.workers worker (List.mem_of_getElem? hp)
      have hmessage := hworker.mailbox message (by simp [hmailbox])
      refine { ih with workers := fun u hu => ?_ }
      rcases List.mem_or_eq_of_mem_set hu with hu | rfl
      · exact ih.workers u hu
      · exact ⟨(Trainer.keeps_isTraced_installRecords hribs hmessage).final hworker.trainer,
          fun m hm => hworker.mailbox m (by simp [hmailbox, hm])⟩
    | iterate hp =>
      rename_i p worker
      have hworker := ih.workers worker (List.mem_of_getElem? hp)
      have halone : Worker.IsTraced g d { worker with mailbox := [] } :=
        { hworker with mailbox := by simp }
      obtain ⟨hpost, hturned⟩ :
          (∀ post ∈ (Worker.turn engine p plan.cleanEvery { worker with mailbox := [] }).1,
            ∀ r ∈ post.records, g.Fits d r) ∧
          (Worker.turn engine p plan.cleanEvery { worker with mailbox := [] }).2.IsTraced g d :=
        halone.turn hribs p plan.cleanEvery
      refine { ih with workers := fun u hu => ?_, results := fun post hmem => ?_ }
      · rcases List.mem_or_eq_of_mem_set hu with hu | rfl
        · exact ih.workers u hu
        · exact { hturned with mailbox := hworker.mailbox }
      · rcases List.mem_append.1 hmem with hmem | hmem
        · exact ih.results post hmem
        · exact hpost post (Option.mem_toList.1 hmem)

end Team

end Events

/-! ## Trainings that write to one file -/

namespace Trainer

/-- Copies of a trainer, as the members of a team are when it sets out. -/
def AreCopies (t : Trainer K) (workers : List (Watched (Trainer K))) : Prop :=
  ∀ v ∈ workers, v.part.graph = t.graph ∧ v.part.known = t.known

/-- What a training may lead to, if its plan is one of those with `P`: alone or with a team, in lockstep or
in any order of events, up to any of them. -/
inductive Trains (P : TrainingPlan K → Prop) : Watched (Trainer K) → Watched (Trainer K) → Prop
  | alone (engine : Engine K) {plan : TrainingPlan K} (w) : P plan →
      Trains P w (final (train engine plan) w)
  | lockstep (engine : Engine K) {plan : TrainingPlan K} {workers : List (Watched (Trainer K))}
      (schedule : List ℕ) (w) : P plan → w.part.AreCopies workers →
      Trains P w (final (Team.train engine plan workers schedule) w)
  | team {engine : Engine K} {plan : TrainingPlan K} {workers : List (Watched (Trainer K))} {w v}
      (stopReason : Option (StopReason K)) : P plan → w.part.AreCopies workers →
      Relation.ReflTransGen (Team.Happens engine plan)
        ⟨w.monitor, ⟨opened plan.writes w.part, workers.map fun u => { trainer := u }, []⟩⟩ v →
      Trains P w ⟨v.monitor, closed { v.part.coordinator with stopReason }⟩

variable {g : PolicyGraph K} {d : ℕ} {W : Prop} {plan : TrainingPlan K}

theorem IsRecord.copies {t : Trainer K} (h : t.IsRecord g d W) {workers : List (Watched (Trainer K))}
    (hcopies : t.AreCopies workers) : ∀ v ∈ workers, v.part.IsTraced g d False [] := by
  intro v hv
  obtain ⟨records, htrace, -⟩ := h
  obtain ⟨hgraph, hknown⟩ := hcopies v hv
  refine ⟨records, ⟨?_, ?_, False.elim⟩, hknown ▸ htrace.known⟩
  · exact hgraph ▸ htrace.recorded.taken
  · exact hgraph ▸ htrace.recorded.nodes

/-- A team that sets out. -/
theorem IsTraced.team {t : Trainer K} (h : t.IsTraced g d W []) {workers : List (Watched (Trainer K))}
    (hworkers : ∀ v ∈ workers, v.part.IsTraced g d False []) :
    Team.IsTraced g d W ⟨t, workers.map fun u => { trainer := u }, []⟩ where
  coordinator := h
  workers w hw := by
    obtain ⟨v, hv, rfl⟩ := List.mem_map.1 hw
    exact ⟨hworkers v hv, by simp⟩
  results := by simp

theorem keeps_isRecord_train (hribs : g.HasRibs) (hwrites : W → plan.writes = true) :
    Keeps (fun w => IsRecord g d W w.part) (train engine plan) :=
  Run.keeps_part_bind fun _ _ => keeps_isRecord_training hwrites (keeps_isTraced_iterations hribs _)

theorem keeps_isRecord_team (hribs : g.HasRibs) (hwrites : W → plan.writes = true)
    {workers : List (Watched (Trainer K))} (hworkers : ∀ v ∈ workers, v.part.IsTraced g d False [])
    (schedule : List ℕ) :
    Keeps (fun w => IsRecord g d W w.part) (Team.train engine plan workers schedule) :=
  keeps_isRecord_training hwrites <| Run.keeps_within fun _ hw =>
    ⟨fun v => v.part.IsTraced g d W, hw.team hworkers, Run.keeps_part_bind fun _ _ =>
      Team.keeps_isTraced_lockstep hribs schedule _ _, fun _ hv => hv.coordinator⟩

/-- Trainings lead from records to records. -/
theorem IsRecord.of_trains (hribs : g.HasRibs) {P : TrainingPlan K → Prop}
    (hP : ∀ plan, P plan → W → plan.writes = true) {w v : Watched (Trainer K)}
    (h : w.part.IsRecord g d W) (hruns : Relation.ReflTransGen (Trains P) w v) :
    v.part.IsRecord g d W := by
  induction hruns with
  | refl => exact h
  | tail _ htrains ih =>
    cases htrains with
    | alone engine _ hplan => exact (keeps_isRecord_train hribs (hP _ hplan)).final ih
    | lockstep engine schedule _ hplan hcopies =>
      exact (keeps_isRecord_team hribs (hP _ hplan) (ih.copies hcopies) schedule).final ih
    | team stopReason hplan hcopies hhappens =>
      have hteam := (ih.isTraced_opened (hP _ hplan)).team (ih.copies hcopies)
      obtain ⟨records, hend⟩ := (hteam.of_happens hribs hhappens).coordinator
      exact IsTraced.isRecord_closed ⟨records, hend.recorded, hend.known⟩

theorem isRecord_start (h : Holds g.frame (Node.IsOpen g d) g) : (start g).IsRecord g d W :=
  ⟨[], ⟨⟨.refl g, h, False.elim⟩, by simp [start]⟩, fun _ => rfl⟩

end Trainer

namespace PolicyGraph

theorem HasRibs.of_isLegible (h : Numeral.IsLegible K) (g : PolicyGraph K) : g.HasRibs := by
  rintro (_ | x) -
  · rfl
  · exact h.eq_self x

/-- A cut file reproduces the graph. All trainings since the graph was built have written to it, each of
them alone or with a team, and each over or broken off. Then another graph from the builder that reads
the file stores at every rib of every node the same cuts in the same order. -/
theorem readCuts_reproduces (hlegible : Numeral.IsLegible K) {b : Builder K}
    {unbuilt g₁ g₂ : PolicyGraph K} (hbuilt : build b unbuilt = .ok () g₁)
    (hbuilt' : build b unbuilt = .ok () g₂) {k : Monitor} {w : Watched (Trainer K)}
    (hruns : Relation.ReflTransGen (Trainer.Trains fun plan => plan.writes = true)
      ⟨k, Trainer.start g₁⟩ w) (path : String) :
    ∃ count g, readCuts path w.part.log.text g₂ = .ok count g ∧ ∀ t k i,
      (g.storedAt t k i).map Cut.bare = (w.part.graph.storedAt t k i).map Cut.bare := by
  obtain rfl : g₁ = g₂ := by
    rw [hbuilt] at hbuilt'
    cases hbuilt'
    rfl
  obtain ⟨d, hopen⟩ := exists_isOpen_build hbuilt
  obtain ⟨records, htrace, hwritten⟩ := Trainer.IsRecord.of_trains (W := True)
    (.of_isLegible hlegible g₁) (fun _ hwrites _ => hwrites) (Trainer.isRecord_start hopen) hruns
  have htext := hwritten trivial
  obtain ⟨count, g, hreplay, hbare⟩ := htrace.recorded.taken.exists_replay
    (show (records.map CutFile.restamped).map CutRecord.bare = records.map CutRecord.bare by
      rw [List.map_map]
      rfl)
  refine ⟨count, g, ?_, fun t k i => ?_⟩
  · rw [htext, readCuts, CutFile.read_textOf hlegible]
    exact bind_eq_ok.2 ⟨count, g, hreplay, rfl⟩
  · rw [← storedAt_bare, ← storedAt_bare, hbare]

end PolicyGraph

/-! ## A supply problem in whole numbers -/

namespace Larder

/-- An amount from zero up. -/
def amount (cost : ℤ) : VariableSpec ℤ := ⟨0, 10 ^ 20, cost, "C"⟩

/-- Stock is bought at the price one. Then a demand of three has to be met, and what is short is bought
at the price three. -/
def recipe : Recipe ℤ := fun stage _ =>
  if stage == 0 then [.state "stock" (amount 1) (.real 0) .absent]
  else
    [.state "stock" (amount 0) (.real 0) .absent, .var "short" (amount 3) .absent,
      .constr "demand" ⟨[("short", 1), (Statement.copyName "stock", 1)], .atLeast, 3⟩ (.inr [])]

def builder : Builder ℤ := ⟨some 3, recipe, recipe⟩

/-- The problem before it is built. -/
def unbuilt : PolicyGraph ℤ :=
  { stages := 2, sense := .minimize, knownBound := .whole 0, transitions := .trivial 2,
    template := .single .keepAll }

def graph : PolicyGraph ℤ := final (PolicyGraph.build builder) unbuilt

theorem build_graph : PolicyGraph.build builder unbuilt = .ok () graph := by
  have hsucceeds : succeeds (PolicyGraph.build builder) unbuilt = true := by decide +kernel
  exact eq_ok_final hsucceeds

/-- An engine that buys nothing in stock, and all that is short. -/
def buyer : Engine ℤ where
  solve _ _ p := match p.constraints.toList with
    | [⟨_, _, .atLeast, demand⟩, ⟨_, _, _, stock⟩] =>
      .optimal ⟨3 * max 0 (demand - stock), #[0, stock, max 0 (demand - stock)], #[3, -3]⟩
    | _ => .optimal ⟨0, #[0, 0, 0], #[0]⟩
  elapsed _ := 0
  interval _ _ := .ok (0, 0)

/-- A plan with one iteration whose cuts are written. -/
def plan : TrainingPlan ℤ :=
  { limits := { Limits.standard with iterations := 1 }, evaluation := .standard, writes := true }

end Larder

/-- Two trainings, alone and then with two workers, that write to one file, and the graph that is read from
it. -/
theorem readCuts_reproduces_larder :
    let w : Watched (Trainer ℤ) :=
      final (Trainer.train Larder.buyer Larder.plan) ⟨{}, Trainer.start Larder.graph⟩
    let v := final (Team.train Larder.buyer Larder.plan [w, w] [0, 1]) w
    (Numeral.IsLegible ℤ ∧ PolicyGraph.build Larder.builder Larder.unbuilt = .ok () Larder.graph ∧
      Relation.ReflTransGen (Trainer.Trains fun plan => plan.writes = true)
        ⟨{}, Trainer.start Larder.graph⟩ v) ∧
    ∃ count g, PolicyGraph.readCuts "cuts.csv" v.part.log.text Larder.graph = .ok count g ∧
      ∀ t k i, (g.storedAt t k i).map Cut.bare = (v.part.graph.storedAt t k i).map Cut.bare := by
  intro w v
  have hcopies : w.part.AreCopies [w, w] := by
    intro u hu
    obtain rfl : u = w := by simpa using hu
    exact ⟨rfl, rfl⟩
  have hruns : Relation.ReflTransGen (Trainer.Trains fun plan => plan.writes = true)
      ⟨{}, Trainer.start Larder.graph⟩ v :=
    (Relation.ReflTransGen.single (.alone Larder.buyer _ rfl)).tail (.lockstep Larder.buyer _ w rfl hcopies)
  exact ⟨⟨Numeral.isLegible_int, Larder.build_graph, hruns⟩, PolicyGraph.readCuts_reproduces
    Numeral.isLegible_int Larder.build_graph Larder.build_graph hruns "cuts.csv"⟩

end DualDynamic
