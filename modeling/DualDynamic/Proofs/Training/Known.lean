import DualDynamic.Proofs.Journal
import DualDynamic.Proofs.Training.Exchange
import DualDynamic.Proofs.Training.Interruption

/-!
# What a trainer knows of what it has installed

A trainer makes the record of a cut known at one of two moments: right after its cut was installed, if it
comes from elsewhere, but only after the last cut of a backward pass, if it comes from there. So the cuts of a
backward pass that is broken off are in the graph, and their records are strays: they are not known, and the
next time that such a record comes from elsewhere it is fresh.

What a trainer has installed does not show in its state. So the runs of a trainer are followed step by step
(`Leaves`), and each installation is listed, up to the fault if there is one, together with whether the
record is made known. Along any sequence of trainings, alone or as the coordinator of a team, of backward
passes and of batches of records, the known records are just the registered ones; and all that was installed
is known just if the strays are among those (`Trainer.knows_installed_iff`).
-/

namespace DualDynamic

open Step PolicyGraph

variable {K A : Type} [Numeral K] {engine : Engine K} {plan : TrainingPlan K}

/-- A part of a run takes in the cut of a record, or refuses it and stays as it is. -/
theorem PolicyGraph.takes_or_refuses {S : Type} (read : S → PolicyGraph K) (put : PolicyGraph K → S → S)
    (r : CutRecord K) (state : Option (Datum K)) (w : Watched S) :
    let install := Run.within read put
      (Run.ofStep (PolicyGraph.installCut r.stage r.markov r.rib r.cut state))
    (∃ new g, HasTaken (read w.part) [r] g ∧
      install w = .ok new { w with part := put g w.part }) ∨
    ∃ e, install w = .error e { w with part := put (read w.part) w.part } := by
  intro install
  cases hinstall : PolicyGraph.installCut r.stage r.markov r.rib r.cut state (read w.part) with
  | ok new g =>
    exact Or.inl ⟨new, g, .of_installCut r hinstall,
      Run.within_eq_ok.2 ⟨_, Run.ofStep_eq_ok.2 ⟨g, hinstall, rfl⟩, rfl⟩⟩
  | error e g =>
    obtain rfl := eq_of_installCut_eq_error hinstall
    exact Or.inr ⟨e, Run.within_of_error (Run.ofStep_of_error hinstall)⟩

/-! ## What a backward pass installs -/

namespace Recorded

/-- The record whose cut is installed at a rib, unless generating the cut fails or the cut is refused. -/
def installedAtRib (engine : Engine K) (n : Node K) (state : List K) (iteration : Option ℤ)
    (rib : Option K) : Watched (Recorded K) → List (CutRecord K) :=
  onward (updateRib engine n state iteration rib) fun r _ => [r]

/-- The records whose cuts are installed at a node, up to the first rib where this fails. -/
def installedAtNode (engine : Engine K) (n : Node K) (state : List K) (iteration : Option ℤ) :
    Watched (Recorded K) → List (CutRecord K) :=
  along (installedAtRib engine n state iteration) (updateRib engine n state iteration) n.costToGo.ribs

/-- The records whose cuts are installed at the node that a path visits at a stage. -/
def installedAtStage (engine : Engine K) (path : List ℤ) (states : List (List K))
    (iteration : Option ℤ) (stage : ℕ) (w : Watched (Recorded K)) : List (CutRecord K) :=
  onward (Step.ofExcept (do w.part.graph.node stage (← itemAt path stage)))
    (fun n => onward (Step.ofExcept (K := K) (itemAt states stage)) fun state =>
      installedAtNode engine n state iteration) w

/-- The records whose cuts are installed by a backward pass, up to its fault if it has one. -/
def installed (engine : Engine K) (path : List ℤ) (states : List (List K)) (iteration : Option ℤ)
    (w : Watched (Recorded K)) : List (CutRecord K) :=
  along (installedAtStage engine path states iteration) (updateStage engine path states iteration)
    (List.range (w.part.graph.stages - 1)).reverse w

/-- What is installed on the way is what the graph takes in. -/
def TakesIn (w : Watched (Recorded K)) (records : List (CutRecord K)) (v : Watched (Recorded K)) : Prop :=
  w.part.graph.IsSettled → HasTaken w.part.graph records v.part.graph

theorem isTrail_takesIn : IsTrail (TakesIn (K := K)) where
  refl w _ := .refl w.part.graph
  trans h h' hsettled := (h hsettled).trans (h' ((h hsettled).isSettled hsettled))

variable {n : Node K} {state : List K} {path : List ℤ} {states : List (List K)} {iteration : Option ℤ}
  {w v : Watched (Recorded K)} {records : List (CutRecord K)}

theorem leaves_generateCut (rib : Option K) : Leaves TakesIn
    (onGraph (PolicyGraph.generateCut engine n state rib iteration)) fun _ => [] := by
  intro w hsettled
  have hkeeps : Keeps (fun v => v.part.graph.IsSettled ∧ v.part.graph.bare = w.part.graph.bare)
      (onGraph (PolicyGraph.generateCut engine n state rib iteration)) :=
    Run.keeps_within fun v hv => ⟨fun u => u.part.IsSettled ∧ u.part.bare = w.part.graph.bare, hv,
      (isSolving_generateCut n state rib iteration).keeps_bare _, fun _ hu => hu⟩
  exact (HasTaken.refl w.part.graph).of_bare (hkeeps.final ⟨hsettled, rfl⟩).2

/-- A record is written, and its cut is installed or refused. -/
theorem leaves_install (r : CutRecord K) (state : Option (Datum K)) :
    let put : Run K (Recorded K) (CutRecord K) := do
      write r
      let _ ← onGraph (Run.ofStep (PolicyGraph.installCut r.stage r.markov r.rib r.cut state))
      return r
    Leaves TakesIn put (onward put fun r _ => [r]) := by
  intro put w _
  let u : Watched (Recorded K) := { w with part := { w.part with log := w.part.log.write r } }
  rcases takes_or_refuses Recorded.graph (fun g s => { s with graph := g }) r state u with
    ⟨new, g, htaken, hinstall⟩ | ⟨e, hinstall⟩
  · have hrun : put w = .ok r { u with part := { u.part with graph := g } } :=
      bind_eq_ok.2 ⟨(), u, rfl, bind_eq_ok.2 ⟨new, _, hinstall, rfl⟩⟩
    rw [onward_of_ok hrun, final_of_ok hrun]
    exact htaken
  · have hrun : put w = .error e u :=
      (bind_of_ok (x := write r) (s := w) rfl).trans (bind_of_error hinstall)
    rw [onward_of_error hrun, final_of_error hrun]
    exact .refl w.part.graph

theorem leaves_updateRib (rib : Option K) : Leaves TakesIn (updateRib engine n state iteration rib)
    (installedAtRib engine n state iteration rib) := by
  rw [installedAtRib, updateRib, onward_bind]
  exact (leaves_generateCut rib).after isTrail_takesIn fun cut =>
    leaves_install ⟨n.stage, n.markov, rib, cut⟩ (some (.list (state.map .real)))

/-- What a backward pass installs, whether it fails or not, is what the graph takes in. -/
theorem leaves_backward : Leaves TakesIn (backward engine path states iteration)
    (installed engine path states iteration) := by
  have hnode : ∀ n state, Leaves TakesIn (update engine n state iteration)
      (installedAtNode engine n state iteration) := fun n state =>
    .mapM isTrail_takesIn fun rib => leaves_updateRib rib
  have hstage : ∀ stage, Leaves TakesIn (updateStage engine path states iteration stage)
      (installedAtStage engine path states iteration stage) := fun stage w =>
    (leaves_ofExcept isTrail_takesIn _).after isTrail_takesIn (fun n =>
      (leaves_ofExcept isTrail_takesIn _).after isTrail_takesIn fun state => hnode n state) w
  intro w
  exact (Leaves.mapM isTrail_takesIn hstage).before isTrail_takesIn
    (fun _ => leaves_pure isTrail_takesIn _) w

/-- A complete backward pass has installed what it returns. -/
theorem installed_of_ok (h : backward engine path states iteration w = .ok records v) :
    installed engine path states iteration w = records := by
  rw [backward, Run.part_bind_apply] at h
  obtain ⟨parts, u, hparts, h⟩ := bind_eq_ok.1 h
  cases h
  have hrib : ∀ n state rib w r v, updateRib engine n state iteration rib w = .ok r v →
      installedAtRib engine n state iteration rib w = [r] := fun n state rib w r v h => onward_of_ok h
  have hnode : ∀ n state w rs v, update engine n state iteration w = .ok rs v →
      installedAtNode engine n state iteration w = rs := by
    intro n state w rs v h
    have hall := along_of_ok (hrib n state) h
    rwa [List.flatMap_singleton'] at hall
  have hstage : ∀ stage w rs v, updateStage engine path states iteration stage w = .ok rs v →
      installedAtStage engine path states iteration stage w = id rs := by
    intro stage w rs v h
    rw [updateStage, Run.part_bind_apply] at h
    obtain ⟨n, w₁, hn, h⟩ := bind_eq_ok.1 h
    obtain ⟨state, w₂, hstate, h⟩ := bind_eq_ok.1 h
    rw [installedAtStage, onward_of_ok hn, onward_of_ok hstate]
    exact hnode n state w₂ rs v h
  have hall := along_of_ok hstage hparts
  rwa [List.flatMap_id] at hall

end Recorded

/-! ## Installations -/

/-- A record whose cut was put into a graph, and whether the step that did so made it known. -/
structure Installation (K : Type) where
  record : CutRecord K
  isRegistered : Bool

namespace Installation

omit [Numeral K] in
/-- The records whose cuts were installed. -/
def records (installations : List (Installation K)) : List (CutRecord K) := installations.map record

omit [Numeral K] in
/-- Those of them that were made known. -/
def registered (installations : List (Installation K)) : List (CutRecord K) :=
  records (installations.filter isRegistered)

variable {installations more : List (Installation K)}

omit [Numeral K] in
theorem records_append : records (installations ++ more) = records installations ++ records more :=
  List.map_append

omit [Numeral K] in
theorem registered_append :
    registered (installations ++ more) = registered installations ++ registered more := by
  rw [registered, List.filter_append, records_append]
  rfl

omit [Numeral K] in
/-- Records that all fare alike. -/
theorem records_map (records : List (CutRecord K)) (isRegistered : Bool) :
    Installation.records (records.map fun r => ⟨r, isRegistered⟩) = records := by
  simp [Installation.records, Function.comp_def]

omit [Numeral K] in
theorem registered_map (records : List (CutRecord K)) (isRegistered : Bool) :
    registered (records.map fun r => ⟨r, isRegistered⟩) = if isRegistered then records else [] := by
  cases isRegistered <;> simp [registered, Installation.records, List.filter_map, Function.comp_def]

omit [Numeral K] in
theorem mem_registered {r : CutRecord K} :
    r ∈ registered installations ↔ ∃ i ∈ installations, i.isRegistered = true ∧ i.record = r := by
  simp [registered, records, and_assoc]

end Installation

open Installation

namespace Trainer

/-- From one trainer to another: what was installed is what the graph has taken in, and what of it was
registered is known besides. -/
structure Follows (t : Trainer K) (installations : List (Installation K)) (t' : Trainer K) : Prop where
  taken : HasTaken t.graph (records installations) t'.graph
  known : t'.known = CutRecord.learnAll t.known (registered installations)

theorem Follows.refl (t : Trainer K) : t.Follows [] t := ⟨.refl t.graph, rfl⟩

theorem Follows.trans {t t' t'' : Trainer K} {installations more : List (Installation K)}
    (h : t.Follows installations t') (h' : t'.Follows more t'') :
    t.Follows (installations ++ more) t'' where
  taken := records_append ▸ h.taken.trans h'.taken
  known := by
    rw [h'.known, h.known, registered_append, CutRecord.learnAll, CutRecord.learnAll,
      CutRecord.learnAll, List.foldl_append]

/-- Records that are learned are installed and registered. -/
theorem Learns.follows {t t' : Trainer K} {records : List (CutRecord K)} (h : t.Learns records t') :
    t.Follows (records.map fun r => ⟨r, true⟩) t' where
  taken := by
    rw [records_map]
    exact h.taken
  known := by
    rw [registered_map, if_pos rfl]
    exact h.known

/-- The steps of a trainer, with what is installed on the way. -/
def Installs (w : Watched (Trainer K)) (installations : List (Installation K))
    (v : Watched (Trainer K)) : Prop :=
  w.part.graph.IsSettled → w.part.Follows installations v.part

theorem isTrail_installs : IsTrail (Installs (K := K)) where
  refl w _ := .refl w.part
  trans h h' hsettled := (h hsettled).trans (h' ((h hsettled).taken.isSettled hsettled))

/-- What does not show in the bare graph, nor in what is known, installs nothing. -/
theorem leaves_of_keeps {x : Run K (Trainer K) A}
    (hx : ∀ b known, Keeps (fun w : Watched (Trainer K) =>
      (w.part.graph.IsSettled ∧ w.part.graph.bare = b) ∧ w.part.known = known) x) :
    Leaves Installs x fun _ => [] := by
  intro w hsettled
  obtain ⟨⟨-, hbare⟩, hknown⟩ := (hx w.part.graph.bare w.part.known).final ⟨⟨hsettled, rfl⟩, rfl⟩
  exact ⟨(HasTaken.refl w.part.graph).of_bare hbare, hknown⟩

theorem leaves_finishIteration (value : K) :
    Leaves Installs (finishIteration engine plan value) fun _ => [] :=
  leaves_of_keeps fun b known => (overlooks_bare b known).keeps_finishIteration value

theorem leaves_cleanIfDue (every : Option ℤ) (i : ℕ) :
    Leaves (Installs (K := K)) (cleanIfDue every i) fun _ => [] :=
  leaves_of_keeps fun b known => keeps_cleanIfDue (J := fun t : Trainer K =>
    (t.graph.IsSettled ∧ t.graph.bare = b) ∧ t.known = known) (Run.keeps_within fun _ hw =>
      ⟨fun v => v.part.IsSettled ∧ v.part.bare = b, hw.1, Run.keeps_ofStep fun _ _ => keeps_bare_clean b,
        fun _ hv => ⟨hv, hw.2⟩⟩) every i

/-! ### Records from elsewhere -/

/-- A record that is installed is made known at once. -/
def installsRecord (r : CutRecord K) : Watched (Trainer K) → List (Installation K) :=
  onward (installRecord r) fun _ _ => [⟨r, true⟩]

/-- Of a batch, the fresh records are installed, up to the first one that is refused. -/
def installsRecords (batch : List (CutRecord K)) (w : Watched (Trainer K)) : List (Installation K) :=
  along installsRecord installRecord (CutRecord.fresh batch w.part.known) w

theorem leaves_installRecord (r : CutRecord K) : Leaves Installs (installRecord r) (installsRecord r) := by
  intro w _
  let u : Watched (Trainer K) := { w with part := { w.part with log := w.part.log.write r } }
  rcases takes_or_refuses Trainer.graph (fun g t => { t with graph := g }) r none u with
    ⟨new, g, htaken, hinstall⟩ | ⟨e, hinstall⟩
  · have hrun : installRecord r w = .ok () { u with part :=
        { u.part with graph := g, known := CutRecord.learn u.part.known r } } :=
      bind_eq_ok.2 ⟨(), u, rfl, bind_eq_ok.2 ⟨new, _, hinstall, rfl⟩⟩
    rw [installsRecord, onward_of_ok hrun, final_of_ok hrun]
    exact ⟨htaken, rfl⟩
  · have hrun : installRecord r w = .error e u :=
      (bind_of_ok (x := onRecorded (Recorded.write r)) (s := w) rfl).trans (bind_of_error hinstall)
    rw [installsRecord, onward_of_error hrun, final_of_error hrun]
    exact ⟨.refl w.part.graph, rfl⟩

theorem leaves_installRecords (batch : List (CutRecord K)) :
    Leaves Installs (installRecords batch) (installsRecords batch) := fun w =>
  (Leaves.each isTrail_installs leaves_installRecord).before isTrail_installs
    (fun _ => leaves_pure isTrail_installs _) w

/-! ### Records of its own -/

/-- The records of a backward pass are made known only if it is complete. -/
def installsBackward (engine : Engine K) (path : List ℤ) (states : List (List K)) (iteration : ℤ)
    (w : Watched (Trainer K)) : List (Installation K) :=
  let start : Watched (Recorded K) := ⟨w.monitor, ⟨w.part.graph, w.part.log⟩⟩
  (Recorded.installed engine path states (some iteration) start).map fun r =>
    ⟨r, Step.succeeds (Recorded.backward engine path states (some iteration)) start⟩

theorem leaves_backward (path : List ℤ) (states : List (List K)) (iteration : ℤ) :
    Leaves Installs (backward engine path states iteration)
      (installsBackward engine path states iteration) := by
  intro w hsettled
  let start : Watched (Recorded K) := ⟨w.monitor, ⟨w.part.graph, w.part.log⟩⟩
  have htaken : HasTaken w.part.graph (Recorded.installed engine path states (some iteration) start)
      (final (Recorded.backward engine path states (some iteration)) start).part.graph :=
    Recorded.leaves_backward start hsettled
  cases hrun : Recorded.backward engine path states (some iteration) start with
  | ok rs u =>
    rw [final_of_ok hrun, Recorded.installed_of_ok hrun] at htaken
    have hpass : onRecorded (Recorded.backward engine path states (some iteration)) w =
        .ok rs ⟨u.monitor, { w.part with graph := u.part.graph, log := u.part.log }⟩ :=
      Run.within_eq_ok.2 ⟨u, hrun, rfl⟩
    have hbackward : backward engine path states iteration w = .ok rs ⟨u.monitor, { w.part with
        graph := u.part.graph, log := u.part.log,
        known := CutRecord.learnAll w.part.known rs }⟩ :=
      bind_eq_ok.2 ⟨rs, _, hpass, rfl⟩
    have hinstalls : installsBackward engine path states iteration w = rs.map fun r => ⟨r, true⟩ := by
      rw [installsBackward, Recorded.installed_of_ok hrun, Step.succeeds, hrun]
    rw [final_of_ok hbackward, hinstalls]
    exact Learns.follows ⟨htaken, rfl⟩
  | error e u =>
    rw [final_of_error hrun] at htaken
    have hpass : onRecorded (Recorded.backward engine path states (some iteration)) w =
        .error e ⟨u.monitor, { w.part with graph := u.part.graph, log := u.part.log }⟩ :=
      Run.within_of_error hrun
    have hbackward : backward engine path states iteration w =
        .error e ⟨u.monitor, { w.part with graph := u.part.graph, log := u.part.log }⟩ :=
      bind_of_error hpass
    have hfails : Step.succeeds (Recorded.backward engine path states (some iteration)) start =
        false := by rw [Step.succeeds, hrun]
    rw [final_of_error hbackward, installsBackward, hfails]
    exact ⟨by rwa [records_map], by rw [registered_map]; rfl⟩

/-! ### Trainings -/

def installsPasses (engine : Engine K) (stream : MersenneTwister) (iteration : ℤ) :
    Watched (Trainer K) → List (Installation K) :=
  onward (onGraph (Simulated.onGraph stream (Simulated.forward engine []))) fun pass =>
    installsBackward engine pass.path pass.states iteration

/-- What iterations install, up to the fault that ends them if there is one. -/
def installsIterations (engine : Engine K) (plan : TrainingPlan K) :
    ℕ → Watched (Trainer K) → List (Installation K)
  | 0, _ => []
  | n + 1, w =>
    installsPasses engine (Seed.iteration w.part.iteration) w.part.iteration w ++
      onward (passes engine (Seed.iteration w.part.iteration) w.part.iteration)
        (fun pass => onward (finishIteration engine plan pass.1) fun isOver v =>
          if isOver then []
          else onward (cleanIfDue plan.cleanEvery v.part.iteration)
            (fun _ => installsIterations engine plan n) v) w

theorem leaves_passes (stream : MersenneTwister) (iteration : ℤ) :
    Leaves Installs (passes engine stream iteration) (installsPasses engine stream iteration) := by
  have hpass : Leaves Installs (onGraph (Simulated.onGraph stream (Simulated.forward engine [])))
      fun _ => [] := leaves_of_keeps fun b known =>
    (overlooks_bare b known).solving (isSolving_simulation stream [])
  exact hpass.after isTrail_installs fun pass => (leaves_backward pass.path pass.states iteration).before
    isTrail_installs fun _ => leaves_pure isTrail_installs _

/-- What a worker installs in an iteration. -/
def installsWork (engine : Engine K) (p : ℤ) (i : ℕ) : Watched (Trainer K) → List (Installation K) :=
  onward (Step.ofExcept (K := K) (Seed.ofList [p, i])) fun seed w =>
    installsPasses engine seed.stream (w.part.iteration + i) w

theorem leaves_work (p : ℤ) (cleanEvery : Option ℤ) (i : ℕ) :
    Leaves Installs (Worker.iterate engine p cleanEvery i) (installsWork engine p i) := by
  refine (leaves_ofExcept isTrail_installs _).after isTrail_installs fun seed w => ?_
  rw [Run.final_part_bind]
  exact (leaves_passes seed.stream _).before isTrail_installs (fun _ =>
    (leaves_cleanIfDue _ _).before isTrail_installs fun _ => leaves_pure isTrail_installs _) w

theorem leaves_iterations (n : ℕ) :
    Leaves Installs (iterations engine plan n) (installsIterations engine plan n) := by
  induction n with
  | zero => exact leaves_pure isTrail_installs ()
  | succ n ih =>
    intro w
    rw [iterations, installsIterations, Run.final_part_bind]
    dsimp only
    generalize Seed.iteration w.part.iteration = stream
    refine (leaves_passes stream _).bind isTrail_installs (fun pass => ?_) w
    refine (leaves_finishIteration pass.1).after isTrail_installs fun isOver v => ?_
    cases isOver with
    | true => exact isTrail_installs.refl v
    | false => exact (leaves_cleanIfDue _ _).after isTrail_installs (fun _ => ih) v

omit [Numeral K] in
/-- However a training ends, at last the reason is set, if at all, and the file is closed. -/
theorem exists_final_training (plan : TrainingPlan K) (step : Run K (Trainer K) Unit) (w : Watched (Trainer K)) :
    let u := final step { w with part := opened plan.writes w.part }
    ∃ stopReason, final (training plan step) w =
      ⟨u.monitor, closed { u.part with stopReason }⟩ := by
  intro u
  have hrun : training plan step w = Run.andThen (Run.untilInterrupted step
      (Run.change fun t => { t with stopReason := some .interrupted })) closed
        { w with part := opened plan.writes w.part } := rfl
  simp only [final, hrun, Run.andThen, Run.untilInterrupted, u]
  cases step { w with part := opened plan.writes w.part } with
  | ok a v => exact ⟨v.part.stopReason, rfl⟩
  | error e v =>
    cases e with
    | interrupted => exact ⟨some .interrupted, rfl⟩
    | _ => exact ⟨v.part.stopReason, rfl⟩

/-- What a training alone installs. -/
def Call.installs (c : Call K) (w : Watched (Trainer K)) : List (Installation K) :=
  installsIterations c.engine c.plan (mostIterations c.plan w.part)
    { w with part := opened c.plan.writes w.part }

theorem Call.leaves_perform (c : Call K) : Leaves Installs c.perform c.installs := by
  intro w hsettled
  let begun : Watched (Trainer K) := { w with part := opened c.plan.writes w.part }
  have hloop : begun.part.Follows (c.installs w) (final (c.loop w.part) begun).part := by
    rw [loop, Run.final_raising]
    exact leaves_iterations _ begun hsettled
  obtain ⟨stopReason, hend⟩ := exists_final_training c.plan (c.loop w.part) w
  have hperform : final c.perform w = final (training c.plan (c.loop w.part)) w := rfl
  rw [hperform, hend]
  exact ⟨hloop.taken, hloop.known⟩

end Trainer

/-! ### Coordinators -/

namespace Team

/-- What the coordinator itself does with what is posted to it. -/
def hear (engine : Engine K) (plan : TrainingPlan K) : Posted K → Run K (Trainer K) Bool
  | .failure p f => throw (.reported p f)
  | .result _ value records => do
    let _ ← Trainer.installRecords records
    Trainer.finishIteration engine plan value

/-- What the coordinator installs of it. -/
def heard : Posted K → Watched (Trainer K) → List (Installation K)
  | .failure _ _, _ => []
  | .result _ _ records, w => Trainer.installsRecords records w

theorem leaves_hear (post : Posted K) :
    Leaves Trainer.Installs (hear engine plan post) (heard post) := by
  cases post with
  | failure p f => exact Trainer.isTrail_installs.refl
  | result p value records =>
    exact (Trainer.leaves_installRecords records).before Trainer.isTrail_installs fun _ =>
      Trainer.leaves_finishIteration value

/-- The coordinator after some posts, whether it failed on the way or not. -/
def hearAll (engine : Engine K) (plan : TrainingPlan K) (posts : List (Posted K))
    (w : Watched (Trainer K)) : Watched (Trainer K) :=
  posts.foldl (fun w post => final (hear engine plan post) w) w

def heardAll (engine : Engine K) (plan : TrainingPlan K) :
    List (Posted K) → Watched (Trainer K) → List (Installation K) :=
  throughout heard fun post => final (hear engine plan post)

/-- The coordinator of a team. -/
def alone (w : Watched (Team K)) : Watched (Trainer K) := ⟨w.monitor, w.part.coordinator⟩

omit [Numeral K] in
theorem alone_onCoordinator (step : Run K (Trainer K) A) (w : Watched (Team K)) :
    alone (final (onCoordinator step) w) = final step (alone w) := by
  rw [onCoordinator, Run.final_within]
  rfl

/-- That records are passed on makes no difference to the coordinator. -/
theorem alone_collect (post : Posted K) (w : Watched (Team K)) :
    alone (final (collect engine plan post) w) = final (hear engine plan post) (alone w) := by
  cases post with
  | failure p f => rfl
  | result p value records =>
    cases hinstall : Trainer.installRecords records (alone w) with
    | ok fresh u =>
      let v : Watched (Team K) := ⟨u.monitor, { w.part with coordinator := u.part }⟩
      have hcoordinator : onCoordinator (Trainer.installRecords records) w = .ok fresh v :=
        Run.within_eq_ok.2 ⟨u, hinstall, rfl⟩
      obtain ⟨x, hshare, hx⟩ : ∃ x, share p records w = .ok () x ∧ alone x = u := by
        unfold share
        rw [bind_of_ok hcoordinator]
        split_ifs
        · exact ⟨_, rfl, rfl⟩
        · exact ⟨v, rfl, rfl⟩
      have hcollect : final (collect engine plan (.result p value records)) w =
          final (onCoordinator (Trainer.finishIteration engine plan value)) x := by
        rw [collect, final, bind_of_ok hshare]
        rfl
      have hhear : final (hear engine plan (.result p value records)) (alone w) =
          final (Trainer.finishIteration engine plan value) u := by
        rw [hear, final, bind_of_ok hinstall]
        rfl
      rw [hcollect, hhear, alone_onCoordinator, hx]
    | error e u =>
      have hcoordinator : onCoordinator (Trainer.installRecords records) w =
          .error e ⟨u.monitor, { w.part with coordinator := u.part }⟩ := Run.within_of_error hinstall
      have hcollect : collect engine plan (.result p value records) w =
          .error e ⟨u.monitor, { w.part with coordinator := u.part }⟩ :=
        bind_of_error (bind_of_error hcoordinator)
      have hhear : hear engine plan (.result p value records) (alone w) = .error e u :=
        bind_of_error hinstall
      rw [final_of_error hcollect, final_of_error hhear]
      rfl

/-- The coordinator has come from `start` by what was posted to it. -/
def HasHeard (engine : Engine K) (plan : TrainingPlan K) (start : Watched (Trainer K))
    (w : Watched (Team K)) : Prop := ∃ posts, alone w = hearAll engine plan posts start

variable {start : Watched (Trainer K)} {w v : Watched (Team K)}

theorem HasHeard.collect (h : HasHeard engine plan start w) (post : Posted K) :
    HasHeard engine plan start (final (Team.collect engine plan post) w) := by
  obtain ⟨posts, hposts⟩ := h
  refine ⟨posts ++ [post], ?_⟩
  rw [alone_collect, hposts, hearAll, hearAll, List.foldl_append]
  rfl

/-- In whichever order a team acts, its coordinator has heard some posts. -/
theorem HasHeard.of_happens (h : HasHeard engine plan start w)
    (hruns : Relation.ReflTransGen (Happens engine plan) w v) : HasHeard engine plan start v := by
  induction hruns with
  | refl => exact h
  | tail _ hstep ih =>
    cases hstep with
    | collect _ => exact HasHeard.collect (by exact ih) _
    | merge _ _ => exact ih
    | iterate _ => exact ih

theorem keeps_hasHeard_lockstep (schedule : List ℕ) (steps i : ℕ) :
    Keeps (HasHeard engine plan start) (lockstep engine plan schedule steps i) := by
  refine keeps_lockstep_of_moves (fun w v hmove hw => ?_) _ _ _
  cases hmove with
  | collect _ => exact HasHeard.collect (by exact hw) _
  | turn p =>
    unfold HasHeard alone
    rw [coordinator_turnOf]
    exact hw

end Team

/-! ## All that may be done with a trainer -/

namespace Trainer

/-- What may be done with a trainer: it trains alone, or as the coordinator of a team to which these posts
come in this order; it goes through an iteration as a worker, or through a backward pass; or it is given a
batch of records. -/
inductive Deed (K : Type) where
  | train (c : Call K)
  | gather (engine : Engine K) (plan : TrainingPlan K) (posts : List (Posted K))
      (stopReason : Option (StopReason K))
  | work (engine : Engine K) (p : ℤ) (cleanEvery : Option ℤ) (i : ℕ)
  | backward (engine : Engine K) (path : List ℤ) (states : List (List K)) (iteration : ℤ)
  | merge (batch : List (CutRecord K))

namespace Deed

/-- The trainer after the deed, whichever way it ends. -/
def perform : Deed K → Watched (Trainer K) → Watched (Trainer K)
  | train c, w => final c.perform w
  | gather engine plan posts stopReason, w =>
    let v := Team.hearAll engine plan posts { w with part := opened plan.writes w.part }
    ⟨v.monitor, closed { v.part with stopReason }⟩
  | work engine p cleanEvery i, w => final (Worker.iterate engine p cleanEvery i) w
  | backward engine path states iteration, w => final (Trainer.backward engine path states iteration) w
  | merge batch, w => final (installRecords batch) w

/-- What the deed installs, up to its fault if it has one. -/
def installs : Deed K → Watched (Trainer K) → List (Installation K)
  | train c, w => c.installs w
  | gather engine plan posts _, w =>
    Team.heardAll engine plan posts { w with part := opened plan.writes w.part }
  | work engine p _ i, w => installsWork engine p i w
  | backward engine path states iteration, w => installsBackward engine path states iteration w
  | merge batch, w => installsRecords batch w

theorem installs_perform (d : Deed K) (w : Watched (Trainer K)) :
    Installs w (d.installs w) (d.perform w) := by
  cases d with
  | train c => exact c.leaves_perform w
  | gather engine plan posts stopReason =>
    intro hsettled
    have hhear : ∀ post w, Installs w (Team.heard post w) (final (Team.hear engine plan post) w) :=
      Team.leaves_hear
    obtain ⟨htaken, hknown⟩ := leaves_throughout isTrail_installs hhear posts
      { w with part := opened plan.writes w.part } hsettled
    exact ⟨htaken, hknown⟩
  | work engine p cleanEvery i => exact leaves_work p cleanEvery i w
  | backward engine path states iteration => exact leaves_backward path states iteration w
  | merge batch => exact leaves_installRecords batch w

/-- The trainer after some deeds. -/
def performAll (deeds : List (Deed K)) (w : Watched (Trainer K)) : Watched (Trainer K) :=
  deeds.foldl (fun w d => d.perform w) w

/-- All that some deeds install. -/
def installsAll : List (Deed K) → Watched (Trainer K) → List (Installation K) :=
  throughout installs perform

/-- Every training is such a deed, also that of a team in which things happen in any order. -/
theorem exists_of_trains {P : TrainingPlan K → Prop} {w v : Watched (Trainer K)} (h : Trains P w v) :
    ∃ d : Deed K, d.perform w = v := by
  cases h with
  | alone engine _ _ =>
    rename_i plan _
    refine ⟨train ⟨engine, plan, id⟩, ?_⟩
    rw [perform, Call.perform_eq_train]
  | lockstep engine schedule _ _ _ =>
    rename_i plan workers _ _
    let begun : Watched (Trainer K) := { w with part := opened plan.writes w.part }
    let team : Watched (Team K) := ⟨begun.monitor, ⟨begun.part, workers.map fun u => { trainer := u }, []⟩⟩
    let x : Run K (Team K) Unit := do
      Team.lockstep engine plan schedule (Team.mostSteps plan (← Run.part)) 0
    obtain ⟨posts, hposts⟩ : Team.HasHeard engine plan begun (final x team) :=
      Keeps.final (Run.keeps_part_bind fun _ _ => Team.keeps_hasHeard_lockstep schedule _ _) ⟨[], rfl⟩
    obtain ⟨stopReason, hend⟩ := exists_final_training plan
      (Run.within (fun t => { coordinator := t, workers := workers.map fun w => { trainer := w } })
        (fun team _ => team.coordinator) x) w
    rw [Run.final_within] at hend
    refine ⟨gather engine plan posts stopReason, ?_⟩
    show _ = final (training plan _) w
    rw [hend, perform, ← hposts]
    rfl
  | team stopReason _ _ hhappens =>
    rename_i engine plan workers v _ _
    obtain ⟨posts, hposts⟩ : Team.HasHeard engine plan { w with part := opened plan.writes w.part } v :=
      Team.HasHeard.of_happens ⟨[], rfl⟩ hhappens
    refine ⟨gather engine plan posts stopReason, ?_⟩
    rw [perform, ← hposts]
    rfl

end Deed

/-- What a trainer knows of the cuts that it has installed. A new trainer is used in any way: it trains alone
or in a team, goes through backward passes and is given batches of records, and each of these may end early,
with a fault or an interruption. Its graph has taken in the records that are listed as installed, and it
knows those that are listed as registered. So it knows all that it has installed just if it knows the strays
for another reason; these are the records that were installed by a backward pass before it was broken
off. Nothing that is the same as a known record is fresh again, but a record that is not known is fresh when
it comes next. -/
theorem knows_installed_iff (htrans : Scalar.EqTransitive K) {g : PolicyGraph K} (hg : g.IsSettled)
    (k : Monitor) (deeds : List (Deed K)) :
    let w := Deed.performAll deeds ⟨k, start g⟩
    let installations := Deed.installsAll deeds ⟨k, start g⟩
    (HasTaken g (records installations) w.part.graph ∧
      ∀ r : CutRecord K, r.Among w.part.known ↔ r.Among (registered installations)) ∧
    ((∀ i ∈ installations, i.record.Among w.part.known) ↔
      ∀ i ∈ installations, i.isRegistered = false → i.record.Among (registered installations)) ∧
    ∀ i ∈ installations,
      (i.record.Among w.part.known →
        ∀ batch, ∀ r ∈ CutRecord.fresh batch w.part.known, r.same i.record = false) ∧
      (¬ i.record.Among w.part.known → CutRecord.fresh [i.record] w.part.known = [i.record]) := by
  intro w installations
  have hfollows : (start g).Follows installations w.part :=
    leaves_throughout isTrail_installs Deed.installs_perform deeds ⟨k, start g⟩ hg
  have hknown : ∀ r : CutRecord K,
      r.Among w.part.known ↔ r.Among (registered installations) := by
    intro r
    rw [hfollows.known, CutRecord.among_learnAll htrans]
    exact or_iff_right fun ⟨s, hs, _⟩ => absurd hs (List.not_mem_nil)
  refine ⟨⟨hfollows.taken, hknown⟩, ⟨fun hall i hi _ => (hknown _).1 (hall i hi), fun hstrays i hi => ?_⟩,
    fun i _ => ⟨fun hi batch r hr => CutRecord.same_eq_false_of_among htrans hr hi,
      CutRecord.fresh_of_not_among⟩⟩
  rw [hknown]
  cases hi' : i.isRegistered with
  | false => exact hstrays i hi hi'
  | true => exact CutRecord.among_of_mem (mem_registered.2 ⟨i, hi, hi', rfl⟩)

end Trainer

/-! ## A larder for three stages -/

namespace Larder

def chain : PolicyGraph ℤ :=
  final (PolicyGraph.build builder) { unbuilt with stages := 3, transitions := .trivial 3 }

theorem build_chain :
    PolicyGraph.build builder { unbuilt with stages := 3, transitions := .trivial 3 } = .ok () chain := by
  have hsucceeds : succeeds (PolicyGraph.build builder)
      { unbuilt with stages := 3, transitions := .trivial 3 } = true := by decide +kernel
  exact eq_ok_final hsucceeds

/-- A buyer who gives up after the first solve. -/
def quitter : Engine ℤ :=
  { buyer with
    solve := fun call reductions p => if call < 1 then buyer.solve call reductions p else .other 9 }

/-- A backward pass that is broken off behind its first cut. -/
def brokenPass : Trainer.Deed ℤ := .backward quitter [0, 0, 0] [[0], [0], [0]] 0

/-- What the broken pass installs. -/
def secondShortage : CutRecord ℤ := { shortage with stage := 1 }

end Larder

/-- The cut is in the graph, but its record is not known, and it is fresh when it comes. -/
theorem Trainer.not_knows_installed_chain :
    let start : Watched (Trainer ℤ) := ⟨{}, .start Larder.chain⟩
    let w := Deed.performAll [Larder.brokenPass] start
    let installations := Deed.installsAll [Larder.brokenPass] start
    PolicyGraph.build Larder.builder { Larder.unbuilt with stages := 3, transitions := .trivial 3 } =
      .ok () Larder.chain ∧
    ¬ (∀ i ∈ installations, i.record.Among w.part.known) ∧
    (w.part.graph.storedAt 1 0 0).length = 1 ∧
    ∀ i ∈ installations, CutRecord.fresh [i.record] w.part.known = [i.record] := by
  intro start w installations
  have hnothing : w.part.known = [] := List.isEmpty_iff.1 (by decide +kernel)
  have hnone : ∀ r : CutRecord ℤ, ¬ r.Among w.part.known := by
    rw [hnothing]
    rintro r ⟨s, hs, -⟩
    exact List.not_mem_nil hs
  refine ⟨Larder.build_chain, fun hall => ?_, by decide +kernel,
    fun i _ => CutRecord.fresh_of_not_among (hnone _)⟩
  obtain ⟨i, hi⟩ : ∃ i, i ∈ installations := List.exists_mem_of_length_pos (by decide +kernel)
  exact hnone _ (hall i hi)

/-- When the same record comes from elsewhere, it is installed again, and known at last. -/
theorem Trainer.knows_installed_iff_chain :
    let start : Watched (Trainer ℤ) := ⟨{}, .start Larder.chain⟩
    let deeds : List (Deed ℤ) := [Larder.brokenPass, .merge [Larder.secondShortage]]
    (Scalar.EqTransitive ℤ ∧ Larder.chain.IsSettled) ∧
    (Deed.installsAll deeds start).map Installation.isRegistered = [false, true] ∧
    ∀ i ∈ Deed.installsAll deeds start, i.record.Among (Deed.performAll deeds start).part.known := by
  intro start deeds
  have hsettled : Larder.chain.IsSettled :=
    isSettled_of_holds (Node.isPlaced_isSound _) (isSound_build Larder.build_chain)
  have hall : (Deed.installsAll deeds start).all (fun i =>
      i.record.isIn (registered (Deed.installsAll deeds start))) = true := by decide +kernel
  obtain ⟨-, hknows, -⟩ := Trainer.knows_installed_iff Scalar.eqTransitive_int hsettled {} deeds
  refine ⟨⟨Scalar.eqTransitive_int, hsettled⟩, by decide +kernel, hknows.2 fun i hi _ => ?_⟩
  exact CutRecord.among_of_isIn (List.all_eq_true.1 hall i hi)

end DualDynamic
