import DualDynamic.Proofs.PolicyGraph.Stored
import DualDynamic.Proofs.Training.Evaluation
import DualDynamic.Proofs.Training.History

/-!
# Trainings that are broken off

A callback or a solve may raise a fault or an interruption at any time: in a simulated pass, in a backward
pass that has stored some of its cuts already, in the bound or in an evaluation. The trainer that is left
behind goes on with its next training, and what it says of itself has to be right.

It is, for two reasons. The history of a trainer changes in one place only, where the bound of an iteration is
known, and there all of it changes at once (`Trainer.IsCounted`). And a cut is written before it is put into
the graph, so that the file is never behind it (`Recorded.IsAhead`). Both hold at every fault, so they hold
from one training to the next.
-/

namespace DualDynamic

open Step PolicyGraph

variable {K A : Type}

/-! ## Faults under other names -/

namespace Run

variable {S : Type} {I : Watched S → Prop}

/-- A step whose faults are raised as others. -/
def raising (raise : Fault K → Fault K) (step : Run K S A) : Run K S A := fun w =>
  match step w with
  | .ok a v => .ok a v
  | .error e v => .error (raise e) v

theorem raising_id (step : Run K S A) : raising id step = step := by
  funext w
  unfold raising
  cases step w <;> rfl

theorem final_raising (raise : Fault K → Fault K) (step : Run K S A) (w : Watched S) :
    final (raising raise step) w = final step w := by
  unfold final raising
  cases step w <;> rfl

theorem keeps_raising {step : Run K S A} (h : Keeps I step) (raise : Fault K → Fault K) :
    Keeps I (raising raise step) :=
  keeps_iff_final.2 fun w hw => final_raising raise step w ▸ h.final hw

theorem raising_eq_ok {raise : Fault K → Fault K} {step : Run K S A} {w v : Watched S} {a : A} :
    raising raise step w = .ok a v ↔ step w = .ok a v := by
  unfold raising
  cases step w <;> simp

theorem raising_of_error {raise : Fault K → Fault K} {step : Run K S A} {w v : Watched S}
    {e : Fault K} (h : step w = .error e v) : raising raise step w = .error (raise e) v := by
  rw [raising, h]

end Run

variable [Numeral K] {engine : Engine K} {plan : TrainingPlan K}

/-- An interruption is not a stopping rule. -/
theorem Limits.ne_interrupted_of_check {l : Limits K} {p : Progress K} {reason : StopReason K}
    (h : l.check p = some reason) : reason ≠ .interrupted := by
  rintro rfl
  unfold check at h
  split_ifs at h <;> cases h

/-! ## The file is ahead -/

theorem CutFile.foldl_write (records : List (CutRecord K)) (l : Log) :
    records.foldl Log.write l =
      { l with text := l.text ++ if l.isOpen then textOf records else "" } := by
  induction records generalizing l with
  | nil =>
    obtain ⟨text, isOpen⟩ := l
    cases isOpen <;> simp [textOf]
  | cons r records ih =>
    rw [List.foldl_cons, ih]
    unfold Log.write
    cases h : l.isOpen <;> simp [textOf, String.append_assoc, h]

namespace Recorded

/-- The records were written since then, and all that the graph has taken in is among them. -/
structure WritesAhead (s₀ : Recorded K) (written : List (CutRecord K)) (s : Recorded K) : Prop where
  settled : s.graph.IsSettled
  taken : ∃ taken, HasTaken s₀.graph taken s.graph ∧ ∀ r ∈ taken, r ∈ written
  log : s.log = written.foldl CutFile.Log.write s₀.log

/-- All that the graph has taken in since then was written. -/
def IsAhead (s₀ s : Recorded K) : Prop := ∃ written, WritesAhead s₀ written s

variable {s₀ s : Recorded K} {written : List (CutRecord K)} {r : CutRecord K}

theorem WritesAhead.refl (h : s.graph.IsSettled) : WritesAhead s [] s :=
  ⟨h, ⟨[], .refl s.graph, fun _ => id⟩, rfl⟩

theorem IsAhead.trans {s' : Recorded K} (h : IsAhead s₀ s) (h' : IsAhead s s') : IsAhead s₀ s' := by
  obtain ⟨written, hs⟩ := h
  obtain ⟨written', hs'⟩ := h'
  obtain ⟨taken, htaken, hsub⟩ := hs.taken
  obtain ⟨taken', htaken', hsub'⟩ := hs'.taken
  refine ⟨written ++ written', hs'.settled, ⟨taken ++ taken', htaken.trans htaken', fun r hr => ?_⟩, ?_⟩
  · exact List.mem_append.2 ((List.mem_append.1 hr).imp (hsub r) (hsub' r))
  · rw [List.foldl_append, ← hs.log, hs'.log]

/-- What a graph is set up for does not matter. -/
theorem WritesAhead.of_bare {graph : PolicyGraph K} (h : WritesAhead s₀ written s)
    (hsettled : graph.IsSettled) (hbare : graph.bare = s.graph.bare) :
    WritesAhead s₀ written { s with graph } := by
  obtain ⟨taken, htaken, hsub⟩ := h.taken
  exact ⟨hsettled, ⟨taken, htaken.of_bare hbare, hsub⟩, h.log⟩

/-- A record is written first. -/
theorem WritesAhead.write (h : WritesAhead s₀ written s) (r : CutRecord K) :
    WritesAhead s₀ (written ++ [r]) { s with log := s.log.write r } := by
  obtain ⟨taken, htaken, hsub⟩ := h.taken
  refine ⟨h.settled, ⟨taken, htaken, fun r hr => List.mem_append_left _ (hsub r hr)⟩, ?_⟩
  rw [List.foldl_append, ← h.log]
  rfl

/-- Then its cut is put into the graph, which may refuse it. -/
theorem keeps_writesAhead_installCut (hr : r ∈ written) (state : Option (Datum K)) :
    Keeps (fun w => WritesAhead s₀ written w.part) (onGraph (Run.ofStep
      (PolicyGraph.installCut r.stage r.markov r.rib r.cut state))) := by
  refine Run.keeps_within fun w hw => ⟨fun v => WritesAhead s₀ written { w.part with graph := v.part },
    hw, Run.keeps_ofStep fun v hv g hg => ?_, fun v hv => hv⟩
  cases hinstall : PolicyGraph.installCut r.stage r.markov r.rib r.cut state g with
  | ok new g' =>
    obtain ⟨taken, htaken, hsub⟩ := hg.taken
    refine ⟨(storedAt_installCut hg.settled hinstall).1,
      ⟨taken ++ [r], htaken.trans (.of_installCut r hinstall), fun s hs => ?_⟩, hg.log⟩
    rcases List.mem_append.1 hs with hs | hs
    · exact hsub s hs
    · exact List.mem_singleton.1 hs ▸ hr
  | error e g' =>
    obtain rfl := eq_of_installCut_eq_error hinstall
    exact hg

theorem keeps_isAhead_updateRib (n : Node K) (state : List K) (iteration : Option ℤ) (rib : Option K) :
    Keeps (fun w => IsAhead s₀ w.part) (updateRib engine n state iteration rib) := by
  have hgenerate : Keeps (fun w => IsAhead s₀ w.part)
      (onGraph (PolicyGraph.generateCut engine n state rib iteration)) := by
    refine Run.keeps_within fun w ⟨written, hw⟩ => ⟨fun v => v.part.IsSettled ∧
      v.part.bare = w.part.graph.bare, ⟨hw.settled, rfl⟩,
      (isSolving_generateCut n state rib iteration).keeps_bare _, fun v hv => ?_⟩
    exact ⟨written, hw.of_bare hv.1 hv.2⟩
  refine hgenerate.bind fun cut => ?_
  let r : CutRecord K := ⟨n.stage, n.markov, rib, cut⟩
  refine Ensures.bind (Q := fun _ w => ∃ written, r ∈ written ∧ WritesAhead s₀ written w.part)
    (ensures_modify fun w ⟨written, hw⟩ => ⟨written ++ [r], by simp, hw.write r⟩) fun _ => ?_
  rintro w ⟨written, hr, hw⟩
  have hinstall : Keeps (fun w => WritesAhead s₀ written w.part) (onGraph (Run.ofStep
      (PolicyGraph.installCut n.stage n.markov rib cut (some (.list (state.map .real)))))) :=
    keeps_writesAhead_installCut hr _
  exact (Ensures.bind (hinstall.weaken (fun _ => id) (fun _ _ h => ⟨written, h⟩) fun _ h => ⟨written, h⟩)
    fun _ => keeps_pure _) w hw

/-- A backward pass that fails has written what it has put into the graph. -/
theorem keeps_isAhead_backward (path : List ℤ) (states : List (List K)) (iteration : Option ℤ) :
    Keeps (fun w => IsAhead s₀ w.part) (backward engine path states iteration) :=
  Run.keeps_part_bind fun _ _ => (Keeps.mapM fun _ _ => Run.keeps_part_bind fun _ _ =>
    (keeps_ofExcept _).bind fun _ => (keeps_ofExcept _).bind fun _ =>
      Keeps.mapM fun _ _ => keeps_isAhead_updateRib _ _ _ _).bind fun _ => keeps_pure _

end Recorded

namespace Trainer

variable {t t' u : Trainer K} {s₀ : Recorded K}

theorem keeps_isAhead_onGraph {x : Run K (PolicyGraph K) A}
    (hx : ∀ b, Keeps (fun w => w.part.IsSettled ∧ w.part.bare = b) x) :
    Keeps (fun w => Recorded.IsAhead s₀ ⟨w.part.graph, w.part.log⟩) (onGraph x) := by
  refine Run.keeps_within fun w ⟨written, hw⟩ => ⟨fun v => v.part.IsSettled ∧
    v.part.bare = w.part.graph.bare, ⟨hw.settled, rfl⟩, hx _, fun v hv => ?_⟩
  exact ⟨written, hw.of_bare hv.1 hv.2⟩

theorem overlooks_isAhead :
    Overlooks engine fun t => Recorded.IsAhead s₀ ⟨t.graph, t.log⟩ where
  solving hx := keeps_isAhead_onGraph hx.keeps_bare
  change {f} hf := Run.keeps_change fun w ⟨written, hw⟩ => by
    obtain ⟨hgraph, hlog, -⟩ := hf w.part
    have hbare : (f w.part).graph.bare = w.part.graph.bare := (congrArg PolicyGraph.bare hgraph :)
    have hsettled : (f w.part).graph.IsSettled :=
      isSettled_bare.1 (hbare ▸ isSettled_bare.2 hw.settled)
    refine ⟨written, ?_⟩
    rw [hlog]
    exact hw.of_bare hsettled hbare

theorem keeps_isAhead_passes (stream : MersenneTwister) (iteration : ℤ) :
    Keeps (fun w => Recorded.IsAhead s₀ ⟨w.part.graph, w.part.log⟩)
      (passes engine stream iteration) := by
  refine (overlooks_isAhead.solving (isSolving_simulation stream [])).bind fun pass => ?_
  refine Keeps.bind (Keeps.bind (Run.keeps_within fun w hw => ⟨fun v => Recorded.IsAhead s₀ v.part, hw,
    Recorded.keeps_isAhead_backward _ _ _, fun _ hv => hv⟩) fun records => ?_) fun _ => keeps_pure _
  exact (Run.keeps_change fun _ hw => hw).bind fun _ => keeps_pure _

theorem keeps_isAhead_iterations (n : ℕ) :
    Keeps (fun w => Recorded.IsAhead s₀ ⟨w.part.graph, w.part.log⟩) (iterations engine plan n) :=
  keeps_iterations_of_parts keeps_isAhead_passes overlooks_isAhead.keeps_finishIteration
    (keeps_cleanIfDue (J := fun t => Recorded.IsAhead s₀ ⟨t.graph, t.log⟩)
      (keeps_isAhead_onGraph fun b => Run.keeps_ofStep fun _ _ => keeps_bare_clean b) _) n

/-! ## The history is right -/

/-- There are as many bounds and values as iterations, and the last bound is the one of the graph. -/
structure IsCounted (t : Trainer K) : Prop where
  bounds : t.bounds.length = t.iteration
  values : t.values.length = t.iteration
  bound : ∀ x, t.bounds.getLast? = some x → t.graph.bound = some x

omit [Numeral K] in
theorem IsCounted.of_history (h : t.IsCounted) (hu : u.history = t.history) : u.IsCounted := by
  have hbounds : u.bounds = t.bounds := congrArg (fun s => s.bounds) hu
  have hvalues : u.values = t.values := congrArg (fun s => s.values) hu
  have hiteration : u.iteration = t.iteration := congrArg (fun s => s.iteration) hu
  have hbound : u.graph.bound = t.graph.bound := congrArg (fun s => s.graph.bound) hu
  exact ⟨by rw [hbounds, hiteration, h.bounds], by rw [hvalues, hiteration, h.values],
    fun x hx => hbound.trans (h.bound x (hbounds ▸ hx))⟩

omit [Numeral K] in
/-- What leaves the history alone leaves it right, whether it fails or not. -/
theorem keeps_isCounted {x : Run K (Trainer K) A}
    (hx : ∀ t : Trainer K, Keeps (fun w => w.part.history = t) x) :
    Keeps (fun w => w.part.IsCounted) x :=
  keeps_iff_final.2 fun w hw => hw.of_history ((hx w.part.history).final rfl)

theorem IsCounted.addIteration (h : t.IsCounted) (bound value time : K) :
    (addIteration bound value time t).IsCounted where
  bounds := by simp [Trainer.addIteration, h.bounds]
  values := by simp [Trainer.addIteration, h.values]
  bound x hx := by
    have hlast : (t.bounds ++ [bound]).getLast? = some x := hx
    rw [List.getLast?_concat] at hlast
    exact hlast

theorem keeps_isCounted_finishIteration (value : K) :
    Keeps (fun w => w.part.IsCounted) (finishIteration engine plan value) := by
  have hevaluate : Keeps (fun w => w.part.IsCounted) (evaluateIfDue engine plan) :=
    keeps_evaluateIfDue_of_parts (keeps_isCounted fun _ =>
      keeps_history_onGraph fun _ => Evaluation.keeps_setting_run _) fun _ _ hw => { hw with }
  exact keeps_finishIteration_of_parts
    (keeps_isCounted fun _ => keeps_history_onGraph fun _ => keeps_setting_computeBound)
    (fun _ _ _ _ hw => hw.addIteration _ _ _) hevaluate (fun _ _ hw => { hw with }) value

theorem keeps_isCounted_iterations (n : ℕ) :
    Keeps (fun w => w.part.IsCounted) (iterations engine plan n) :=
  keeps_iterations_of_parts (fun _ _ => keeps_isCounted fun _ => keeps_history_passes _ _)
    keeps_isCounted_finishIteration (fun _ => keeps_isCounted fun _ => keeps_history_cleanIfDue _ _) n

/-! ## Calls -/

/-- A training: with an engine, by a plan, and what the faults of callbacks and solves are raised as. With a
suitable engine any solve may be the last one, and its fault may be raised as an interruption. -/
structure Call (K : Type) where
  engine : Engine K
  plan : TrainingPlan K
  raise : Fault K → Fault K := id

namespace Call

/-- The iterations of a call to a trainer. -/
def loop (c : Call K) (t : Trainer K) : Run K (Trainer K) Unit :=
  Run.raising c.raise (iterations c.engine c.plan (mostIterations c.plan t))

def perform (c : Call K) : Run K (Trainer K) Unit := do
  let t ← Run.part
  training c.plan (c.loop t)

/-- If faults are raised as they are, it is a training. -/
theorem perform_eq_train (engine : Engine K) (plan : TrainingPlan K) :
    perform ⟨engine, plan, id⟩ = train engine plan := by
  simp only [perform, loop, Run.raising_id]
  rfl

/-- How a call to the trainer `w` returns, with `v` behind it. -/
structure Returns (c : Call K) (w v : Watched (Trainer K)) : Prop where
  /-- An interruption ends it normally. -/
  interrupted : ∀ u, c.loop w.part { w with part := opened c.plan.writes w.part } =
    .error .interrupted u → c.perform w = .ok () v ∧
      v.part.stopReason.map StopReason.text = some "interruption by the user"
  /-- No other fault does. -/
  fails : ∀ e u, c.loop w.part { w with part := opened c.plan.writes w.part } = .error e u →
    e ≠ .interrupted → c.perform w = .error e v
  ends : ∀ u, c.loop w.part { w with part := opened c.plan.writes w.part } = .ok () u →
    c.perform w = .ok () v ∧ ∃ reason, v.part.stopReason = some reason ∧ reason ≠ .interrupted

variable {c : Call K} {w u : Watched (Trainer K)}

theorem perform_eq (c : Call K) (w : Watched (Trainer K)) :
    c.perform w = Run.andThen (Run.untilInterrupted (c.loop w.part)
      (Run.change fun t => { t with stopReason := some .interrupted })) closed
        { w with part := opened c.plan.writes w.part } := rfl

theorem perform_of_interrupted
    (h : c.loop w.part { w with part := opened c.plan.writes w.part } = .error .interrupted u) :
    c.perform w =
      .ok () { u with part := closed { u.part with stopReason := some .interrupted } } := by
  rw [perform_eq]
  unfold Run.andThen Run.untilInterrupted
  rw [h]
  rfl

theorem perform_of_error {e : Fault K}
    (h : c.loop w.part { w with part := opened c.plan.writes w.part } = .error e u)
    (he : e ≠ .interrupted) : c.perform w = .error e { u with part := closed u.part } := by
  rw [perform_eq]
  unfold Run.andThen Run.untilInterrupted
  rw [h]
  cases e with
  | interrupted => exact absurd rfl he
  | _ => rfl

theorem perform_of_ok
    (h : c.loop w.part { w with part := opened c.plan.writes w.part } = .ok () u) :
    c.perform w = .ok () { u with part := closed u.part } := by
  rw [perform_eq]
  unfold Run.andThen Run.untilInterrupted
  rw [h]

/-- Iterations that come to an end have met a stopping rule. -/
theorem exists_reason_of_loop
    (h : c.loop w.part { w with part := opened c.plan.writes w.part } = .ok () u) :
    ∃ reason, u.part.stopReason = some reason ∧ reason ≠ .interrupted := by
  have hiterations := Run.raising_eq_ok.1 h
  rw [← map_observeIterations] at hiterations
  obtain ⟨marks, hmarks, -⟩ := map_eq_ok.1 hiterations
  obtain ⟨hcourse, hlast⟩ := course_of_observeIterations (by exact le_rfl) hmarks
  obtain ⟨u', reason, hlast', hcheck, hreason⟩ := hcourse.exists_last
  obtain rfl := Option.some.inj (hlast.symm.trans hlast')
  exact ⟨reason, hreason, Limits.ne_interrupted_of_check hcheck⟩

theorem returns (c : Call K) (w : Watched (Trainer K)) : c.Returns w (final c.perform w) where
  interrupted u hu := by
    have hrun := perform_of_interrupted hu
    rw [final_of_ok hrun]
    exact ⟨hrun, rfl⟩
  fails e u hu he := by
    have hrun := perform_of_error hu he
    rw [final_of_error hrun]
    exact hrun
  ends u hu := by
    have hrun := perform_of_ok hu
    obtain ⟨reason, hreason, hne⟩ := exists_reason_of_loop hu
    rw [final_of_ok hrun]
    exact ⟨hrun, reason, hreason, hne⟩

/-- A call leaves a right history and a closed file behind, and what it has put into the graph is written
if it writes. -/
theorem of_perform (c : Call K) {w : Watched (Trainer K)} (hcounted : w.part.IsCounted)
    (hsettled : w.part.graph.IsSettled) :
    let v := (final c.perform w).part
    v.IsCounted ∧ v.log.isOpen = false ∧
      Recorded.IsAhead ⟨w.part.graph, { w.part.log with isOpen := c.plan.writes }⟩
        ⟨v.graph, { v.log with isOpen := c.plan.writes }⟩ := by
  let s₀ : Recorded K := ⟨w.part.graph, { w.part.log with isOpen := c.plan.writes }⟩
  let I := fun v : Watched (Trainer K) => v.part.IsCounted ∧
    Recorded.IsAhead s₀ ⟨v.part.graph, v.part.log⟩
  have hloop : Keeps I (c.loop w.part) := Run.keeps_raising
    ((keeps_isCounted_iterations _).and (keeps_isAhead_iterations _)) _
  have hinterrupt : Keeps I (Run.change fun t => { t with stopReason := some .interrupted } :
      Run K (Trainer K) Unit) :=
    Run.keeps_change fun _ hw => ⟨{ hw.1 with }, hw.2⟩
  have hbegin : I { w with part := opened c.plan.writes w.part } :=
    ⟨{ hcounted with }, [], .refl hsettled⟩
  have hend : ∀ u, I u → (closed u.part).IsCounted ∧ (closed u.part).log.isOpen = false ∧
      Recorded.IsAhead s₀ ⟨u.part.graph, { (closed u.part).log with isOpen := c.plan.writes }⟩ := by
    rintro u ⟨hu, written, hahead⟩
    refine ⟨{ hu with }, rfl, written, ?_⟩
    have hlog : u.part.log = written.foldl CutFile.Log.write s₀.log := hahead.log
    have hopen : u.part.log.isOpen = c.plan.writes := by rw [hlog, CutFile.foldl_write]
    exact { hahead with log := by rw [← hopen]; exact hahead.log }
  exact Ensures.final (P := fun v => v = { w with part := opened c.plan.writes w.part })
    (Run.ensures_andThen (J := fun v => v.part.IsCounted ∧ v.part.log.isOpen = false ∧
      Recorded.IsAhead s₀ ⟨v.part.graph, { v.part.log with isOpen := c.plan.writes }⟩)
      ((Run.keeps_untilInterrupted hloop hinterrupt).weaken (fun v hv => hv ▸ hbegin) (fun _ _ => id)
        fun _ => id) hend) rfl

end Call

/-! ## One call after the other -/

/-- What is done with a trainer between its first and its last training: it is given another cut file, with
what that holds already, or it is trained. -/
inductive Use (K : Type) where
  | file (text : String)
  | train (c : Call K)

def Use.perform : Use K → Run K (Trainer K) Unit
  | file text => Run.change fun t => { t with log := { t.log with text } }
  | train c => c.perform

/-- The trainer after some uses, no matter how they returned. -/
def useAll (uses : List (Use K)) (w : Watched (Trainer K)) : Watched (Trainer K) :=
  uses.foldl (fun w use => final use.perform w) w

/-- A right history, and nodes where they belong. -/
structure IsReady (t : Trainer K) : Prop where
  counted : t.IsCounted
  settled : t.graph.IsSettled

theorem IsReady.perform {w : Watched (Trainer K)} (h : w.part.IsReady) (use : Use K) :
    (final use.perform w).part.IsReady := by
  cases use with
  | file text => exact ⟨{ h.counted with }, h.settled⟩
  | train c =>
    obtain ⟨hcounted, -, written, hahead⟩ := c.of_perform h.counted h.settled
    exact ⟨hcounted, hahead.settled⟩

theorem IsReady.useAll {w : Watched (Trainer K)} (h : w.part.IsReady) (uses : List (Use K)) :
    (useAll uses w).part.IsReady := by
  induction uses generalizing w with
  | nil => exact h
  | cons use uses ih => exact ih (h.perform use)

/-- A trainer whose cut file is open. -/
def writing (t : Trainer K) : Recorded K := ⟨t.graph, { t.log with isOpen := true }⟩

/-- Trainings that follow each other and write leave the file ahead. -/
theorem isAhead_useAll {w : Watched (Trainer K)} (h : w.part.IsReady) {calls : List (Call K)}
    (hwrites : ∀ c ∈ calls, c.plan.writes = true) :
    Recorded.IsAhead w.part.writing (useAll (calls.map .train) w).part.writing := by
  induction calls generalizing w with
  | nil => exact ⟨[], .refl h.settled⟩
  | cons c calls ih =>
    have hfirst := (c.of_perform h.counted h.settled).2.2
    rw [hwrites c (by simp)] at hfirst
    exact hfirst.trans (ih (h.perform (.train c)) fun d hd => hwrites d (by simp [hd]))

/-- Since then the cut file has grown by the lines of some records, and every cut that the graph stores now
and did not store then is the cut of one that belongs there. -/
def HasWritten (t u : Trainer K) : Prop :=
  ∃ records, u.log.text = t.log.text ++ CutFile.textOf records ∧
    ∀ s k i, ∀ c ∈ u.graph.storedAt s k i, c.bare ∈ (t.graph.storedAt s k i).map Cut.bare ∨
      ∃ r ∈ records, t.graph.placeOf r = some (s, k, i) ∧ r.cut.bare = c.bare

theorem hasWritten_of_isAhead (hsettled : t.graph.IsSettled)
    (h : Recorded.IsAhead t.writing u.writing) : t.HasWritten u := by
  obtain ⟨written, hahead⟩ := h
  obtain ⟨taken, htaken, hsub⟩ := hahead.taken
  refine ⟨written, ?_, fun s k i c hc => ?_⟩
  · have hlog : u.writing.log = written.foldl CutFile.Log.write t.writing.log := hahead.log
    rw [CutFile.foldl_write] at hlog
    exact congrArg CutFile.Log.text hlog
  · refine (htaken.of_mem_storedAt hsettled hc).imp_right ?_
    rintro ⟨r, hr, hplace, hcut⟩
    exact ⟨r, hsub r hr, hplace, hcut⟩

/-- Interruptions and failures leave the history in order. A new trainer is trained any number of times, with
any engines and plans, with cut files or without, and each training may be broken off wherever a callback or
a solve can fail, by an interruption or by any other fault. After each training there are as many bounds
and values as iterations, the last bound is the one of the graph, and the cut file is closed. What a
training puts into the graph it has written, and so have all trainings in a row that write to one file; a
training without a file writes nothing. It returns normally if it was interrupted, with this as the reason,
or if a stopping rule held, with the rule as the reason. Any other fault is passed on. -/
theorem trainings_leave_order {g : PolicyGraph K} (hg : g.IsSettled) (k : Monitor)
    (uses : List (Use K)) (c : Call K) :
    let w := useAll uses ⟨k, start g⟩
    let v := final c.perform w
    (v.part.bounds.length = v.part.iteration ∧ v.part.values.length = v.part.iteration ∧
      (∀ x, v.part.bounds.getLast? = some x → v.part.graph.bound = some x) ∧
      v.part.log.isOpen = false) ∧
    (∀ before calls, uses = before ++ calls.map .train →
      (∀ d ∈ c :: calls, d.plan.writes = true) →
        (useAll before ⟨k, start g⟩).part.HasWritten v.part) ∧
    (c.plan.writes = false → v.part.log.text = w.part.log.text) ∧
    c.Returns w v := by
  intro w v
  have hstart : (start g).IsReady := ⟨⟨rfl, rfl, by simp [start]⟩, hg⟩
  have hw : w.part.IsReady := IsReady.useAll (w := ⟨k, start g⟩) hstart uses
  obtain ⟨hcounted, hclosed, hahead⟩ := c.of_perform hw.counted hw.settled
  refine ⟨⟨hcounted.bounds, hcounted.values, hcounted.bound, hclosed⟩, ?_, fun hwrites => ?_,
    c.returns w⟩
  · rintro before calls rfl hwrites
    have hbefore : (useAll before ⟨k, start g⟩).part.IsReady :=
      IsReady.useAll (w := ⟨k, start g⟩) hstart before
    have hall : ∀ d ∈ calls ++ [c], d.plan.writes = true := fun d hd =>
      hwrites d (by simpa [or_comm] using hd)
    have hrow := isAhead_useAll hbefore hall
    have hend : useAll ((calls ++ [c]).map .train) (useAll before ⟨k, start g⟩) = v := by
      simp only [v, w, useAll, List.map_append, List.foldl_append]
      rfl
    rw [hend] at hrow
    exact hasWritten_of_isAhead hbefore.settled hrow
  · obtain ⟨written, hwritten⟩ := hahead
    have hlog := hwritten.log
    rw [CutFile.foldl_write, hwrites] at hlog
    simpa using congrArg CutFile.Log.text hlog

end Trainer

/-! ## The larder, broken off -/

namespace Larder

/-- An engine that gives up after some solves. -/
def faltering (solves : ℕ) : Engine Coin :=
  { planner with
    solve := fun call reductions p => if call < solves then planner.solve call reductions p else .other 9 }

def recorded : TrainingPlan Coin :=
  { limits := { Limits.standard with iterations := 1, tolerance := -1 }, evaluation := .standard,
    writes := true }

/-- A training that is interrupted when its first bound is computed, behind its first cut. -/
def brokenOff : Trainer.Call Coin := ⟨faltering 3, recorded, fun _ => .interrupted⟩

def complete : Trainer.Call Coin := ⟨planner, recorded, id⟩

/-- A training that fails at once. -/
def failing : Trainer.Call Coin := ⟨faltering 0, recorded, fun _ => .zeroDivision⟩

end Larder

/-- Three trainings of the larder: one that is interrupted, one that ends and one that fails. -/
theorem Trainer.trainings_leave_order_shop :
    let start : Watched (Trainer Coin) := ⟨{}, .start Larder.shop⟩
    let u := final Larder.brokenOff.perform start
    let v := final Larder.complete.perform u
    let w := final Larder.failing.perform v
    (PolicyGraph.build Larder.shopBuilder Larder.unbuiltShop = .ok () Larder.shop ∧
      u.part.iteration = 0 ∧ (u.part.graph.storedAt 0 0 0).length = 1 ∧ w.part.iteration = 1) ∧
    (Larder.brokenOff.perform start = .ok () u ∧
      u.part.stopReason.map StopReason.text = some "interruption by the user") ∧
    (Larder.complete.perform u = .ok () v ∧
      ∃ reason, v.part.stopReason = some reason ∧ reason ≠ .interrupted) ∧
    (Larder.failing.perform v = .error .zeroDivision w ∧ w.part.bounds.length = w.part.iteration ∧
      w.part.values.length = w.part.iteration ∧ w.part.log.isOpen = false ∧
      start.part.HasWritten w.part) := by
  intro start u v w
  have hsettled : Larder.shop.IsSettled :=
    isSettled_of_holds (Node.isPlaced_isSound _) (isSound_build Larder.build_shop)
  obtain ⟨-, -, -, hinterrupted⟩ := trainings_leave_order hsettled {} [] Larder.brokenOff
  obtain ⟨-, -, -, hcomplete⟩ :=
    trainings_leave_order hsettled {} [.train Larder.brokenOff] Larder.complete
  obtain ⟨hcounted, hwritten, -, hfailing⟩ := trainings_leave_order hsettled {}
    [.train Larder.brokenOff, .train Larder.complete] Larder.failing
  have hbreaks : succeeds (iterations (Larder.faltering 3) Larder.recorded
      (mostIterations Larder.recorded start.part))
      { start with part := opened true start.part } = false := by decide +kernel
  have hends : succeeds (iterations Larder.planner Larder.recorded
      (mostIterations Larder.recorded u.part))
      { u with part := opened true u.part } = true := by decide +kernel
  have hfails : succeeds (iterations (Larder.faltering 0) Larder.recorded
      (mostIterations Larder.recorded v.part))
      { v with part := opened true v.part } = false := by decide +kernel
  obtain ⟨e, hbreaks⟩ := exists_eq_error_final hbreaks
  obtain ⟨e', hfails⟩ := exists_eq_error_final hfails
  refine ⟨⟨Larder.build_shop, by decide +kernel, by decide +kernel, by decide +kernel⟩,
    hinterrupted.interrupted _ (Run.raising_of_error hbreaks),
    hcomplete.ends _ (Run.raising_eq_ok.2 (eq_ok_final hends)),
    hfailing.fails _ _ (Run.raising_of_error hfails) nofun, hcounted.1, hcounted.2.1, hcounted.2.2.2,
    hwritten [] [Larder.brokenOff, Larder.complete] rfl (by simp [Larder.brokenOff, Larder.complete,
      Larder.failing, Larder.recorded])⟩

end DualDynamic
