import DualDynamic.Proofs.Cut
import DualDynamic.Proofs.PolicyGraph.Setting
import DualDynamic.Proofs.Training.Recording

/-!
# The history of a training

Bounds, values, counts, times and gaps change at the end of an iteration only (`Trainer.Advances`). Passes,
records from elsewhere and the removal of retired cuts leave them alone, and so does everything that
workers do.

A training is a course of such ends of iterations: after each but the last no stopping rule holds
(`Trainer.Course`). `observeIterations` and `observeLockstep` are the runs of a trainer and of a team that
show the trainer after each iteration; to forget what was shown gives the runs back. `Team.Runs` are the
runs of a team in any order.
-/

namespace DualDynamic

open Step

variable {K A : Type} [Numeral K] {engine : Engine K} {plan : TrainingPlan K}

/-- One of the stopping rules holds. -/
def Limits.IsMet (l : Limits K) (p : Progress K) : Prop :=
  l.iterations ≤ p.iterations ∨ Scalar.le l.time p.time = true ∨ l.stableIterations ≤ p.stable ∨
    l.meetsGap p.gap = true

theorem Limits.check_eq_none_iff {l : Limits K} {p : Progress K} : l.check p = none ↔ ¬ l.IsMet p := by
  unfold check IsMet
  split_ifs <;> simp_all

namespace Evaluation

/-- There is no gap to a bound of zero, nor under a measure that is not neutral. -/
theorem relativeGap_eq_ok {s : Sense} {measure : RiskMeasure K} {bound : Option K}
    {interval : Option (K × K)} {values : Option (List K)} {gap : K}
    (h : relativeGap s measure bound interval values = .ok gap) :
    gap = noGap ∨ ∃ x, bound = some x ∧ Scalar.eq x Scalar.zero = false ∧ measure.isNeutral = true := by
  cases bound with
  | none => exact Or.inl (Except.ok.inj h).symm
  | some x =>
    by_cases hnone : (Scalar.eq x Scalar.zero || !measure.isNeutral) = true
    · simp only [relativeGap, if_pos hnone] at h
      exact Or.inl (Except.ok.inj h).symm
    · exact Or.inr ⟨x, rfl, by simpa using hnone⟩

/-- An evaluation leaves all but the nodes as it is, and has the gap to the bound of the graph. -/
theorem gap_of_run {evaluation : EvaluationPlan K} {w v : Watched (PolicyGraph K)} {e : Evaluation K}
    (h : run engine evaluation w = .ok e v) : v.part.setting = w.part.setting ∧
      ∃ interval values, relativeGap w.part.sense w.part.measure w.part.bound interval values = .ok e.gap := by
  obtain ⟨stream, interval, -, -, hgap⟩ := run_eq_ok h
  have hsetting : v.part.setting = w.part.setting := (keeps_setting_run _).of_ok (s := w) rfl h
  obtain ⟨hsense, hmeasure, hbound⟩ := PolicyGraph.eq_of_setting hsetting
  rw [hsense, hmeasure, hbound] at hgap
  exact ⟨hsetting, interval, _, hgap⟩

end Evaluation

namespace Trainer

/-- All of a trainer but nodes and records. -/
def history (t : Trainer K) : Trainer K :=
  { t with graph := t.graph.setting, known := [], log := { t.log with text := "" } }

variable {t : Trainer K}

omit [Numeral K] in
theorem keeps_history_onGraph {x : Run K (PolicyGraph K) A}
    (hx : ∀ g : PolicyGraph K, Keeps (fun w => w.part.setting = g) x) :
    Keeps (fun w => w.part.history = t) (onGraph x) :=
  Run.keeps_within fun w hw => ⟨fun v => v.part.setting = w.part.graph.setting, rfl, hx _, fun v hv => by
    rw [← hw, history, history, hv]⟩

omit [Numeral K] in
theorem keeps_history_onRecorded {x : Run K (Recorded K) A}
    (hx : ∀ s : Recorded K, Keeps (fun w => w.part.setting = s) x) :
    Keeps (fun w => w.part.history = t) (onRecorded x) :=
  Run.keeps_within fun w hw => ⟨fun v => v.part.setting = Recorded.setting ⟨w.part.graph, w.part.log⟩, rfl,
    hx _, fun v hv => by
      obtain ⟨hgraph, hlog⟩ := Recorded.mk.inj hv
      rw [← hw, history, history, hgraph, hlog]⟩

theorem keeps_history_installRecords (records : List (CutRecord K)) :
    Keeps (fun w => w.part.history = t) (installRecords records) :=
  Run.keeps_part_bind fun _ _ => (Keeps.each fun _ _ =>
    (keeps_history_onRecorded fun _ => Recorded.keeps_setting_write _).bind fun _ =>
      (keeps_history_onGraph fun _ => Run.keeps_ofStep fun _ _ =>
        PolicyGraph.keeps_setting_installCut _ _ _ _ _).bind fun _ =>
          Run.keeps_change fun _ hw => hw).bind fun _ => keeps_pure _

theorem keeps_history_passes (stream : MersenneTwister) (iteration : ℤ) :
    Keeps (fun w => w.part.history = t) (passes engine stream iteration) :=
  (keeps_history_onGraph fun _ => Simulated.keeps_setting_onGraph _
    (Simulated.keeps_setting_forward _)).bind fun _ =>
      Keeps.bind ((keeps_history_onRecorded fun _ => Recorded.keeps_setting_backward _ _ _).bind fun _ =>
        Keeps.bind (Run.keeps_change fun _ hw => hw) fun _ => keeps_pure _) fun _ => keeps_pure _

theorem keeps_history_cleanIfDue (every : Option ℤ) (i : ℕ) :
    Keeps (fun w => w.part.history = t) (cleanIfDue every i : Run K (Trainer K) Unit) :=
  (keeps_ofExcept _).bind fun _ => Keeps.ite
    (keeps_history_onGraph fun _ => Run.keeps_ofStep fun _ _ => PolicyGraph.keeps_setting_clean)
    (keeps_pure _)

/-! ## Iterations -/

/-- What becomes of the history of the trainer `t` when it ends an iteration with the bound `x`. -/
structure Advances (plan : TrainingPlan K) (x : K) (t u : Trainer K) : Prop where
  iteration : u.iteration = t.iteration + 1
  bounds : u.bounds = t.bounds ++ [x]
  stable : u.stable = match t.bounds.getLast? with
    | some last => if Scalar.eq last x then t.stable + 1 else 0
    | none => 0
  measure : u.graph.measure = t.graph.measure
  isOpen : u.log.isOpen = t.log.isOpen
  /-- If the policy was evaluated, this was due, and there is a gap only to a bound that is not zero, under
  a neutral measure. -/
  gap : u.gap = t.gap ∨ ∃ every gap, plan.evaluationEvery = some every ∧ every ∣ (u.iteration : ℤ) ∧
    u.gap = some gap ∧
      (gap = Evaluation.noGap ∨ Scalar.eq x Scalar.zero = false ∧ u.graph.measure.isNeutral = true)

omit [Numeral K] in
theorem dvd_of_isDue {every : Option ℤ} {i : ℕ} (h : (isDue every i : Except (Fault K) Bool) = .ok true) :
    ∃ n, every = some n ∧ n ∣ (i : ℤ) := by
  cases every with
  | none => cases h
  | some n =>
    unfold isDue at h
    dsimp only at h
    split_ifs at h
    refine ⟨n, rfl, Int.dvd_of_emod_eq_zero ?_⟩
    simpa using Except.ok.inj h

/-- What an evaluation that may be due comes to. -/
theorem evaluateIfDue_eq_ok {w v : Watched (Trainer K)} (h : evaluateIfDue engine plan w = .ok () v) :
    v = w ∨ ∃ every g gap interval values, plan.evaluationEvery = some every ∧
      every ∣ (w.part.iteration : ℤ) ∧ v.part = { w.part with graph := g, gap := some gap } ∧
      g.setting = w.part.graph.setting ∧ Evaluation.relativeGap w.part.graph.sense w.part.graph.measure
        w.part.graph.bound interval values = .ok gap := by
  rw [evaluateIfDue, Run.part_bind_apply] at h
  obtain ⟨isDue, u, hstep, h⟩ := bind_eq_ok.1 h
  obtain ⟨hdue, rfl⟩ := ofExcept_eq_ok.1 hstep
  cases isDue with
  | false =>
    cases h
    exact Or.inl rfl
  | true =>
    obtain ⟨every, hevery, hdvd⟩ := dvd_of_isDue hdue
    obtain ⟨e, u, hstep, h⟩ := bind_eq_ok.1 h
    cases h
    obtain ⟨u', hrun, rfl⟩ := Run.within_eq_ok.1 hstep
    obtain ⟨hsetting, interval, values, hgap⟩ := Evaluation.gap_of_run hrun
    exact Or.inr ⟨every, u'.part, e.gap, interval, values, hevery, hdvd, rfl, hsetting, hgap⟩

/-- The end of an iteration before the stopping rules are looked at. -/
def account (engine : Engine K) (plan : TrainingPlan K) (value : K) : Run K (Trainer K) Unit := do
  let bound ← onGraph (PolicyGraph.computeBound engine)
  let time := engine.elapsed (← Run.part).iteration
  Run.change (addIteration bound value time)
  evaluateIfDue engine plan

theorem Advances.of_account {value : K} {w v : Watched (Trainer K)}
    (h : account engine plan value w = .ok () v) : ∃ x, Advances plan x w.part v.part := by
  obtain ⟨x, w₁, hstep, h⟩ := bind_eq_ok.1 h
  obtain ⟨u₁, hbound, rfl⟩ := Run.within_eq_ok.1 hstep
  have hsetting : u₁.part.setting = w.part.graph.setting :=
    PolicyGraph.keeps_setting_computeBound.of_ok (s := ⟨w.monitor, w.part.graph⟩) rfl hbound
  rw [Run.part_bind_apply] at h
  obtain ⟨⟨⟩, w₂, hadd, hevaluate⟩ := bind_eq_ok.1 h
  cases hadd
  have hmeasure := (PolicyGraph.eq_of_setting hsetting).2.1
  refine ⟨x, ?_⟩
  rcases evaluateIfDue_eq_ok hevaluate with rfl | ⟨every, g, gap, interval, values, hevery, hdvd, hpart,
      hg, hgap⟩
  · exact ⟨rfl, rfl, rfl, hmeasure, rfl, Or.inl rfl⟩
  · have hmeasure' : g.measure = u₁.part.measure := (PolicyGraph.eq_of_setting hg).2.1
    rw [hpart]
    refine ⟨rfl, rfl, rfl, hmeasure'.trans hmeasure, rfl, Or.inr ⟨every, gap, hevery, hdvd, rfl, ?_⟩⟩
    refine (Evaluation.relativeGap_eq_ok hgap).imp_right ?_
    rintro ⟨y, hy, hne, hneutral⟩
    obtain rfl := Option.some.inj hy
    exact ⟨hne, hmeasure' ▸ hneutral⟩

/-- What the end of an iteration comes to: the rules are looked at, and if one of them holds it is kept in
mind. -/
theorem finishIteration_eq_ok {value : K} {isOver : Bool} {w v : Watched (Trainer K)}
    (h : finishIteration engine plan value w = .ok isOver v) : ∃ u,
      account engine plan value w = .ok () u ∧
      (isOver = false → plan.limits.check u.part.progress = none ∧ v = u) ∧
      (isOver = true → ∃ reason, plan.limits.check u.part.progress = some reason ∧
        v = { u with part := { u.part with stopReason := some reason } }) := by
  obtain ⟨x, w₁, hbound, h⟩ := bind_eq_ok.1 h
  rw [Run.part_bind_apply] at h
  obtain ⟨⟨⟩, w₂, hadd, h⟩ := bind_eq_ok.1 h
  obtain ⟨⟨⟩, u, hevaluate, h⟩ := bind_eq_ok.1 h
  have haccount : account engine plan value w = .ok () u := by
    refine bind_eq_ok.2 ⟨x, w₁, hbound, ?_⟩
    rw [Run.part_bind_apply]
    exact bind_eq_ok.2 ⟨(), w₂, hadd, hevaluate⟩
  refine ⟨u, haccount, ?_⟩
  rw [Run.part_bind_apply] at h
  cases hcheck : plan.limits.check u.part.progress with
  | none =>
    rw [hcheck] at h
    cases h
    exact ⟨fun _ => ⟨rfl, rfl⟩, by simp⟩
  | some reason =>
    rw [hcheck] at h
    cases h
    exact ⟨by simp, fun _ => ⟨reason, rfl, rfl⟩⟩

/-- What that says of the history. -/
theorem advances_of_finishIteration {value : K} {isOver : Bool} {w v : Watched (Trainer K)}
    (h : finishIteration engine plan value w = .ok isOver v) : (∃ x, Advances plan x w.part v.part) ∧
      (isOver = false → plan.limits.check v.part.progress = none) ∧
      (isOver = true → ∃ reason, plan.limits.check v.part.progress = some reason ∧
        v.part.stopReason = some reason) := by
  obtain ⟨u, haccount, hgoes, hends⟩ := finishIteration_eq_ok h
  obtain ⟨x, hadvances⟩ := Advances.of_account haccount
  cases isOver with
  | false =>
    obtain ⟨hcheck, rfl⟩ := hgoes rfl
    exact ⟨⟨x, hadvances⟩, fun _ => hcheck, by simp⟩
  | true =>
    obtain ⟨reason, hcheck, rfl⟩ := hends rfl
    exact ⟨⟨x, { hadvances with }⟩, by simp, fun _ => ⟨reason, hcheck, rfl⟩⟩

omit [Numeral K] in
/-- What the history of a trainer says of it. -/
theorem eq_of_history {t u : Trainer K} (h : u.history = t.history) :
    u.iteration = t.iteration ∧ u.bounds = t.bounds ∧ u.stable = t.stable ∧ u.gap = t.gap ∧
      u.graph.measure = t.graph.measure ∧ u.log.isOpen = t.log.isOpen :=
  ⟨congrArg (fun s => s.iteration) h, congrArg (fun s => s.bounds) h, congrArg (fun s => s.stable) h,
    congrArg (fun s => s.gap) h, congrArg (fun s => s.graph.measure) h,
    congrArg (fun s => s.log.isOpen) h⟩

theorem Advances.of_history {x : K} {t t' u : Trainer K} (h : Advances plan x t' u)
    (ht : t'.history = t.history) : Advances plan x t u := by
  obtain ⟨hiteration, hbounds, hstable, hgap, hmeasure, hopen⟩ := eq_of_history ht
  exact {
    iteration := by rw [← hiteration]; exact h.iteration
    bounds := by rw [← hbounds]; exact h.bounds
    stable := by rw [← hbounds, ← hstable]; exact h.stable
    measure := h.measure.trans hmeasure
    isOpen := h.isOpen.trans hopen
    gap := by rw [← hgap]; exact h.gap }

/-- The trainers after the iterations of a training that goes on from `t`: after all but the last one no
stopping rule holds, and the last one ends for the first rule that does. -/
inductive Course (plan : TrainingPlan K) : Trainer K → List (Trainer K) → Prop
  | last {t u : Trainer K} {x : K} {reason : StopReason K} : Advances plan x t u →
      plan.limits.check u.progress = some reason → u.stopReason = some reason → Course plan t [u]
  | more {t u u' : Trainer K} {x : K} {marks : List (Trainer K)} : Advances plan x t u →
      plan.limits.check u.progress = none → u'.history = u.history → Course plan u' marks →
        Course plan t (u :: marks)

/-- What every end of an iteration brings from one iteration to the next, the trainers of a course have. -/
theorem Course.of_advances {P : ℕ → Trainer K → Prop}
    (hstep : ∀ m x t u, P m t → Advances plan x t u → P (m + 1) u)
    (hsame : ∀ m t t', t'.history = t.history → P m t → P m t') {t u : Trainer K}
    {marks : List (Trainer K)} (h : Course plan t marks) {m i : ℕ} (ht : P m t)
    (hi : marks[i]? = some u) : P (m + (i + 1)) u := by
  induction h generalizing i m with
  | last hadvances =>
    cases i with
    | succ i => simp at hi
    | zero =>
      obtain rfl := Option.some.inj hi
      exact hstep _ _ _ _ ht hadvances
  | more hadvances _ hbetween _ ih =>
    have hnext := hstep _ _ _ _ ht hadvances
    cases i with
    | zero =>
      obtain rfl := Option.some.inj hi
      exact hnext
    | succ i =>
      have hrest := ih (hsame _ _ _ hbetween hnext) hi
      rwa [show m + 1 + (i + 1) = m + (i + 1 + 1) by ring] at hrest

theorem Course.exists_last {t : Trainer K} {marks : List (Trainer K)}
    (h : Course plan t marks) : ∃ u reason, marks.getLast? = some u ∧
      plan.limits.check u.progress = some reason ∧ u.stopReason = some reason := by
  induction h with
  | last _ hcheck hreason => exact ⟨_, _, rfl, hcheck, hreason⟩
  | more _ _ _ _ ih =>
    obtain ⟨u, reason, hlast, hends⟩ := ih
    exact ⟨u, reason, by rw [List.getLast?_cons, hlast]; rfl, hends⟩

/-- An iteration that does not end the training leaves one less before the limit. -/
theorem Advances.mostIterations {x : K} {t u : Trainer K} (h : Advances plan x t u)
    (hcheck : plan.limits.check u.progress = none) :
    mostIterations plan t = mostIterations plan u + 1 := by
  have hlimit : ¬ plan.limits.iterations ≤ (u.iteration : ℤ) := fun hle =>
    Limits.check_eq_none_iff.1 hcheck (Or.inl hle)
  have hiteration : (u.iteration : ℤ) = t.iteration + 1 := by exact_mod_cast h.iteration
  unfold Trainer.mostIterations
  omega

/-- The iterations of a training, with the trainer after each of them. -/
def observeIterations (engine : Engine K) (plan : TrainingPlan K) :
    ℕ → Run K (Trainer K) (List (Trainer K))
  | 0 => return []
  | n + 1 => do
    let i := (← Run.part).iteration
    let (value, _) ← passes engine (Seed.iteration i) i
    let isOver ← finishIteration engine plan value
    let mark ← Run.part
    if isOver then return [mark]
    cleanIfDue plan.cleanEvery (← Run.part).iteration
    let rest ← observeIterations engine plan n
    return mark :: rest

/-- Without the trainers, it is the iterations of the training. -/
theorem map_observeIterations (n : ℕ) :
    (fun _ => ()) <$> observeIterations engine plan n = iterations engine plan n := by
  induction n with
  | zero => rfl
  | succ n ih =>
    simp only [observeIterations, iterations, map_bind, ← ih]
    refine bind_congr fun t => bind_congr fun r => bind_congr fun isOver => ?_
    cases isOver with
    | true => rfl
    | false =>
      simp only [Bool.false_eq_true, if_false, map_bind, map_pure]
      rfl

/-- Iterations that come to their end are a course, if there are enough of them. -/
theorem course_of_observeIterations {n : ℕ} {marks : List (Trainer K)} {w v : Watched (Trainer K)}
    (hn : mostIterations plan w.part ≤ n) (h : observeIterations engine plan n w = .ok marks v) :
    Course plan w.part marks ∧ marks.getLast? = some v.part := by
  induction n generalizing w marks with
  | zero =>
    have hpos : 1 ≤ mostIterations plan w.part := Nat.le_max_left _ _
    omega
  | succ n ih =>
    rw [observeIterations, Run.part_bind_apply] at h
    obtain ⟨⟨value, records⟩, w₁, hpasses, h⟩ := bind_eq_ok.1 h
    have hbefore := (keeps_history_passes _ _).of_ok (s := w) rfl hpasses
    obtain ⟨isOver, w₂, hfinish, h⟩ := bind_eq_ok.1 h
    rw [Run.part_bind_apply] at h
    obtain ⟨⟨x, hadvances⟩, hgoes, hends⟩ := advances_of_finishIteration hfinish
    have hadvances := hadvances.of_history hbefore
    cases isOver with
    | true =>
      cases h
      obtain ⟨reason, hcheck, hreason⟩ := hends rfl
      exact ⟨.last hadvances hcheck hreason, rfl⟩
    | false =>
      simp only [Bool.false_eq_true, if_false, Run.part_bind_apply] at h
      obtain ⟨⟨⟩, w₃, hclean, h⟩ := bind_eq_ok.1 h
      obtain ⟨rest, w₄, hrest, h⟩ := bind_eq_ok.1 h
      cases h
      have hbetween := (keeps_history_cleanIfDue _ _).of_ok (s := w₂) rfl hclean
      have hmost : mostIterations plan w₃.part = mostIterations plan w₂.part := by
        unfold mostIterations
        rw [(eq_of_history hbetween).1]
      have hone := hadvances.mostIterations (hgoes rfl)
      obtain ⟨hcourse, hlast⟩ := ih (by omega) hrest
      refine ⟨.more hadvances (hgoes rfl) hbetween hcourse, ?_⟩
      rw [List.getLast?_cons, hlast]
      rfl

end Trainer

/-! ## Teams -/

namespace Team

variable {w v : Watched (Team K)}

/-- A run of a team to the end of its training, with the coordinator's trainer after each iteration. Workers
have turns and results are taken in any order. -/
inductive Runs (engine : Engine K) (plan : TrainingPlan K) :
    Watched (Team K) → List (Trainer K) → Watched (Team K) → Prop
  | ends {w v : Watched (Team K)} {post : Posted K} {rest : List (Posted K)} :
      w.part.results = post :: rest →
        collect engine plan post { w with part := { w.part with results := rest } } = .ok true v →
          Runs engine plan w [v.part.coordinator] v
  | takes {w u v : Watched (Team K)} {post : Posted K} {rest : List (Posted K)}
      {marks : List (Trainer K)} : w.part.results = post :: rest →
        collect engine plan post { w with part := { w.part with results := rest } } = .ok false u →
          Runs engine plan u marks v → Runs engine plan w (u.part.coordinator :: marks) v
  | turn {w v : Watched (Team K)} {marks : List (Trainer K)} (p : ℕ) :
      Runs engine plan { w with part := turnOf engine plan.cleanEvery p w.part } marks v →
        Runs engine plan w marks v

/-- The number of workers that are not gone. -/
def aliveCount (team : Team K) : ℕ := team.workers.countP Worker.isAlive

omit [Numeral K] in
theorem aliveCount_passOn (p : ℤ) (records : List (CutRecord K)) (team : Team K) :
    ({ team with workers := passOn p records team.workers } : Team K).aliveCount = team.aliveCount := by
  have hsame : (passOn p records team.workers).map Worker.isAlive = team.workers.map Worker.isAlive := by
    refine List.ext_getElem? fun i => ?_
    rw [passOn, List.getElem?_map, List.getElem?_map, List.getElem?_mapIdx]
    cases team.workers[i]? with
    | none => rfl
    | some w =>
      simp only [Option.map_some]
      split_ifs <;> rfl
  have hcount : ∀ ws : List (Worker K), ws.countP Worker.isAlive = (ws.map Worker.isAlive).countP id :=
    fun ws => by rw [List.countP_map]; rfl
  rw [aliveCount, aliveCount, hcount, hcount, hsame]

/-- What a result that is taken comes to. -/
theorem collect_eq_ok {post : Posted K} {isOver : Bool} (h : collect engine plan post w = .ok isOver v) :
    (∃ x, Trainer.Advances plan x w.part.coordinator v.part.coordinator) ∧
      (isOver = false → plan.limits.check v.part.coordinator.progress = none) ∧
      (isOver = true → ∃ reason, plan.limits.check v.part.coordinator.progress = some reason ∧
        v.part.coordinator.stopReason = some reason) ∧
      v.part.results = w.part.results ∧ v.part.aliveCount = w.part.aliveCount := by
  cases post with
  | failure p f => cases h
  | result p value records =>
    obtain ⟨⟨⟩, u, hshare, h⟩ := bind_eq_ok.1 h
    obtain ⟨u', hfinish, rfl⟩ := Run.within_eq_ok.1 h
    have hkeeps : Keeps (fun u : Watched (Team K) => u.part.coordinator.history = w.part.coordinator.history ∧
        u.part.results = w.part.results ∧ u.part.aliveCount = w.part.aliveCount) (share p records) := by
      refine Keeps.bind (Run.keeps_within fun u hu => ⟨fun t => t.part.history = w.part.coordinator.history,
        hu.1, Trainer.keeps_history_installRecords records, fun t ht => ⟨ht, hu.2⟩⟩) fun fresh => ?_
      refine Keeps.ite (Run.keeps_change fun u hu => ⟨hu.1, hu.2.1, ?_⟩) (keeps_pure _)
      rw [aliveCount_passOn]
      exact hu.2.2
    obtain ⟨hhistory, hresults, halive⟩ := hkeeps.of_ok (s := w) ⟨rfl, rfl, rfl⟩ hshare
    obtain ⟨⟨x, hadvances⟩, hgoes, hends⟩ := Trainer.advances_of_finishIteration hfinish
    exact ⟨⟨x, hadvances.of_history hhistory⟩, hgoes, hends, hresults, halive⟩

/-- A run of a team is a course of its coordinator. -/
theorem Runs.course {marks : List (Trainer K)} (h : Runs engine plan w marks v) :
    Trainer.Course plan w.part.coordinator marks ∧ marks.getLast? = some v.part.coordinator := by
  induction h with
  | ends _ hcollect =>
    obtain ⟨⟨x, hadvances⟩, -, hends, -⟩ := collect_eq_ok hcollect
    obtain ⟨reason, hcheck, hreason⟩ := hends rfl
    exact ⟨.last hadvances hcheck hreason, rfl⟩
  | takes _ hcollect _ ih =>
    obtain ⟨⟨x, hadvances⟩, hgoes, -⟩ := collect_eq_ok hcollect
    refine ⟨.more hadvances (hgoes rfl) rfl ih.1, ?_⟩
    rw [List.getLast?_cons, ih.2]
    rfl
  | turn p _ ih => rwa [coordinator_turnOf] at ih

/-- A run in lockstep, with the coordinator's trainer after each iteration. -/
def observeLockstep (engine : Engine K) (plan : TrainingPlan K) (schedule : List ℕ) :
    ℕ → ℕ → Run K (Team K) (List (Trainer K))
  | 0, _ => return []
  | steps + 1, i => do
    let team ← Run.part
    match team.results with
    | post :: rest =>
      Run.change fun team => { team with results := rest }
      let isOver ← collect engine plan post
      let mark := (← Run.part).coordinator
      if isOver then return [mark]
      let marks ← observeLockstep engine plan schedule steps i
      return mark :: marks
    | [] =>
      match team.next (entry schedule i) with
      | none => throw .workersGone
      | some p =>
        Run.change (turnOf engine plan.cleanEvery p)
        observeLockstep engine plan schedule steps (i + 1)

/-- Without the trainers, it is the run in lockstep. -/
theorem map_observeLockstep (schedule : List ℕ) (steps i : ℕ) :
    (fun _ => ()) <$> observeLockstep engine plan schedule steps i =
      lockstep engine plan schedule steps i := by
  induction steps generalizing i with
  | zero => rfl
  | succ steps ih =>
    simp only [observeLockstep, lockstep, map_bind]
    refine bind_congr fun team => ?_
    cases team.results with
    | nil =>
      simp only
      cases team.next (entry schedule i) with
      | none => rfl
      | some p => simp only [map_bind, ih]
    | cons post rest =>
      simp only [map_bind]
      refine bind_congr fun _ => bind_congr fun isOver => ?_
      cases isOver with
      | true => rfl
      | false =>
        simp only [Bool.false_eq_true, if_false, map_bind, map_pure, ← ih]
        rfl

/-- How many steps a run in lockstep can still have: a turn and a collection for each iteration before the
limit, a turn in vain for each worker, and nothing for the turn whose result waits. -/
def stepsLeft (plan : TrainingPlan K) (team : Team K) : ℕ :=
  2 * Trainer.mostIterations plan team.coordinator + team.aliveCount - team.results.length

omit [Numeral K] in
theorem stepsLeft_le_mostSteps (team : Team K) : stepsLeft plan team ≤ mostSteps plan team := by
  have halive : team.aliveCount ≤ team.workers.length := List.countP_le_length
  unfold stepsLeft mostSteps
  omega

omit [Numeral K] in
theorem exists_of_next {team : Team K} {named p : ℕ} (h : team.next named = some p) :
    ∃ w, team.workers[p]? = some w ∧ w.isAlive = true := by
  have halive : (team.workers[p]?.map Worker.isAlive).getD false = true := by
    unfold next at h
    dsimp only at h
    split_ifs at h with hnamed
    · obtain rfl := Option.some.inj h
      exact hnamed
    · exact List.find?_some (p := fun q => (team.workers[q]?.map Worker.isAlive).getD false) h
  cases hp : team.workers[p]? with
  | none => simp [hp] at halive
  | some w => exact ⟨w, rfl, by simpa [hp] using halive⟩

/-- A worker posts a result unless its turn is its last one. -/
theorem isSome_of_isAlive {p : ℤ} {cleanEvery : Option ℤ} {w : Worker K}
    (h : (w.turn engine p cleanEvery).2.isAlive = true) : (w.turn engine p cleanEvery).1.isSome = true := by
  cases hrun : (Worker.mergeAll w.mailbox >>= fun _ => Worker.iterate engine p cleanEvery w.iterations)
      w.trainer with
  | ok result v =>
    rw [Worker.turn_of_ok hrun]
    rfl
  | error f v =>
    rw [Worker.turn_of_error hrun] at h
    cases h

/-- A turn of a living worker uses up a step: either it gives a result, or a worker is gone. -/
theorem turnOf_alive {team : Team K} {p : ℕ} {w : Worker K} (hw : team.workers[p]? = some w)
    (halive : w.isAlive = true) (hresults : team.results = []) (cleanEvery : Option ℤ) :
    let after := turnOf engine cleanEvery p team
    after.results.length ≤ 1 ∧ after.aliveCount + 1 ≤ team.aliveCount + after.results.length := by
  obtain ⟨hlt, heq⟩ := List.getElem?_eq_some_iff.1 hw
  have hpos : 0 < team.aliveCount := List.countP_pos_iff.2 ⟨w, List.mem_of_getElem? hw, halive⟩
  have hposts : (w.turn engine p cleanEvery).2.isAlive = true →
      (w.turn engine p cleanEvery).1.isSome = true := isSome_of_isAlive
  simp only [turnOf, hw, hresults, List.nil_append]
  generalize w.turn engine p cleanEvery = r at hposts ⊢
  obtain ⟨post, w'⟩ := r
  have hset : ({ team with workers := team.workers.set p w', results := post.toList } : Team K).aliveCount + 1 =
      team.aliveCount + if w'.isAlive then 1 else 0 := by
    rw [aliveCount, List.countP_set hlt, heq, if_pos halive]
    unfold aliveCount at hpos ⊢
    omega
  dsimp only at hposts ⊢
  rw [hset]
  cases post with
  | none =>
    have hgone : w'.isAlive = false := by simpa using hposts
    simp [hgone]
  | some post =>
    refine ⟨le_rfl, ?_⟩
    split_ifs <;> simp

/-- A run in lockstep that comes to its end is a run of the team, if it may have enough steps. -/
theorem runs_of_observeLockstep {schedule : List ℕ} {steps i : ℕ} {marks : List (Trainer K)}
    (hsteps : stepsLeft plan w.part ≤ steps) (hresults : w.part.results.length ≤ 1)
    (h : observeLockstep engine plan schedule steps i w = .ok marks v) : Runs engine plan w marks v := by
  induction steps generalizing i w marks with
  | zero =>
    have hpos : 1 ≤ Trainer.mostIterations plan w.part.coordinator := Nat.le_max_left _ _
    unfold stepsLeft at hsteps
    omega
  | succ steps ih =>
    rw [observeLockstep, Run.part_bind_apply] at h
    cases hwaiting : w.part.results with
    | cons post rest =>
      rw [hwaiting] at h hresults
      obtain ⟨⟨⟩, w₁, hchange, h⟩ := bind_eq_ok.1 h
      cases hchange
      obtain ⟨isOver, w₂, hcollect, h⟩ := bind_eq_ok.1 h
      rw [Run.part_bind_apply] at h
      cases isOver with
      | true =>
        cases h
        exact .ends hwaiting hcollect
      | false =>
        obtain ⟨others, w₃, hrest, h⟩ := bind_eq_ok.1 h
        cases h
        obtain ⟨⟨x, hadvances⟩, hgoes, -, hsame, halive⟩ := collect_eq_ok hcollect
        obtain rfl : rest = [] := List.length_eq_zero_iff.1 (by simpa using hresults)
        have hnone : w₂.part.results = [] := hsame
        have hworkers : w₂.part.aliveCount = w.part.aliveCount := halive
        have hone : Trainer.mostIterations plan w.part.coordinator =
            Trainer.mostIterations plan w₂.part.coordinator + 1 := hadvances.mostIterations (hgoes rfl)
        refine .takes hwaiting hcollect (ih ?_ (by rw [hnone]; exact Nat.zero_le _) hrest)
        simp only [stepsLeft, hwaiting, hnone, List.length_cons, List.length_nil] at hsteps ⊢
        omega
    | nil =>
      rw [hwaiting] at h
      dsimp only at h
      cases hnext : w.part.next (entry schedule i) with
      | none =>
        rw [hnext] at h
        cases h
      | some p =>
        rw [hnext] at h
        obtain ⟨⟨⟩, w₁, hchange, h⟩ := bind_eq_ok.1 h
        cases hchange
        obtain ⟨worker, hworker, hworks⟩ := exists_of_next hnext
        obtain ⟨hone, hless⟩ := turnOf_alive hworker hworks hwaiting plan.cleanEvery
        refine .turn p (ih ?_ hone h)
        simp only [stepsLeft, hwaiting, coordinator_turnOf, List.length_nil] at hsteps hless ⊢
        omega

end Team

end DualDynamic
