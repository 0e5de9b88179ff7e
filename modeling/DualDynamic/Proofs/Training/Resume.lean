import DualDynamic.Proofs.Training.Changes
import DualDynamic.Proofs.Training.Counts
import DualDynamic.Proofs.Training.Evaluation
import DualDynamic.Proofs.Training.History

/-!
# Trainings that are resumed

A training that is stopped and taken up again comes to what it would have come to without the stop
(`train_resumes`). A training that ends for the limit on its iterations is that number of rounds (`rounds`),
and to do some rounds after others is to do all of them. What a training starts anew with, the count of
iterations with a stable bound and the gap, does not show in a round, nor do the counts of the run; and
at the stop nothing is missed, as long as there are no retired cuts to be removed.
-/

namespace DualDynamic

open Step PolicyGraph

variable {K A : Type} [Numeral K] {engine : Engine K} {plan : TrainingPlan K}

/-- The plan with another limit on the number of iterations. -/
def TrainingPlan.upTo (plan : TrainingPlan K) (iterations : ℤ) : TrainingPlan K :=
  { plan with limits := { plan.limits with iterations } }

namespace Trainer

variable {t t' : Trainer K}

/-- Whether the last training has ended because of the limit on its iterations. -/
def endedByLimit (t : Trainer K) : Bool :=
  match t.stopReason with
  | some (.iterations _) => true
  | _ => false

/-! ## Rounds -/

/-- An iteration without a look at the stopping rules. -/
def round (engine : Engine K) (plan : TrainingPlan K) : Run K (Trainer K) Unit := do
  let i := (← Run.part).iteration
  let (value, _) ← passes engine (Seed.iteration i) i
  account engine plan value

/-- Some rounds, one after the other. -/
def rounds (engine : Engine K) (plan : TrainingPlan K) : ℕ → Run K (Trainer K) Unit
  | 0 => return
  | n + 1 => do
    round engine plan
    rounds engine plan n

theorem rounds_add (m n : ℕ) :
    rounds engine plan (m + n) = rounds engine plan m >>= fun _ => rounds engine plan n := by
  induction m with
  | zero => rw [Nat.zero_add, rounds, pure_bind]
  | succ m ih => rw [Nat.succ_add, rounds, rounds, bind_assoc, ih]

/-- Rounds do not depend on the limits. -/
theorem rounds_upTo (limit : ℤ) (n : ℕ) :
    rounds engine (plan.upTo limit) n = rounds engine plan n := by
  induction n with
  | zero => rfl
  | succ n ih =>
    rw [rounds, rounds, ih]
    rfl

theorem Advances.of_round {w v : Watched (Trainer K)} (h : round engine plan w = .ok () v) :
    ∃ x, Advances plan x w.part v.part := by
  rw [round, Run.part_bind_apply] at h
  obtain ⟨⟨value, records⟩, u, hpasses, haccount⟩ := bind_eq_ok.1 h
  obtain ⟨x, hadvances⟩ := Advances.of_account haccount
  exact ⟨x, hadvances.of_history ((keeps_history_passes _ _).of_ok (s := w) rfl hpasses)⟩

/-- Every round adds to the count of iterations, and the cut file stays open or closed. -/
theorem rounds_eq_ok {n : ℕ} {w v : Watched (Trainer K)} (h : rounds engine plan n w = .ok () v) :
    v.part.iteration = w.part.iteration + n ∧ v.part.log.isOpen = w.part.log.isOpen := by
  induction n generalizing w with
  | zero =>
    cases h
    exact ⟨rfl, rfl⟩
  | succ n ih =>
    obtain ⟨⟨⟩, u, hround, hrest⟩ := bind_eq_ok.1 h
    obtain ⟨x, hadvances⟩ := Advances.of_round hround
    obtain ⟨hiteration, hopen⟩ := ih hrest
    refine ⟨?_, hopen.trans hadvances.isOpen⟩
    rw [hiteration, hadvances.iteration]
    ring

/-- Nothing is removed where nothing has retired. -/
theorem eq_of_cleanIfDue {every : Option ℤ} {i : ℕ} {w v : Watched (Trainer K)}
    (hclean : every = none ∨ clean w.part.graph = .ok () w.part.graph)
    (h : cleanIfDue every i w = .ok () v) : v = w := by
  obtain ⟨isDue, u, hstep, hdone⟩ := bind_eq_ok.1 h
  obtain ⟨hdue, rfl⟩ := ofExcept_eq_ok.1 hstep
  cases isDue with
  | false =>
    cases hdone
    rfl
  | true =>
    obtain ⟨n, rfl, -⟩ := dvd_of_isDue hdue
    rw [if_pos rfl] at hdone
    obtain ⟨u', hremoved, rfl⟩ := Run.within_eq_ok.1 hdone
    obtain ⟨g, hg, rfl⟩ := Run.ofStep_eq_ok.1 hremoved
    rw [hclean.resolve_left (by simp)] at hg
    cases hg
    rfl

variable {g₀ : PolicyGraph K}

/-- Iterations that end for the limit on their number are that number of rounds. -/
theorem rounds_of_iterations {n : ℕ} {w v : Watched (Trainer K)}
    (hclean : plan.cleanEvery = none ∨ ∀ g, Reaches g₀ g → clean g = .ok () g)
    (hreaches : Reaches g₀ w.part.graph) (hn : w.part.iteration + n = plan.limits.iterations) (hpos : 0 < n)
    (h : iterations engine plan n w = .ok () v) (hends : v.part.endedByLimit = true) :
    ∃ u, rounds engine plan n w = .ok () u ∧
      v.part = { u.part with stopReason := some (.iterations plan.limits.iterations) } := by
  induction n generalizing w with
  | zero => exact absurd hpos (lt_irrefl 0)
  | succ n ih =>
    rw [iterations, Run.part_bind_apply] at h
    obtain ⟨⟨value, records⟩, w₁, hpasses, h⟩ := bind_eq_ok.1 h
    obtain ⟨isOver, w₂, hfinish, h⟩ := bind_eq_ok.1 h
    obtain ⟨u, haccount, hgoes, hover⟩ := finishIteration_eq_ok hfinish
    have hround : round engine plan w = .ok () u := by
      rw [round, Run.part_bind_apply]
      exact bind_eq_ok.2 ⟨_, w₁, hpasses, haccount⟩
    have hiteration : u.part.iteration = w.part.iteration + 1 :=
      (Advances.of_round hround).choose_spec.iteration
    cases isOver with
    | true =>
      obtain ⟨reason, hcheck, rfl⟩ := hover rfl
      cases h
      -- the limit is reached after one round, so that there was one to go
      have hlimit : plan.limits.iterations ≤ u.part.iteration ∧
          reason = .iterations plan.limits.iterations := by
        unfold Limits.check at hcheck
        split_ifs at hcheck with hlimit
        · exact ⟨hlimit, (Option.some.inj hcheck).symm⟩
        all_goals
          cases hcheck
          cases hends
      obtain rfl : n = 0 := by
        have hle := hlimit.1
        push_cast [hiteration] at hle hn
        omega
      rw [hlimit.2]
      exact ⟨u, by rw [rounds]; exact bind_eq_ok.2 ⟨(), u, hround, rfl⟩, rfl⟩
    | false =>
      obtain ⟨hcheck, rfl⟩ := hgoes rfl
      simp only [Bool.false_eq_true, if_false, Run.part_bind_apply] at h
      obtain ⟨⟨⟩, w₃, hstep, hrest⟩ := bind_eq_ok.1 h
      have hreaches : Reaches g₀ w₂.part.graph := (isChanging_finishIteration value g₀).of_ok
        ((isChanging_passes _ _ g₀).of_ok hreaches hpasses) hfinish
      obtain rfl := eq_of_cleanIfDue (hclean.imp_right fun hclean => hclean _ hreaches) hstep
      have hlimit : ¬ plan.limits.iterations ≤ w₃.part.iteration := fun hle =>
        Limits.check_eq_none_iff.1 hcheck (Or.inl hle)
      push_cast [hiteration] at hlimit hn
      obtain ⟨u, hrounds, hv⟩ := ih hreaches (by push_cast [hiteration]; omega) (by omega) hrest
      exact ⟨u, by rw [rounds]; exact bind_eq_ok.2 ⟨(), w₃, hround, hrounds⟩, hv⟩

/-! ## What does not show in a round -/

/-- Trainers that differ in nothing but what a training starts anew with, and in why it ended. -/
def Resembles (t t' : Trainer K) : Prop :=
  t' = { t with stable := t'.stable, gap := t'.gap, stopReason := t'.stopReason }

omit [Numeral K] in
theorem respects_resembles_onGraph {x : Run K (PolicyGraph K) A} (hx : Run.IgnoresCounts x) :
    Run.Respects Resembles (onGraph x) :=
  Run.respects_within hx (fun _ _ h => by rw [h]) fun _ _ _ _ h hg => by
    rw [Resembles, hg, h]

omit [Numeral K] in
theorem respects_resembles_onRecorded {x : Run K (Recorded K) A} (hx : Run.IgnoresCounts x) :
    Run.Respects Resembles (onRecorded x) :=
  Run.respects_within hx (fun _ _ h => by rw [h]) fun _ _ _ _ h hr => by
    rw [Resembles, hr, h]

omit [Numeral K] in
theorem respects_resembles_change {f : Trainer K → Trainer K}
    (hf : ∀ t stable gap stopReason, f { t with stable, gap, stopReason } =
      { f t with stable := (f { t with stable, gap, stopReason }).stable
                 gap := (f { t with stable, gap, stopReason }).gap
                 stopReason := (f { t with stable, gap, stopReason }).stopReason }) :
    Run.Respects Resembles (Run.change f : Run K (Trainer K) Unit) :=
  Run.respects_change fun _ _ h => by
    rw [Resembles, h]
    exact hf _ _ _ _

section Rounds

variable (hpure : engine.IsPure)
include hpure

theorem respects_resembles_passes (stream : MersenneTwister) (iteration : ℤ) :
    Run.Respects Resembles (passes engine stream iteration) := by
  refine (respects_resembles_onGraph
    (Run.ignoresCounts_within (Simulated.ignoresCounts_forward hpure []))).bind fun pass => ?_
  refine Respects.bind ?_ fun _ => respects_pure _
  exact (respects_resembles_onRecorded (Recorded.ignoresCounts_backward hpure _ _ _)).bind fun _ =>
    (respects_resembles_change (by exact fun _ _ _ _ => rfl)).bind fun _ => respects_pure _

theorem respects_resembles_account (value : K) :
    Run.Respects Resembles (account engine plan value) := by
  refine (respects_resembles_onGraph (ignoresCounts_computeBound hpure)).bind fun bound => ?_
  refine Run.respects_part_bind (fun t t' h => by rw [h]) fun t => ?_
  refine (respects_resembles_change (by exact fun _ _ _ _ => rfl)).bind fun _ => ?_
  refine Run.respects_part_bind (fun t t' h => by rw [h]) fun t => ?_
  exact (respects_ofExcept _).bind fun _ => Respects.ite
    ((respects_resembles_onGraph (Evaluation.ignoresCounts_run hpure _)).bind fun _ =>
      respects_resembles_change (by exact fun _ _ _ _ => rfl)) (respects_pure _)

theorem respects_resembles_rounds (n : ℕ) : Run.Respects Resembles (rounds engine plan n) := by
  have hround : Run.Respects Resembles (round engine plan) :=
    Run.respects_part_bind (fun t t' h => by rw [h]) fun t =>
      (respects_resembles_passes hpure _ _).bind fun _ => respects_resembles_account hpure _
  induction n with
  | zero => exact respects_pure _
  | succ n ih => exact hround.bind fun _ => ih

end Rounds

/-! ## Trainings -/

omit [Numeral K] in
theorem wasInterrupted_of_endedByLimit (h : t.endedByLimit = true) : t.wasInterrupted = false := by
  unfold endedByLimit at h
  unfold wasInterrupted
  split at h
  · simp_all
  · cases h

/-- Trainings that end for the limit on their iterations are the rounds up to it. -/
theorem rounds_of_train {limit : ℤ} {w v : Watched (Trainer K)}
    (hclean : plan.cleanEvery = none ∨ ∀ g, Reaches g₀ g → clean g = .ok () g)
    (hreaches : Reaches g₀ w.part.graph) (hlt : w.part.iteration < limit)
    (h : train engine (plan.upTo limit) w = .ok () v) (hends : v.part.endedByLimit = true) :
    ∃ (n : ℕ) (u : Watched (Trainer K)), w.part.iteration + n = limit ∧
      rounds engine plan n { w with part := opened plan.writes w.part } = .ok () u ∧
      v.part = closed { u.part with stopReason := some (.iterations limit) } := by
  obtain ⟨u, hrun, rfl⟩ := train_eq_ok h (wasInterrupted_of_endedByLimit hends)
  have hmost : w.part.iteration + (mostIterations (plan.upTo limit) w.part : ℤ) = limit := by
    unfold mostIterations
    change (w.part.iteration : ℤ) + (max 1 (limit - w.part.iteration).toNat : ℕ) = limit
    omega
  have hcleanEvery : (plan.upTo limit).cleanEvery = none ∨ ∀ g, Reaches g₀ g → clean g = .ok () g := hclean
  obtain ⟨u', hrounds, hu⟩ := rounds_of_iterations hcleanEvery (by exact hreaches) (by exact hmost)
    (Nat.le_max_left _ _) hrun hends
  rw [rounds_upTo] at hrounds
  exact ⟨_, u', hmost, hrounds, congrArg closed hu⟩

/-- A stop between rounds does not show in what they come to. -/
theorem resembles_of_rounds (hpure : engine.IsPure) {i j : ℕ} {reason : Option (StopReason K)}
    {k k₁ k' : Monitor} {u₁ u₂ u : Watched (Trainer K)}
    (h₁ : rounds engine plan i ⟨k, opened plan.writes t⟩ = .ok () u₁)
    (h₂ : rounds engine plan j
      ⟨k₁, opened plan.writes (closed { u₁.part with stopReason := reason })⟩ = .ok () u₂)
    (h : rounds engine plan (i + j) ⟨k', opened plan.writes t⟩ = .ok () u) :
    Resembles u₂.part u.part := by
  rw [rounds_add] at h
  obtain ⟨⟨⟩, v, hfirst, hsecond⟩ := bind_eq_ok.1 h
  have hstart : Resembles (opened plan.writes t) (opened plan.writes t) := rfl
  obtain ⟨-, hhalfway⟩ := respects_resembles_rounds hpure i ⟨k, _⟩ ⟨k', _⟩ hstart _ _ h₁ _ _ hfirst
  have hresumed : Resembles (opened plan.writes (closed { u₁.part with stopReason := reason })) v.part := by
    have hwrites : u₁.part.log.isOpen = plan.writes := (rounds_eq_ok h₁).2
    have hreopened : opened plan.writes (closed { u₁.part with stopReason := reason }) =
        { u₁.part with stable := 0, gap := none, stopReason := reason } := by
      rw [← hwrites]
      rfl
    rw [Resembles, hreopened]
    exact hhalfway
  exact (respects_resembles_rounds hpure j ⟨k₁, _⟩ v hresumed _ _ h₂ _ _ hsecond).2

/-- Stop and resume. A trainer is trained up to `n` iterations and then up to `n + m`; a trainer that is equal
to it at first is trained up to `n + m` iterations at once, whatever was counted before. All of these
trainings end because of the limit on their iterations. Then both trainers are the same in the end: their
graphs with all nodes, cuts and programs, the bounds and values of all iterations, the records and the cut
file. Only for how long the bound has been stable, and the last gap, are counted from the stop. -/
theorem train_resumes (hpure : engine.IsPure) {b : Builder K} {g : PolicyGraph K}
    (hbuild : build b g = .ok () g₀) (hreaches : Reaches g₀ t.graph)
    (hclean : plan.cleanEvery = none ∨ g.template.prunes = false) {n m : ℕ} (hn : t.iteration < n)
    (hm : 0 < m) {k k₁ k' : Monitor} {w₁ w₂ w : Watched (Trainer K)}
    (h₁ : train engine (plan.upTo n) ⟨k, t⟩ = .ok () w₁)
    (h₂ : train engine (plan.upTo (n + m)) ⟨k₁, w₁.part⟩ = .ok () w₂)
    (h : train engine (plan.upTo (n + m)) ⟨k', t⟩ = .ok () w)
    (hends : ∀ v ∈ [w₁, w₂, w], v.part.endedByLimit = true) :
    w.part.iteration = n + m ∧
      w.part = { w₂.part with stable := w.part.stable, gap := w.part.gap } := by
  have hkeeps : plan.cleanEvery = none ∨ ∀ g, Reaches g₀ g → clean g = .ok () g :=
    hclean.imp_right fun hkeep _ => clean_of_reaches hbuild hkeep
  -- each of the trainings is the rounds up to its limit
  obtain ⟨i, u₁, hi, hrounds₁, hw₁⟩ := rounds_of_train hkeeps (w := ⟨k, t⟩) hreaches
    (by exact_mod_cast hn) h₁ (hends w₁ (by simp))
  have hstop : (w₁.part.iteration : ℤ) = n := by
    rw [← hi, hw₁]
    exact_mod_cast (rounds_eq_ok hrounds₁).1
  have hreaches₁ : Reaches g₀ w₁.part.graph := (isChanging_train g₀).of_ok (s := ⟨k, t⟩) hreaches h₁
  obtain ⟨j, u₂, hj, hrounds₂, hw₂⟩ := rounds_of_train hkeeps (w := ⟨k₁, w₁.part⟩) hreaches₁
    (by dsimp only; omega) h₂ (hends w₂ (by simp))
  obtain ⟨l, u, hl, hrounds, hw⟩ := rounds_of_train hkeeps (w := ⟨k', t⟩) hreaches
    (by dsimp only; omega) h (hends w (by simp))
  obtain rfl : l = i + j := by
    dsimp only at hi hj hl
    omega
  constructor
  · have hcount : (w.part.iteration : ℤ) = n + m := by
      rw [← hl, hw]
      exact_mod_cast (rounds_eq_ok hrounds).1
    exact_mod_cast hcount
  · rw [hw₁] at hrounds₂
    have hend : Resembles u₂.part u.part := resembles_of_rounds hpure hrounds₁ hrounds₂ hrounds
    rw [hw, hw₂]
    conv_lhs => rw [hend]
    rfl

end Trainer

/-! ## A training with a stop -/

theorem Larder.isPure_planner : Larder.planner.IsPure := fun _ _ _ _ => rfl

/-- Three iterations with a stop after the first one, with evaluations and without anything to remove. -/
theorem Trainer.train_resumes_shop :
    let t : Trainer Coin := .start Larder.shop
    let plan : TrainingPlan Coin := { Larder.evaluating 0 with cleanEvery := some 1 }
    let w₁ := final (train Larder.planner (plan.upTo 1)) ⟨{}, t⟩
    let w₂ := final (train Larder.planner (plan.upTo (1 + 2))) ⟨{}, w₁.part⟩
    let w := final (train Larder.planner (plan.upTo (1 + 2))) ⟨{}, t⟩
    (Larder.planner.IsPure ∧ PolicyGraph.build Larder.shopBuilder Larder.unbuiltShop = .ok () Larder.shop ∧
      Reaches Larder.shop t.graph ∧ Larder.unbuiltShop.template.prunes = false ∧ t.iteration < 1 ∧
      train Larder.planner (plan.upTo 1) ⟨{}, t⟩ = .ok () w₁ ∧
      train Larder.planner (plan.upTo (1 + 2)) ⟨{}, w₁.part⟩ = .ok () w₂ ∧
      train Larder.planner (plan.upTo (1 + 2)) ⟨{}, t⟩ = .ok () w ∧
      ∀ v ∈ [w₁, w₂, w], v.part.endedByLimit = true) ∧
    w.part.iteration = 3 ∧ w.part = { w₂.part with stable := w.part.stable, gap := w.part.gap } := by
  intro t plan w₁ w₂ w
  have hreaches : Reaches Larder.shop t.graph := .refl _
  have hkeep : Larder.unbuiltShop.template.prunes = false := rfl
  have hn : t.iteration < 1 := Nat.one_pos
  have h₁ : train Larder.planner (plan.upTo 1) ⟨{}, t⟩ = .ok () w₁ := eq_ok_final (by decide +kernel)
  have h₂ : train Larder.planner (plan.upTo (1 + 2)) ⟨{}, w₁.part⟩ = .ok () w₂ :=
    eq_ok_final (by decide +kernel)
  have h : train Larder.planner (plan.upTo (1 + 2)) ⟨{}, t⟩ = .ok () w := eq_ok_final (by decide +kernel)
  have hends : ∀ v ∈ [w₁, w₂, w], v.part.endedByLimit = true := by
    rw [List.forall_mem_cons, List.forall_mem_cons, List.forall_mem_singleton]
    decide +kernel
  exact ⟨⟨Larder.isPure_planner, Larder.build_shop, hreaches, hkeep, hn, h₁, h₂, h, hends⟩,
    train_resumes Larder.isPure_planner Larder.build_shop hreaches (Or.inr hkeep) hn Nat.two_pos
      h₁ h₂ h hends⟩

end DualDynamic
