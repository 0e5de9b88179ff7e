import DualDynamic.Proofs.Training.Evaluation
import DualDynamic.Proofs.Training.History

/-!
# When trainings stop

A training goes on as long as no stopping rule holds and stops at the first iteration after which one does,
for the first rule that holds (`Stops`). This says what the rules look at, too: how long the bound has been
the same in this training, and that a gap comes from an evaluation after this very iteration, of a bound
that is not zero, under a neutral measure.

The last part needs a tolerance that is finite: as long as there was no evaluation the gap counts as
infinite, and is within an infinite tolerance (`train_stops_unevaluated`).
-/

namespace DualDynamic

open Step

variable {K : Type} [Numeral K] {engine : Engine K} {plan : TrainingPlan K}

/-! ## Bounds that stay the same -/

/-- There are `s + 1` bounds at least, and the last `s + 1` of them are equal to each other. -/
def EndsEqual (bounds : List K) (s : ℕ) : Prop :=
  s < bounds.length ∧ (bounds.rtake (s + 1)).Pairwise fun x y => Scalar.eq x y = true

theorem endsEqual_zero (bounds : List K) (x : K) : EndsEqual (bounds ++ [x]) 0 := by
  refine ⟨by simp, ?_⟩
  rw [List.rtake_concat_succ, List.rtake_zero]
  exact List.pairwise_singleton _ _

theorem EndsEqual.of_le {bounds : List K} {r s : ℕ} (h : EndsEqual bounds s) (hr : r ≤ s) :
    EndsEqual bounds r :=
  ⟨hr.trans_lt h.1, h.2.sublist (List.drop_sublist_drop_left _ (by omega))⟩

theorem endsEqual_succ_iff (htrans : Scalar.EqTransitive K) {bounds : List K} {last x : K} {s : ℕ} :
    EndsEqual (bounds ++ [last] ++ [x]) (s + 1) ↔
      EndsEqual (bounds ++ [last]) s ∧ Scalar.eq last x = true := by
  simp only [EndsEqual, List.rtake_concat_succ, List.pairwise_append, List.length_append,
    List.length_singleton, List.mem_append, List.mem_singleton, List.pairwise_singleton, true_and]
  constructor
  · rintro ⟨hlength, hpairs, hx⟩
    exact ⟨⟨by omega, hpairs⟩, hx _ (Or.inr rfl) _ rfl⟩
  · rintro ⟨⟨hlength, hrest, hlast⟩, hx⟩
    refine ⟨by omega, ⟨hrest, hlast⟩, ?_⟩
    rintro y (hy | rfl) _ rfl
    · exact htrans _ _ _ (hlast y hy _ rfl) hx
    · exact hx

/-- The numbers `s` for which the last `s + 1` bounds are equal and the last `s` belong to the last `m`
iterations, and zero in any case. -/
def stableCounts (m : ℕ) (bounds : List K) : Set ℕ := {s | s = 0 ∨ s ≤ m ∧ EndsEqual bounds s}

theorem stableCounts_append (m : ℕ) (bounds : List K) (x : K) :
    stableCounts m (bounds ++ [x]) = {s | s ≤ m ∧ EndsEqual (bounds ++ [x]) s} := by
  ext s
  refine ⟨?_, Or.inr⟩
  rintro (rfl | hs)
  · exact ⟨Nat.zero_le m, endsEqual_zero bounds x⟩
  · exact hs

namespace Trainer

variable {t u : Trainer K}

/-- One iteration more, and the count of iterations with a stable bound is still the greatest there is. -/
theorem Advances.isGreatest_stable (htrans : Scalar.EqTransitive K) {m : ℕ} {x : K}
    (h : Advances plan x t u) (ht : IsGreatest (stableCounts m t.bounds) t.stable) :
    IsGreatest (stableCounts (m + 1) u.bounds) u.stable := by
  rw [h.bounds, stableCounts_append, h.stable]
  have hzero : 0 ∈ {s | s ≤ m + 1 ∧ EndsEqual (t.bounds ++ [x]) s} :=
    ⟨Nat.zero_le _, endsEqual_zero _ _⟩
  cases hlast : t.bounds.getLast? with
  | none =>
    rw [List.getLast?_eq_none_iff] at hlast
    refine ⟨hzero, fun s hs => ?_⟩
    have hlength := hs.2.1
    simp only [hlast, List.nil_append, List.length_singleton] at hlength
    exact Nat.le_of_lt_succ hlength
  | some last =>
    obtain ⟨before, hbefore⟩ := List.getLast?_eq_some_iff.1 hlast
    rw [hbefore] at hzero ht ⊢
    rw [stableCounts_append] at ht
    dsimp only
    split_ifs with heq
    · refine ⟨⟨Nat.succ_le_succ ht.1.1, (endsEqual_succ_iff htrans).2 ⟨ht.1.2, heq⟩⟩, fun s hs => ?_⟩
      cases s with
      | zero => exact Nat.zero_le _
      | succ s =>
        have hs' := ht.2 ⟨Nat.le_of_succ_le_succ hs.1, ((endsEqual_succ_iff htrans).1 hs.2).1⟩
        exact Nat.succ_le_succ hs'
    · refine ⟨hzero, fun s hs => ?_⟩
      cases s with
      | zero => exact le_rfl
      | succ s => exact absurd ((endsEqual_succ_iff htrans).1 hs.2).2 heq

/-! ## A course of iterations -/

variable {marks : List (Trainer K)}

theorem Course.length_le (h : Course plan t marks) : marks.length ≤ mostIterations plan t := by
  induction h with
  | last => exact Nat.le_max_left _ _
  | more hadvances hcheck hbetween _ ih =>
    rw [hadvances.mostIterations hcheck, List.length_cons]
    unfold mostIterations at ih ⊢
    rw [(eq_of_history hbetween).1] at ih
    exact Nat.succ_le_succ ih

theorem Course.ne_nil (h : Course plan t marks) : marks ≠ [] := by cases h <;> simp

theorem Course.check_eq_none (h : Course plan t marks) :
    ∀ u ∈ marks.dropLast, plan.limits.check u.progress = none := by
  induction h with
  | last => simp
  | more _ hcheck _ hrest ih =>
    rw [List.dropLast_cons_of_ne_nil hrest.ne_nil]
    exact List.forall_mem_cons.2 ⟨hcheck, ih⟩

/-- Every iteration adds itself to the count, and its bound to the bounds. -/
theorem Course.advances (h : Course plan t marks) {i : ℕ} (hi : marks[i]? = some u) :
    u.iteration = t.iteration + (i + 1) ∧ ∃ xs : List K, xs.length = i + 1 ∧ u.bounds = t.bounds ++ xs := by
  have hcourse := h.of_advances (P := fun m u => u.iteration = t.iteration + m ∧
      ∃ xs : List K, xs.length = m ∧ u.bounds = t.bounds ++ xs) (m := 0)
    (fun m x s v hs hadvances => ?_) (fun m s s' hhistory hs => ?_) ⟨rfl, [], rfl, by simp⟩ hi
  · rwa [Nat.zero_add] at hcourse
  · obtain ⟨hiteration, xs, hlength, hbounds⟩ := hs
    refine ⟨?_, xs ++ [x], by rw [List.length_append, hlength, List.length_singleton], ?_⟩
    · rw [hadvances.iteration, hiteration, Nat.add_assoc]
    · rw [hadvances.bounds, hbounds, List.append_assoc]
  · obtain ⟨hiteration, hbounds, -⟩ := eq_of_history hhistory
    rwa [hiteration, hbounds]

theorem Course.isGreatest_stable (htrans : Scalar.EqTransitive K) (h : Course plan t marks)
    (ht : IsGreatest (stableCounts 0 t.bounds) t.stable) {i : ℕ} (hi : marks[i]? = some u) :
    IsGreatest (stableCounts (i + 1) u.bounds) u.stable := by
  have hcourse := h.of_advances (P := fun m u => IsGreatest (stableCounts m u.bounds) u.stable)
    (fun m x s v hs hadvances => hadvances.isGreatest_stable htrans hs) (fun m s s' hhistory hs => ?_) ht hi
  · rwa [Nat.zero_add] at hcourse
  · obtain ⟨-, hbounds, hstable, -⟩ := eq_of_history hhistory
    rwa [hbounds, hstable]

end Trainer

theorem Limits.le_of_check_stable {l : Limits K} {p : Progress K} {limit : ℤ}
    (h : l.check p = some (.stable limit)) : limit ≤ p.stable := by
  unfold check at h
  split_ifs at h with _ _ hstable
  all_goals cases h
  exact hstable

theorem Limits.meetsGap_of_check {l : Limits K} {p : Progress K} {tolerance : K}
    (h : l.check p = some (.gap tolerance)) : l.meetsGap p.gap = true := by
  unfold check at h
  split_ifs at h with _ _ _ hgap
  all_goals cases h
  exact hgap

namespace Trainer

variable {t u : Trainer K} {marks : List (Trainer K)}

/-- What ends a training because of a gap: an evaluation after the last iteration. -/
structure EndsByGap (plan : TrainingPlan K) (u : Trainer K) : Prop where
  isDue : ∃ every, plan.evaluationEvery = some every ∧ every ∣ (u.iteration : ℤ)
  bound : ∃ x, u.bounds.getLast? = some x ∧ Scalar.eq x Scalar.zero = false
  measure : u.graph.measure.isNeutral = true

theorem Advances.endsByGap (hnone : Scalar.le Scalar.zero (Evaluation.noGap : K) = false) {x : K}
    (h : Advances plan x t u) (ht : plan.limits.meetsGap t.gap = false)
    (hu : plan.limits.meetsGap u.gap = true) : EndsByGap plan u := by
  rcases h.gap with hgap | ⟨every, gap, hevery, hdvd, hgap, rfl | ⟨hbound, hmeasure⟩⟩
  · rw [hgap, ht] at hu
    cases hu
  · simp [hgap, Limits.meetsGap, hnone] at hu
  · exact ⟨⟨every, hevery, hdvd⟩, ⟨x, by rw [h.bounds, List.getLast?_concat], hbound⟩, hmeasure⟩

/-- No gap is left from before: it would have ended the training already. -/
theorem Course.endsByGap (hnone : Scalar.le Scalar.zero (Evaluation.noGap : K) = false)
    (h : Course plan t marks) (ht : plan.limits.meetsGap t.gap = false) (hu : marks.getLast? = some u)
    (hgap : plan.limits.meetsGap u.gap = true) : EndsByGap plan u := by
  induction h with
  | last hadvances =>
    obtain rfl := Option.some.inj hu
    exact hadvances.endsByGap hnone ht hgap
  | more _ hcheck hbetween hrest ih =>
    obtain ⟨v, -, hlast, -⟩ := hrest.exists_last
    rw [List.getLast?_cons, hlast] at hu
    obtain rfl := Option.some.inj hu
    refine ih ?_ hlast
    rw [(eq_of_history hbetween).2.2.2.1]
    simpa [Limits.IsMet, not_or, progress] using
      fun h => Limits.check_eq_none_iff.1 hcheck (Or.inr (Or.inr (Or.inr h)))

/-- A training by a plan starts with the trainer `t`, has the trainers `marks` after its iterations and ends
with `v`. -/
structure Stops (plan : TrainingPlan K) (t : Trainer K) (marks : List (Trainer K)) (v : Trainer K) :
    Prop where
  length_le : marks.length ≤ mostIterations plan t
  /-- Every iteration adds itself to the count, and its bound to the bounds. -/
  advances : ∀ i u, marks[i]? = some u → u.iteration = t.iteration + (i + 1) ∧
    ∃ xs : List K, xs.length = i + 1 ∧ u.bounds = t.bounds ++ xs
  not_isMet : ∀ u ∈ marks.dropLast, ¬ plan.limits.IsMet u.progress
  ends : ∃ u, marks.getLast? = some u ∧ v = closed u ∧ plan.limits.IsMet u.progress ∧
    u.stopReason = plan.limits.check u.progress
  /-- How long the bound has been the same in this training. -/
  stable : ∀ i u, marks[i]? = some u → IsGreatest {s | s ≤ i + 1 ∧ EndsEqual u.bounds s} u.stable
  endsEqual : ∀ limit : ℤ, v.stopReason = some (.stable limit) → EndsEqual v.bounds limit.toNat
  endsByGap : ∀ tolerance, v.stopReason = some (.gap tolerance) → EndsByGap plan v

/-- The course of a training that was opened. -/
theorem Course.stops (htrans : Scalar.EqTransitive K)
    (hnone : Scalar.le Scalar.zero (Evaluation.noGap : K) = false)
    (hfinite : plan.limits.meetsGap none = false) (h : Course plan (opened plan.writes t) marks)
    (hu : marks.getLast? = some u) : Stops plan t marks (closed u) := by
  have hstart : IsGreatest (stableCounts 0 (opened plan.writes t).bounds) (opened plan.writes t).stable :=
    ⟨Or.inl rfl, by rintro s (rfl | ⟨hs, -⟩) <;> [exact le_rfl; exact hs]⟩
  have hstable : ∀ i u, marks[i]? = some u → IsGreatest {s | s ≤ i + 1 ∧ EndsEqual u.bounds s} u.stable := by
    intro i u hi
    have hgreatest := h.isGreatest_stable htrans hstart hi
    obtain ⟨-, xs, hlength, hbounds⟩ := h.advances hi
    obtain rfl | ⟨before, x, rfl⟩ := List.eq_nil_or_concat' xs
    · simp at hlength
    rwa [hbounds, ← List.append_assoc, stableCounts_append, List.append_assoc, ← hbounds]
      at hgreatest
  obtain ⟨u', reason, hlast, hcheck, hreason⟩ := h.exists_last
  obtain rfl : u' = u := Option.some.inj (hlast.symm.trans hu)
  refine ⟨h.length_le, fun i u hi => h.advances hi, fun u hu => Limits.check_eq_none_iff.1 (h.check_eq_none u hu),
    ⟨u', hu, rfl, ?_, hreason.trans hcheck.symm⟩, hstable, fun limit hlimit => ?_, fun tolerance hgap => ?_⟩
  · by_contra hmet
    rw [Limits.check_eq_none_iff.2 hmet] at hcheck
    cases hcheck
  · have hle := Limits.le_of_check_stable (hcheck.trans (hreason.symm.trans hlimit))
    have hequal := (hstable _ u' (by rwa [List.getLast?_eq_getElem?] at hu)).1.2
    exact hequal.of_le (Int.toNat_le.2 hle)
  · have hmeets := Limits.meetsGap_of_check (hcheck.trans (hreason.symm.trans hgap))
    obtain ⟨hdue, hbound, hmeasure⟩ := h.endsByGap hnone hfinite hu hmeets
    exact ⟨hdue, hbound, hmeasure⟩

/-- The stopping rules govern whole trainings in which nothing is raised: alone, by a team in lockstep, and by
a team whose workers have turns, and whose results are taken, in any order. -/
theorem stops_train (htrans : Scalar.EqTransitive K)
    (hnone : Scalar.le Scalar.zero (Evaluation.noGap : K) = false)
    (hfinite : plan.limits.meetsGap none = false) :
    (∀ w v : Watched (Trainer K), train engine plan w = .ok () v → v.part.wasInterrupted = false →
      ∃ marks u, observeIterations engine plan (mostIterations plan w.part)
          { w with part := opened plan.writes w.part } = .ok marks u ∧
        v = { u with part := closed u.part } ∧ Stops plan w.part marks v.part) ∧
    (∀ workers schedule, ∀ w v : Watched (Trainer K),
      Team.train engine plan workers schedule w = .ok () v → v.part.wasInterrupted = false →
      ∃ marks u, Team.Runs engine plan
          ⟨w.monitor, { coordinator := opened plan.writes w.part,
                        workers := workers.map fun w => { trainer := w } }⟩ marks u ∧
        v = ⟨u.monitor, closed u.part.coordinator⟩ ∧ Stops plan w.part marks v.part) ∧
    ∀ (t : Trainer K) (marks : List (Trainer K)) (w v : Watched (Team K)),
      w.part.coordinator = opened plan.writes t → Team.Runs engine plan w marks v →
        Stops plan t marks (closed v.part.coordinator) := by
  have hteams : ∀ (t : Trainer K) (marks : List (Trainer K)) (w v : Watched (Team K)),
      w.part.coordinator = opened plan.writes t → Team.Runs engine plan w marks v →
        Stops plan t marks (closed v.part.coordinator) := by
    intro t marks w v hw hruns
    obtain ⟨hcourse, hlast⟩ := hruns.course
    rw [hw] at hcourse
    exact hcourse.stops htrans hnone hfinite hlast
  refine ⟨fun w v h hend => ?_, fun workers schedule w v h hend => ?_, hteams⟩
  · obtain ⟨u, hrun, rfl⟩ := train_eq_ok h hend
    rw [← map_observeIterations] at hrun
    obtain ⟨marks, hmarks, -⟩ := map_eq_ok.1 hrun
    obtain ⟨hcourse, hlast⟩ := course_of_observeIterations (by exact le_rfl) hmarks
    exact ⟨marks, u, hmarks, rfl, hcourse.stops htrans hnone hfinite hlast⟩
  · obtain ⟨u', hwithin, rfl⟩ := training_eq_ok h hend
    obtain ⟨u, hrun, rfl⟩ := Run.within_eq_ok.1 hwithin
    rw [Run.part_bind_apply, ← Team.map_observeLockstep] at hrun
    obtain ⟨marks, hmarks, -⟩ := map_eq_ok.1 hrun
    have hruns := Team.runs_of_observeLockstep (Team.stepsLeft_le_mostSteps _) (Nat.zero_le _) hmarks
    exact ⟨marks, u, hruns, rfl, hteams _ _ _ _ rfl hruns⟩

end Trainer

/-! ## Short trainings -/

namespace Larder

theorem eqTransitive_coin : Scalar.EqTransitive Coin := Scalar.eqTransitive_int

/-- A plan that stops as soon as the bound stays the same. -/
def steady : TrainingPlan Coin :=
  { limits := { Limits.standard with iterations := 5, stableIterations := 1, tolerance := -1 }
    evaluation := .standard }

end Larder

/-- Two iterations with the same bound, alone and with two workers. -/
theorem Trainer.stops_train_shop :
    let start : Watched (Trainer Coin) := ⟨{}, .start Larder.shop⟩
    let plan := Larder.steady
    let w := final (train Larder.planner plan) start
    let w' := final (Team.train Larder.planner plan [start, start] [0, 1]) start
    (Scalar.EqTransitive Coin ∧ Scalar.le Scalar.zero (Evaluation.noGap : Coin) = false ∧
      plan.limits.meetsGap none = false ∧ train Larder.planner plan start = .ok () w ∧
      w.part.wasInterrupted = false ∧ w.part.iteration = 2 ∧
      Team.train Larder.planner plan [start, start] [0, 1] start = .ok () w' ∧
      w'.part.wasInterrupted = false ∧ w'.part.iteration = 2) ∧
    (∃ marks u, observeIterations Larder.planner plan 5
        { start with part := opened false start.part } = .ok marks u ∧
      w = { u with part := closed u.part } ∧ Stops plan start.part marks w.part) ∧
    ∃ marks u, Team.Runs Larder.planner plan
        ⟨{}, ⟨opened false start.part, [{ trainer := start }, { trainer := start }], []⟩⟩ marks u ∧
      w' = ⟨u.monitor, closed u.part.coordinator⟩ ∧ Stops plan start.part marks w'.part := by
  intro start plan w w'
  have h : train Larder.planner plan start = .ok () w := eq_ok_final (by decide +kernel)
  have h' : Team.train Larder.planner plan [start, start] [0, 1] start = .ok () w' :=
    eq_ok_final (by decide +kernel)
  have hend : w.part.wasInterrupted = false := by decide +kernel
  have hend' : w'.part.wasInterrupted = false := by decide +kernel
  have hnone : Scalar.le Scalar.zero (Evaluation.noGap : Coin) = false := by decide +kernel
  have hfinite : plan.limits.meetsGap none = false := by decide +kernel
  obtain ⟨halone, hteam, -⟩ := stops_train Larder.eqTransitive_coin hnone hfinite
  exact ⟨⟨Larder.eqTransitive_coin, hnone, hfinite, h, hend, by decide +kernel, h', hend',
    by decide +kernel⟩, halone start w h hend, hteam [start, start] [0, 1] start w' h' hend'⟩

/-- Coins that are infinite from a certain amount on. -/
def Toll : Type := Coin

instance : Numeral Toll :=
  { (inferInstanceAs (Numeral Coin) : Numeral Coin) with
    isFinite := fun x : ℤ => decide (|x| < 10 ^ 30) }

namespace Larder

def bazaarBuilder : Builder Toll := builder

def unbuiltBazaar : PolicyGraph Toll := unbuilt

/-- The larder in coins that may be infinite. -/
def bazaar : PolicyGraph Toll := final (PolicyGraph.build bazaarBuilder) unbuiltBazaar

def bazaarPlanner : Engine Toll := planner

/-- Three iterations without evaluations, and an infinite tolerance. -/
def unevaluated : TrainingPlan Toll :=
  { limits := { Limits.standard with iterations := 3, tolerance := (10 ^ 30 : ℤ) }
    evaluation := .standard }

end Larder

/-- The gap that there is not counts as infinite, and is within an infinite tolerance. So a training without
any evaluation ends after its first iteration because of a gap. -/
theorem Trainer.train_stops_unevaluated :
    let start : Watched (Trainer Toll) := ⟨{}, .start Larder.bazaar⟩
    let w := final (train Larder.bazaarPlanner Larder.unevaluated) start
    PolicyGraph.build Larder.bazaarBuilder Larder.unbuiltBazaar = .ok () Larder.bazaar ∧
      train Larder.bazaarPlanner Larder.unevaluated start = .ok () w ∧
      Larder.unevaluated.limits.iterations = 3 ∧ w.part.iteration = 1 ∧ w.part.endedByGap = true ∧
      ¬ EndsByGap Larder.unevaluated w.part := by
  intro start w
  have h : train Larder.bazaarPlanner Larder.unevaluated start = .ok () w := eq_ok_final (by decide +kernel)
  refine ⟨eq_ok_final (by decide +kernel), h, rfl, by decide +kernel, by decide +kernel, fun hends => ?_⟩
  obtain ⟨every, hevery, -⟩ := hends.isDue
  cases hevery

end DualDynamic
