import DualDynamic.Proofs.Probability
import DualDynamic.Proofs.Subproblem.Statement

/-!
# Whether a subproblem has a distribution

Probabilities of realizations are checked when they are set, against the number of realizations that
there is by then, and checked again when they are asked for. The first noise fixes the number for good.
So what was accepted stays accepted, with one exception: as long as there is no noise, there counts as one
realization, and a probability that is set for it need not fit the noise that comes later.

A second exception is a noise without realizations. A parameterization refuses an empty support;
scenarios of variables and constraints may be empty, and then there is nothing to solve or to sample.

Statements that succeed one after the other are followed. A statement leaves what was fixed and what was
set, or it is one of the few that `Changes` tells apart.
-/

namespace DualDynamic

open Step

variable {K : Type}

/-- Numbers are accepted as probabilities only if there are as many as there should be. -/
theorem Probability.length_of_check_reals [Numeral K] {xs ys : List K} {n : ℕ}
    (h : check (.list (xs.map .real)) n = .ok ys) : xs.length = n := by
  by_contra hn
  simp [check, Datum.block_reals, Except.mapError, bind, Except.bind, hn] at h

theorem Probability.length_of_check [Numeral K] {d : Datum K} {n : ℕ} {xs : List K}
    (h : check d n = .ok xs) : xs.length = n := by
  rcases check_eq_ok h with rfl | ⟨hlength, -⟩
  · exact List.length_replicate
  · exact hlength

theorem Probability.nonneg_of_isDistribution [Numeral K] {xs : List K}
    (h : isDistribution xs = true) : ∀ x ∈ xs, Scalar.lt x Scalar.zero = false := by
  simp only [isDistribution, Bool.and_eq_true, Bool.not_eq_true', List.any_eq_false] at h
  exact fun x hx => by simpa using h.1 x hx

namespace Subproblem

/-- There is a realization, and the probabilities of the realizations are at hand: one for each of them,
and none negative. -/
def HasDistribution [Numeral K] (m : Subproblem K) : Prop :=
  1 ≤ m.sampleCount ∧ ∃ ps, m.scenarioProbability = .ok ps ∧ ps.length = m.sampleCount ∧
    ∀ p ∈ ps, Scalar.lt p Scalar.zero = false

/-! ## What statements leave alone -/

/-- The probabilities are the same, and so is the number of realizations if it was fixed. -/
structure Fixes (m m' : Subproblem K) : Prop where
  size : m.noiseSize = none ∨ m'.noiseSize = m.noiseSize
  probability : m'.probability = m.probability

/-- A step that sets no probabilities, and does not change a number of realizations that is fixed. -/
def Fixing {A : Type} (x : Build K A) : Prop := ∀ m, Keeps (Fixes m) x

theorem fixes_refl (m : Subproblem K) : Fixes m m := ⟨Or.inr rfl, rfl⟩

theorem Fixing.bind {A B : Type} {x : Build K A} {f : A → Build K B} (hx : Fixing x)
    (hf : ∀ a, Fixing (f a)) : Fixing (x >>= f) := fun m => (hx m).bind fun a => hf a m

theorem fixing_pure {A : Type} (a : A) : Fixing (pure a : Build K A) := fun _ => keeps_pure a

theorem fixing_throw {A : Type} (e : Fault K) : Fixing (throw e : Build K A) := fun _ => keeps_throw e

theorem fixing_get : Fixing (get : Build K (Subproblem K)) := fun _ => keeps_get

theorem fixing_ofExcept {A : Type} (r : Except (Fault K) A) :
    Fixing (Step.ofExcept r : Build K A) := fun _ => keeps_ofExcept r

theorem Fixing.mapM {A B : Type} {items : List A} {f : A → Build K B} (h : ∀ a, Fixing (f a)) :
    Fixing (items.mapM f) := fun m => Keeps.mapM fun a _ => h a m

theorem Fixing.each {A : Type} {items : List A} {step : A → Build K Unit}
    (h : ∀ a, Fixing (step a)) : Fixing (Step.each items step) :=
  fun m => Keeps.each fun a _ => h a m

/-- A change of anything but the number of realizations and the probabilities. -/
theorem fixing_modify {f : Subproblem K → Subproblem K} (hsize : ∀ m, (f m).noiseSize = m.noiseSize)
    (hprobability : ∀ m, (f m).probability = m.probability) : Fixing (modify f) := fun _ m hm =>
  ⟨hm.size.imp_right (hsize m).trans, (hprobability m).trans hm.probability⟩

theorem fixing_pushVariable (v : Variable K) : Fixing (pushVariable v) := fun _ _ hm => ⟨hm.1, hm.2⟩

theorem fixing_pushConstraint (c : Constraint K) : Fixing (pushConstraint c) :=
  fun _ _ hm => ⟨hm.1, hm.2⟩

theorem fixing_fixSize (d : Datum K) (n : ℕ) : Fixing (fixSize d n) := by
  refine fun m => ensures_get_bind fun u hu => ?_
  cases hsize : u.noiseSize with
  | none =>
    have hnone : m.noiseSize = none := hu.size.elim id fun h => h.symm.trans hsize
    exact fun _ _ => ⟨Or.inl hnone, hu.probability⟩
  | some k =>
    dsimp only
    split_ifs
    · exact ensures_throw fun v hv => hv ▸ hu
    · exact ensures_pure fun v hv => hv ▸ hu

section Numerals

variable [Numeral K]

theorem fixing_scenarios (d : Datum K) : Fixing (scenarios d) := by
  refine (fixing_ofExcept _).bind fun block => ?_
  rcases block.shape with _ | ⟨n, _ | ⟨width, more⟩⟩
  · exact fixing_throw _
  · exact (fixing_fixSize d n).bind fun _ => fixing_pure _
  · exact fixing_throw _

theorem fixing_groupScenarios (size : ℕ) (d : Datum K) : Fixing (groupScenarios size d) := by
  refine (fixing_ofExcept _).bind fun block => ?_
  rcases block.shape with _ | ⟨n, _ | ⟨width, _ | ⟨depth, more⟩⟩⟩
  · exact fixing_throw _
  · exact fixing_throw _
  · dsimp only
    split_ifs
    · exact fixing_throw _
    · exact (fixing_fixSize d n).bind fun _ => fixing_pure _
  · exact fixing_throw _

theorem fixing_addCostNoise (i : ℕ) (d : Datum K) : Fixing (addCostNoise i d) := by
  obtain heq | heq := addCostNoise_cases i d <;> rw [heq]
  · exact fixing_pure ()
  · exact (fixing_scenarios d).bind fun _ => fixing_modify (fun _ => rfl) fun _ => rfl

theorem fixing_addGroupCostNoise (is : List ℕ) (d : Datum K) : Fixing (addGroupCostNoise is d) := by
  obtain heq | heq := addGroupCostNoise_cases is d <;> rw [heq]
  · exact fixing_pure ()
  · exact (fixing_groupScenarios is.length d).bind fun _ => fixing_modify (fun _ => rfl) fun _ => rfl

theorem fixing_addVariable (v : Variable K) (d : Datum K) : Fixing (addVariable v d) :=
  (fixing_pushVariable v).bind fun i => (fixing_addCostNoise i d).bind fun _ => fixing_pure i

theorem fixing_addVariables (vs : List (Variable K)) (d : Datum K) : Fixing (addVariables vs d) :=
  (Fixing.mapM fixing_pushVariable).bind fun is =>
    (fixing_addGroupCostNoise is d).bind fun _ => fixing_pure is

theorem fixing_registerStates (states copies : List ℕ) (initial : Datum K) :
    Fixing (registerStates states copies initial) :=
  (fixing_ofExcept _).bind fun _ => Fixing.bind (fixing_modify (fun _ => rfl) fun _ => rfl) fun _ =>
    (fixing_ofExcept _).bind fun _ => fixing_modify (fun _ => rfl) fun _ => rfl

theorem fixing_addState (v copy : Variable K) (initial d : Datum K) :
    Fixing (addState v copy initial d) :=
  (fixing_pushVariable v).bind fun i => (fixing_pushVariable copy).bind fun _ =>
    (fixing_registerStates _ _ _).bind fun _ => (fixing_addCostNoise i d).bind fun _ => fixing_pure _

theorem fixing_addStates (vs copies : List (Variable K)) (initial d : Datum K) :
    Fixing (addStates vs copies initial d) :=
  (Fixing.mapM fixing_pushVariable).bind fun is => (Fixing.mapM fixing_pushVariable).bind fun _ =>
    (fixing_registerStates _ _ _).bind fun _ =>
      (fixing_addGroupCostNoise is d).bind fun _ => fixing_pure _

omit [Numeral K] in
theorem fixing_addRowNoise (row : ℕ) (key : RowKey) (values : List K) :
    Fixing (addRowNoise row key values) := by
  cases key with
  | rhs => exact fixing_modify (fun _ => rfl) fun _ => rfl
  | var i => exact fixing_modify (fun _ => rfl) fun _ => rfl
  | other text => exact fixing_throw _

theorem fixing_addConstraint (c : Constraint K) (noise : RowNoise K) :
    Fixing (addConstraint c noise) := by
  refine (fixing_pushConstraint c).bind fun row => ?_
  cases noise with
  | none => exact fixing_pure row
  | other => exact fixing_throw _
  | table entries =>
    refine Fixing.bind (Fixing.mapM fun e => Fixing.bind (fixing_scenarios e.2) fun _ =>
      fixing_pure _) fun read => ?_
    exact Fixing.bind (Fixing.each fun e : RowKey × List K => fixing_addRowNoise row e.1 e.2)
      fun _ => fixing_pure row

theorem fixing_addConstraints (cs : List (Constraint K)) (d : Datum K) :
    Fixing (addConstraints cs d) := by
  obtain heq | heq := addConstraints_cases cs d <;> rw [heq] <;>
    refine (Fixing.mapM fixing_pushConstraint).bind fun rows => ?_
  · exact fixing_pure rows
  · exact (fixing_groupScenarios rows.length d).bind fun _ =>
      Fixing.bind (fixing_modify (fun _ => rfl) fun _ => rfl) fun _ => fixing_pure rows

omit [Numeral K] in
theorem fixing_setPriceObjective (rules : List (ℕ × Option (Formula K))) :
    Fixing (setPriceObjective rules) := by
  refine Fixing.each fun r => ?_
  obtain ⟨i, _ | f⟩ := r
  · exact fixing_get.bind fun _ => fixing_throw _
  · refine fun m => ensures_get_bind fun u hu => ?_
    dsimp only
    split_ifs
    · exact ensures_throw fun v hv => hv ▸ hu
    · exact fun _ _ => ⟨hu.size, hu.probability⟩

end Numerals

end Subproblem

namespace Statement

open Subproblem

variable [Numeral K]

omit [Numeral K] in
theorem fixing_findTerms (terms : List (String × K)) : Fixing (findTerms terms) :=
  fixing_get.bind fun _ => Fixing.mapM fun _ => (fixing_ofExcept _).bind fun _ => fixing_pure _

theorem fixing_findRow (name : String) (row : RowSpec K) : Fixing (findRow name row) :=
  (fixing_findTerms row.terms).bind fun _ => fixing_pure _

omit [Numeral K] in
theorem fixing_nameVariable (name : String) (i : ℕ) : Fixing (K := K) (nameVariable name i) :=
  fixing_modify (fun _ => rfl) fun _ => rfl

omit [Numeral K] in
theorem fixing_nameConstraint (name : String) (c : ℕ) : Fixing (K := K) (nameConstraint name c) :=
  fixing_modify (fun _ => rfl) fun _ => rfl

omit [Numeral K] in
theorem fixing_nameVariables (name : String) (is : List ℕ) :
    Fixing (K := K) (nameVariables name is) := Fixing.each fun _ => fixing_nameVariable _ _

omit [Numeral K] in
theorem fixing_nameConstraints (name : String) (rows : List ℕ) :
    Fixing (K := K) (nameConstraints name rows) := Fixing.each fun _ => fixing_nameConstraint _ _

theorem fixing_setItem (i : ℕ) (item : VariableItem) (value : Datum K) :
    Fixing (setItem i item value) := by
  cases item with
  | kind =>
    cases value with
    | text letter => exact fixing_modify (fun _ => rfl) fun _ => rfl
    | _ => exact fixing_throw _
  | _ =>
    cases value with
    | real x => exact (fixing_ofExcept _).bind fun _ => fixing_modify (fun _ => rfl) fun _ => rfl
    | _ => exact fixing_throw _

/-- Whether a statement is about probabilities. -/
def IsAboutProbability : Statement K → Prop
  | probability _ => True
  | parameterize _ _ _ => True
  | _ => False

theorem fixing_run {s : Statement K} (hs : ¬ s.IsAboutProbability) : Fixing s.run := by
  cases s with
  | var name spec d => exact (fixing_addVariable _ d).bind fun _ => fixing_nameVariable _ _
  | vars name specs d => exact (fixing_addVariables _ d).bind fun _ => fixing_nameVariables _ _
  | state name spec initial d =>
    exact (fixing_addState _ _ initial d).bind fun _ =>
      (fixing_nameVariable _ _).bind fun _ => fixing_nameVariable _ _
  | states name specs initial d =>
    exact (fixing_addStates _ _ initial d).bind fun _ =>
      (fixing_nameVariables _ _).bind fun _ => fixing_nameVariables _ _
  | constr name row d =>
    exact (fixing_findRow name row).bind fun c => fixing_get.bind fun _ =>
      (fixing_addConstraint c _).bind fun _ => fixing_nameConstraint _ _
  | constrs name rows d =>
    exact (Fixing.mapM fun _ => fixing_findRow _ _).bind fun cs =>
      (fixing_addConstraints cs d).bind fun _ => fixing_nameConstraints _ _
  | probability p => exact absurd trivial hs
  | objective terms =>
    exact (fixing_findTerms terms).bind fun _ => fixing_modify (fun _ => rfl) fun _ => rfl
  | item name attr value =>
    refine fixing_get.bind fun _ => (fixing_ofExcept _).bind fun i => ?_
    cases VariableItem.ofText? attr with
    | none => exact fixing_throw _
    | some item => exact fixing_setItem i item value
  | parameterize actions support p => exact absurd trivial hs
  | priceObjective rules =>
    exact fixing_get.bind fun _ => (Fixing.mapM fun _ => (fixing_ofExcept _).bind fun _ =>
      fixing_pure _).bind fun _ => fixing_setPriceObjective _

/-! ## One statement -/

/-- What a statement that succeeds makes of the number of realizations and of the probabilities. -/
structure Changes (s : Statement K) (m m' : Subproblem K) : Prop where
  size : m.noiseSize = none ∨ m'.noiseSize = m.noiseSize
  /-- Parameterizations have a support. -/
  support : ∀ actions support p, s = parameterize actions support p →
    ∃ n, 0 < n ∧ m'.noiseSize = some n
  /-- Probabilities that are new were checked against the number of realizations, and if there is no
  noise, they were set by a statement of their own. -/
  probability : m'.probability = m.probability ∨ ∃ d ps, m'.probability = some ps ∧
    Probability.check d m'.sampleCount = .ok ps ∧ (m'.noiseSize = none → s = probability d)

theorem Changes.of_fixes {s : Statement K} {m m' : Subproblem K} (hs : ¬ s.IsAboutProbability)
    (h : Fixes m m') : Changes s m m' where
  size := h.size
  support _ _ _ h := absurd (h ▸ trivial) hs
  probability := Or.inl h.probability

/-- New probabilities, checked against the number of realizations. -/
theorem setProbability_eq_ok {d : Datum K} {m m' : Subproblem K}
    (h : setProbability d m = .ok () m') :
    m'.noiseSize = m.noiseSize ∧ ∃ ps, m'.probability = some ps ∧
      Probability.check d m.sampleCount = .ok ps := by
  obtain ⟨u, _, hget, h⟩ := bind_eq_ok.1 h
  cases hget
  obtain ⟨ps, v, hps, h⟩ := bind_eq_ok.1 h
  obtain ⟨hcheck, rfl⟩ := ofExcept_eq_ok.1 hps
  cases h
  exact ⟨rfl, ps, rfl, mapError_eq_ok.1 hcheck⟩

omit [Numeral K] in
theorem fixSize_eq_ok {d : Datum K} {n : ℕ} {m m' : Subproblem K}
    (h : fixSize d n m = .ok () m') : m'.noiseSize = some n := by
  obtain ⟨u, _, hget, h⟩ := bind_eq_ok.1 h
  cases hget
  cases hsize : m.noiseSize with
  | none =>
    rw [hsize] at h
    cases h
    rfl
  | some k =>
    rw [hsize] at h
    dsimp only at h
    split_ifs at h with hk
    · cases h
    · cases h
      rw [hsize, show k = n by simpa using hk]

theorem changes_parameterize {actions : Option (List (Action K))} {support p : Datum K}
    {m m' : Subproblem K} (h : Subproblem.parameterize actions support p m = .ok () m') :
    Changes (parameterize actions support p) m m' := by
  unfold Subproblem.parameterize at h
  cases actions with
  | none => cases h
  | some actions =>
    cases hpoints : support.items? with
    | none =>
      rw [hpoints] at h
      cases h
    | some points =>
      rw [hpoints] at h
      dsimp only at h
      split_ifs at h with hempty
      · cases h
      · obtain ⟨_, u, hu, h⟩ := bind_eq_ok.1 h
        have hfixes := (fixing_fixSize _ _ m).of_ok (fixes_refl m) hu
        have hsize := fixSize_eq_ok hu
        obtain ⟨_, v, hv, h⟩ := bind_eq_ok.1 h
        cases hv
        have hpos : 0 < points.length := List.length_pos_iff.2 (by simpa using hempty)
        have hset : ∀ d, setProbability d
            { u with parameterizations := u.parameterizations ++ [⟨actions, points⟩] } = .ok () m' →
            Changes (parameterize (some actions) support p) m m' := by
          intro d hd
          obtain ⟨hkept, ps, hps, hcheck⟩ := setProbability_eq_ok hd
          have hsize' : m'.noiseSize = some points.length := hkept.trans hsize
          refine ⟨?_, fun _ _ _ _ => ⟨_, hpos, hsize'⟩, Or.inr ⟨d, ps, hps, ?_, ?_⟩⟩
          · exact hfixes.size.imp_right fun hu => hkept.trans hu
          · rwa [sampleCount, hkept]
          · simp [hsize']
        cases p with
        | absent =>
          cases h
          exact ⟨hfixes.size, fun _ _ _ _ => ⟨_, hpos, hsize⟩, Or.inl hfixes.probability⟩
        | _ => exact hset _ h

/-- The step lemma: what a statement that succeeds may change. -/
theorem changes_run {s : Statement K} {m m' : Subproblem K} (h : s.run m = .ok () m') :
    Changes s m m' := by
  cases s with
  | probability d =>
    obtain ⟨hkept, ps, hps, hcheck⟩ := setProbability_eq_ok h
    exact ⟨Or.inr hkept, nofun, Or.inr ⟨d, ps, hps, by rwa [sampleCount, hkept], fun _ => rfl⟩⟩
  | parameterize actions support p => exact changes_parameterize h
  | _ => exact Changes.of_fixes id ((fixing_run id m).of_ok (fixes_refl m) h)

/-! ## Statements one after the other -/

/-- The statements succeed, one after the other, and make `m'` of `m`. -/
def Makes (m : Subproblem K) (statements : List (Statement K)) (m' : Subproblem K) : Prop :=
  Step.each statements run m = .ok () m'

theorem makes_nil {m m' : Subproblem K} : Makes m [] m' ↔ m = m' := by
  refine ⟨fun h => ?_, fun h => h ▸ rfl⟩
  cases h
  rfl

theorem makes_cons {s : Statement K} {statements : List (Statement K)} {m m' : Subproblem K} :
    Makes m (s :: statements) m' ↔ ∃ u, s.run m = .ok () u ∧ Makes u statements m' := by
  have hcons : Makes m (s :: statements) m' ↔
      (s.run >>= fun _ => Step.each statements run) m = .ok () m' := Iff.rfl
  rw [hcons, bind_eq_ok]
  exact ⟨fun ⟨_, u, hs, h⟩ => ⟨u, hs, h⟩, fun ⟨u, hs, h⟩ => ⟨(), u, hs, h⟩⟩

theorem makes_append {earlier later : List (Statement K)} {m m' : Subproblem K} :
    Makes m (earlier ++ later) m' ↔ ∃ u, Makes m earlier u ∧ Makes u later m' := by
  induction earlier generalizing m with
  | nil => simp [makes_nil]
  | cons s earlier ih => simp only [List.cons_append, makes_cons, ih]; tauto

/-- A statement that is run in the course of others. -/
structure Occurs (start : Subproblem K) (statements : List (Statement K)) (s : Statement K)
    (m m' : Subproblem K) : Prop where
  occurs : ∃ earlier later, statements = earlier ++ s :: later ∧ Makes start earlier m
  run : s.run m = .ok () m'

theorem Occurs.append {start m m' : Subproblem K} {statements : List (Statement K)} {s : Statement K}
    (h : Occurs start statements s m m') (more : List (Statement K)) :
    Occurs start (statements ++ more) s m m' := by
  obtain ⟨earlier, later, rfl, hm⟩ := h.occurs
  exact ⟨⟨earlier, later ++ more, by simp, hm⟩, h.run⟩

theorem Makes.unique {statements : List (Statement K)} {m m' m'' : Subproblem K}
    (h : Makes m statements m') (h' : Makes m statements m'') : m' = m'' := by
  cases h.symm.trans h'
  rfl

/-- What becomes of the subproblem behind a statement. -/
theorem Occurs.makes {start m m' m'' : Subproblem K} {statements : List (Statement K)}
    {s : Statement K} (h : Occurs start statements s m m') (hend : Makes start statements m'') :
    ∃ later, Makes m' later m'' := by
  obtain ⟨earlier, later, rfl, hm⟩ := h.occurs
  obtain ⟨u, hu, hrest⟩ := makes_append.1 hend
  obtain rfl := hm.unique hu
  obtain ⟨v, hv, hlater⟩ := makes_cons.1 hrest
  cases h.run.symm.trans hv
  exact ⟨later, hlater⟩

/-- A number of realizations that is fixed stays the same. -/
theorem Makes.size {statements : List (Statement K)} {m m' : Subproblem K}
    (h : Makes m statements m') {n : ℕ} (hn : m.noiseSize = some n) : m'.noiseSize = some n := by
  induction statements generalizing m with
  | nil => exact makes_nil.1 h ▸ hn
  | cons s statements ih =>
    obtain ⟨u, hu, hrest⟩ := makes_cons.1 h
    refine ih hrest ?_
    rcases (changes_run hu).size with hnone | hkept
    · simp [hn] at hnone
    · exact hkept.trans hn

/-- What is known of a subproblem has come from some statement: its number of realizations from the one
that fixed it, and its probabilities from the one that set them last. -/
structure Explains (start : Subproblem K) (statements : List (Statement K)) (m : Subproblem K) :
    Prop where
  size : ∀ n, m.noiseSize = some n → ∃ s m₀ m₁, Occurs start statements s m₀ m₁ ∧
    m₀.noiseSize = none ∧ m₁.noiseSize = some n
  probability : ∀ ps, m.probability = some ps → ∃ s d m₀ m₁, Occurs start statements s m₀ m₁ ∧
    m₁.probability = some ps ∧ Probability.check d m₁.sampleCount = .ok ps ∧
      (m₁.noiseSize = none → s = probability d)

theorem explains {start : Subproblem K} (hsize : start.noiseSize = none)
    (hprobability : start.probability = none) {statements : List (Statement K)} {m : Subproblem K}
    (h : Makes start statements m) : Explains start statements m := by
  induction statements using List.reverseRecOn generalizing m with
  | nil =>
    obtain rfl := makes_nil.1 h
    exact ⟨by simp [hsize], by simp [hprobability]⟩
  | append_singleton done s ih =>
    obtain ⟨u, hu, hlast⟩ := makes_append.1 h
    obtain ⟨v, hs, hend⟩ := makes_cons.1 hlast
    obtain rfl := makes_nil.1 hend
    have hchanges := changes_run hs
    have hoccurs : Occurs start (done ++ [s]) s u v := ⟨⟨done, [], rfl, hu⟩, hs⟩
    have hearlier := ih hu
    refine ⟨fun n hn => ?_, fun ps hps => ?_⟩
    · rcases hchanges.size with hnone | hkept
      · exact ⟨s, u, v, hoccurs, hnone, hn⟩
      · obtain ⟨s', m₀, m₁, hs', h'⟩ := hearlier.size n (hkept.symm.trans hn)
        exact ⟨s', m₀, m₁, hs'.append [s], h'⟩
    · rcases hchanges.probability with hkept | ⟨d, qs, hqs, hcheck, hown⟩
      · obtain ⟨s', d, m₀, m₁, hs', h'⟩ := hearlier.probability ps (hkept.symm.trans hps)
        exact ⟨s', d, m₀, m₁, hs'.append [s], h'⟩
      · obtain rfl : qs = ps := Option.some.inj (hqs.symm.trans hps)
        exact ⟨s, d, u, v, hoccurs, hqs, hcheck, hown⟩

/-! ## The distribution -/

/-- The first noise is one of a variable or a constraint, and has no realization. -/
def IsEmptied (start : Subproblem K) (statements : List (Statement K)) : Prop :=
  ∃ s m₀ m₁, Occurs start statements s m₀ m₁ ∧ m₀.noiseSize = none ∧ m₁.noiseSize = some 0 ∧
    ∀ actions support p, s ≠ parameterize actions support p

/-- The probabilities have been set before the first noise, and this has other than one realization. -/
def IsSetEarly (start : Subproblem K) (statements : List (Statement K)) (m : Subproblem K) : Prop :=
  ∃ d m₀ m₁, Occurs start statements (probability d) m₀ m₁ ∧ m₀.noiseSize = none ∧
    m₁.probability = m.probability ∧ m.sampleCount ≠ 1

variable {start m : Subproblem K} {statements : List (Statement K)}

theorem isEmptied_iff (hsize : start.noiseSize = none) (hprobability : start.probability = none)
    (h : Makes start statements m) : IsEmptied start statements ↔ m.noiseSize = some 0 := by
  constructor
  · rintro ⟨s, m₀, m₁, hs, -, hempty, -⟩
    obtain ⟨later, hlater⟩ := hs.makes h
    exact hlater.size hempty
  · intro hempty
    obtain ⟨s, m₀, m₁, hs, hnone, hfixed⟩ := (explains hsize hprobability h).size 0 hempty
    refine ⟨s, m₀, m₁, hs, hnone, hfixed, fun actions support p hparameterize => ?_⟩
    obtain ⟨n, hn, hsome⟩ := (changes_run hs.run).support actions support p hparameterize
    have hzero : n = 0 := Option.some.inj (hsome.symm.trans hfixed)
    omega

/-- Probabilities that do not fit are exactly those that were set too early. -/
theorem isSetEarly_iff (hsize : start.noiseSize = none) (hprobability : start.probability = none)
    (h : Makes start statements m) : IsSetEarly start statements m ↔
      ∃ ps, m.probability = some ps ∧ ps.length ≠ m.sampleCount := by
  constructor
  · rintro ⟨d, m₀, m₁, hs, hnone, hkept, hcount⟩
    obtain ⟨-, ps, hps, hcheck⟩ := setProbability_eq_ok hs.run
    have hlength : ps.length = 1 := by
      rw [Probability.length_of_check hcheck, sampleCount, hnone]
      rfl
    exact ⟨ps, hkept.symm.trans hps, by omega⟩
  · rintro ⟨ps, hps, hlength⟩
    obtain ⟨s, d, m₀, m₁, hs, hset, hcheck, hown⟩ := (explains hsize hprobability h).probability ps hps
    rw [Probability.length_of_check hcheck] at hlength
    obtain ⟨later, hlater⟩ := hs.makes h
    -- had there been a noise, its number of realizations would still be the same
    have hnone : m₁.noiseSize = none := by
      by_contra hsome
      obtain ⟨n, hn⟩ := Option.ne_none_iff_exists'.1 hsome
      rw [sampleCount, sampleCount, hn, hlater.size hn] at hlength
      exact hlength rfl
    obtain rfl := hown hnone
    refine ⟨d, m₀, m₁, hs, ?_, hset.trans hps.symm, ?_⟩
    · exact (changes_run hs.run).size.elim id fun hkept => hkept.symm.trans hnone
    · rw [sampleCount, hnone] at hlength
      exact fun hone => hlength hone.symm

/-- Probabilities are at hand exactly if there are as many as there are realizations, and any of them. -/
theorem hasDistribution_iff_fits
    (huniform : ∀ n, 0 < n → Probability.isDistribution (Probability.uniform n : List K) = true)
    (hchecked : ∀ ps, m.probability = some ps → ∃ d n, Probability.check d n = .ok ps) :
    m.HasDistribution ↔
      m.noiseSize ≠ some 0 ∧ ∀ ps, m.probability = some ps → ps.length = m.sampleCount := by
  have hcount : 1 ≤ m.sampleCount ↔ m.noiseSize ≠ some 0 := by
    cases hsize : m.noiseSize with
    | none => simp [sampleCount, hsize]
    | some n => simp [sampleCount, hsize, Nat.one_le_iff_ne_zero]
  rw [HasDistribution, hcount]
  refine and_congr_right fun hsome => ⟨?_, fun hfits => ?_⟩
  · rintro ⟨qs, hqs, -⟩ ps hps
    rw [scenarioProbability, hps] at hqs
    exact Probability.length_of_check_reals (mapError_eq_ok.1 hqs)
  · have hpos : 0 < m.sampleCount := hcount.2 hsome
    cases hps : m.probability with
    | none =>
      refine ⟨Probability.uniform m.sampleCount, ?_, List.length_replicate,
        Probability.nonneg_of_isDistribution (huniform _ hpos)⟩
      rw [scenarioProbability, hps]
      rfl
    | some ps =>
      have hlength := hfits ps hps
      have hdistribution : Probability.isDistribution ps = true := by
        obtain ⟨d, n, hcheck⟩ := hchecked ps hps
        rcases Probability.check_eq_ok hcheck with rfl | ⟨-, hps⟩
        · refine huniform n ?_
          rwa [← hlength, Probability.length_of_check hcheck] at hpos
        · exact hps
      refine ⟨ps, ?_, hlength, Probability.nonneg_of_isDistribution hdistribution⟩
      rw [scenarioProbability, hps, ← hlength, Probability.check_reals hdistribution]
      rfl

/-- Whatever statements succeed one after the other, there is a realization and there are non-negative
probabilities, one for each of them, exactly if neither the first noise is one of a variable or a
constraint without realizations, nor the probabilities have been set before the first noise and this has
other than one realization. -/
theorem hasDistribution_iff
    (huniform : ∀ n, 0 < n → Probability.isDistribution (Probability.uniform n : List K) = true)
    {title : String} {sense : Sense} (h : Makes (empty title sense) statements m) :
    m.HasDistribution ↔ ¬ IsEmptied (empty title sense) statements ∧
      ¬ IsSetEarly (empty title sense) statements m := by
  rw [isEmptied_iff rfl rfl h, isSetEarly_iff rfl rfl h, hasDistribution_iff_fits huniform fun ps hps => by
    obtain ⟨-, d, -, m₁, -, -, hcheck, -⟩ := (explains rfl rfl h).probability ps hps
    exact ⟨d, _, hcheck⟩]
  push Not
  rfl

/-- A variable between zero and ten that costs one. -/
def crane : VariableSpec ℚ := { lower := 0, upper := 10, cost := 1, kind := "C" }

/-- Scenarios of costs, given as numbers. -/
def costs (xs : List ℚ) : Datum ℚ := .list (xs.map .real)

/-- A harbour with two realizations, whose probabilities are set twice. -/
def harbour : List (Statement ℚ) :=
  [.var "berths" crane .absent, .probability (costs [1]), .var "cranes" crane (costs [2, 3]),
    .probability (costs [1 / 4, 3 / 4]),
    .parameterize (some [.cost "berths" (.name "w")]) (costs [5, 6]) .absent]

/-- The subproblem that statements make. -/
def made (statements : List (Statement ℚ)) : Subproblem ℚ :=
  final (Step.each statements run) (empty "quay" .minimize)

theorem makes_made (statements : List (Statement ℚ))
    (h : succeeds (Step.each statements run) (empty "quay" .minimize) = true) :
    Makes (empty "quay" .minimize) statements (made statements) := eq_ok_final h

/-- The probability that was set first would not fit, but it has been replaced. -/
theorem hasDistribution_harbour : Makes (empty "quay" .minimize) harbour (made harbour) ∧
    (made harbour).HasDistribution ∧ (made harbour).sampleCount = 2 := by
  have hmakes := makes_made harbour (by decide +kernel)
  refine ⟨hmakes, (hasDistribution_iff (fun _ => Probability.isDistribution_uniform) hmakes).2
    ⟨?_, ?_⟩, by decide +kernel⟩
  · rw [isEmptied_iff rfl rfl hmakes]
    decide +kernel
  · rw [isSetEarly_iff rfl rfl hmakes]
    rintro ⟨ps, hps, hlength⟩
    have hset : (made harbour).probability = some [1 / 4, 3 / 4] := by decide +kernel
    obtain rfl := Option.some.inj (hset.symm.trans hps)
    exact hlength (by decide +kernel)

/-- Nothing at all is known of the costs of a variable. -/
def unscheduled : List (Statement ℚ) := [.var "cranes" crane (costs [])]

/-- A probability for the one realization that there counts as, and then a noise with two. -/
def presumed : List (Statement ℚ) := [.probability (costs [1]), .var "cranes" crane (costs [2, 3])]

/-- There need not be a realization, and if there are some, there need not be probabilities. -/
theorem not_hasDistribution_unscheduled :
    (∃ m, Makes (empty "quay" .minimize) unscheduled m ∧ ¬ m.HasDistribution) ∧
      ∃ m, Makes (empty "quay" .minimize) presumed m ∧ ¬ m.HasDistribution := by
  refine ⟨⟨made unscheduled, makes_made unscheduled (by decide +kernel), ?_⟩,
    ⟨made presumed, makes_made presumed (by decide +kernel), ?_⟩⟩
  · rintro ⟨hcount, -⟩
    have hnone : (made unscheduled).sampleCount = 0 := by decide +kernel
    omega
  · rintro ⟨-, ps, hps, -⟩
    have hset : (made presumed).probability = some [1] := by decide +kernel
    have hcount : (made presumed).sampleCount = 2 := by decide +kernel
    rw [scenarioProbability, hset, hcount] at hps
    exact absurd (Probability.length_of_check_reals (mapError_eq_ok.1 hps)) (by decide)

end Statement

end DualDynamic
