import DualDynamic.Proofs.Subproblem.Alignment

/-!
# Prices and scenarios

The cost of a variable may have scenarios or depend on the price, and it should not do both: setting the
price writes over what the realization has written. A price objective refuses a variable that has
scenarios of its own. Scenarios only come with new variables, and rules are about variables that there
are, so the two never meet in a variable of this kind.

Scenarios of a group are not looked at. A member of such a group can get a rule for the price, and then the
price wins. Any sequence of calls is followed, each of which may fail: a call that builds adds
variables and noise about them (`Enlarges`), and a price objective takes its rules up to the first one
that it refuses (`accepted`).
-/

namespace DualDynamic

open Step

variable {K : Type}

namespace Subproblem

variable {m m' : Subproblem K} {i j : ℕ} {f : Formula K} {rules : List (ℕ × Option (Formula K))}
  {done : List (ℕ × Formula K)}

/-- The cost of the variable has scenarios of its own. -/
def HasScenarios (m : Subproblem K) (i : ℕ) : Prop := ∃ s, Noise.one i s ∈ m.costNoise

/-- The variable is a member of a group whose costs have scenarios. -/
def HasGroupScenarios (m : Subproblem K) (i : ℕ) : Prop :=
  ∃ is s, Noise.group is s ∈ m.costNoise ∧ i ∈ is

/-- The cost of the variable has scenarios. -/
def IsUncertain (m : Subproblem K) (i : ℕ) : Prop := ∃ x ∈ m.costNoise, i ∈ x.targets

/-- The cost of the variable depends on the price. -/
def IsPriced (m : Subproblem K) (i : ℕ) : Prop := i ∈ m.priceObjective.map Prod.fst

theorem isUncertain_iff : m.IsUncertain i ↔ m.HasScenarios i ∨ m.HasGroupScenarios i := by
  constructor
  · rintro ⟨x, hx, hi⟩
    cases x with
    | one j s =>
      obtain rfl := List.mem_singleton.1 hi
      exact Or.inl ⟨s, hx⟩
    | group is s => exact Or.inr ⟨is, s, hx, hi⟩
  · rintro (⟨s, hs⟩ | ⟨is, s, hs, hi⟩)
    · exact ⟨_, hs, List.mem_singleton_self i⟩
    · exact ⟨_, hs, hi⟩

theorem hasCostNoise_iff : m.hasCostNoise i = true ↔ m.HasScenarios i := by
  unfold hasCostNoise
  rw [List.any_eq_true]
  constructor
  · rintro ⟨x, hx, hi⟩
    cases x with
    | one j s =>
      obtain rfl := eq_of_beq hi
      exact ⟨s, hx⟩
    | group is s => cases hi
  · rintro ⟨s, hs⟩
    exact ⟨_, hs, beq_self_eq_true i⟩

/-! ## Rules for the price -/

theorem keys_putRule (i : ℕ) (f : Formula K) (rules : List (ℕ × Formula K)) :
    (putRule i f rules).map Prod.fst =
      if i ∈ rules.map Prod.fst then rules.map Prod.fst else rules.map Prod.fst ++ [i] := by
  induction rules with
  | nil => rfl
  | cons r rules ih =>
    obtain ⟨j, g⟩ := r
    rw [putRule, List.map_cons]
    by_cases hj : j = i
    · rw [if_pos (beq_iff_eq.2 hj), if_pos (by rw [hj]; exact List.mem_cons_self), hj]
      rfl
    · have hmem : i ∈ j :: rules.map Prod.fst ↔ i ∈ rules.map Prod.fst := by
        rw [List.mem_cons, or_iff_right fun h => hj h.symm]
      rw [if_neg fun h => hj (beq_iff_eq.1 h), List.map_cons, ih]
      simp only [hmem]
      split_ifs <;> rfl

theorem mem_keys_putRule : j ∈ (putRule i f done).map Prod.fst ↔ j = i ∨ j ∈ done.map Prod.fst := by
  rw [keys_putRule]
  split_ifs with hi
  · refine ⟨Or.inr, ?_⟩
    rintro (rfl | hj)
    · exact hi
    · exact hj
  · rw [List.mem_append, List.mem_singleton, or_comm]

theorem nodup_keys_putRule (h : (done.map Prod.fst).Nodup) :
    ((putRule i f done).map Prod.fst).Nodup := by
  rw [keys_putRule]
  split_ifs with hi
  · exact h
  · exact List.Nodup.append h (List.nodup_singleton i) (by simpa using hi)

/-- The rules of a price objective that are taken: those in front of the first one that is refused. -/
def accepted (m : Subproblem K) : List (ℕ × Option (Formula K)) → List (ℕ × Formula K)
  | [] => []
  | (_, none) :: _ => []
  | (i, some f) :: rules => if m.hasCostNoise i then [] else (i, f) :: m.accepted rules

/-- Why a price objective is refused, if it is. -/
def refusal? (m : Subproblem K) : List (ℕ × Option (Formula K)) → Option (Fault K)
  | [] => none
  | (i, none) :: _ => some (.priceObjective (m.variableName i))
  | (i, some _) :: rules =>
    if m.hasCostNoise i then some (.uncertainAndPriced (m.variableName i)) else m.refusal? rules

/-- The subproblem with rules put into its price objective, one after the other. -/
def withRules (m : Subproblem K) (rules : List (ℕ × Formula K)) : Subproblem K :=
  { m with priceObjective := rules.foldl (fun done r => putRule r.1 r.2 done) m.priceObjective }

/-- Rules that were taken have no say in which ones are taken next. -/
theorem accepted_priced (m : Subproblem K) (done : List (ℕ × Formula K))
    (rules : List (ℕ × Option (Formula K))) :
    accepted { m with priceObjective := done } rules = m.accepted rules ∧
      refusal? { m with priceObjective := done } rules = m.refusal? rules := by
  have hname : ∀ i, variableName { m with priceObjective := done } i = m.variableName i := fun _ => rfl
  have hown : ∀ i, hasCostNoise { m with priceObjective := done } i = m.hasCostNoise i := fun _ => rfl
  induction rules with
  | nil => exact ⟨rfl, rfl⟩
  | cons r rules ih =>
    obtain ⟨i, _ | f⟩ := r
    · simp only [accepted, refusal?, hname, and_self]
    · simp only [accepted, refusal?, hname, hown, ih, and_self]

/-- The first rule of a price objective is looked at, and then the others. -/
theorem setPriceObjective_cons (r : ℕ × Option (Formula K)) (rules : List (ℕ × Option (Formula K)))
    (m : Subproblem K) : setPriceObjective (r :: rules) m = match r.2 with
      | none => .error (.priceObjective (m.variableName r.1)) m
      | some f =>
        if m.hasCostNoise r.1 then .error (.uncertainAndPriced (m.variableName r.1)) m
        else setPriceObjective rules { m with priceObjective := putRule r.1 f m.priceObjective } := by
  obtain ⟨i, _ | f⟩ := r
  · rfl
  · have hrun : setPriceObjective ((i, some f) :: rules) m =
        ((if m.hasCostNoise i then
            throw (.uncertainAndPriced (m.variableName i)) >>= fun _ : PUnit =>
              set { m with priceObjective := putRule i f m.priceObjective }
          else set { m with priceObjective := putRule i f m.priceObjective }) >>= fun _ =>
            setPriceObjective rules : Build K Unit) m := rfl
    rw [hrun]
    dsimp only
    split_ifs
    · rfl
    · rfl

/-- What a price objective does: it takes the rules that are accepted, and then it fails if one is left. -/
theorem setPriceObjective_eq (rules : List (ℕ × Option (Formula K))) (m : Subproblem K) :
    setPriceObjective rules m = match m.refusal? rules with
      | none => .ok () (m.withRules (m.accepted rules))
      | some e => .error e (m.withRules (m.accepted rules)) := by
  induction rules generalizing m with
  | nil => rfl
  | cons r rules ih =>
    rw [setPriceObjective_cons]
    obtain ⟨i, _ | f⟩ := r
    · rfl
    · dsimp only [accepted, refusal?]
      split_ifs with hi
      · rfl
      · obtain ⟨haccepted, hrefusal⟩ := accepted_priced m (putRule i f m.priceObjective) rules
        rw [ih, haccepted, hrefusal]
        rfl

/-- The rules that are accepted are in the price objective afterwards, whether it fails or not. -/
theorem final_setPriceObjective (rules : List (ℕ × Option (Formula K))) (m : Subproblem K) :
    final (setPriceObjective rules) m = m.withRules (m.accepted rules) := by
  unfold final
  rw [setPriceObjective_eq]
  cases m.refusal? rules <;> rfl

theorem isPriced_withRules (rules : List (ℕ × Formula K)) (m : Subproblem K) :
    (m.withRules rules).IsPriced i ↔ m.IsPriced i ∨ ∃ f, (i, f) ∈ rules := by
  induction rules generalizing m with
  | nil => simp [withRules]
  | cons r rules ih =>
    obtain ⟨j, f⟩ := r
    have hfirst : IsPriced { m with priceObjective := putRule j f m.priceObjective } i ↔
        i = j ∨ m.IsPriced i := mem_keys_putRule
    have hrest : m.withRules ((j, f) :: rules) =
        withRules { m with priceObjective := putRule j f m.priceObjective } rules := rfl
    rw [hrest, ih, hfirst]
    simp only [List.mem_cons, Prod.mk.injEq, exists_or, exists_and_left, exists_eq, and_true]
    tauto

theorem nodup_withRules (rules : List (ℕ × Formula K)) (h : (m.priceObjective.map Prod.fst).Nodup) :
    ((m.withRules rules).priceObjective.map Prod.fst).Nodup := by
  induction rules generalizing m with
  | nil => exact h
  | cons r rules ih =>
    have hfirst : ((putRule r.1 r.2 m.priceObjective).map Prod.fst).Nodup := nodup_keys_putRule h
    exact ih (m := { m with priceObjective := putRule r.1 r.2 m.priceObjective }) hfirst

/-- A rule is accepted only for a variable without scenarios of its own. -/
theorem not_hasScenarios_of_accepted (h : (i, f) ∈ m.accepted rules) :
    ¬ m.HasScenarios i ∧ (i, some f) ∈ rules := by
  induction rules with
  | nil => cases h
  | cons r rules ih =>
    obtain ⟨j, _ | g⟩ := r
    · cases h
    · simp only [accepted] at h
      split_ifs at h with hj
      · cases h
      · rcases List.mem_cons.1 h with heq | h
        · obtain ⟨rfl, rfl⟩ := Prod.mk.inj heq
          exact ⟨fun hi => hj (hasCostNoise_iff.2 hi), List.mem_cons_self⟩
        · exact ⟨(ih h).1, List.mem_cons_of_mem _ (ih h).2⟩

/-- With a rule for each variable, a price objective is refused exactly if some variable has scenarios
of its own. -/
theorem refusal?_eq_none_iff (hrules : ∀ r ∈ rules, r.2 ≠ none) :
    m.refusal? rules = none ↔ ∀ r ∈ rules, ¬ m.HasScenarios r.1 := by
  induction rules with
  | nil => simp [refusal?]
  | cons r rules ih =>
    rw [List.forall_mem_cons] at hrules
    obtain ⟨i, _ | f⟩ := r
    · exact absurd rfl hrules.1
    · rw [List.forall_mem_cons, ← ih hrules.2, ← hasCostNoise_iff, refusal?]
      split_ifs with hi
      · simp [hi]
      · simp [hi]

theorem kind_refusal? {e : Fault K} (hrules : ∀ r ∈ rules, r.2 ≠ none) (h : m.refusal? rules = some e) :
    e.kind = .construction := by
  induction rules with
  | nil => cases h
  | cons r rules ih =>
    rw [List.forall_mem_cons] at hrules
    obtain ⟨i, _ | f⟩ := r
    · exact absurd rfl hrules.1
    · rw [refusal?] at h
      split_ifs at h
      · obtain rfl := Option.some.inj h
        rfl
      · exact ih hrules.2 h

/-- What is wanted of a price objective: if one of its variables has scenarios, then it is refused as a
fault of the construction. -/
def RefusesUncertain (m : Subproblem K) (rules : List (ℕ × Option (Formula K))) : Prop :=
  (∃ r ∈ rules, m.IsUncertain r.1) →
    ∃ e m', setPriceObjective rules m = .error e m' ∧ e.kind = .construction

/-- Members of groups with scenarios are let through, if there is no other reason to refuse. -/
theorem refusesUncertain_iff (hrules : ∀ r ∈ rules, r.2 ≠ none) : m.RefusesUncertain rules ↔
    (∀ r ∈ rules, ¬ m.HasGroupScenarios r.1) ∨ ∃ r ∈ rules, m.HasScenarios r.1 := by
  have hrefused : (∃ e m', setPriceObjective rules m = .error e m' ∧ e.kind = .construction) ↔
      ∃ r ∈ rules, m.HasScenarios r.1 := by
    rw [setPriceObjective_eq]
    cases he : m.refusal? rules with
    | none =>
      have hnone := (refusal?_eq_none_iff hrules).1 he
      constructor
      · rintro ⟨e, m', h, -⟩
        cases h
      · rintro ⟨r, hr, h⟩
        exact absurd h (hnone r hr)
    | some e =>
      have hsome : ¬ ∀ r ∈ rules, ¬ m.HasScenarios r.1 := fun h => by
        rw [(refusal?_eq_none_iff hrules).2 h] at he
        cases he
      push Not at hsome
      exact iff_of_true ⟨e, _, rfl, kind_refusal? hrules he⟩ hsome
  unfold RefusesUncertain
  rw [hrefused]
  simp only [isUncertain_iff]
  constructor
  · intro h
    by_cases hgroup : ∃ r ∈ rules, m.HasGroupScenarios r.1
    · obtain ⟨r, hr, hgroup⟩ := hgroup
      exact Or.inr (h ⟨r, hr, Or.inr hgroup⟩)
    · push Not at hgroup
      exact Or.inl hgroup
  · rintro (hnone | hown) ⟨r, hr, howns | hgroup⟩
    · exact ⟨r, hr, howns⟩
    · exact absurd hgroup (hnone r hr)
    · exact hown
    · exact hown

/-! ## Calls that build -/

/-- The one subproblem has become of the other one by calls that build: there may be more variables, and
more scenarios of costs that are about these. -/
structure Enlarges (m m' : Subproblem K) : Prop where
  rules : m'.priceObjective = m.priceObjective
  size : m.program.vars.size ≤ m'.program.vars.size
  noise : ∃ new, m'.costNoise = m.costNoise ++ new ∧
    ∀ x ∈ new, ∀ i ∈ x.targets, m.program.vars.size ≤ i

theorem Enlarges.refl (m : Subproblem K) : Enlarges m m := ⟨rfl, le_rfl, [], by simp⟩

theorem Enlarges.addCost {x : Noise K} (h : Enlarges m m')
    (hx : ∀ i ∈ x.targets, m.program.vars.size ≤ i) :
    Enlarges m { m' with costNoise := m'.costNoise ++ [x] } := by
  obtain ⟨new, hnoise, hnew⟩ := h.noise
  refine ⟨h.rules, h.size, new ++ [x], ?_, ?_⟩
  · rw [← List.append_assoc, ← hnoise]
  · exact List.forall_mem_append.2 ⟨hnew, List.forall_mem_singleton.2 hx⟩

/-- Variables that there were have the scenarios that they had. -/
theorem Enlarges.mem_costNoise (h : Enlarges m m') (hi : i < m.program.vars.size) {x : Noise K}
    (hx : i ∈ x.targets) : x ∈ m'.costNoise ↔ x ∈ m.costNoise := by
  obtain ⟨new, hnoise, hnew⟩ := h.noise
  rw [hnoise, List.mem_append, or_iff_left]
  intro hmem
  have hle := hnew x hmem i hx
  omega

theorem Enlarges.isUncertain_iff (h : Enlarges m m') (hi : i < m.program.vars.size) :
    m'.IsUncertain i ↔ m.IsUncertain i :=
  exists_congr fun _ => and_congr_left fun hx => h.mem_costNoise hi hx

theorem Enlarges.hasScenarios_iff (h : Enlarges m m') (hi : i < m.program.vars.size) :
    m'.HasScenarios i ↔ m.HasScenarios i :=
  exists_congr fun _ => h.mem_costNoise hi (List.mem_singleton_self i)

/-- A change of other parts does not show. -/
theorem enlarges_modify {change : Subproblem K → Subproblem K}
    (h : ∀ m, (change m).priceObjective = m.priceObjective ∧ (change m).program = m.program ∧
      (change m).costNoise = m.costNoise) : Keeps (Enlarges m) (modify change : Build K Unit) := by
  intro m' hm
  obtain ⟨hrules, hprogram, hnoise⟩ := h m'
  exact ⟨hrules.trans hm.rules, hprogram ▸ hm.size, hnoise ▸ hm.noise⟩

theorem enlarges_addRowNoise (row : ℕ) (key : RowKey) (values : List K) :
    Keeps (Enlarges m) (addRowNoise row key values) := by
  cases key with
  | rhs => exact enlarges_modify fun _ => ⟨rfl, rfl, rfl⟩
  | var i => exact enlarges_modify fun _ => ⟨rfl, rfl, rfl⟩
  | other text => exact keeps_throw _

/-- A new variable is none of those that there were. -/
theorem ensures_pushVariable (v : Variable K) : Ensures (Enlarges m) (pushVariable v)
    (fun i m' => m.program.vars.size ≤ i ∧ Enlarges m m') (Enlarges m) := by
  intro m' h
  have hsize : (m'.withVariable v).program.vars.size = m'.program.vars.size + 1 := by
    simp [withVariable, LinearProgram.addVariable]
  refine ⟨h.size, h.rules, ?_, h.noise⟩
  rw [hsize]
  exact Nat.le_succ_of_le h.size

theorem ensures_newVariables (vs : List (Variable K)) : Ensures (Enlarges m) (vs.mapM pushVariable)
    (fun is m' => (∀ i ∈ is, m.program.vars.size ≤ i) ∧ Enlarges m m') (Enlarges m) := by
  refine (Ensures.mapM (R := fun _ i => m.program.vars.size ≤ i) fun v _ =>
    ensures_pushVariable v).weaken (fun _ => id) (fun is m' h => ⟨fun i hi => ?_, h.2⟩) fun _ => id
  obtain ⟨_, -, hle⟩ := exists_left_of_forall₂ h.1 hi
  exact hle

theorem enlarges_pushConstraint (c : Constraint K) : Keeps (Enlarges m) (pushConstraint c) :=
  fun _ h => { h with }

theorem enlarges_fixSize (d : Datum K) (n : ℕ) : Keeps (Enlarges m) (fixSize d n) := by
  refine ensures_get_bind fun m' h => ?_
  cases m'.noiseSize with
  | none => exact fun _ _ => { h with }
  | some size =>
    dsimp only
    split_ifs
    · exact ensures_throw fun _ heq => heq ▸ h
    · exact ensures_pure fun _ heq => heq ▸ h

variable [Numeral K]

theorem enlarges_scenarios (d : Datum K) : Keeps (Enlarges m) (scenarios d) := by
  refine (keeps_ofExcept _).bind fun block => ?_
  rcases block.shape with _ | ⟨n, _ | ⟨width, more⟩⟩
  · exact keeps_throw _
  · exact (enlarges_fixSize d n).bind fun _ => keeps_pure _
  · exact keeps_throw _

theorem enlarges_groupScenarios (size : ℕ) (d : Datum K) : Keeps (Enlarges m) (groupScenarios size d) := by
  refine (keeps_ofExcept _).bind fun block => ?_
  rcases block.shape with _ | ⟨n, _ | ⟨width, _ | ⟨depth, more⟩⟩⟩
  · exact keeps_throw _
  · exact keeps_throw _
  · dsimp only
    split_ifs
    · exact (keeps_throw _).bind fun _ => (enlarges_fixSize d n).bind fun _ => keeps_pure _
    · exact (enlarges_fixSize d n).bind fun _ => keeps_pure _
  · exact keeps_throw _

theorem enlarges_addCostNoise (hi : m.program.vars.size ≤ i) (d : Datum K) :
    Keeps (Enlarges m) (addCostNoise i d) := by
  obtain heq | heq := addCostNoise_cases i d <;> rw [heq]
  · exact keeps_pure ()
  · exact (enlarges_scenarios d).bind fun _ _ h => h.addCost (List.forall_mem_singleton.2 hi)

theorem enlarges_addGroupCostNoise {is : List ℕ} (his : ∀ i ∈ is, m.program.vars.size ≤ i)
    (d : Datum K) : Keeps (Enlarges m) (addGroupCostNoise is d) := by
  obtain heq | heq := addGroupCostNoise_cases is d <;> rw [heq]
  · exact keeps_pure ()
  · exact (enlarges_groupScenarios is.length d).bind fun _ _ h => h.addCost his

theorem enlarges_registerStates (states copies : List ℕ) (initial : Datum K) :
    Keeps (Enlarges m) (registerStates states copies initial) := by
  refine (keeps_ofExcept _).bind fun _ => Keeps.bind (enlarges_modify ?_) fun _ =>
    (keeps_ofExcept _).bind fun _ => enlarges_modify ?_
  · exact fun _ => ⟨rfl, rfl, rfl⟩
  · exact fun _ => ⟨rfl, rfl, rfl⟩

theorem enlarges_setProbability (p : Datum K) : Keeps (Enlarges m) (setProbability p) :=
  keeps_get.bind fun _ => (keeps_ofExcept _).bind fun _ => enlarges_modify fun _ => ⟨rfl, rfl, rfl⟩

theorem enlarges_addVariable (v : Variable K) (d : Datum K) :
    Keeps (Enlarges m) (addVariable v d) := by
  refine (ensures_pushVariable v).bind fun i m' h => ?_
  exact ((enlarges_addCostNoise h.1 d).bind fun _ => keeps_pure i) m' h.2

theorem enlarges_addVariables (vs : List (Variable K)) (d : Datum K) :
    Keeps (Enlarges m) (addVariables vs d) := by
  refine (ensures_newVariables vs).bind fun is m' h => ?_
  exact ((enlarges_addGroupCostNoise h.1 d).bind fun _ => keeps_pure is) m' h.2

theorem enlarges_addState (v copy : Variable K) (initial d : Datum K) :
    Keeps (Enlarges m) (addState v copy initial d) := by
  refine (ensures_pushVariable v).bind fun state m' h => ?_
  have hcopy : Keeps (Enlarges m) (pushVariable copy) :=
    (ensures_pushVariable copy).weaken (fun _ => id) (fun _ _ h => h.2) fun _ => id
  exact (hcopy.bind fun _ => (enlarges_registerStates _ _ _).bind fun _ =>
    (enlarges_addCostNoise h.1 d).bind fun _ => keeps_pure _) m' h.2

theorem enlarges_addStates (vs copies : List (Variable K)) (initial d : Datum K) :
    Keeps (Enlarges m) (addStates vs copies initial d) := by
  refine (ensures_newVariables vs).bind fun states m' h => ?_
  have hcopies : Keeps (Enlarges m) (copies.mapM pushVariable) :=
    (ensures_newVariables copies).weaken (fun _ => id) (fun _ _ h => h.2) fun _ => id
  exact (hcopies.bind fun _ => (enlarges_registerStates _ _ _).bind fun _ =>
    (enlarges_addGroupCostNoise h.1 d).bind fun _ => keeps_pure _) m' h.2

theorem enlarges_addConstraint (c : Constraint K) (noise : RowNoise K) :
    Keeps (Enlarges m) (addConstraint c noise) := by
  refine (enlarges_pushConstraint c).bind fun row => ?_
  cases noise with
  | none => exact keeps_pure row
  | other => exact keeps_throw _
  | table entries =>
    exact (Keeps.mapM fun e _ => (enlarges_scenarios e.2).bind fun _ => keeps_pure _).bind fun read =>
      (Keeps.each fun e _ => enlarges_addRowNoise row e.1 e.2).bind fun _ => keeps_pure row

theorem enlarges_addConstraints (cs : List (Constraint K)) (d : Datum K) :
    Keeps (Enlarges m) (addConstraints cs d) := by
  obtain heq | heq := addConstraints_cases cs d <;> rw [heq] <;>
    refine (Keeps.mapM fun c _ => enlarges_pushConstraint c).bind fun rows => ?_
  · exact keeps_pure rows
  · refine (enlarges_groupScenarios rows.length d).bind fun _ =>
      Keeps.bind (enlarges_modify ?_) fun _ => keeps_pure rows
    exact fun _ => ⟨rfl, rfl, rfl⟩

theorem enlarges_parameterize (actions : Option (List (Action K))) (support p : Datum K) :
    Keeps (Enlarges m) (Subproblem.parameterize actions support p) := by
  unfold Subproblem.parameterize
  cases actions with
  | none => exact keeps_throw _
  | some actions =>
    cases support.items? with
    | none => exact keeps_throw _
    | some points =>
      dsimp only
      split_ifs
      · exact keeps_throw _
      · refine (enlarges_fixSize _ _).bind fun _ => Keeps.bind (enlarges_modify ?_) fun _ => ?_
        · exact fun _ => ⟨rfl, rfl, rfl⟩
        · cases p with
          | absent => exact keeps_pure ()
          | _ => exact enlarges_setProbability _

/-- Every call that builds, whether it fails or not, adds variables and noise about them. -/
theorem enlarges_perform (c : Call K) : Keeps (Enlarges m) c.perform := by
  have hstep : ∀ {A : Type} {x : Build K A}, Keeps (Enlarges m) x →
      Keeps (Enlarges m) (x >>= fun _ => pure ()) := fun hx => hx.bind fun _ => keeps_pure ()
  cases c with
  | addVariable v d => exact hstep (enlarges_addVariable v d)
  | addVariables vs d => exact hstep (enlarges_addVariables vs d)
  | addState v copy initial d => exact hstep (enlarges_addState v copy initial d)
  | addStates pairs initial d => exact hstep (enlarges_addStates _ _ initial d)
  | addConstraint c noise => exact hstep (enlarges_addConstraint c noise)
  | addConstraints cs d => exact hstep (enlarges_addConstraints cs d)
  | parameterize actions support p => exact enlarges_parameterize actions support p

/-! ## Sequences of calls -/

/-- A call on a subproblem: one that builds, or a price objective. -/
inductive PricedCall (K : Type) where
  | build (call : Call K)
  | price (rules : List (ℕ × Option (Formula K)))

namespace PricedCall

def perform : PricedCall K → Build K Unit
  | build call => call.perform
  | price rules => setPriceObjective rules

/-- Rules are about variables that there are. -/
def IsKnown (m : Subproblem K) : PricedCall K → Prop
  | build _ => True
  | price rules => ∀ r ∈ rules, r.1 < m.program.vars.size

end PricedCall

/-- What calls make of a subproblem, each of which may fail. -/
def afterPriced (m : Subproblem K) (calls : List (PricedCall K)) : Subproblem K :=
  calls.foldl (fun m c => final c.perform m) m

/-- Each call is about variables that there are when it is its turn. -/
def AreKnown : Subproblem K → List (PricedCall K) → Prop
  | _, [] => True
  | m, c :: calls => c.IsKnown m ∧ AreKnown (final c.perform m) calls

/-- What calls leave behind: one rule at most for a variable, which there is and which has no scenarios
of its own. -/
structure IsOrdered (m : Subproblem K) : Prop where
  known : ∀ i, m.IsPriced i → i < m.program.vars.size
  apart : ∀ i, m.IsPriced i → ¬ m.HasScenarios i
  nodup : (m.priceObjective.map Prod.fst).Nodup

omit [Numeral K] in
theorem isOrdered_empty (title : String) (sense : Sense) : (empty (K := K) title sense).IsOrdered where
  known i hi := by simp [IsPriced, empty] at hi
  apart i hi := by simp [IsPriced, empty] at hi
  nodup := List.nodup_nil

omit [Numeral K] in
theorem IsOrdered.of_enlarges (hm : m.IsOrdered) (h : Enlarges m m') : m'.IsOrdered := by
  have hpriced : ∀ i, m'.IsPriced i ↔ m.IsPriced i := fun i => by rw [IsPriced, IsPriced, h.rules]
  refine ⟨fun i hi => ?_, fun i hi => ?_, ?_⟩
  · exact (hm.known i ((hpriced i).1 hi)).trans_le h.size
  · rw [h.hasScenarios_iff (hm.known i ((hpriced i).1 hi))]
    exact hm.apart i ((hpriced i).1 hi)
  · rw [h.rules]
    exact hm.nodup

omit [Numeral K] in
theorem IsOrdered.setPriceObjective (hm : m.IsOrdered) (hrules : ∀ r ∈ rules, r.1 < m.program.vars.size) :
    (final (setPriceObjective rules) m).IsOrdered := by
  rw [final_setPriceObjective]
  refine ⟨fun i hi => ?_, fun i hi => ?_, nodup_withRules _ hm.nodup⟩
  · rcases (isPriced_withRules _ m).1 hi with hi | ⟨f, hf⟩
    · exact hm.known i hi
    · exact hrules _ (not_hasScenarios_of_accepted hf).2
  · rcases (isPriced_withRules _ m).1 hi with hi | ⟨f, hf⟩
    · exact hm.apart i hi
    · exact (not_hasScenarios_of_accepted hf).1

theorem IsOrdered.perform {c : PricedCall K} (hm : m.IsOrdered) (hc : c.IsKnown m) :
    (final c.perform m).IsOrdered := by
  cases c with
  | build call => exact hm.of_enlarges ((enlarges_perform call).final (.refl m))
  | price rules => exact hm.setPriceObjective hc

theorem IsOrdered.afterPriced {calls : List (PricedCall K)} (hm : m.IsOrdered)
    (hcalls : AreKnown m calls) : (m.afterPriced calls).IsOrdered := by
  induction calls generalizing m with
  | nil => exact hm
  | cons c calls ih => exact ih (hm.perform hcalls.1) hcalls.2

/-- A call makes variables priced and uncertain that are members of groups with scenarios when it takes
rules for them, and no other ones. -/
theorem priced_uncertain_perform {c : PricedCall K} (hm : m.IsOrdered) (i : ℕ) :
    (final c.perform m).IsPriced i ∧ (final c.perform m).IsUncertain i ↔
      (m.IsPriced i ∧ m.IsUncertain i) ∨
        ∃ rules, c = .price rules ∧ m.HasGroupScenarios i ∧ ∃ f, (i, f) ∈ m.accepted rules := by
  cases c with
  | build call =>
    have h : Enlarges m (final call.perform m) := (enlarges_perform call).final (.refl m)
    have hpriced : (final call.perform m).IsPriced i ↔ m.IsPriced i := by
      rw [IsPriced, IsPriced, h.rules]
    show (final call.perform m).IsPriced i ∧ (final call.perform m).IsUncertain i ↔ _
    rw [hpriced, and_congr_right fun hi => h.isUncertain_iff (hm.known i hi)]
    simp
  | price rules =>
    have huncertain : (m.withRules (m.accepted rules)).IsUncertain i ↔ m.IsUncertain i := Iff.rfl
    show (final (setPriceObjective rules) m).IsPriced i ∧
      (final (setPriceObjective rules) m).IsUncertain i ↔ _
    rw [final_setPriceObjective, isPriced_withRules, huncertain, or_and_right]
    refine or_congr_right ⟨?_, ?_⟩
    · rintro ⟨⟨f, hf⟩, hi⟩
      have hown := (not_hasScenarios_of_accepted hf).1
      exact ⟨rules, rfl, (isUncertain_iff.1 hi).resolve_left hown, f, hf⟩
    · rintro ⟨rules', heq, hgroup, f, hf⟩
      obtain rfl := PricedCall.price.inj heq
      exact ⟨⟨f, hf⟩, isUncertain_iff.2 (Or.inr hgroup)⟩

/-- The variables that are priced and uncertain after calls: those that were, and members of groups with
scenarios for which a rule was taken on the way. -/
theorem priced_uncertain_afterPriced {calls : List (PricedCall K)} (hm : m.IsOrdered)
    (hcalls : AreKnown m calls) (i : ℕ) :
    (m.afterPriced calls).IsPriced i ∧ (m.afterPriced calls).IsUncertain i ↔
      (m.IsPriced i ∧ m.IsUncertain i) ∨ ∃ earlier rules later,
        calls = earlier ++ .price rules :: later ∧ (m.afterPriced earlier).HasGroupScenarios i ∧
          ∃ f, (i, f) ∈ (m.afterPriced earlier).accepted rules := by
  induction calls generalizing m with
  | nil => simp [Subproblem.afterPriced]
  | cons c calls ih =>
    have hrest := ih (hm.perform hcalls.1) hcalls.2
    have hfold : m.afterPriced (c :: calls) = (final c.perform m).afterPriced calls := rfl
    rw [hfold, hrest, priced_uncertain_perform hm, or_assoc]
    refine or_congr_right ⟨?_, ?_⟩
    · rintro (⟨rules, rfl, hnow⟩ | ⟨earlier, rules, later, rfl, hlater⟩)
      · exact ⟨[], rules, calls, rfl, hnow⟩
      · exact ⟨c :: earlier, rules, later, rfl, hlater⟩
    · rintro ⟨earlier, rules, later, heq, hthen⟩
      cases earlier with
      | nil =>
        obtain ⟨rfl, rfl⟩ := List.cons.inj heq
        exact Or.inl ⟨rules, rfl, hthen⟩
      | cons c' earlier =>
        obtain ⟨rfl, rfl⟩ := List.cons.inj heq
        exact Or.inr ⟨earlier, rules, later, rfl, hthen⟩

/-! ## Setting the price -/

/-- What the rule for a variable comes to at a price. -/
def priceCost (price : Option K) (f : Formula K) : Except (Fault K) K :=
  Action.numberOf priceName (Formula.priceDatum price) f >>= Action.checkFinite

/-- Writes what the rule for a variable comes to. -/
def writePrice (price : Option K) (e : ℕ × Formula K) : Run K (Subproblem K) Unit := do
  let x ← Step.ofExcept (priceCost price e.2)
  Action.changeProgram (LinearProgram.setCost e.1 x)

variable {price : Option K} {w v : Watched (Subproblem K)}

theorem setPrice_eq (price : Option K) (w : Watched (Subproblem K)) :
    setPrice price w = Step.each w.part.priceObjective (writePrice price) w := by
  have hstep : (fun e : ℕ × Formula K => (do
      let x ← Step.ofExcept (Action.numberOf priceName (Formula.priceDatum price) e.2)
      let x ← Step.ofExcept (Action.checkFinite x)
      Action.changeProgram (LinearProgram.setCost e.1 x) : Run K (Subproblem K) Unit)) =
        writePrice price := by
    funext e
    unfold writePrice priceCost
    cases Action.numberOf priceName (Formula.priceDatum price) e.2 <;> rfl
  rw [← hstep, setPrice, Run.part_bind_apply]

theorem writePrice_eq_ok {e : ℕ × Formula K} : writePrice price e w = .ok () v ↔
    ∃ x, priceCost price e.2 = .ok x ∧
      v = { w with part := { w.part with program := w.part.program.setCost e.1 x } } := by
  constructor
  · intro h
    obtain ⟨x, w', hx, h⟩ := bind_eq_ok.1 h
    obtain ⟨hcost, rfl⟩ := ofExcept_eq_ok.1 hx
    cases h
    exact ⟨x, hcost, rfl⟩
  · rintro ⟨x, hx, rfl⟩
    exact bind_eq_ok.2 ⟨x, w, ofExcept_eq_ok.2 ⟨hx, rfl⟩, rfl⟩

/-- Variables without a rule are left alone. -/
theorem keeps_writePrices {o : Option (Variable K)} {done : List (ℕ × Formula K)}
    (hi : i ∉ done.map Prod.fst) :
    Keeps (fun w => w.part.program.vars[i]? = o) (Step.each done (writePrice price)) := by
  refine Keeps.each fun e he => (keeps_ofExcept _).bind fun x w hw => ?_
  have hne : ¬ e.1 = i := fun heq => hi (List.mem_map.2 ⟨e, he, heq⟩)
  show (w.part.program.setCost e.1 x).vars[i]? = o
  rw [LinearProgram.setCost, LinearProgram.getElem?_changeVariable, if_neg hne]
  exact hw

/-- Variables with a rule cost what it comes to. -/
theorem cost_writePrices {done : List (ℕ × Formula K)} (hnodup : (done.map Prod.fst).Nodup)
    (h : Step.each done (writePrice price) w = .ok () v) {e : ℕ × Formula K} (he : e ∈ done) :
    ∃ x, priceCost price e.2 = .ok x ∧
      v.part.program.vars[e.1]? = w.part.program.vars[e.1]?.map fun y => { y with cost := x } := by
  induction done generalizing w with
  | nil => simp at he
  | cons r done ih =>
    obtain ⟨hr, hnodup⟩ := List.nodup_cons.1 hnodup
    obtain ⟨⟨⟩, w', hwrite, hrest⟩ := bind_eq_ok.1 h
    obtain ⟨x, hx, rfl⟩ := writePrice_eq_ok.1 hwrite
    have hchanged : ∀ j, (w.part.program.setCost r.1 x).vars[j]? = if r.1 = j
        then w.part.program.vars[j]?.map fun y => { y with cost := x } else w.part.program.vars[j]? :=
      fun _ => LinearProgram.getElem?_changeVariable ..
    rcases List.mem_cons.1 he with rfl | he
    · refine ⟨x, hx, ?_⟩
      exact ((keeps_writePrices hr).of_ok ((hchanged e.1).trans (if_pos rfl)) hrest)
    · obtain ⟨y, hy, hcost⟩ := ih hnodup hrest he
      have hne : ¬ r.1 = e.1 := fun heq => hr (heq ▸ List.mem_map_of_mem he)
      exact ⟨y, hy, by rw [hcost, hchanged, if_neg hne]⟩

/-- Setting the price leaves variables without a rule alone, and then the others cost what their rules come
to. -/
theorem cost_setPrice (price : Option K) (hnodup : (w.part.priceObjective.map Prod.fst).Nodup) :
    (∀ i, ¬ w.part.IsPriced i →
      (final (setPrice price) w).part.program.vars[i]? = w.part.program.vars[i]?) ∧
    ∀ v, setPrice price w = .ok () v → ∀ e ∈ w.part.priceObjective, ∃ x,
      priceCost price e.2 = .ok x ∧
        v.part.program.vars[e.1]? = w.part.program.vars[e.1]?.map fun y => { y with cost := x } := by
  constructor
  · intro i hi
    have hkept : (final (Step.each w.part.priceObjective (writePrice price)) w).part.program.vars[i]? =
        w.part.program.vars[i]? := (keeps_writePrices hi).final rfl
    rwa [final, ← setPrice_eq] at hkept
  · intro v hv e he
    rw [setPrice_eq] at hv
    exact cost_writePrices hnodup hv he

/-- How prices and scenarios meet, after any calls, each of which may fail. A variable with scenarios of its
own has no rule for the price. A price objective is refused as wanted exactly if none of its variables is a
member of a group with scenarios, or some variable has scenarios of its own. The variables that are priced
and uncertain are the members of groups with scenarios for which a rule was taken on the way. And
setting the price writes over the costs of these, while it leaves every variable without a rule alone. -/
theorem priced_uncertain_iff_grouped (title : String) (sense : Sense) (calls : List (PricedCall K))
    (hcalls : AreKnown (empty title sense) calls) :
    let m := (empty title sense).afterPriced calls
    (∀ i, m.HasScenarios i → ¬ m.IsPriced i) ∧
    (∀ rules : List (ℕ × Option (Formula K)), (∀ r ∈ rules, r.2 ≠ none) → (m.RefusesUncertain rules ↔
      (∀ r ∈ rules, ¬ m.HasGroupScenarios r.1) ∨ ∃ r ∈ rules, m.HasScenarios r.1)) ∧
    (∀ i, m.IsPriced i ∧ m.IsUncertain i ↔ ∃ earlier rules later,
      calls = earlier ++ .price rules :: later ∧
        let m₀ := (empty title sense).afterPriced earlier
        m₀.HasGroupScenarios i ∧ ∃ f, (i, f) ∈ m₀.accepted rules) ∧
    ∀ (price : Option K) (w : Watched (Subproblem K)), w.part.outline = m.outline →
      (∀ i, ¬ m.IsPriced i →
        (final (setPrice price) w).part.program.vars[i]? = w.part.program.vars[i]?) ∧
      ∀ v, setPrice price w = .ok () v → ∀ e ∈ m.priceObjective, ∃ x,
        priceCost price e.2 = .ok x ∧ v.part.program.vars[e.1]? =
          w.part.program.vars[e.1]?.map fun y => { y with cost := x } := by
  intro m
  have hm : m.IsOrdered := (isOrdered_empty title sense).afterPriced hcalls
  refine ⟨fun i hi hpriced => hm.apart i hpriced hi, fun rules hrules => refusesUncertain_iff hrules,
    fun i => ?_, fun price w hw => ?_⟩
  · have hnone : ¬ (empty (K := K) title sense).IsPriced i := by simp [IsPriced, empty]
    rw [priced_uncertain_afterPriced (isOrdered_empty title sense) hcalls,
      or_iff_right fun h => hnone h.1]
  · obtain ⟨p, r, t, s, hpart⟩ := exists_of_outline hw
    have hrules : w.part.priceObjective = m.priceObjective := by rw [hpart]
    have hnodup : (w.part.priceObjective.map Prod.fst).Nodup := by
      rw [hrules]
      exact hm.nodup
    have hcosts := cost_setPrice price hnodup
    simpa only [IsPriced, hrules] using hcosts

/-- Two turbines with two realizations of their costs, and a gate with such scenarios of its own. Power is
sold at the price, which is refused for the gate and taken for the second turbine. -/
def station : List (PricedCall ℤ) :=
  [.build (.addVariables [tank "turbine[0]", tank "turbine[1]"]
      (.list [.list [.whole 1, .whole 2], .list [.whole 3, .whole 4]])),
    .build (.addVariable (tank "gate") (.list [.whole 5, .whole 6])),
    .build (.addVariable (tank "sold") .absent),
    .price [(3, some (.name "price")), (2, some (.name "price"))],
    .price [(1, some (.name "price"))]]

theorem areKnown_station : AreKnown (empty "station" .minimize) station := by
  refine ⟨trivial, trivial, trivial, ?_, ?_, trivial⟩
  · show ∀ r ∈ _, _
    decide +kernel
  · show ∀ r ∈ _, _
    decide +kernel

/-- The gate has no rule, the second turbine has one, and setting the price leaves the first one alone. -/
theorem priced_uncertain_iff_grouped_station :
    AreKnown (empty "station" .minimize) station ∧
      let m := (empty "station" .minimize).afterPriced station
      ¬ m.IsPriced 2 ∧ (m.IsPriced 1 ∧ m.IsUncertain 1) ∧ ∀ price,
        (final (setPrice price) ⟨{}, m⟩).part.program.vars[0]? = m.program.vars[0]? := by
  refine ⟨areKnown_station, ?_⟩
  intro m
  obtain ⟨hown, -, hboth, hprice⟩ :=
    priced_uncertain_iff_grouped "station" .minimize station areKnown_station
  have hunpriced : ¬ m.IsPriced 0 := by
    unfold IsPriced
    decide +kernel
  refine ⟨hown 2 ⟨[5, 6], ?_⟩, (hboth 1).2 ⟨station.take 4, _, [], rfl, ⟨[0, 1], [[1, 2], [3, 4]], ?_, ?_⟩,
    .name "price", ?_⟩, fun price => (hprice price ⟨{}, m⟩ rfl).1 0 hunpriced⟩
  · exact List.mem_cons_of_mem _ (List.mem_singleton_self _)
  · exact List.mem_cons_self
  · decide
  · exact List.mem_singleton_self _

/-- The turbines are let through, although their costs have scenarios. So the cost of the second one is the
price, whatever it was in the realization. -/
theorem not_refusesUncertain_station :
    AreKnown (empty "station" .minimize) station ∧
      let m := (empty "station" .minimize).afterPriced station
      ¬ m.RefusesUncertain [(0, some (.name "price"))] ∧ (m.IsPriced 1 ∧ m.IsUncertain 1) ∧
        (final (setRealization 0) ⟨{}, m⟩).part.program.vars[1]?.map Variable.cost = some 2 ∧
        (final (setPrice (some 9)) (final (setRealization 0) ⟨{}, m⟩)).part.program.vars[1]?.map
          Variable.cost = some 9 := by
  refine ⟨areKnown_station, ?_⟩
  intro m
  have hgroup : Noise.group [0, 1] [[1, 2], [3, 4]] ∈ m.costNoise := List.mem_cons_self
  have hpriced : m.IsPriced 1 := by
    unfold IsPriced
    decide +kernel
  refine ⟨fun hrefuses => ?_, ⟨hpriced, _, hgroup, by decide⟩, by decide +kernel, by decide +kernel⟩
  have hrules : ∀ r ∈ [((0 : ℕ), some (Formula.name "price" : Formula ℤ))], r.2 ≠ none := by simp
  rcases (refusesUncertain_iff hrules).1 hrefuses with hnone | ⟨r, hr, s, hs⟩
  · exact hnone _ (List.mem_singleton_self _) ⟨_, _, hgroup, by decide⟩
  · obtain rfl := List.mem_singleton.1 hr
    have hown : m.hasCostNoise 0 = true := hasCostNoise_iff.2 ⟨s, hs⟩
    revert hown
    decide +kernel

end Subproblem

end DualDynamic
