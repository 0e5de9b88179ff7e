import DualDynamic.Proofs.Datum
import DualDynamic.Proofs.Subproblem.Setup
import DualDynamic.PolicyGraph

/-!
# Statements build well-formed subproblems

Every statement that succeeds keeps a subproblem in a shape in which the data that is registered
points at variables and constraints that there are (`IsBuilding`). With the linking constraints
behind them the subproblem of a new node is well-formed.
-/

namespace DualDynamic

open Step

variable {K : Type}

namespace Subproblem

/-! ## What a builder may rely on -/

/-- A subproblem on the way: its data is about the variables and constraints that there are, nothing
is linked yet, and retry and sense are the ones that it began with. -/
structure IsBuilding (o : Option (Retry K) × Sense) (m : Subproblem K) : Prop where
  retry : m.retry = o.1
  sense : m.program.sense = o.2
  wellFormed : m.WellFormed m.program.constraints.size
  links : m.links = []
  copies : m.localCopies.length = m.stateCount
  copied : ∀ i ∈ m.localCopies, i < m.program.vars.size
  terms : ∀ r ∈ m.program.constraints, ∀ t ∈ r.terms, t.1 < m.program.vars.size

variable {o : Option (Retry K) × Sense}

theorem isBuilding_empty (title : String) (sense : Sense) (retry : Option (Retry K)) :
    IsBuilding (retry, sense) { empty (K := K) title sense with retry := retry } where
  retry := rfl
  sense := rfl
  wellFormed := by constructor <;> simp [empty]
  links := rfl
  copies := rfl
  copied := by simp [empty]
  terms := by simp [empty]

/-- A subproblem with the data of another one and perhaps more variables and constraints. -/
theorem IsBuilding.mono {m : Subproblem K} (h : IsBuilding o m) (m' : Subproblem K)
    (hm : m'.outline = m.outline) (hsense : m'.program.sense = m.program.sense)
    (hvars : m.program.vars.size ≤ m'.program.vars.size)
    (hrows : m.program.constraints.size ≤ m'.program.constraints.size)
    (hterms : ∀ r ∈ m'.program.constraints, ∀ t ∈ r.terms, t.1 < m'.program.vars.size) :
    IsBuilding o m' := by
  obtain ⟨p, r, t, s, rfl⟩ := exists_of_outline hm
  have hv : ∀ {i}, i < m.program.vars.size → i < p.vars.size := fun hi => hi.trans_le hvars
  have hr : ∀ {c}, c < m.program.constraints.size → c < p.constraints.size :=
    fun hc => hc.trans_le hrows
  have hw := h.wellFormed
  exact {
    retry := h.retry
    sense := hsense.trans h.sense
    wellFormed := { hw.mono hm hvars hrows with
      rows := by simp [h.links]
      links := by simp [h.links]
      rhsNoise := fun x hx => ⟨(hw.rhsNoise x hx).1, fun c hc => hr ((hw.rhsNoise x hx).2 c hc)⟩
      coefficientNoise := fun e he =>
        ⟨hr (hw.coefficientNoise e he).1, hv (hw.coefficientNoise e he).2⟩
      constraintNames := fun e he => hr (hw.constraintNames e he) }
    links := h.links
    copies := h.copies
    copied := fun i hi => hv (h.copied i hi)
    terms := hterms }

theorem IsBuilding.withVariable {m : Subproblem K} (h : IsBuilding o m) (v : Variable K) :
    IsBuilding o (m.withVariable v) := by
  refine h.mono _ rfl rfl (by simp [Subproblem.withVariable, LinearProgram.addVariable]) le_rfl ?_
  intro r hr t ht
  have := h.terms r hr t ht
  simp only [Subproblem.withVariable, LinearProgram.addVariable, Array.size_push]
  omega

theorem IsBuilding.withConstraint {m : Subproblem K} (h : IsBuilding o m) {c : Constraint K}
    (hc : ∀ t ∈ c.terms, t.1 < m.program.vars.size) : IsBuilding o (m.withConstraint c) := by
  refine h.mono _ rfl rfl le_rfl (by simp [Subproblem.withConstraint, LinearProgram.addConstraint]) ?_
  intro r hr
  rcases Array.mem_push.1 hr with hr | rfl
  · exact h.terms r hr
  · exact hc

/-! ## Variables and constraints -/

/-- A subproblem on the way that has the given variables and constraints. -/
structure Offers (o : Option (Retry K) × Sense) (vars rows : List ℕ) (m : Subproblem K) :
    Prop where
  building : IsBuilding o m
  vars : ∀ i ∈ vars, i < m.program.vars.size
  rows : ∀ c ∈ rows, c < m.program.constraints.size

variable {vars rows : List ℕ}

/-- What a step of a builder makes of a subproblem, if it succeeds. -/
def Builds {A : Type} (P : Subproblem K → Prop) (x : Build K A) (Q : A → Subproblem K → Prop) :
    Prop := Ensures P x Q fun _ => True

theorem Builds.bind {A B : Type} {P : Subproblem K → Prop} {x : Build K A}
    {Q : A → Subproblem K → Prop} {f : A → Build K B} {R : B → Subproblem K → Prop}
    (hx : Builds P x Q) (hf : ∀ a, Builds (Q a) (f a) R) : Builds P (x >>= f) R :=
  Ensures.bind hx hf

theorem builds_ofExcept_bind {A B : Type} {P : Subproblem K → Prop} {r : Except (Fault K) A}
    {f : A → Build K B} {R : B → Subproblem K → Prop} (h : ∀ a, r = .ok a → Builds P (f a) R) :
    Builds P (Step.ofExcept r >>= f) R := by
  cases r with
  | ok a => exact h a rfl
  | error e => exact ensures_throw fun _ _ => trivial

theorem builds_throw {A : Type} {P : Subproblem K → Prop} {e : Fault K}
    {Q : A → Subproblem K → Prop} : Builds P (throw e) Q := fun _ _ => trivial

theorem Builds.each {A : Type} {P : Subproblem K → Prop} {items : List A} {step : A → Build K Unit}
    (h : ∀ a ∈ items, Builds P (step a) fun _ => P) : Builds P (each items step) fun _ => P := by
  induction items with
  | nil => exact ensures_pure fun _ => id
  | cons a items ih => exact (h a (by simp)).bind fun _ => ih fun b hb => h b (by simp [hb])

theorem Offers.subset {vars' rows' : List ℕ} {m : Subproblem K} (h : Offers o vars rows m)
    (hvars : vars' ⊆ vars) (hrows : rows' ⊆ rows) : Offers o vars' rows' m :=
  ⟨h.building, fun i hi => h.vars i (hvars hi), fun c hc => h.rows c (hrows hc)⟩

theorem Builds.building {P : Subproblem K → Prop} {x : Build K Unit}
    (h : Builds P x fun _ => Offers o vars rows) : Builds P x fun _ => IsBuilding o :=
  h.weaken (fun _ => id) (fun _ _ hm => hm.building) fun _ => id

/-- A new variable is none of those that there were, and no state yet. -/
theorem builds_pushVariable (v : Variable K) (states : List ℕ) :
    Builds (fun m => Offers o vars rows m ∧ m.states = states) (pushVariable v)
      fun i m => Offers o (i :: vars) rows m ∧ m.states = states ∧ i ∉ vars := by
  rintro m ⟨hm, rfl⟩
  have hsize : (m.withVariable v).program.vars.size = m.program.vars.size + 1 := by
    simp [withVariable, LinearProgram.addVariable]
  refine ⟨⟨hm.building.withVariable v, fun i hi => ?_, hm.rows⟩, rfl,
    fun h => (hm.vars _ h).false⟩
  rw [hsize]
  rcases List.mem_cons.1 hi with rfl | hi
  · exact Nat.lt_succ_self _
  · exact (hm.vars i hi).trans (Nat.lt_succ_self _)

theorem builds_pushVariables (vs : List (Variable K)) (states : List ℕ) :
    Builds (fun m => Offers o vars rows m ∧ m.states = states) (vs.mapM pushVariable)
      fun is m => Offers o (is ++ vars) rows m ∧ m.states = states ∧ (is.Nodup ∧
        (∀ i ∈ is, i ∉ vars) ∧ is.length = vs.length) := by
  induction vs generalizing vars with
  | nil => exact ensures_pure fun m hm => ⟨hm.1, hm.2, by simp⟩
  | cons v vs ih =>
    rw [Step.mapM_cons]
    refine (builds_pushVariable v states).bind fun i => ?_
    rintro m ⟨hm, hstates, hi⟩
    refine ((@ih (i :: vars)).bind (R := fun is m => Offers o (is ++ vars) rows m ∧
      m.states = states ∧ (is.Nodup ∧ (∀ i ∈ is, i ∉ vars) ∧ is.length = (v :: vs).length))
      fun is => ensures_pure ?_) m ⟨hm, hstates⟩
    rintro m' ⟨hm', hstates', hnodup, hfresh, hlength⟩
    refine ⟨hm'.subset (by simp) (by simp), hstates', List.nodup_cons.2 ⟨fun h => ?_, hnodup⟩,
      fun j hj => ?_, by simp [hlength]⟩
    · exact hfresh i h (by simp)
    · rcases List.mem_cons.1 hj with rfl | hj
      · exact hi
      · exact fun h => hfresh j hj (by simp [h])

theorem builds_pushConstraint {c : Constraint K} (hc : ∀ t ∈ c.terms, t.1 ∈ vars) :
    Builds (Offers o vars rows) (pushConstraint c) fun i => Offers o vars (i :: rows) := by
  intro m hm
  have hsize : (m.withConstraint c).program.constraints.size =
      m.program.constraints.size + 1 := by
    simp [withConstraint, LinearProgram.addConstraint]
  refine ⟨hm.building.withConstraint fun t ht => hm.vars _ (hc t ht), hm.vars, fun i hi => ?_⟩
  rw [hsize]
  rcases List.mem_cons.1 hi with rfl | hi
  · exact Nat.lt_succ_self _
  · exact (hm.rows i hi).trans (Nat.lt_succ_self _)

/-! ## Noise -/

theorem IsBuilding.withNoiseSize {m : Subproblem K} (h : IsBuilding o m) (size : Option ℕ) :
    IsBuilding o { m with noiseSize := size } :=
  { h with wellFormed := { h.wellFormed with } }

theorem Offers.withNoiseSize {m : Subproblem K} (h : Offers o vars rows m) (size : Option ℕ) :
    Offers o vars rows { m with noiseSize := size } :=
  { h with building := h.building.withNoiseSize size }

section Numerals

variable [Numeral K]

omit [Numeral K] in
theorem builds_fixSize (d : Datum K) (n : ℕ) :
    Builds (Offers o vars rows) (fixSize d n) fun _ => Offers o vars rows := by
  refine ensures_get_bind fun m hm => ?_
  cases hsize : m.noiseSize with
  | none => exact fun _ _ => hm.withNoiseSize (some n)
  | some size =>
    dsimp only
    split_ifs
    · exact ensures_throw fun _ _ => trivial
    · exact ensures_pure fun m' hm' => hm' ▸ hm

theorem builds_scenarios (d : Datum K) :
    Builds (Offers o vars rows) (scenarios d) fun _ => Offers o vars rows := by
  refine builds_ofExcept_bind fun block _ => ?_
  rcases block.shape with _ | ⟨n, _ | ⟨width, more⟩⟩
  · exact builds_throw
  · exact (builds_fixSize d n).bind fun _ => ensures_pure fun _ => id
  · exact builds_throw

theorem length_scenarioBlock {d : Datum K} {b : Block K} (h : scenarioBlock d = .ok b) :
    b.entries.length = b.shape.prod := by
  have hblock : (d.block.mapError fun _ => (.scenarioEntries : Fault K)) = .ok b →
      b.entries.length = b.shape.prod := fun h => Datum.length_block (mapError_eq_ok.1 h)
  cases d with
  | mapping => cases h
  | function => cases h
  | _ => exact hblock h

/-- Scenarios of a group have a number for each member. -/
theorem builds_groupScenarios (size : ℕ) (d : Datum K) :
    Builds (Offers o vars rows) (groupScenarios size d) fun values m =>
      (∀ xs ∈ values, xs.length = size) ∧ Offers o vars rows m := by
  refine builds_ofExcept_bind fun block hblock => ?_
  have hlength := length_scenarioBlock hblock
  rcases hshape : block.shape with _ | ⟨n, _ | ⟨width, _ | ⟨depth, more⟩⟩⟩
  · exact builds_throw
  · exact builds_throw
  · dsimp only
    split_ifs with hwidth
    · exact builds_throw
    · have hsize : width = size := by simpa using hwidth
      refine (builds_fixSize d n).bind fun _ => ensures_pure fun m hm => ⟨fun xs hxs => ?_, hm⟩
      exact ((Block.rows_of_shape hshape hlength).2 xs hxs).trans hsize
  · exact builds_throw

/-! ## Registering data -/

omit [Numeral K] in
theorem builds_modify {f : Subproblem K → Subproblem K}
    (hbuilding : ∀ m, Offers o vars rows m → IsBuilding o (f m))
    (hprogram : ∀ m, (f m).program = m.program) :
    Builds (Offers o vars rows) (modify f) fun _ => Offers o vars rows := fun m hm =>
  ⟨hbuilding m hm, fun i hi => (hprogram m).symm ▸ hm.vars i hi,
    fun c hc => (hprogram m).symm ▸ hm.rows c hc⟩

omit [Numeral K] in
theorem builds_costNoise {x : Noise K} (hfull : x.IsFull) (hx : ∀ i ∈ x.targets, i ∈ vars) :
    Builds (Offers o vars rows) (modify fun m => { m with costNoise := m.costNoise ++ [x] })
      fun _ => Offers o vars rows :=
  builds_modify (fun m hm => { hm.building with wellFormed := { hm.building.wellFormed with
    costNoise := fun y hy => by
      rcases List.mem_append.1 hy with hy | hy
      · exact hm.building.wellFormed.costNoise y hy
      · obtain rfl := List.mem_singleton.1 hy
        exact ⟨hfull, fun i hi => hm.vars i (hx i hi)⟩ } }) fun _ => rfl

omit [Numeral K] in
theorem builds_rhsNoise {x : Noise K} (hfull : x.IsFull) (hx : ∀ c ∈ x.targets, c ∈ rows) :
    Builds (Offers o vars rows) (modify fun m => { m with rhsNoise := m.rhsNoise ++ [x] })
      fun _ => Offers o vars rows :=
  builds_modify (fun m hm => { hm.building with wellFormed := { hm.building.wellFormed with
    rhsNoise := fun y hy => by
      rcases List.mem_append.1 hy with hy | hy
      · exact hm.building.wellFormed.rhsNoise y hy
      · obtain rfl := List.mem_singleton.1 hy
        exact ⟨hfull, fun c hc => hm.rows c (hx c hc)⟩ } }) fun _ => rfl

omit [Numeral K] in
theorem builds_coefficientNoise {row i : ℕ} {values : List K} (hrow : row ∈ rows) (hi : i ∈ vars) :
    Builds (Offers o vars rows)
      (modify fun m => { m with coefficientNoise := m.coefficientNoise ++ [(row, i, values)] })
      fun _ => Offers o vars rows :=
  builds_modify (fun m hm => { hm.building with wellFormed := { hm.building.wellFormed with
    coefficientNoise := fun e he => by
      rcases List.mem_append.1 he with he | he
      · exact hm.building.wellFormed.coefficientNoise e he
      · obtain rfl := List.mem_singleton.1 he
        exact ⟨hm.rows row hrow, hm.vars i hi⟩ } }) fun _ => rfl

omit [Numeral K] in
theorem builds_nameVariable {name : String} {i : ℕ} (hi : i ∈ vars) :
    Builds (K := K) (Offers o vars rows) (nameVariable name i) fun _ => Offers o vars rows :=
  builds_modify (fun m hm => { hm.building with wellFormed := { hm.building.wellFormed with
    variableNames := fun e he => by
      rcases List.mem_cons.1 he with rfl | he
      · exact hm.vars i hi
      · exact hm.building.wellFormed.variableNames e he } }) fun _ => rfl

omit [Numeral K] in
theorem builds_nameConstraint {name : String} {c : ℕ} (hc : c ∈ rows) :
    Builds (K := K) (Offers o vars rows) (nameConstraint name c) fun _ => Offers o vars rows :=
  builds_modify (fun m hm => { hm.building with wellFormed := { hm.building.wellFormed with
    constraintNames := fun e he => by
      rcases List.mem_cons.1 he with rfl | he
      · exact hm.rows c hc
      · exact hm.building.wellFormed.constraintNames e he } }) fun _ => rfl

/-- The cost of a variable has no scenarios, or they are read and registered. -/
theorem addCostNoise_cases (i : ℕ) (d : Datum K) :
    addCostNoise i d = pure () ∨
      addCostNoise i d = (scenarios d >>= fun values =>
        modify fun m => { m with costNoise := m.costNoise ++ [.one i values] }) := by
  cases d with
  | absent => exact .inl rfl
  | _ => exact .inr rfl

/-- The costs of a group have no scenarios, or they are read and registered. -/
theorem addGroupCostNoise_cases (is : List ℕ) (d : Datum K) :
    addGroupCostNoise is d = pure () ∨
      addGroupCostNoise is d = (groupScenarios is.length d >>= fun values =>
        modify fun m => { m with costNoise := m.costNoise ++ [.group is values] }) := by
  cases d with
  | absent => exact .inl rfl
  | _ => exact .inr rfl

theorem builds_addCostNoise {i : ℕ} (hi : i ∈ vars) (d : Datum K) :
    Builds (Offers o vars rows) (addCostNoise i d) fun _ => Offers o vars rows := by
  obtain heq | heq := addCostNoise_cases i d <;> rw [heq]
  · exact ensures_pure fun _ => id
  · exact (builds_scenarios d).bind fun _ => builds_costNoise trivial (by simpa [Noise.targets])

theorem builds_addGroupCostNoise {is : List ℕ} (his : ∀ i ∈ is, i ∈ vars) (d : Datum K) :
    Builds (Offers o vars rows) (addGroupCostNoise is d) fun _ => Offers o vars rows := by
  obtain heq | heq := addGroupCostNoise_cases is d <;> rw [heq]
  · exact ensures_pure fun _ => id
  · refine (builds_groupScenarios is.length d).bind fun values m hm => ?_
    exact builds_costNoise (x := .group is values) hm.1 his m hm.2

/-! ## Adding variables -/

omit [Numeral K] in
/-- A judgement for each list of states that there may be. -/
theorem Builds.of_states {A : Type} {P : Subproblem K → Prop} {x : Build K A}
    {Q : A → Subproblem K → Prop} (h : ∀ states, Builds (fun m => P m ∧ m.states = states) x Q) :
    Builds P x Q := fun m hm => h m.states m ⟨hm, rfl⟩

theorem builds_addVariable (v : Variable K) (d : Datum K) :
    Builds (Offers o vars rows) (addVariable v d) fun i => Offers o (i :: vars) rows :=
  Builds.of_states fun states => (builds_pushVariable v states).bind fun i m hm =>
    ((builds_addCostNoise (by simp) d).bind (R := fun i => Offers o (i :: vars) rows) fun _ =>
      ensures_pure fun _ => id) m hm.1

theorem builds_addVariables (vs : List (Variable K)) (d : Datum K) :
    Builds (Offers o vars rows) (addVariables vs d) fun is => Offers o (is ++ vars) rows :=
  Builds.of_states fun states => (builds_pushVariables vs states).bind fun is m hm =>
    ((builds_addGroupCostNoise (by simp +contextual) d).bind
      (R := fun is => Offers o (is ++ vars) rows) fun _ => ensures_pure fun _ => id) m hm.1

omit [Numeral K] in
theorem length_initialData {n : ℕ} {initial : Datum K} {items : List (Datum K)}
    (h : initialData n initial = .ok items) : items.length = n := by
  simp only [initialData] at h
  split_ifs at h
  · obtain rfl := Except.ok.inj h
    exact List.length_replicate
  · split at h
    · cases h
    · split_ifs at h with hlength
      obtain rfl := Except.ok.inj h
      simpa using hlength

/-- State variables are registered with one local copy and one initial value each. -/
theorem builds_registerStates {states copies : List ℕ} (hstates : states ⊆ vars)
    (hcopies : copies ⊆ vars) (hlength : copies.length = states.length) (initial : Datum K) :
    Builds (fun m => Offers o vars rows m ∧ (m.states ++ states).Nodup)
      (registerStates states copies initial) fun _ => Offers o vars rows := by
  refine builds_ofExcept_bind fun items hitems => ?_
  rintro m ⟨hm, hnodup⟩
  rw [bind_of_ok (x := modify _) rfl]
  refine builds_ofExcept_bind (P := fun m' => m' = { m with
    states := m.states ++ states, localCopies := m.localCopies ++ copies })
    (fun values hvalues => ?_) _ rfl
  have hcount : values.length = states.length := by
    rw [← length_initialData hitems]
    exact (forall₂_of_mapM hvalues).length_eq.symm
  rintro m' rfl
  have hw := hm.building.wellFormed
  refine ⟨{ hm.building with
    wellFormed := { hw with
      states := fun i hi => ?_
      distinct := hnodup
      stateCount := by simp [hw.stateCount]
      initialValues := by simp [hw.initialValues, hcount] }
    copies := by simp [hm.building.copies, hlength]
    copied := fun i hi => ?_ }, hm.vars, hm.rows⟩
  · rcases List.mem_append.1 hi with hi | hi
    · exact hw.states i hi
    · exact hm.vars i (hstates hi)
  · rcases List.mem_append.1 hi with hi | hi
    · exact hm.building.copied i hi
    · exact hm.vars i (hcopies hi)

omit [Numeral K] in
theorem builds_of_states {A : Type} {x : Build K A} {Q : A → Subproblem K → Prop}
    (h : ∀ states, Builds (fun m => Offers o states [] m ∧ m.states = states) x Q) :
    Builds (IsBuilding o) x Q := fun m hm =>
  h m.states m ⟨⟨hm, hm.wellFormed.states, by simp⟩, rfl⟩

theorem builds_addState (v copy : Variable K) (initial d : Datum K) :
    Builds (IsBuilding o) (addState v copy initial d) fun q => Offers o [q.1, q.2] [] := by
  refine builds_of_states fun states => (builds_pushVariable v states).bind fun i => ?_
  rintro m ⟨hm, hstates, hi⟩
  refine Builds.bind (R := fun q : ℕ × ℕ => Offers o [q.1, q.2] []) (builds_pushVariable copy states)
    (fun c m' hm' => ?_) m ⟨hm, hstates⟩
  have hnodup : (m'.states ++ [i]).Nodup := by
    rw [List.nodup_append]
    refine ⟨hm'.1.building.wellFormed.distinct, List.nodup_singleton i, fun a ha b hb hab => ?_⟩
    exact hi (List.mem_singleton.1 hb ▸ hab ▸ hm'.2.1 ▸ ha)
  have hregister : Builds (fun m => Offers o (c :: i :: states) [] m ∧ (m.states ++ [i]).Nodup)
      (registerStates [i] [c] (.list [initial])) fun _ => Offers o (c :: i :: states) [] :=
    builds_registerStates (by simp) (by simp) (by simp) _
  have hnoise : Builds (Offers o (c :: i :: states) []) (addCostNoise i d)
      fun _ => Offers o (c :: i :: states) [] := builds_addCostNoise (by simp) d
  exact (hregister.bind fun _ => hnoise.bind (R := fun q : ℕ × ℕ => Offers o [q.1, q.2] []) fun _ =>
    ensures_pure (a := (i, c)) fun m'' hm'' => hm''.subset (by simp) (List.Subset.refl _))
    m' ⟨hm'.1, hnodup⟩

theorem builds_addStates (vs copies : List (Variable K)) (hlength : copies.length = vs.length)
    (initial d : Datum K) :
    Builds (IsBuilding o) (addStates vs copies initial d) fun q => Offers o (q.1 ++ q.2) [] := by
  refine builds_of_states fun states => (builds_pushVariables vs states).bind fun is => ?_
  rintro m ⟨hm, hstates, hdistinct, hfresh, hcount⟩
  refine Builds.bind (R := fun q : List ℕ × List ℕ => Offers o (q.1 ++ q.2) [])
    (builds_pushVariables copies states) (fun cs m' hm' => ?_) m ⟨hm, hstates⟩
  have hnodup : (m'.states ++ is).Nodup := by
    rw [List.nodup_append]
    refine ⟨hm'.1.building.wellFormed.distinct, hdistinct, fun a ha b hb hab => ?_⟩
    exact hfresh b hb (hab ▸ hm'.2.1 ▸ ha)
  have hcopies : cs.length = is.length := by rw [hm'.2.2.2.2, hcount, hlength]
  have hregister : Builds (fun m => Offers o (cs ++ (is ++ states)) [] m ∧ (m.states ++ is).Nodup)
      (registerStates is cs initial) fun _ => Offers o (cs ++ (is ++ states)) [] :=
    builds_registerStates (by simp) (by simp) hcopies _
  have hnoise : Builds (Offers o (cs ++ (is ++ states)) []) (addGroupCostNoise is d)
      fun _ => Offers o (cs ++ (is ++ states)) [] := builds_addGroupCostNoise (by simp +contextual) d
  exact (hregister.bind fun _ => hnoise.bind
    (R := fun q : List ℕ × List ℕ => Offers o (q.1 ++ q.2) []) fun _ =>
      ensures_pure (a := (is, cs)) fun m'' hm'' => hm''.subset (by simp) (List.Subset.refl _))
    m' ⟨hm'.1, hnodup⟩

/-! ## Adding constraints -/

/-- The variables that scenarios of a constraint are about. -/
def RowKey.about : RowKey → List ℕ
  | .var i => [i]
  | _ => []

omit [Numeral K] in
theorem builds_addRowNoise {row : ℕ} (hrow : row ∈ rows) {key : RowKey} (hkey : key.about ⊆ vars)
    (values : List K) :
    Builds (Offers o vars rows) (addRowNoise row key values) fun _ => Offers o vars rows := by
  cases key with
  | rhs => exact builds_rhsNoise trivial (by simpa [Noise.targets])
  | var i => exact builds_coefficientNoise hrow (by simpa [RowKey.about] using hkey)
  | other text => exact builds_throw

/-- All scenarios in a table are about variables among the given ones. -/
def RowNoise.IsAbout (vars : List ℕ) : RowNoise K → Prop
  | .table entries => ∀ e ∈ entries, e.1.about ⊆ vars
  | _ => True

omit [Numeral K] in
theorem RowNoise.IsAbout.mono {vars' : List ℕ} {d : RowNoise K} (h : d.IsAbout vars)
    (hvars : vars ⊆ vars') : d.IsAbout vars' := by
  cases d with
  | table entries => exact fun e he => List.Subset.trans (h e he) hvars
  | _ => trivial

theorem builds_addConstraint {c : Constraint K} (hc : ∀ t ∈ c.terms, t.1 ∈ vars)
    {uncertainty : RowNoise K} (hkeys : uncertainty.IsAbout vars) :
    Builds (Offers o vars rows) (addConstraint c uncertainty) fun i => Offers o vars (i :: rows) := by
  refine (builds_pushConstraint hc).bind fun i => ?_
  cases uncertainty with
  | none => exact ensures_pure fun _ => id
  | other => exact builds_throw
  | table entries =>
    have hread : Builds (Offers o vars (i :: rows))
        (entries.mapM fun e => do return (e.1, ← scenarios e.2)) fun read m =>
          List.Forall₂ (fun e r => r.1 = e.1) entries read ∧ Offers o vars (i :: rows) m :=
      Ensures.mapM fun e _ => (builds_scenarios e.2).bind fun values =>
        ensures_pure fun m hm => ⟨rfl, hm⟩
    refine hread.bind fun read => ?_
    rintro m ⟨hkept, hm⟩
    have habout : ∀ r ∈ read, r.1.about ⊆ vars := by
      intro r hr
      obtain ⟨e, he, hre⟩ := exists_left_of_forall₂ hkept hr
      exact hre ▸ hkeys e he
    exact ((Builds.each fun r hr => builds_addRowNoise (by simp) (habout r hr) r.2).bind
      (R := fun i => Offers o vars (i :: rows)) fun _ => ensures_pure (a := i) fun _ => id) m hm

omit [Numeral K] in
theorem builds_pushConstraints {cs : List (Constraint K)}
    (hcs : ∀ c ∈ cs, ∀ t ∈ c.terms, t.1 ∈ vars) :
    Builds (Offers o vars rows) (cs.mapM pushConstraint) fun is => Offers o vars (is ++ rows) := by
  induction cs generalizing rows with
  | nil => exact ensures_pure fun _ => id
  | cons c cs ih =>
    rw [Step.mapM_cons]
    refine (builds_pushConstraint (hcs c (by simp))).bind fun i =>
      (ih fun c' hc' => hcs c' (by simp [hc'])).bind fun is => ensures_pure fun m hm => ?_
    exact hm.subset (List.Subset.refl _) (by simp)

/-- Constraints are added, and then their right-hand sides have no scenarios, or they are read and
registered. -/
theorem addConstraints_cases (cs : List (Constraint K)) (d : Datum K) :
    addConstraints cs d = (cs.mapM pushConstraint >>= pure) ∨
      addConstraints cs d = (cs.mapM pushConstraint >>= fun rows =>
        groupScenarios rows.length d >>= fun values =>
          (modify fun m => { m with rhsNoise := m.rhsNoise ++ [.group rows values] }) >>= fun _ =>
            pure rows) := by
  cases d with
  | absent => exact .inl rfl
  | _ => exact .inr rfl

theorem builds_addConstraints {cs : List (Constraint K)}
    (hcs : ∀ c ∈ cs, ∀ t ∈ c.terms, t.1 ∈ vars) (d : Datum K) :
    Builds (Offers o vars rows) (addConstraints cs d) fun is => Offers o vars (is ++ rows) := by
  obtain heq | heq := addConstraints_cases cs d <;> rw [heq] <;>
    refine (builds_pushConstraints hcs).bind fun is => ?_
  · exact ensures_pure fun _ => id
  · refine (builds_groupScenarios is.length d).bind fun values m hm => ?_
    exact ((builds_rhsNoise (x := .group is values) hm.1 (by simp +contextual [Noise.targets])).bind
      (R := fun is => Offers o vars (is ++ rows)) fun _ => ensures_pure (a := is) fun _ => id) m hm.2

/-! ## Probabilities, rules and objectives -/

theorem builds_setProbability (p : Datum K) :
    Builds (Offers o vars rows) (setProbability p) fun _ => Offers o vars rows := by
  refine ensures_get_bind fun m hm => builds_ofExcept_bind fun values _ => ?_
  rintro m' rfl
  exact { hm with building := { hm.building with wellFormed := { hm.building.wellFormed with } } }

theorem builds_parameterize (actions : Option (List (Action K))) (support p : Datum K) :
    Builds (Offers o vars rows) (parameterize actions support p) fun _ => Offers o vars rows := by
  cases actions with
  | none => exact builds_throw
  | some actions =>
    cases hpoints : support.items? with
    | none =>
      simp only [parameterize, hpoints]
      exact builds_throw
    | some points =>
      simp only [parameterize, hpoints]
      split_ifs
      · exact builds_throw
      · refine (builds_fixSize _ _).bind fun _ =>
          Builds.bind (builds_modify (fun m hm => ?_) fun _ => rfl) fun _ => ?_
        · exact { hm.building with wellFormed := { hm.building.wellFormed with } }
        · cases p with
          | absent => exact ensures_pure fun _ => id
          | _ => exact builds_setProbability _

omit [Numeral K] in
/-- Rules are put among others as terms are. -/
theorem putRule_eq_putTerm (i : ℕ) (f : Formula K) (rules : List (ℕ × Formula K)) :
    putRule i f rules = LinearProgram.putTerm i f rules := by
  induction rules with
  | nil => rfl
  | cons r rules ih => rw [putRule, LinearProgram.putTerm, ih]

omit [Numeral K] in
theorem builds_setPriceObjective {rules : List (ℕ × Option (Formula K))}
    (hrules : ∀ r ∈ rules, r.1 ∈ vars) :
    Builds (Offers o vars rows) (setPriceObjective rules) fun _ => Offers o vars rows := by
  refine Builds.each fun r hr => ensures_get_bind fun m hm => ?_
  obtain ⟨i, rule⟩ := r
  cases rule with
  | none => exact builds_throw
  | some f =>
    dsimp only
    split_ifs
    · exact builds_throw
    · intro m' _
      exact { hm with building := { hm.building with wellFormed := { hm.building.wellFormed with
        priceObjective := fun e he => by
          rcases LinearProgram.mem_putTerm (putRule_eq_putTerm i f _ ▸ he) with rfl | he
          · exact hm.vars i (hrules _ hr)
          · exact hm.building.wellFormed.priceObjective e he } } }

omit [Numeral K] in
/-- Changes of variables that leave their number as it is. -/
theorem builds_changeVariables {f : LinearProgram K → LinearProgram K}
    (hsense : ∀ p, (f p).sense = p.sense) (hvars : ∀ p, (f p).vars.size = p.vars.size)
    (hrows : ∀ p, (f p).constraints = p.constraints) :
    Builds (Offers o vars rows) (modify fun m => { m with program := f m.program })
      fun _ => Offers o vars rows := by
  intro m hm
  refine ⟨hm.building.mono _ rfl (hsense _) (hvars _).ge (by rw [hrows]) fun r hr t ht => ?_,
    fun i hi => ?_, fun c hc => ?_⟩
  · rw [hvars]
    rw [hrows] at hr
    exact hm.building.terms r hr t ht
  · exact (hvars m.program).symm ▸ hm.vars i hi
  · exact (hrows m.program).symm ▸ hm.rows c hc

end Numerals

end Subproblem

namespace Statement

open Subproblem LinearProgram

variable [Numeral K] {o : Option (Retry K) × Sense} {m : Subproblem K} {vars rows : List ℕ}

/-! ## Looking names up -/

omit [Numeral K] in
theorem variableNamed_lt (hm : IsBuilding o m) {name : String} {i : ℕ}
    (h : m.variableNamed name = .ok i) : i < m.program.vars.size := by
  obtain ⟨e, he, rfl⟩ := lookup_mem (variableNamed_eq_ok.1 h)
  exact hm.wellFormed.variableNames e he

omit [Numeral K] in
theorem builds_findTerms (hm : IsBuilding o m) (terms : List (String × K)) :
    Builds (· = m) (findTerms terms) fun ts m' =>
      (∀ t ∈ ts, t.1 < m.program.vars.size) ∧ m' = m := by
  refine ensures_get_bind fun m' hm' => ?_
  obtain rfl := hm'
  have hfind : Builds (· = m') (terms.mapM fun t => do
      return (← Step.ofExcept (m'.variableNamed t.1), t.2)) fun ts s =>
        List.Forall₂ (fun _ t => t.1 < m'.program.vars.size) terms ts ∧ s = m' :=
    Ensures.mapM fun t _ => builds_ofExcept_bind fun i hi => ensures_pure fun s hs =>
      ⟨variableNamed_lt hm hi, hs⟩
  refine hfind.weaken (fun _ => id) (fun ts s hs => ⟨fun t ht => ?_, hs.2⟩) fun _ => id
  obtain ⟨-, -, h⟩ := exists_left_of_forall₂ hs.1 ht
  exact h

/-- Terms that are collected are about the same variables. -/
theorem addTerm_lt {n i : ℕ} {a : K} {done : List (ℕ × K)} (h : ∀ t ∈ done, t.1 < n) (hi : i < n) :
    ∀ t ∈ addTerm done i a, t.1 < n := by
  intro t ht
  simp only [addTerm] at ht
  split at ht
  all_goals
    rcases mem_putTerm ht with rfl | ht
    · exact hi
    · exact h t ht

theorem collect_lt {n : ℕ} {terms : List (ℕ × K)} (h : ∀ t ∈ terms, t.1 < n) :
    ∀ t ∈ collect terms, t.1 < n :=
  List.foldlRecOn (motive := fun done : List (ℕ × K) => ∀ t ∈ done, t.1 < n) terms _
    (List.forall_mem_nil _) fun _ hdone t ht => addTerm_lt hdone (h t ht)

theorem builds_findRow (hm : IsBuilding o m) (name : String) (row : RowSpec K) :
    Builds (· = m) (findRow name row) fun c m' =>
      (∀ t ∈ c.terms, t.1 < m.program.vars.size) ∧ m' = m :=
  (builds_findTerms hm row.terms).bind fun _ => ensures_pure fun _ hs => ⟨collect_lt hs.1, hs.2⟩

omit [Numeral K] in
theorem about_rowKey (m : Subproblem K) (name : String) :
    (rowKey m name).about ⊆ m.variableNames.map Prod.snd := by
  simp only [rowKey]
  split_ifs
  · exact List.nil_subset _
  · cases hlookup : m.variableNames.lookup name with
    | none => exact List.nil_subset _
    | some i =>
      obtain ⟨e, he, rfl⟩ := lookup_mem hlookup
      exact List.cons_subset.2 ⟨List.mem_map_of_mem he, List.nil_subset _⟩

omit [Numeral K] in
theorem mem_putEntry {key : RowKey} {d : Datum K} {table : List (RowKey × Datum K)}
    {e : RowKey × Datum K} (h : e ∈ putEntry key d table) :
    e.1 = key ∨ ∃ e' ∈ table, e.1 = e'.1 := by
  induction table with
  | nil => exact Or.inl (by rw [List.mem_singleton.1 h])
  | cons u table ih =>
    obtain ⟨k, b⟩ := u
    simp only [putEntry] at h
    split_ifs at h
    · rcases List.mem_cons.1 h with rfl | h
      · exact Or.inr ⟨(k, b), by simp, rfl⟩
      · exact Or.inr ⟨e, by simp [h], rfl⟩
    · rcases List.mem_cons.1 h with rfl | h
      · exact Or.inr ⟨(k, b), by simp, rfl⟩
      · exact (ih h).imp_right fun ⟨e', he', hee⟩ => ⟨e', by simp [he'], hee⟩

omit [Numeral K] in
/-- Scenarios of a constraint are about variables with a name. -/
theorem isAbout_rowNoise (m : Subproblem K) (d : Datum K ⊕ List (String × Datum K)) :
    (rowNoise m d).IsAbout (m.variableNames.map Prod.snd) := by
  cases d with
  | inl d => cases d <;> trivial
  | inr entries =>
    refine List.foldlRecOn (motive := fun table : List (RowKey × Datum K) =>
      ∀ e ∈ table, e.1.about ⊆ m.variableNames.map Prod.snd) entries _ (List.forall_mem_nil _)
      fun table htable u _ e he => ?_
    rcases mem_putEntry he with h | ⟨e', he', h⟩
    · exact h ▸ about_rowKey m u.1
    · exact h ▸ htable e' he'

omit [Numeral K] in
theorem mergeRules_lt {n : ℕ} {rules : List (ℕ × Option (Formula K))} (h : ∀ r ∈ rules, r.1 < n) :
    ∀ r ∈ mergeRules rules, r.1 < n := by
  have hput : ∀ done : List (ℕ × Option (Formula K)), (∀ r ∈ done, r.1 < n) →
      ∀ rule : ℕ × Option (Formula K), rule.1 < n → ∀ r ∈ putRuleFor done rule, r.1 < n := by
    intro done hdone rule hrule r hr
    simp only [putRuleFor] at hr
    split_ifs at hr
    · obtain ⟨r', hr', rfl⟩ := List.mem_map.1 hr
      split_ifs
      · exact hrule
      · exact hdone r' hr'
    · rcases List.mem_append.1 hr with hr | hr
      · exact hdone r hr
      · exact List.mem_singleton.1 hr ▸ hrule
  exact List.foldlRecOn (motive := fun done : List (ℕ × Option (Formula K)) =>
    ∀ r ∈ done, r.1 < n) rules putRuleFor (List.forall_mem_nil _)
    fun done hdone rule hrule => hput done hdone rule (h rule hrule)

/-! ## Statements -/

omit [Numeral K] in
theorem builds_nameVariables {name : String} {is : List ℕ} (his : is ⊆ vars) :
    Builds (K := K) (Offers o vars rows) (nameVariables name is) fun _ => Offers o vars rows :=
  Builds.each fun _ he => builds_nameVariable (his (List.fst_mem_of_mem_zipIdx he))

omit [Numeral K] in
theorem builds_nameConstraints {name : String} {is : List ℕ} (his : is ⊆ rows) :
    Builds (K := K) (Offers o vars rows) (nameConstraints name is) fun _ => Offers o vars rows :=
  Builds.each fun _ he => builds_nameConstraint (his (List.fst_mem_of_mem_zipIdx he))

theorem builds_setItem (i : ℕ) (item : VariableItem) (value : Datum K) :
    Builds (Offers o vars rows) (setItem i item value) fun _ => Offers o vars rows := by
  have hchange : ∀ f : Variable K → Variable K, Builds (Offers o vars rows)
      (modify fun m => { m with program := m.program.changeVariable i f })
      fun _ => Offers o vars rows := fun f =>
    builds_changeVariables (fun _ => rfl) (by simp [LinearProgram.changeVariable]) fun _ => rfl
  cases item with
  | kind =>
    cases value with
    | text letter => exact hchange _
    | _ => exact builds_throw
  | _ =>
    cases value with
    | real x => exact builds_ofExcept_bind fun x _ => hchange _
    | _ => exact builds_throw

theorem builds_constr (name : String) (row : RowSpec K)
    (d : Datum K ⊕ List (String × Datum K)) :
    Builds (IsBuilding o) (run (.constr name row d)) fun _ => IsBuilding o := by
  intro m hm
  refine (builds_findRow hm name row).bind (fun c => ensures_get_bind fun m' hm' => ?_) m rfl
  obtain ⟨hterms, rfl⟩ := hm'
  set vars := c.terms.map Prod.fst ++ m'.variableNames.map Prod.snd with hvars
  have hadd : Builds (Offers o vars []) (addConstraint c (rowNoise m' d)) fun i =>
      Offers o vars [i] := by
    refine builds_addConstraint (fun t ht => ?_) ?_
    · exact List.mem_append_left _ (List.mem_map_of_mem ht)
    · exact (isAbout_rowNoise m' d).mono (List.subset_append_right _ _)
  have hrun : Builds (Offers o vars []) (addConstraint c (rowNoise m' d) >>= nameConstraint name)
      fun _ => IsBuilding o := hadd.bind fun i => (builds_nameConstraint (by simp)).building
  refine hrun.weaken (fun s hs => ?_) (fun _ _ => id) fun _ => id
  obtain rfl := hs
  refine ⟨hm, fun i hi => ?_, by simp⟩
  rcases List.mem_append.1 hi with hi | hi
  · obtain ⟨t, ht, rfl⟩ := List.mem_map.1 hi
    exact hterms t ht
  · obtain ⟨e, he, rfl⟩ := List.mem_map.1 hi
    exact hm.wellFormed.variableNames e he

theorem builds_constrs (name : String) (rows : List (RowSpec K)) (d : Datum K) :
    Builds (IsBuilding o) (run (.constrs name rows d)) fun _ => IsBuilding o := by
  intro m hm
  have hrows : Builds (· = m) (rows.zipIdx.mapM fun r => findRow (member name r.2) r.1)
      fun cs s => List.Forall₂ (fun _ c => ∀ t ∈ c.terms, t.1 < m.program.vars.size)
        rows.zipIdx cs ∧ s = m := Ensures.mapM fun r _ => builds_findRow hm _ _
  refine hrows.bind (fun cs s hs => ?_) m rfl
  obtain ⟨hcs, rfl⟩ := hs
  have hterms : ∀ c ∈ cs, ∀ t ∈ c.terms, t.1 < s.program.vars.size := by
    intro c hc
    obtain ⟨-, -, h⟩ := exists_left_of_forall₂ hcs hc
    exact h
  set vars := cs.flatMap fun c => c.terms.map Prod.fst with hvars
  have hadd : Builds (Offers o vars []) (addConstraints cs d) fun is => Offers o vars (is ++ []) := by
    refine builds_addConstraints (fun c hc t ht => ?_) d
    exact List.mem_flatMap.2 ⟨c, hc, List.mem_map_of_mem ht⟩
  have hrun : Builds (Offers o vars []) (addConstraints cs d >>= nameConstraints name)
      fun _ => IsBuilding o := hadd.bind fun is => (builds_nameConstraints (by simp)).building
  refine hrun s ⟨hm, fun i hi => ?_, by simp⟩
  obtain ⟨c, hc, hi⟩ := List.mem_flatMap.1 hi
  obtain ⟨t, ht, rfl⟩ := List.mem_map.1 hi
  exact hterms c hc t ht

theorem builds_objective (terms : List (String × K)) :
    Builds (IsBuilding o) (run (.objective terms)) fun _ => IsBuilding o := by
  intro m hm
  refine (builds_findTerms hm terms).bind (fun ts s hs => ?_) m rfl
  obtain ⟨-, rfl⟩ := hs
  have hrun : Builds (Offers o [] []) (setObjective ts) fun _ => IsBuilding o :=
    (builds_changeVariables (f := fun p => { p with vars := p.vars.mapIdx fun i v =>
      { v with cost := ((collect ts).lookup i).getD Scalar.zero } }) (fun _ => rfl) (by simp)
      fun _ => rfl).building
  exact hrun s ⟨hm, by simp, by simp⟩

theorem builds_item (name attr : String) (value : Datum K) :
    Builds (IsBuilding o) (run (.item name attr value)) fun _ => IsBuilding o := by
  refine ensures_get_bind fun m hm => builds_ofExcept_bind fun i _ => ?_
  cases VariableItem.ofText? attr with
  | none => exact builds_throw
  | some which =>
    have hrun : Builds (Offers o [] []) (setItem i which value) fun _ => IsBuilding o :=
      (builds_setItem i which value).building
    exact hrun.weaken (fun s hs => hs ▸ ⟨hm, by simp, by simp⟩) (fun _ _ => id) fun _ => id

theorem builds_priceObjective (rules : List (String × Option (Formula K))) :
    Builds (IsBuilding o) (run (.priceObjective rules)) fun _ => IsBuilding o := by
  refine ensures_get_bind fun m hm => ?_
  have hfind : Builds (· = m) (rules.mapM fun r => do
      return (← Step.ofExcept (m.variableNamed r.1), r.2)) fun found s =>
        List.Forall₂ (fun _ r => r.1 < m.program.vars.size) rules found ∧ s = m :=
    Ensures.mapM fun r _ => builds_ofExcept_bind fun i hi => ensures_pure fun s hs =>
      ⟨variableNamed_lt hm hi, hs⟩
  refine hfind.bind fun found s hs => ?_
  obtain ⟨hfound, rfl⟩ := hs
  have hrules : ∀ r ∈ mergeRules found, r.1 < s.program.vars.size := by
    refine mergeRules_lt fun r hr => ?_
    obtain ⟨-, -, h⟩ := exists_left_of_forall₂ hfound hr
    exact h
  have hrun : Builds (Offers o ((mergeRules found).map Prod.fst) [])
      (setPriceObjective (mergeRules found)) fun _ => IsBuilding o :=
    (builds_setPriceObjective fun r hr => List.mem_map_of_mem hr).building
  refine hrun s ⟨hm, fun i hi => ?_, by simp⟩
  obtain ⟨r, hr, rfl⟩ := List.mem_map.1 hi
  exact hrules r hr

/-- A statement that succeeds leaves a subproblem that can be built on. -/
theorem builds_run (s : Statement K) : Builds (IsBuilding o) s.run fun _ => IsBuilding o := by
  have hoffers : ∀ m : Subproblem K, IsBuilding o m → Offers o [] [] m :=
    fun m hm => ⟨hm, by simp, by simp⟩
  have hstart : ∀ {x : Build K Unit}, Builds (Offers o [] []) x (fun _ => IsBuilding o) →
      Builds (IsBuilding o) x fun _ => IsBuilding o :=
    fun h => h.weaken hoffers (fun _ _ => id) fun _ => id
  cases s with
  | var name spec uncertainty =>
    exact hstart ((builds_addVariable _ _).bind fun i => (builds_nameVariable (by simp)).building)
  | vars name specs uncertainty =>
    exact hstart ((builds_addVariables _ _).bind fun is => (builds_nameVariables (by simp)).building)
  | state name spec initial uncertainty =>
    exact (builds_addState _ _ _ _).bind fun q =>
      (builds_nameVariable (by simp)).bind fun _ => (builds_nameVariable (by simp)).building
  | states name specs initial uncertainty =>
    refine (builds_addStates _ _ (by simp [group, groupCopies]) _ _).bind fun q => ?_
    exact (builds_nameVariables (by simp)).bind fun _ => (builds_nameVariables (by simp)).building
  | constr name row d => exact builds_constr name row d
  | constrs name rows d => exact builds_constrs name rows d
  | probability p => exact hstart ((builds_setProbability p).building)
  | objective terms => exact builds_objective terms
  | item name attr value => exact builds_item name attr value
  | parameterize actions support p => exact hstart ((builds_parameterize _ _ _).building)
  | priceObjective rules => exact builds_priceObjective rules

/-- A recipe that succeeds leaves a subproblem that can be linked. -/
theorem builds_build (r : Recipe K) (stage markov : ℕ) :
    Builds (IsBuilding o) (r.build stage markov) fun _ => IsBuilding o :=
  Builds.each fun s _ => builds_run s

end Statement

namespace Subproblem

variable {o : Option (Retry K) × Sense} {m : Subproblem K}

/-! ## Linking -/

/-- A subproblem that is linked: its first `n` constraints are the ones that were stated, the links
stand behind them. -/
structure IsLinked (o : Option (Retry K) × Sense) (n : ℕ) (m : Subproblem K) : Prop where
  retry : m.retry = o.1
  sense : m.program.sense = o.2
  wellFormed : m.WellFormed n
  continuous : ∀ v ∈ m.program.vars.toList, v.integral = false
  linkCount : m.links.length = m.stateCount
  rows : m.program.constraints.size = n + m.links.length
  equal : ∀ c ∈ m.links, m.program.relations[c]? = some .equal
  terms : ∀ r ∈ m.program.constraints, ∀ t ∈ r.terms, t.1 < m.program.vars.size

/-- Constraints put in a row. -/
theorem pushConstraints_eq (cs : List (Constraint K)) (m : Subproblem K) :
    ∃ m', cs.mapM pushConstraint m =
      .ok ((List.range cs.length).map (m.program.constraints.size + ·)) m' ∧
      m'.outline = m.outline ∧ m'.program.sense = m.program.sense ∧
      m'.program.vars = m.program.vars ∧
      m'.program.constraints = m.program.constraints ++ cs.toArray := by
  induction cs generalizing m with
  | nil => exact ⟨m, rfl, rfl, rfl, rfl, by simp⟩
  | cons c cs ih =>
    obtain ⟨m', hrun, houtline, hsense, hvars, hrows⟩ := ih (m.withConstraint c)
    have hconstraints : (m.withConstraint c).program.constraints = m.program.constraints.push c :=
      rfl
    refine ⟨m', ?_, houtline, hsense, hvars, by rw [hrows, hconstraints]; simp⟩
    have hpush : pushConstraint c m = .ok m.program.constraints.size (m.withConstraint c) := rfl
    have hcons : (c :: cs).mapM pushConstraint m =
        .ok (m.program.constraints.size :: (List.range cs.length).map
          ((m.withConstraint c).program.constraints.size + ·)) m' := by
      rw [Step.mapM_cons]
      exact (bind_of_ok hpush).trans (bind_of_ok hrun)
    rw [hcons, hconstraints, Array.size_push, List.length_cons, List.range_succ_eq_map, List.map_cons,
      List.map_map]
    have hshift : (m.program.constraints.size + ·) ∘ Nat.succ =
        (m.program.constraints.size + 1 + ·) := by
      funext i
      simp only [Function.comp_apply]
      omega
    rw [hshift]
    rfl

/-- The link of a local copy. -/
def linkRow [Scalar K] (link : (ℕ × K) × ℕ) : Constraint K :=
  { name := member "link_constrs" link.2, terms := [(link.1.1, Scalar.one)], relation := .equal,
    rhs := link.1.2 }

/-- The links of the local copies to their initial values. -/
def linkRows [Scalar K] (m : Subproblem K) : List (Constraint K) :=
  (List.zip m.localCopies m.initialValues).zipIdx.map linkRow

/-- What linking comes to: a row for every local copy, behind the others. -/
theorem linkStates_eq [Numeral K] (hm : m.links = []) : ∃ m₁ : Subproblem K, linkStates m = .ok ()
      { m₁ with links := (List.range m.linkRows.length).map (m.program.constraints.size + ·) } ∧
    m₁.outline = m.outline ∧ m₁.program.sense = m.program.sense ∧
      m₁.program.vars = m.program.vars ∧
      m₁.program.constraints = m.program.constraints ++ m.linkRows.toArray := by
  obtain ⟨m₁, hrun, hpushed⟩ := pushConstraints_eq m.linkRows m
  refine ⟨m₁, ?_, hpushed⟩
  have hstep : linkStates m = ((m.linkRows.mapM pushConstraint >>= fun links =>
      modify fun m => { m with links := links }) : Build K Unit) m := by
    rw [linkRows, List.mapM_map]
    simp only [linkStates, bind, EStateM.bind, get, getThe, MonadStateOf.get, EStateM.get,
      hm, List.isEmpty_nil, if_true]
    rfl
  rw [hstep, bind_of_ok hrun]
  rfl

theorem isLinked_linkStates [Numeral K] (hm : IsBuilding o m) (hintegral : m.isIntegral = false)
    {m' : Subproblem K} (h : linkStates m = .ok () m') :
    IsLinked o m.program.constraints.size m' := by
  obtain ⟨m₁, hlink, houtline, hsense, hvars, hconstraints⟩ := linkStates_eq hm.links
  rw [hlink] at h
  cases h
  have hlength : m.linkRows.length = m.stateCount := by
    simp [linkRows, hm.copies, hm.wellFormed.initialValues]
  generalize hrows : m.linkRows = rows at hconstraints hlength ⊢
  obtain ⟨p, r, t, s, rfl⟩ := exists_of_outline houtline
  have hsize : p.constraints.size = m.program.constraints.size + rows.length :=
    (congrArg Array.size hconstraints).trans (Array.size_append ..)
  have hlinks : ((List.range rows.length).map (m.program.constraints.size + ·)).length =
      rows.length := by simp
  have hgrows : m.program.constraints.size ≤ p.constraints.size := by omega
  exact {
    retry := hm.retry
    sense := hsense.trans hm.sense
    wellFormed := { hm.wellFormed.mono houtline (congrArg Array.size hvars).ge hgrows with
      rows := (congrArg (m.program.constraints.size + ·) hlinks).trans_le hsize.ge
      links := congrArg (fun n => (List.range n).map (m.program.constraints.size + ·)) hlinks.symm }
    continuous := fun v hx => by
      have hall : ∀ i (hi : i < m.program.vars.size), m.program.vars[i].integral = false := by
        simpa [isIntegral] using hintegral
      rw [hvars] at hx
      obtain ⟨i, hi, rfl⟩ := Array.getElem_of_mem (Array.mem_toList_iff.1 hx)
      exact hall i hi
    linkCount := hlinks.trans hlength
    rows := hsize.trans (congrArg (m.program.constraints.size + ·) hlinks.symm)
    equal := fun c hc => by
      obtain ⟨j, hj, rfl⟩ := List.mem_map.1 hc
      have hrow : p.constraints[m.program.constraints.size + j]? =
          rows.toArray[j]? := by
        rw [hconstraints, Array.getElem?_append_right (by omega), Nat.add_sub_cancel_left]
      obtain ⟨r, hr⟩ : ∃ r, rows[j]? = some r :=
        ⟨_, List.getElem?_eq_getElem (List.mem_range.1 hj)⟩
      have hequal : r.relation = .equal := by
        obtain ⟨e, -, rfl⟩ := List.mem_map.1 (hrows ▸ List.mem_of_getElem? hr)
        rfl
      simp [LinearProgram.relations, hrow, hr, hequal]
    terms := fun c hc u hu => by
      rw [hvars]
      rw [hconstraints] at hc
      rcases Array.mem_append.1 hc with hc | hc
      · exact hm.terms c hc u hu
      · obtain ⟨e, he, rfl⟩ := List.mem_map.1 (hrows ▸ List.mem_toArray.1 hc)
        obtain rfl := List.mem_singleton.1 hu
        exact hm.copied _ (List.of_mem_zip (List.fst_mem_of_mem_zipIdx he)).1 }

end Subproblem

namespace PolicyGraph

variable [Numeral K]

theorem newModel_eq_ok {g : PolicyGraph K} {recipe : Recipe K} {stage markov : ℕ}
    {m : Subproblem K} (h : g.newModel recipe stage markov = .ok m) :
    ∃ title m₁, recipe.build stage markov { Subproblem.empty title g.sense with retry := g.retry } =
      .ok () m₁ ∧ m₁.isIntegral = false ∧ Subproblem.linkStates m₁ = .ok () m := by
  obtain ⟨⟨⟩, hbuild, h⟩ := exceptBind_eq_ok.1 h
  split_ifs at h with hintegral
  · cases h
  · obtain ⟨⟨⟩, hlink, h⟩ := exceptBind_eq_ok.1 h
    exact ⟨_, _, attempt_eq_ok hbuild, eq_false_of_ne_true hintegral,
      (attempt_eq_ok hlink).trans (congrArg (EStateM.Result.ok ()) (Except.ok.inj h))⟩

/-- The subproblem of a new node is linked. -/
theorem isLinked_newModel {g : PolicyGraph K} {recipe : Recipe K} {stage markov : ℕ}
    {m : Subproblem K} (h : g.newModel recipe stage markov = .ok m) :
    ∃ n, m.IsLinked (g.retry, g.sense) n := by
  obtain ⟨title, m₁, hbuild, hintegral, hlink⟩ := newModel_eq_ok h
  have hm₁ := (Statement.builds_build recipe stage markov).of_ok
    (Subproblem.isBuilding_empty title g.sense g.retry) hbuild
  exact ⟨_, Subproblem.isLinked_linkStates hm₁ hintegral hlink⟩

end PolicyGraph

end DualDynamic
