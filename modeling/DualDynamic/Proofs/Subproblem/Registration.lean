import DualDynamic.Proofs.Subproblem.Pricing

/-!
# What a call that fails has registered

A call that builds a subproblem checks what it was given. Most checks come before anything is
registered, and a call that they refuse leaves no trace in the registers (`Refuses`). Some come late.
States are registered before their initial values are read and before the scenarios of their costs
are. The first scenarios of a constraint fix the number of realizations before the next ones are read,
and scenarios are registered key by key. A parameterization is there before its probabilities are
looked at. The rules of a price objective are taken one by one.

So a call that fails has registered nothing exactly if it is one that is refused early
(`registersNothing_iff`).
-/

namespace DualDynamic

open Step

variable {K : Type}

namespace Subproblem

/-! ## Registers -/

/-- What is registered in a subproblem, next to its program. -/
structure Registers (K : Type) where
  states : List ℕ
  localCopies : List ℕ
  initialValues : List K
  stateCount : ℕ
  rhsNoise : List (Noise K)
  coefficientNoise : List (ℕ × ℕ × List K)
  costNoise : List (Noise K)
  parameterizations : List (Parameterization K)
  priceObjective : List (ℕ × Formula K)
  probability : Option (List K)
  sampleCount : ℕ

def registers (m : Subproblem K) : Registers K where
  states := m.states
  localCopies := m.localCopies
  initialValues := m.initialValues
  stateCount := m.stateCount
  rhsNoise := m.rhsNoise
  coefficientNoise := m.coefficientNoise
  costNoise := m.costNoise
  parameterizations := m.parameterizations
  priceObjective := m.priceObjective
  probability := m.probability
  sampleCount := m.sampleCount

variable {A B : Type} {m m' : Subproblem K} {e : Fault K}

@[simp] theorem registers_withVariable (m : Subproblem K) (v : Variable K) :
    (m.withVariable v).registers = m.registers := rfl

@[simp] theorem registers_withConstraint (m : Subproblem K) (c : Constraint K) :
    (m.withConstraint c).registers = m.registers := rfl

/-- Variables are added to the program only. -/
theorem exists_pushVariables (vs : List (Variable K)) (m : Subproblem K) :
    ∃ is m', vs.mapM pushVariable m = .ok is m' ∧ is.length = vs.length ∧
      m'.registers = m.registers := by
  induction vs generalizing m with
  | nil => exact ⟨[], m, rfl, rfl, rfl⟩
  | cons v vs ih =>
    obtain ⟨is, m', hrun, hlength, hsame⟩ := ih (m.withVariable v)
    refine ⟨m.program.vars.size :: is, m', ?_, congrArg (· + 1) hlength, hsame⟩
    have hfirst : pushVariable v m = .ok m.program.vars.size (m.withVariable v) := rfl
    rw [mapM_cons, bind_of_ok hfirst, bind_of_ok hrun]
    rfl

theorem exists_pushConstraints (cs : List (Constraint K)) (m : Subproblem K) :
    ∃ is m', cs.mapM pushConstraint m = .ok is m' ∧ m'.registers = m.registers := by
  induction cs generalizing m with
  | nil => exact ⟨[], m, rfl, rfl⟩
  | cons c cs ih =>
    obtain ⟨is, m', hrun, hsame⟩ := ih (m.withConstraint c)
    refine ⟨m.program.constraints.size :: is, m', ?_, hsame⟩
    have hfirst : pushConstraint c m = .ok m.program.constraints.size (m.withConstraint c) := rfl
    rw [mapM_cons, bind_of_ok hfirst, bind_of_ok hrun]
    rfl

/-! ## Refusals -/

/-- Where the step fails, it has changed nothing. -/
def Refuses (x : Build K A) : Prop := ∀ m e m', x m = .error e m' → m' = m

theorem refuses_throw (f : Fault K) : Refuses (throw f : Build K A) := fun _ _ _ h => by
  cases h
  rfl

theorem refuses_pure (a : A) : Refuses (pure a : Build K A) := fun _ _ _ h => by cases h

theorem Refuses.ofExcept_bind {r : Except (Fault K) B} {f : B → Build K A}
    (h : ∀ b, Refuses (f b)) : Refuses (Step.ofExcept r >>= f) := by
  cases r with
  | ok b => exact h b
  | error f => exact refuses_throw f

/-- A step before one that never fails fails as both do. -/
theorem error_of_bind {x : Build K B} {f : B → Build K A} (hf : ∀ b m, ∃ a m', f b m = .ok a m')
    (h : (x >>= f) m = .error e m') : x m = .error e m' := by
  cases hrun : x m with
  | error =>
    rw [bind_of_error hrun] at h
    cases h
    rfl
  | ok b u =>
    obtain ⟨a, v, hok⟩ := hf b u
    rw [bind_of_ok hrun, hok] at h
    cases h

/-- A step goes on to refuse if what comes behind it never fails. -/
theorem Refuses.bind_ok {x : Build K B} {f : B → Build K A} (hx : Refuses x)
    (hf : ∀ b m, ∃ a m', f b m = .ok a m') : Refuses (x >>= f) :=
  fun _ _ _ h => hx _ _ _ (error_of_bind hf h)

/-- The number of realizations is fixed, or it is compared. -/
theorem fixSize_eq (d : Datum K) (n : ℕ) (m : Subproblem K) :
    fixSize d n m = match m.noiseSize with
      | none => .ok () { m with noiseSize := some n }
      | some size => if size = n then .ok () m else .error (.sampleSize m.title size d n) m := by
  have hrun : fixSize d n m = (match m.noiseSize with
    | none => set { m with noiseSize := some n }
    | some size =>
      if size != n then throw (.sampleSize m.title size d n) else pure () : Build K Unit) m := rfl
  rw [hrun]
  cases m.noiseSize with
  | none => rfl
  | some size =>
    by_cases hsize : size = n
    · simp only [hsize, bne_self_eq_false, Bool.false_eq_true, if_false, if_true]
      rfl
    · simp only [hsize, bne_iff_ne, ne_eq, not_false_eq_true, if_true, if_false]
      rfl

theorem refuses_fixSize (d : Datum K) (n : ℕ) : Refuses (fixSize d n) := by
  intro m e m' h
  rw [fixSize_eq] at h
  split at h
  · cases h
  · split_ifs at h
    cases h
    rfl

variable [Numeral K]

theorem refuses_scenarios (d : Datum K) : Refuses (scenarios d) := by
  refine Refuses.ofExcept_bind fun block => ?_
  rcases block.shape with _ | ⟨n, _ | ⟨width, more⟩⟩
  · exact refuses_throw _
  · exact (refuses_fixSize d n).bind_ok fun _ m => ⟨_, m, rfl⟩
  · exact refuses_throw _

theorem refuses_groupScenarios (size : ℕ) (d : Datum K) : Refuses (groupScenarios size d) := by
  refine Refuses.ofExcept_bind fun block => ?_
  rcases block.shape with _ | ⟨n, _ | ⟨width, _ | ⟨depth, more⟩⟩⟩
  · exact refuses_throw _
  · exact refuses_throw _
  · dsimp only
    split_ifs
    · exact refuses_throw _
    · exact (refuses_fixSize d n).bind_ok fun _ m => ⟨_, m, rfl⟩
  · exact refuses_throw _

theorem refuses_addCostNoise (i : ℕ) (d : Datum K) : Refuses (addCostNoise i d) := by
  obtain heq | heq := addCostNoise_cases i d <;> rw [heq]
  · exact refuses_pure ()
  · exact (refuses_scenarios d).bind_ok fun _ _ => ⟨_, _, rfl⟩

theorem refuses_addGroupCostNoise (is : List ℕ) (d : Datum K) :
    Refuses (addGroupCostNoise is d) := by
  obtain heq | heq := addGroupCostNoise_cases is d <;> rw [heq]
  · exact refuses_pure ()
  · exact (refuses_groupScenarios is.length d).bind_ok fun _ _ => ⟨_, _, rfl⟩

theorem refuses_setProbability (p : Datum K) : Refuses (setProbability p) := by
  intro m
  have hrefuses : Refuses (Step.ofExcept
      ((Probability.check p m.sampleCount).mapError .probability) >>= fun values =>
        modify fun m => { m with probability := some values } : Build K Unit) :=
    Refuses.ofExcept_bind fun _ _ _ _ h => by cases h
  exact hrefuses m

/-! ## States -/

/-- States that are registered, some or all of them with initial values. -/
def withStates (m : Subproblem K) (states copies : List ℕ) (values : List K) : Subproblem K :=
  { m with
    states := m.states ++ states
    localCopies := m.localCopies ++ copies
    initialValues := m.initialValues ++ values
    stateCount := m.stateCount + values.length }

omit [Numeral K] in
/-- Whatever initial values they have, states that are registered show. -/
theorem registers_withStates_iff {states copies : List ℕ} {values : List K}
    (hcopies : copies.length = states.length) (hvalues : values.length ≤ states.length) :
    (m.withStates states copies values).registers = m.registers ↔ states = [] := by
  constructor
  · intro hsame
    exact List.append_right_eq_self.1 (congrArg Registers.states hsame)
  · rintro rfl
    obtain rfl : copies = [] := List.length_eq_zero_iff.1 hcopies
    obtain rfl : values = [] := List.length_eq_zero_iff.1 (Nat.le_zero.1 hvalues)
    simp [registers, withStates, sampleCount]

/-- States are registered as soon as there is an initial value for each, whatever comes of reading
the initial values and of what is done next. -/
theorem error_registerStates_bind {states copies : List ℕ} {initial : Datum K}
    {x : Build K A} (hx : Refuses x)
    (h : (registerStates states copies initial >>= fun _ => x) m = .error e m') :
    ((∃ f, initialData states.length initial = .error f) ∧ m' = m) ∨
      (∃ items, initialData states.length initial = .ok items) ∧
        ∃ values, values.length ≤ states.length ∧ m' = m.withStates states copies values := by
  simp only [registerStates, bind_assoc] at h
  cases hitems : initialData states.length initial with
  | error =>
    rw [hitems] at h
    cases h
    exact Or.inl ⟨⟨_, rfl⟩, rfl⟩
  | ok items =>
    refine Or.inr ⟨⟨items, rfl⟩, ?_⟩
    rw [hitems] at h
    have hrun : (Step.ofExcept (initialNumbers items) >>= fun values =>
        modify (fun m => { m with
          initialValues := m.initialValues ++ values
          stateCount := m.stateCount + states.length }) >>= fun _ => x : Build K A)
        { m with states := m.states ++ states, localCopies := m.localCopies ++ copies } =
          .error e m' := h
    cases hvalues : initialNumbers items with
    | error =>
      rw [hvalues] at hrun
      cases hrun
      exact ⟨[], Nat.zero_le _, by simp [withStates]⟩
    | ok values =>
      rw [hvalues] at hrun
      have hlength : values.length = states.length :=
        (forall₂_of_mapM hvalues).length_eq.symm.trans (length_initialData hitems)
      refine ⟨values, hlength.le, ?_⟩
      rw [hx _ _ _ hrun, withStates, hlength]

theorem error_addStates {pairs : List (Variable K × Variable K)} {initial d : Datum K}
    (h : addStates (pairs.map Prod.fst) (pairs.map Prod.snd) initial d m = .error e m') :
    m'.registers = m.registers ↔
      pairs = [] ∨ ∃ f, initialData pairs.length initial = .error f := by
  obtain ⟨is, u, hstates, hlength, hu⟩ := exists_pushVariables (pairs.map Prod.fst) m
  obtain ⟨copied, v, hcopies, hlength', hv⟩ := exists_pushVariables (pairs.map Prod.snd) u
  rw [List.length_map] at hlength hlength'
  have hrest : (registerStates is copied initial >>= fun _ =>
      addGroupCostNoise is d >>= fun _ => pure (is, copied) : Build K _) v = .error e m' := by
    rw [addStates, bind_of_ok hstates, bind_of_ok hcopies] at h
    exact h
  have hrefuses : Refuses (addGroupCostNoise is d >>= fun _ => pure (is, copied) : Build K _) :=
    (refuses_addGroupCostNoise is d).bind_ok fun _ m => ⟨_, m, rfl⟩
  rw [← hu, ← hv, ← hlength]
  rcases error_registerStates_bind hrefuses hrest with
    ⟨hf, rfl⟩ | ⟨⟨items, hitems⟩, values, hvalues, rfl⟩
  · exact iff_of_true rfl (Or.inr hf)
  · rw [registers_withStates_iff (hlength'.trans hlength.symm) hvalues, hitems,
      ← List.length_eq_zero_iff, hlength, List.length_eq_zero_iff]
    simp

/-- A state variable is there for good, whatever is wrong with its initial value or its scenarios. -/
theorem error_addState {v copy : Variable K} {initial d : Datum K}
    (h : addState v copy initial d m = .error e m') : m'.registers ≠ m.registers := by
  have hrest : (registerStates [m.program.vars.size] [(m.withVariable v).program.vars.size]
      (.list [initial]) >>= fun _ => addCostNoise m.program.vars.size d >>= fun _ =>
        pure (m.program.vars.size, (m.withVariable v).program.vars.size) : Build K _)
      ((m.withVariable v).withVariable copy) = .error e m' := h
  have hrefuses := (refuses_addCostNoise m.program.vars.size d).bind_ok
    (f := fun _ => pure (m.program.vars.size, (m.withVariable v).program.vars.size))
    fun _ m => ⟨_, m, rfl⟩
  rcases error_registerStates_bind hrefuses hrest with ⟨⟨f, hf⟩, -⟩ | ⟨-, values, hvalues, rfl⟩
  · cases hf
  · have hnone : (((m.withVariable v).withVariable copy).withStates [m.program.vars.size]
        [(m.withVariable v).program.vars.size] values).registers = m.registers ↔
          [m.program.vars.size] = [] := registers_withStates_iff rfl hvalues
    exact fun hsame => List.cons_ne_nil _ _ (hnone.1 hsame)

/-! ## Scenarios of constraints -/

/-- The number of realizations that scenarios of one target have values for, if they can be read. -/
def scenarioSize? (d : Datum K) : Option ℕ :=
  match scenarioBlock d with
  | .ok ⟨[n], _⟩ => some n
  | _ => none

omit [Numeral K] in
/-- Noise with `n` realizations can be added. -/
def Takes (m : Subproblem K) (n : ℕ) : Prop := m.noiseSize = none ∨ m.noiseSize = some n

omit [Numeral K] in
theorem fixSize_of_takes {n : ℕ} (h : m.Takes n) (d : Datum K) :
    fixSize d n m = .ok () { m with noiseSize := some n } := by
  rw [fixSize_eq]
  rcases h with hsize | hsize
  · rw [hsize]
  · simp only [hsize, if_true]
    rw [← hsize]

omit [Numeral K] in
theorem fixSize_of_not_takes {n : ℕ} (h : ¬ m.Takes n) (d : Datum K) :
    ∃ f, fixSize d n m = .error f m := by
  obtain ⟨hnone, hother⟩ := not_or.1 h
  obtain ⟨k, hk⟩ := Option.ne_none_iff_exists'.1 hnone
  have hne : k ≠ n := fun hkn => hother (hkn ▸ hk)
  refine ⟨.sampleSize m.title k d n, ?_⟩
  simp only [fixSize_eq, hk, if_neg hne]

/-- Scenarios that can be read and fit fix the number of realizations. -/
theorem scenarios_of_takes {d : Datum K} {n : ℕ} (hsize : scenarioSize? d = some n)
    (htakes : m.Takes n) : ∃ values, scenarios d m = .ok values { m with noiseSize := some n } := by
  unfold scenarioSize? at hsize
  split at hsize
  · next k entries hblock =>
    obtain rfl := Option.some.inj hsize
    refine ⟨entries, ?_⟩
    rw [scenarios, hblock]
    exact bind_of_ok (fixSize_of_takes htakes d)
  · cases hsize

theorem scenarios_of_not_takes {d : Datum K}
    (h : ∀ n, scenarioSize? d = some n → ¬ m.Takes n) : ∃ f, scenarios d m = .error f m := by
  unfold scenarioSize? at h
  rw [scenarios]
  rcases hblock : scenarioBlock d with f | ⟨shape, entries⟩
  · exact ⟨f, rfl⟩
  · rcases shape with _ | ⟨n, _ | ⟨width, more⟩⟩
    · exact ⟨_, rfl⟩
    · rw [hblock] at h
      obtain ⟨f, hf⟩ := fixSize_of_not_takes (h n rfl) d
      exact ⟨f, bind_of_error (x := fixSize d n) hf⟩
    · exact ⟨_, rfl⟩

/-- The number of realizations of the first scenarios of a table, if they can be read. -/
def firstSize? (entries : List (RowKey × Datum K)) : Option ℕ :=
  entries.head?.bind fun e => scenarioSize? e.2

/-- All scenarios of a table can be read and fit. -/
def IsReadable (m : Subproblem K) (entries : List (RowKey × Datum K)) : Prop :=
  ∃ n, m.Takes n ∧ ∀ e ∈ entries, scenarioSize? e.2 = some n

/-- Reads the scenarios of a table. -/
def readEntries (entries : List (RowKey × Datum K)) : Build K (List (RowKey × List K)) :=
  entries.mapM fun e => do return (e.1, ← scenarios e.2)

theorem readEntries_cons_of_takes {e : RowKey × Datum K} (entries : List (RowKey × Datum K))
    {n : ℕ} (hsize : scenarioSize? e.2 = some n) (htakes : m.Takes n) : ∃ values,
      readEntries (e :: entries) m = (readEntries entries >>= fun read =>
        pure ((e.1, values) :: read)) { m with noiseSize := some n } := by
  obtain ⟨values, hvalues⟩ := scenarios_of_takes hsize htakes
  refine ⟨values, ?_⟩
  have hfirst : (do return (e.1, ← scenarios e.2) : Build K (RowKey × List K)) m =
      .ok (e.1, values) { m with noiseSize := some n } := bind_of_ok hvalues
  rw [readEntries, mapM_cons, bind_of_ok hfirst]
  rfl

/-- When the first scenarios of a table fit, the others have to fit to them. -/
theorem isReadable_cons_iff {e : RowKey × Datum K} (entries : List (RowKey × Datum K)) {n : ℕ}
    (hsize : scenarioSize? e.2 = some n) (htakes : m.Takes n) :
    m.IsReadable (e :: entries) ↔ IsReadable { m with noiseSize := some n } entries := by
  have hfixed : ∀ k, Takes { m with noiseSize := some n } k ↔ k = n := fun k => by
    simp [Takes, eq_comm]
  simp only [IsReadable, hfixed, List.forall_mem_cons, hsize, exists_eq_left, Option.some.injEq]
  constructor
  · rintro ⟨k, -, rfl, hall⟩
    exact hall
  · exact fun hall => ⟨n, htakes, rfl, hall⟩

/-- Scenarios that do not fit come after the number of realizations was fixed, or have no size. -/
theorem or_firstSize_of_not_takes {e : RowKey × Datum K} (entries : List (RowKey × Datum K))
    (hno : ∀ n, scenarioSize? e.2 = some n → ¬ m.Takes n) :
    m.noiseSize.or (firstSize? (e :: entries)) = m.noiseSize := by
  cases hsize : scenarioSize? e.2 with
  | none => simp [firstSize?, hsize]
  | some n =>
    cases hm : m.noiseSize with
    | none => exact absurd (Or.inl hm) (hno n hsize)
    | some k => rfl

/-- Reading the scenarios of a table fixes the number of realizations as soon as the first ones have
been read, whether or not the others can be. -/
theorem readEntries_spec (entries : List (RowKey × Datum K)) (m : Subproblem K) :
    (m.IsReadable entries → ∃ read, readEntries entries m =
        .ok read { m with noiseSize := m.noiseSize.or (firstSize? entries) } ∧
      read.map Prod.fst = entries.map Prod.fst) ∧
    (¬ m.IsReadable entries → ∃ f, readEntries entries m =
      .error f { m with noiseSize := m.noiseSize.or (firstSize? entries) }) := by
  induction entries generalizing m with
  | nil =>
    have hreadable : m.IsReadable [] := by
      cases hsize : m.noiseSize with
      | none => exact ⟨0, Or.inl hsize, by simp⟩
      | some n => exact ⟨n, Or.inr hsize, by simp⟩
    refine ⟨fun _ => ⟨[], ?_, rfl⟩, fun h => absurd hreadable h⟩
    simp only [firstSize?, List.head?_nil, Option.bind_none, Option.or_none]
    rfl
  | cons e entries ih =>
    by_cases hfits : ∃ n, scenarioSize? e.2 = some n ∧ m.Takes n
    · obtain ⟨n, hsize, htakes⟩ := hfits
      have hfixed : m.noiseSize.or (firstSize? (e :: entries)) = some n := by
        rcases htakes with h | h <;> simp [h, firstSize?, hsize]
      obtain ⟨values, hrun⟩ := readEntries_cons_of_takes entries hsize htakes
      obtain ⟨hok, herror⟩ := ih { m with noiseSize := some n }
      rw [isReadable_cons_iff entries hsize htakes, hrun, hfixed]
      refine ⟨fun h => ?_, fun h => ?_⟩
      · obtain ⟨read, hread, hkeys⟩ := hok h
        refine ⟨(e.1, values) :: read, ?_, by simp [hkeys]⟩
        rw [bind_of_ok hread]
        rfl
      · obtain ⟨f, hf⟩ := herror h
        exact ⟨f, bind_of_error hf⟩
    · have hno : ∀ n, scenarioSize? e.2 = some n → ¬ m.Takes n :=
        fun n hn htakes => hfits ⟨n, hn, htakes⟩
      obtain ⟨f, hf⟩ := scenarios_of_not_takes hno
      rw [or_firstSize_of_not_takes entries hno]
      refine ⟨fun ⟨n, htakes, hall⟩ => absurd htakes (hno n (hall e (by simp))), fun _ => ⟨f, ?_⟩⟩
      rw [readEntries, mapM_cons]
      exact bind_of_error (bind_of_error hf)

/-- Reading the scenarios of a table leaves the number of realizations: it is fixed already, or the
first scenarios, which would fix it, have one realization or cannot be read. -/
def KeepsCount (m : Subproblem K) (entries : List (RowKey × Datum K)) : Prop :=
  m.noiseSize = none → (firstSize? entries).getD 1 = 1

omit [Numeral K] in
/-- The first key of a table is neither the right hand side nor a variable. -/
def StartsUnknown (entries : List (RowKey × Datum K)) : Prop :=
  ∃ text, entries.head?.map Prod.fst = some (.other text)

omit [Numeral K] in
theorem registers_fixed_iff (m : Subproblem K) (size : Option ℕ) :
    registers { m with noiseSize := m.noiseSize.or size } = m.registers ↔
      (m.noiseSize = none → size.getD 1 = 1) := by
  have hcount : registers { m with noiseSize := m.noiseSize.or size } = m.registers ↔
      (m.noiseSize.or size).getD 1 = m.noiseSize.getD 1 := by
    simp [registers, sampleCount]
  rw [hcount]
  cases m.noiseSize <;> simp

omit [Numeral K] in
/-- The number of registered scenarios of constraints. -/
def rowCount (m : Subproblem K) : ℕ := m.rhsNoise.length + m.coefficientNoise.length

omit [Numeral K] in
theorem rowCount_congr (h : m'.registers = m.registers) : m'.rowCount = m.rowCount := by
  have hrhs : m'.rhsNoise = m.rhsNoise := congrArg Registers.rhsNoise h
  have hcoefficient : m'.coefficientNoise = m.coefficientNoise :=
    congrArg Registers.coefficientNoise h
  rw [rowCount, rowCount, hrhs, hcoefficient]

omit [Numeral K] in
theorem keeps_rowCount (row n : ℕ) (read : List (RowKey × List K)) :
    Keeps (fun m : Subproblem K => n ≤ m.rowCount)
      (Step.each read fun e => addRowNoise row e.1 e.2) := by
  refine Keeps.each fun e _ m hm => ?_
  rcases e with ⟨_ | i | text, values⟩
  · exact hm.trans (by simp [rowCount])
  · exact hm.trans (by simp [rowCount])
  · exact hm

omit [Numeral K] in
/-- Scenarios that have been registered when a key turns out to be unknown stay. -/
theorem lt_rowCount_each {row : ℕ} {key : RowKey} {values : List K}
    {read : List (RowKey × List K)} (hkey : ∀ text, key ≠ .other text)
    (h : Step.each ((key, values) :: read) (fun e => addRowNoise row e.1 e.2) m = .error e m') :
    m.rowCount < m'.rowCount := by
  obtain ⟨u, hfirst, hcount⟩ : ∃ u, addRowNoise row key values m = .ok () u ∧
      m.rowCount + 1 = u.rowCount := by
    cases key with
    | other text => exact absurd rfl (hkey text)
    | _ =>
      refine ⟨_, rfl, ?_⟩
      simp only [rowCount, List.length_append, List.length_singleton]
      omega
  have hcons : Step.each ((key, values) :: read) (fun e => addRowNoise row e.1 e.2) =
      (addRowNoise row key values >>= fun _ =>
        Step.each read fun e => addRowNoise row e.1 e.2 : Build K Unit) := rfl
  rw [hcons, bind_of_ok hfirst] at h
  exact Nat.lt_of_succ_le ((keeps_rowCount row (m.rowCount + 1) read).of_error hcount.le h)

omit [Numeral K] in
/-- Registering scenarios fails for the first key, and then nothing has happened, or for a later one, and
then those in front of it have been registered. -/
theorem error_each_addRowNoise {row : ℕ} {read : List (RowKey × List K)}
    (h : Step.each read (fun e => addRowNoise row e.1 e.2) m = .error e m') :
    (∃ text, read.head?.map Prod.fst = some (.other text)) ∧ m' = m ∨
      (∀ text, read.head?.map Prod.fst ≠ some (.other text)) ∧ m.rowCount < m'.rowCount := by
  cases read with
  | nil => cases h
  | cons first read =>
    obtain ⟨key, values⟩ := first
    by_cases hother : ∃ text, key = .other text
    · obtain ⟨text, rfl⟩ := hother
      have hrefused : Step.each ((.other text, values) :: read)
          (fun e => addRowNoise row e.1 e.2) m = .error .uncertaintyKey m := rfl
      rw [hrefused] at h
      exact Or.inl ⟨⟨text, rfl⟩, (EStateM.Result.error.inj h).2.symm⟩
    · exact Or.inr ⟨fun text htext => hother ⟨text, Option.some.inj htext⟩,
        lt_rowCount_each (fun text htext => hother ⟨text, htext⟩) h⟩

/-- A constraint whose table of scenarios is refused has registered nothing if the number of
realizations is not touched and if the first key is unknown in case all scenarios are readable. -/
theorem error_addConstraint {c : Constraint K} {entries : List (RowKey × Datum K)}
    (h : addConstraint c (.table entries) m = .error e m') :
    m'.registers = m.registers ↔
      m.KeepsCount entries ∧ (m.IsReadable entries → StartsUnknown entries) := by
  set row := m.program.constraints.size
  set u := m.withConstraint c with hu
  have hrun : (readEntries entries >>= fun read =>
      Step.each read (fun e => addRowNoise row e.1 e.2) >>= fun _ => pure row : Build K ℕ) u =
        .error e m' := h
  obtain ⟨hreadable, hunreadable⟩ := readEntries_spec entries u
  have hcount : registers { u with noiseSize := u.noiseSize.or (firstSize? entries) } =
      m.registers ↔ m.KeepsCount entries := registers_fixed_iff u (firstSize? entries)
  by_cases hread : m.IsReadable entries
  · obtain ⟨read, hread', hkeys⟩ := hreadable hread
    rw [bind_of_ok hread'] at hrun
    have hhead : read.head?.map Prod.fst = entries.head?.map Prod.fst := by
      rw [← List.head?_map, ← List.head?_map, hkeys]
    obtain ⟨⟨text, htext⟩, rfl⟩ | ⟨hnone, hgrown⟩ :=
      error_each_addRowNoise (error_of_bind (fun _ m => ⟨row, m, rfl⟩) hrun)
    · rw [hcount]
      exact (and_iff_left fun _ => ⟨text, hhead.symm.trans htext⟩).symm
    · refine iff_of_false (fun hsame => hgrown.ne (rowCount_congr hsame).symm) fun ⟨_, hstarts⟩ => ?_
      obtain ⟨text, htext⟩ := hstarts hread
      exact hnone text (hhead.trans htext)
  · obtain ⟨f, hf⟩ := hunreadable hread
    rw [bind_of_error hf] at hrun
    cases hrun
    rw [hcount]
    exact (and_iff_left fun hno => absurd hno hread).symm

/-! ## Variables and groups of constraints -/

theorem error_addVariable {v : Variable K} {d : Datum K}
    (h : addVariable v d m = .error e m') : m'.registers = m.registers := by
  have hrest : (addCostNoise m.program.vars.size d >>= fun _ => pure m.program.vars.size :
      Build K ℕ) (m.withVariable v) = .error e m' := h
  rw [((refuses_addCostNoise _ d).bind_ok fun _ m => ⟨_, m, rfl⟩) _ _ _ hrest,
    registers_withVariable]

theorem error_addVariables {vs : List (Variable K)} {d : Datum K}
    (h : addVariables vs d m = .error e m') : m'.registers = m.registers := by
  obtain ⟨is, u, hpush, -, hu⟩ := exists_pushVariables vs m
  rw [addVariables, bind_of_ok hpush] at h
  rw [((refuses_addGroupCostNoise is d).bind_ok fun _ m => ⟨is, m, rfl⟩) _ _ _ h, hu]

theorem error_addConstraints {cs : List (Constraint K)} {d : Datum K}
    (h : addConstraints cs d m = .error e m') : m'.registers = m.registers := by
  obtain ⟨rows, u, hpush, hu⟩ := exists_pushConstraints cs m
  obtain heq | heq := addConstraints_cases cs d <;> rw [heq, bind_of_ok hpush] at h
  · cases h
  · rw [((refuses_groupScenarios rows.length d).bind_ok fun _ _ => ⟨_, _, rfl⟩) _ _ _ h, hu]

/-! ## Parameterizations and prices -/

omit [Numeral K] in
/-- A parameterization is registered: it has actions, and as many support points as there are
realizations, at least one. -/
def Admits (m : Subproblem K) (actions : Option (List (Action K))) (support : Datum K) : Prop :=
  actions ≠ none ∧ ∃ points, support.items? = some points ∧ points ≠ [] ∧ m.Takes points.length

/-- A parameterization that is registered stays when its probabilities are refused. -/
theorem error_parameterize {actions : Option (List (Action K))} {support p : Datum K}
    (h : parameterize actions support p m = .error e m') :
    m'.registers = m.registers ↔ ¬ m.Admits actions support := by
  unfold parameterize at h
  cases actions with
  | none =>
    cases h
    exact iff_of_true rfl fun hadmits => hadmits.1 rfl
  | some actions =>
    cases hpoints : support.items? with
    | none =>
      rw [hpoints] at h
      cases h
      exact iff_of_true rfl fun ⟨_, points, hsome, _⟩ => by simp [hpoints] at hsome
    | some points =>
      have hadmits : m.Admits (some actions) support ↔ points ≠ [] ∧ m.Takes points.length := by
        simp [Admits, hpoints]
      rw [hpoints] at h
      dsimp only at h
      rw [hadmits]
      split_ifs at h with hempty
      · cases h
        exact iff_of_true rfl fun hno => hno.1 (by simpa using hempty)
      · have hpoints : points ≠ [] := by simpa using hempty
        by_cases htakes : m.Takes points.length
        · rw [bind_of_ok (fixSize_of_takes htakes _)] at h
          refine iff_of_false (fun hsame => ?_) (not_not.2 ⟨hpoints, htakes⟩)
          have hset : setProbability p { m with
              noiseSize := some points.length
              parameterizations := m.parameterizations ++ [⟨actions, points⟩] } =
                .error e m' := by
            cases p with
            | absent => cases h
            | _ => exact h
          rw [refuses_setProbability p _ _ _ hset] at hsame
          have hgrown := congrArg (List.length ∘ Registers.parameterizations) hsame
          simp [registers] at hgrown
        · obtain ⟨f, hf⟩ := fixSize_of_not_takes htakes (.list points)
          rw [bind_of_error hf] at h
          cases h
          exact iff_of_true rfl fun hno => htakes hno.2

omit [Numeral K] in
/-- The rules in front of the one that is refused are taken; they may change nothing. -/
theorem error_setPriceObjective {rules : List (ℕ × Option (Formula K))}
    (h : setPriceObjective rules m = .error e m') :
    m'.registers = m.registers ↔
      (m.withRules (m.accepted rules)).priceObjective = m.priceObjective := by
  rw [setPriceObjective_eq] at h
  cases hrefusal : m.refusal? rules with
  | none => simp [hrefusal] at h
  | some f =>
    rw [hrefusal] at h
    cases h
    simp [registers, withRules, sampleCount]

/-! ## Calls -/

/-- A call that registers something with a subproblem. -/
inductive RegisteringCall (K : Type) where
  | build (call : Call K)
  | price (rules : List (ℕ × Option (Formula K)))
  | probability (p : Datum K)

namespace RegisteringCall

def perform : RegisteringCall K → Build K Unit
  | build call => call.perform
  | price rules => setPriceObjective rules
  | probability p => setProbability p

/-- If the call fails, it has registered nothing. -/
def RegistersNothing (c : RegisteringCall K) (m : Subproblem K) : Prop :=
  ∀ e m', c.perform m = .error e m' → m'.registers = m.registers

/-- What is wrong with the call is found before it registers anything. For variables, groups of
constraints and probabilities this is always so, for a single state variable never. -/
def IsRefusedEarly (m : Subproblem K) : RegisteringCall K → Prop
  | build (.addVariable _ _) | build (.addVariables _ _) | build (.addConstraints _ _) => True
  | build (.addState _ _ _ _) => False
  | build (.addStates pairs initial _) =>
    pairs = [] ∨ ∃ f, initialData pairs.length initial = .error f
  | build (.addConstraint _ (.table entries)) =>
    m.KeepsCount entries ∧ (m.IsReadable entries → StartsUnknown entries)
  | build (.addConstraint _ _) => True
  | build (.parameterize actions support _) => ¬ m.Admits actions support
  | price rules => (m.withRules (m.accepted rules)).priceObjective = m.priceObjective
  | probability _ => True

omit [Numeral K] in
/-- A call whose result is dropped fails as it does. -/
theorem error_of_drop {x : Build K A} (h : (x >>= fun _ => pure () : Build K Unit) m = .error e m') :
    x m = .error e m' :=
  error_of_bind (fun _ m => ⟨(), m, rfl⟩) h

theorem registers_of_error {c : RegisteringCall K} (h : c.perform m = .error e m') :
    m'.registers = m.registers ↔ c.IsRefusedEarly m := by
  cases c with
  | price rules => exact error_setPriceObjective h
  | probability p => exact iff_of_true (congrArg registers (refuses_setProbability p _ _ _ h)) trivial
  | build call =>
    cases call with
    | addVariable v d => exact iff_of_true (error_addVariable (error_of_drop h)) trivial
    | addVariables vs d => exact iff_of_true (error_addVariables (error_of_drop h)) trivial
    | addState v copy initial d => exact iff_of_false (error_addState (error_of_drop h)) id
    | addStates pairs initial d => exact error_addStates (error_of_drop h)
    | addConstraint c noise =>
      cases noise with
      | none => cases h
      | other =>
        cases h
        exact iff_of_true rfl trivial
      | table entries => exact error_addConstraint (error_of_drop h)
    | addConstraints cs d => exact iff_of_true (error_addConstraints (error_of_drop h)) trivial
    | parameterize actions support p => exact error_parameterize h

/-- Whatever a subproblem has registered so far, a call registers nothing when it fails exactly if it
does not fail or if what is wrong with it is found early. -/
theorem registersNothing_iff (c : RegisteringCall K) (m : Subproblem K) :
    c.RegistersNothing m ↔ succeeds c.perform m = true ∨ c.IsRefusedEarly m := by
  constructor
  · intro h
    cases hsucceeds : succeeds c.perform m with
    | true => exact Or.inl rfl
    | false =>
      obtain ⟨f, hf⟩ := exists_eq_error_final hsucceeds
      exact Or.inr ((registers_of_error hf).1 (h _ _ hf))
  · rintro (hsucceeds | hearly) e m' h
    · unfold Step.succeeds at hsucceeds
      rw [h] at hsucceeds
      cases hsucceeds
    · exact (registers_of_error h).2 hearly

/-- A noise with two support points, and probabilities that sum to more than one. -/
def lopsided : RegisteringCall ℚ :=
  .build (.parameterize (some []) (.list [.real 1, .real 2]) (.list [.real (1 / 2), .real (3 / 5)]))

/-- The probabilities are refused, and the noise is registered: there are two realizations now. -/
theorem not_registersNothing_lopsided :
    ¬ lopsided.RegistersNothing (empty "dice" .minimize) := by
  intro h
  have hfails : succeeds lopsided.perform (empty "dice" .minimize) = false := by decide +kernel
  have hcount : (final lopsided.perform (empty "dice" .minimize)).sampleCount = 2 := by
    decide +kernel
  obtain ⟨e, he⟩ := exists_eq_error_final hfails
  have hsame := congrArg Registers.sampleCount (h _ _ he)
  exact absurd (hcount.symm.trans hsame) (by decide)

end RegisteringCall

end Subproblem

end DualDynamic
