import DualDynamic.Proofs.CutRecord.File
import DualDynamic.Proofs.Subproblem.Statement

/-!
# Scenarios stay aligned

A subproblem is built call by call. A call may fail, and then it leaves behind what it had registered by
then; the next call goes on from there. Whatever is called, in whichever order, and whether it fails or
not, all noise has values for one and the same number of realizations, which the first noise fixes for
good (`Registered`). So a realization that there is finds its values everywhere.

States are another matter. Their initial values are counted before the states are registered and
read afterwards. A call with the right number of initial values of which one is no number fails in
between: its states and their local copies stay, without initial values and uncounted
(`Call.unread`). From then on the registers of the states are out of step.
-/

namespace DualDynamic

open Step

variable {K : Type}

/-- The number of realizations that a noise has values for. -/
def Noise.size : Noise K → ℕ
  | one _ scenarios => scenarios.length
  | group _ scenarios => scenarios.length

namespace Subproblem

/-- All noise has values for the number of realizations that is fixed, and those of a group have
a number for each member. -/
structure IsAligned (m : Subproblem K) : Prop where
  rhsNoise : ∀ x ∈ m.rhsNoise, m.noiseSize = some x.size ∧ x.IsFull
  costNoise : ∀ x ∈ m.costNoise, m.noiseSize = some x.size ∧ x.IsFull
  coefficientNoise : ∀ e ∈ m.coefficientNoise, m.noiseSize = some e.2.2.length
  parameterizations : ∀ p ∈ m.parameterizations, m.noiseSize = some p.support.length

/-- What a subproblem has registered: aligned noise, of the size that was fixed before, if any, and
states with their local copies, of which `lost` have no initial value and are not counted. -/
structure Registered (size : Option ℕ) (lost : ℕ) (m : Subproblem K) : Prop where
  aligned : m.IsAligned
  size : ∀ n ∈ size, m.noiseSize = some n
  copies : m.localCopies.length = m.states.length
  states : m.states.length = m.stateCount + lost
  initialValues : m.initialValues.length = m.stateCount

variable {size : Option ℕ} {lost : ℕ} {m m' : Subproblem K}

theorem registered_empty (title : String) (sense : Sense) :
    Registered none 0 (empty (K := K) title sense) where
  aligned := by constructor <;> simp [empty]
  size := by simp
  copies := rfl
  states := rfl
  initialValues := rfl

theorem Registered.fixed (h : Registered size lost m) : Registered m.noiseSize lost m :=
  { h with size := fun _ => id }

/-- A size that was fixed stays the same. -/
theorem Registered.trans {lost' : ℕ} (h : Registered size lost m)
    (h' : Registered m.noiseSize lost' m') : Registered size lost' m' :=
  { h' with size := fun n hn => h'.size n (h.size n hn) }

/-! ## Variables and constraints -/

theorem keeps_pushVariable (v : Variable K) :
    Keeps (Registered size lost) (pushVariable v) :=
  fun _ h => { h with aligned := { h.aligned with } }

theorem keeps_pushConstraint (c : Constraint K) :
    Keeps (Registered size lost) (pushConstraint c) :=
  fun _ h => { h with aligned := { h.aligned with } }

/-- As many variables are added as were given, and adding them does not fail. -/
theorem ensures_pushVariables (vs : List (Variable K)) {E : Subproblem K → Prop} :
    Ensures (Registered size lost) (vs.mapM pushVariable)
      (fun is m => Registered size lost m ∧ is.length = vs.length) E := by
  refine (Ensures.mapM (R := fun _ _ => True) fun v _ m hm => ?_).weaken (fun _ => id)
    (fun is m hm => ⟨hm.2, hm.1.length_eq.symm⟩) fun _ => id
  exact ⟨trivial, keeps_pushVariable v m hm⟩

/-! ## Scenarios -/

theorem ensures_fixSize (d : Datum K) (n : ℕ) : Ensures (Registered size lost) (fixSize d n)
    (fun _ m => Registered size lost m ∧ m.noiseSize = some n) (Registered size lost) := by
  refine ensures_get_bind fun m hm => ?_
  cases hsize : m.noiseSize with
  | none =>
    -- as long as no size is fixed there is no noise that could be out of step
    have hnone : ∀ k, m.noiseSize ≠ some k := by simp [hsize]
    refine fun _ _ => ⟨⟨⟨?_, ?_, ?_, ?_⟩, ?_, hm.copies, hm.states, hm.initialValues⟩, rfl⟩
    · exact fun x hx => absurd (hm.aligned.rhsNoise x hx).1 (hnone _)
    · exact fun x hx => absurd (hm.aligned.costNoise x hx).1 (hnone _)
    · exact fun e he => absurd (hm.aligned.coefficientNoise e he) (hnone _)
    · exact fun p hp => absurd (hm.aligned.parameterizations p hp) (hnone _)
    · exact fun k hk => absurd (hm.size k hk) (hnone _)
  | some k =>
    dsimp only
    split_ifs with hk
    · exact ensures_throw fun m' hm' => hm' ▸ hm
    · have heq : k = n := by simpa using hk
      exact ensures_pure fun m' hm' => hm' ▸ ⟨hm, hsize.trans (congrArg some heq)⟩

variable [Numeral K]

theorem ensures_scenarios (d : Datum K) : Ensures (Registered size lost) (scenarios d)
    (fun values m => Registered size lost m ∧ m.noiseSize = some values.length)
    (Registered size lost) := by
  refine Ensures.bind (Q := fun block m => scenarioBlock d = .ok block ∧ Registered size lost m)
    (ensures_ofExcept (fun _ hblock _ hm => ⟨hblock, hm⟩) fun _ => id) fun block m hm => ?_
  obtain ⟨hblock, hm⟩ := hm
  have hlength := length_scenarioBlock hblock
  rcases hshape : block.shape with _ | ⟨n, _ | ⟨width, more⟩⟩
  · exact hm
  · refine ((ensures_fixSize d n).bind fun _ => ensures_pure fun m' hm' => ?_) m hm
    exact ⟨hm'.1, by simpa [hlength, hshape] using hm'.2⟩
  · exact hm

theorem ensures_groupScenarios (width : ℕ) (d : Datum K) : Ensures (Registered size lost)
    (groupScenarios width d) (fun values m => Registered size lost m ∧
      m.noiseSize = some values.length ∧ ∀ xs ∈ values, xs.length = width)
    (Registered size lost) := by
  refine Ensures.bind (Q := fun block m => scenarioBlock d = .ok block ∧ Registered size lost m)
    (ensures_ofExcept (fun _ hblock _ hm => ⟨hblock, hm⟩) fun _ => id) fun block m hm => ?_
  obtain ⟨hblock, hm⟩ := hm
  rcases hshape : block.shape with _ | ⟨n, _ | ⟨found, _ | ⟨depth, more⟩⟩⟩
  · exact hm
  · exact hm
  · dsimp only
    obtain ⟨hrows, hwidths⟩ := Block.rows_of_shape hshape (length_scenarioBlock hblock)
    split_ifs with hfound
    · exact hm
    · have heq : found = width := by simpa using hfound
      refine ((ensures_fixSize d n).bind fun _ => ensures_pure fun m' hm' => ?_) m hm
      exact ⟨hm'.1, hrows.symm ▸ hm'.2, fun xs hxs => (hwidths xs hxs).trans heq⟩
  · exact hm

/-! ## Noise -/

section Register

omit [Numeral K]

theorem Registered.addCost {x : Noise K} (hm : Registered size lost m)
    (hx : m.noiseSize = some x.size ∧ x.IsFull) :
    Registered size lost { m with costNoise := m.costNoise ++ [x] } :=
  { hm with aligned := { hm.aligned with
      costNoise := List.forall_mem_append.2 ⟨hm.aligned.costNoise,
        List.forall_mem_singleton.2 hx⟩ } }

theorem Registered.addRhs {x : Noise K} (hm : Registered size lost m)
    (hx : m.noiseSize = some x.size ∧ x.IsFull) :
    Registered size lost { m with rhsNoise := m.rhsNoise ++ [x] } :=
  { hm with aligned := { hm.aligned with
      rhsNoise := List.forall_mem_append.2 ⟨hm.aligned.rhsNoise,
        List.forall_mem_singleton.2 hx⟩ } }

theorem Registered.addCoefficient {e : ℕ × ℕ × List K} (hm : Registered size lost m)
    (he : m.noiseSize = some e.2.2.length) :
    Registered size lost { m with coefficientNoise := m.coefficientNoise ++ [e] } :=
  { hm with aligned := { hm.aligned with
      coefficientNoise := List.forall_mem_append.2 ⟨hm.aligned.coefficientNoise,
        List.forall_mem_singleton.2 he⟩ } }

theorem Registered.addParameterization {p : Parameterization K} (hm : Registered size lost m)
    (hp : m.noiseSize = some p.support.length) :
    Registered size lost { m with parameterizations := m.parameterizations ++ [p] } :=
  { hm with aligned := { hm.aligned with
      parameterizations := List.forall_mem_append.2 ⟨hm.aligned.parameterizations,
        List.forall_mem_singleton.2 hp⟩ } }

end Register

theorem keeps_addCostNoise (i : ℕ) (d : Datum K) :
    Keeps (Registered size lost) (addCostNoise i d) := by
  obtain heq | heq := addCostNoise_cases i d <;> rw [heq]
  · exact keeps_pure ()
  · exact (ensures_scenarios d).bind fun values m hm => hm.1.addCost ⟨hm.2, trivial⟩

theorem keeps_addGroupCostNoise (is : List ℕ) (d : Datum K) :
    Keeps (Registered size lost) (addGroupCostNoise is d) := by
  obtain heq | heq := addGroupCostNoise_cases is d <;> rw [heq]
  · exact keeps_pure ()
  · exact (ensures_groupScenarios is.length d).bind fun values m hm => hm.1.addCost hm.2

/-- The scenarios of a constraint are read one after the other, and all of them have the size that
the first one fixes. -/
theorem ensures_readEntries (entries : List (RowKey × Datum K)) : Ensures (Registered size lost)
    (entries.mapM fun e => do return (e.1, ← scenarios e.2))
    (fun read m => Registered size lost m ∧ ∀ e ∈ read, m.noiseSize = some e.2.length)
    (Registered size lost) := by
  refine (Ensures.mapM_append (R := fun _ => True)
    (J := fun cs m => Registered size lost m ∧ ∀ xs ∈ cs, m.noiseSize = some (List.length xs))
    (fun e : RowKey × List K => [e.2]) (fun e _ cs => ?_) []).weaken
      (fun m hm => ⟨hm, by simp⟩) (fun read m hm => ⟨hm.2.1, fun e he => ?_⟩) fun _ => id
  · refine Ensures.bind (Q := fun values m => Registered size lost m ∧
      (∀ xs ∈ cs, m.noiseSize = some xs.length) ∧ m.noiseSize = some values.length)
      (fun m hm => ?_) fun values => ensures_pure fun m hm => ⟨trivial, hm.1, ?_⟩
    · have hread := ensures_scenarios e.2 m hm.1.fixed
      cases hx : scenarios e.2 m with
      | ok values m' =>
        rw [hx] at hread
        exact ⟨hm.1.trans hread.1, fun xs hxs => hread.1.size _ (hm.2 xs hxs), hread.2⟩
      | error f m' =>
        rw [hx] at hread
        exact hm.1.trans hread
    · exact List.forall_mem_append.2 ⟨hm.2.1, by simpa using hm.2.2⟩
  · exact hm.2.2 e.2 (by simpa using ⟨_, he⟩)

omit [Numeral K] in
theorem keeps_addRowNoise (row : ℕ) {read : List (RowKey × List K)} {e : RowKey × List K}
    (he : e ∈ read) : Keeps (fun m => Registered size lost m ∧
      ∀ e ∈ read, m.noiseSize = some e.2.length) (addRowNoise row e.1 e.2) := by
  rintro m ⟨hm, hread⟩
  obtain ⟨key, values⟩ := e
  cases key with
  | rhs => exact ⟨hm.addRhs ⟨hread _ he, trivial⟩, hread⟩
  | var i => exact ⟨hm.addCoefficient (hread _ he), hread⟩
  | other text => exact ⟨hm, hread⟩

/-! ## Calls -/

theorem keeps_addVariable (v : Variable K) (d : Datum K) :
    Keeps (Registered size lost) (addVariable v d) :=
  (keeps_pushVariable v).bind fun i => (keeps_addCostNoise i d).bind fun _ => keeps_pure i

theorem keeps_addVariables (vs : List (Variable K)) (d : Datum K) :
    Keeps (Registered size lost) (addVariables vs d) :=
  (Keeps.mapM fun v _ => keeps_pushVariable v).bind fun is =>
    (keeps_addGroupCostNoise is d).bind fun _ => keeps_pure is

/-- The initial values that items stand for. -/
def initialNumbers (items : List (Datum K)) : Except (Fault K) (List K) :=
  items.mapM fun d => d.number.mapError Unreadable.fault

/-- How many of `n` new states are left without an initial value: all of them, if there is an item for
each of them but some item is no number, and otherwise none. -/
def unread (n : ℕ) (initial : Datum K) : ℕ :=
  match initialData n initial with
  | .error _ => 0
  | .ok items =>
    match initialNumbers items with
    | .error _ => n
    | .ok _ => 0

/-- The states are registered whether their initial values can be read or not. -/
theorem ensures_registerStates {states copies : List ℕ} (hcopies : copies.length = states.length)
    (initial : Datum K) : Ensures (Registered size lost) (registerStates states copies initial)
      (fun _ => Registered size (lost + unread states.length initial))
      (Registered size (lost + unread states.length initial)) := by
  intro m hm
  unfold registerStates unread
  cases hitems : initialData states.length initial with
  | error e => exact hm
  | ok items =>
    have hread : Ensures
        (· = { m with states := m.states ++ states, localCopies := m.localCopies ++ copies })
        (do
          let values ← Step.ofExcept (initialNumbers items)
          modify fun m => { m with
            initialValues := m.initialValues ++ values
            stateCount := m.stateCount + states.length } : Build K Unit)
        (fun _ => Registered size (lost + match initialNumbers items with
          | .error _ => states.length
          | .ok _ => 0))
        (Registered size (lost + match initialNumbers items with
          | .error _ => states.length
          | .ok _ => 0)) := by
      rintro m' rfl
      have hstates := hm.states
      cases hvalues : initialNumbers items with
      | error e =>
        exact {
          aligned := { hm.aligned with }
          size := hm.size
          copies := by simp [hm.copies, hcopies]
          states := by simp only [List.length_append]; omega
          initialValues := hm.initialValues }
      | ok values =>
        have hlength : values.length = states.length :=
          (forall₂_of_mapM hvalues).length_eq.symm.trans (length_initialData hitems)
        exact {
          aligned := { hm.aligned with }
          size := hm.size
          copies := by simp [hm.copies, hcopies]
          states := by simp only [List.length_append]; omega
          initialValues := by simp [hm.initialValues, hlength] }
    exact hread _ rfl

/-- What a call that adds states loses, it loses whether it fails or not. -/
theorem ensures_addState (v copy : Variable K) (initial d : Datum K) :
    Ensures (Registered size lost) (addState v copy initial d)
      (fun _ => Registered size (lost + unread 1 (.list [initial])))
      (Registered size (lost + unread 1 (.list [initial]))) := by
  have hpush : ∀ v : Variable K, Ensures (Registered size lost) (pushVariable v)
      (fun _ => Registered size lost) (Registered size (lost + unread 1 (.list [initial]))) :=
    fun v m hm => keeps_pushVariable v m hm
  refine (hpush v).bind fun state => (hpush copy).bind fun copied => ?_
  have hlengths : [copied].length = [state].length := rfl
  refine (ensures_registerStates hlengths (.list [initial])).bind fun _ => ?_
  exact (keeps_addCostNoise state d).bind fun _ => keeps_pure _

theorem ensures_addStates (pairs : List (Variable K × Variable K)) (initial d : Datum K) :
    Ensures (Registered size lost)
      (addStates (pairs.map Prod.fst) (pairs.map Prod.snd) initial d)
      (fun _ => Registered size (lost + unread pairs.length initial))
      (Registered size (lost + unread pairs.length initial)) := by
  refine (ensures_pushVariables _).bind fun states m hstates => ?_
  refine ((ensures_pushVariables _).bind fun copied m hcopied => ?_) m hstates.1
  have hlength : states.length = pairs.length := hstates.2.trans (List.length_map _)
  have hcopies : copied.length = states.length :=
    (hcopied.2.trans (List.length_map _)).trans hlength.symm
  rw [← hlength]
  refine ((ensures_registerStates hcopies initial).bind fun _ => ?_) m hcopied.1
  exact (keeps_addGroupCostNoise states d).bind fun _ => keeps_pure _

theorem keeps_addConstraint (c : Constraint K) (noise : RowNoise K) :
    Keeps (Registered size lost) (addConstraint c noise) := by
  refine (keeps_pushConstraint c).bind fun row => ?_
  cases noise with
  | none => exact keeps_pure row
  | other => exact keeps_throw _
  | table entries =>
    refine (ensures_readEntries entries).bind fun read m hm => ?_
    -- all scenarios have been read, so registering them can only fail for their keys
    refine (Keeps.bind (I := fun m => Registered size lost m ∧
      ∀ e ∈ read, m.noiseSize = some e.2.length) ?_ fun _ => keeps_pure row).weaken
        (fun _ => id) (fun _ _ hm => hm.1) (fun _ hm => hm.1) m hm
    exact Keeps.each fun e he => keeps_addRowNoise row he

theorem keeps_addConstraints (cs : List (Constraint K)) (d : Datum K) :
    Keeps (Registered size lost) (addConstraints cs d) := by
  obtain heq | heq := addConstraints_cases cs d <;> rw [heq] <;>
    refine (Keeps.mapM fun c _ => keeps_pushConstraint c).bind fun rows => ?_
  · exact keeps_pure rows
  · exact (ensures_groupScenarios rows.length d).bind fun values m hm => hm.1.addRhs hm.2

theorem keeps_setProbability (p : Datum K) :
    Keeps (Registered size lost) (setProbability p) :=
  keeps_get.bind fun _ => (keeps_ofExcept _).bind fun _ _ hm =>
    { hm with aligned := { hm.aligned with } }

theorem keeps_parameterize (actions : Option (List (Action K))) (support probability : Datum K) :
    Keeps (Registered size lost) (parameterize actions support probability) := by
  unfold parameterize
  cases actions with
  | none => exact keeps_throw _
  | some actions =>
    cases support.items? with
    | none => exact keeps_throw _
    | some points =>
      dsimp only
      split_ifs
      · exact keeps_throw _
      · refine (ensures_fixSize _ _).bind fun _ => ?_
        refine Ensures.bind (Q := fun _ => Registered size lost)
          (fun m hm => hm.1.addParameterization hm.2) fun _ => ?_
        cases probability with
        | absent => exact keeps_pure ()
        | _ => exact keeps_setProbability _

/-! ## Realizations -/

omit [Numeral K] in
/-- Realizations that there are have their place in data of the common size. -/
theorem exists_realization {A : Type} {xs : List A} {k : ℕ} (hk : k < m.sampleCount)
    (hxs : m.noiseSize = some xs.length) :
    ∃ x, xs[k]? = some x ∧ (itemAt xs (k : ℤ) : Except (Fault K) A) = .ok x := by
  have hlt : k < xs.length := by simpa [sampleCount, hxs] using hk
  exact ⟨_, List.getElem?_eq_getElem hlt, itemAt_natCast.2 (List.getElem?_eq_getElem hlt)⟩

theorem raises_checkFinite (x : K) : Raises (S := Watched (Subproblem K)) (· ≠ .outOfRange)
    (Step.ofExcept (Action.checkFinite x)) := by
  refine raises_ofExcept fun e he => ?_
  unfold Action.checkFinite at he
  split_ifs at he
  cases he
  nofun

theorem raises_writeNoise (write : ℕ → K → LinearProgram K → LinearProgram K) {x : Noise K} {k : ℕ}
    (hk : k < m.sampleCount) (hx : m.noiseSize = some x.size) :
    Raises (· ≠ .outOfRange) (writeNoise write (k : ℤ) x) := by
  cases x with
  | one i scenarios =>
    obtain ⟨y, -, hy⟩ := exists_realization hk hx
    refine (raises_ofExcept fun e he => by simp [hy] at he).bind fun _ => ?_
    exact (raises_checkFinite _).bind fun _ => raises_modify _
  | group is scenarios =>
    obtain ⟨ys, -, hys⟩ := exists_realization hk hx
    exact (raises_ofExcept fun e he => by simp [hys] at he).bind fun _ => raises_modify _

/-- Realizations that all noise has values for are found: only the actions of a parameterization can
reach for something that is not there. -/
theorem IsAligned.raises_setRealization (hm : m.IsAligned) {k : ℕ} (hk : k < m.sampleCount)
    {w v : Watched (Subproblem K)} (hw : w.part = m)
    (h : setRealization (k : ℤ) w = .error .outOfRange v) :
    ∃ p ∈ m.parameterizations, ∃ point, p.support[k]? = some point ∧
      ∃ a ∈ p.actions, ∃ w v, Action.perform point a w = .error .outOfRange v := by
  by_contra hnone
  have hraises : Raises (· ≠ .outOfRange) (do
      Step.each m.coefficientNoise (writeCoefficient k)
      Step.each m.rhsNoise (writeNoise LinearProgram.setRhs k)
      Step.each m.costNoise (writeNoise LinearProgram.setCost k)
      Step.each m.parameterizations (performAt k) : Run K (Subproblem K) Unit) := by
    refine (Raises.each fun e he => ?_).bind fun _ =>
      (Raises.each fun x hx => raises_writeNoise _ hk (hm.rhsNoise x hx).1).bind fun _ =>
        (Raises.each fun x hx => raises_writeNoise _ hk (hm.costNoise x hx).1).bind fun _ =>
          Raises.each fun p hp => ?_
    · obtain ⟨y, -, hy⟩ := exists_realization hk (hm.coefficientNoise e he)
      exact (raises_ofExcept fun e he => by simp [hy] at he).bind fun _ => raises_modify _
    · obtain ⟨point, hpoint, hitem⟩ := exists_realization hk (hm.parameterizations p hp)
      intro u e u' hrun
      rw [performAt, hitem] at hrun
      refine Raises.each (F := (· ≠ .outOfRange)) (fun a ha t f t' hperform hf => ?_) u e u' hrun
      exact hnone ⟨p, hp, point, hpoint, a, ha, t, t', hf ▸ hperform⟩
  rw [setRealization, Run.part_bind_apply, hw] at h
  exact hraises w _ v h rfl

/-! ## Sequences of calls -/

/-- A call that builds a subproblem. -/
inductive Call (K : Type) where
  | addVariable (v : Variable K) (uncertainty : Datum K)
  | addVariables (vs : List (Variable K)) (uncertainty : Datum K)
  | addState (v copy : Variable K) (initial uncertainty : Datum K)
  /-- Each variable with its local copy. -/
  | addStates (pairs : List (Variable K × Variable K)) (initial uncertainty : Datum K)
  | addConstraint (c : Constraint K) (uncertainty : RowNoise K)
  | addConstraints (cs : List (Constraint K)) (uncertainty : Datum K)
  | parameterize (actions : Option (List (Action K))) (support probability : Datum K)

namespace Call

def perform : Call K → Build K Unit
  | addVariable v d => do let _ ← Subproblem.addVariable v d
  | addVariables vs d => do let _ ← Subproblem.addVariables vs d
  | addState v copy initial d => do let _ ← Subproblem.addState v copy initial d
  | addStates pairs initial d => do
    let _ ← Subproblem.addStates (pairs.map Prod.fst) (pairs.map Prod.snd) initial d
  | addConstraint c noise => do let _ ← Subproblem.addConstraint c noise
  | addConstraints cs d => do let _ ← Subproblem.addConstraints cs d
  | parameterize actions support p => Subproblem.parameterize actions support p

/-- How many states a call registers without initial values. -/
def unread : Call K → ℕ
  | addState _ _ initial _ => Subproblem.unread 1 (.list [initial])
  | addStates pairs initial _ => Subproblem.unread pairs.length initial
  | _ => 0

/-- Every call, whether it fails or not, keeps what is registered in order, but for the states that it
leaves without initial values. -/
theorem ensures_perform (c : Call K) : Ensures (Registered size lost) c.perform
    (fun _ => Registered size (lost + c.unread)) (Registered size (lost + c.unread)) := by
  cases c with
  | addVariable v d => exact (keeps_addVariable v d).bind fun _ => keeps_pure ()
  | addVariables vs d => exact (keeps_addVariables vs d).bind fun _ => keeps_pure ()
  | addState v copy initial d =>
    exact (ensures_addState v copy initial d).bind fun _ => keeps_pure ()
  | addStates pairs initial d =>
    exact (ensures_addStates pairs initial d).bind fun _ => keeps_pure ()
  | addConstraint c noise => exact (keeps_addConstraint c noise).bind fun _ => keeps_pure ()
  | addConstraints cs d => exact (keeps_addConstraints cs d).bind fun _ => keeps_pure ()
  | parameterize actions support p => exact keeps_parameterize actions support p

end Call

/-- What calls make of a subproblem, each of which may fail. -/
def afterCalls (m : Subproblem K) (calls : List (Call K)) : Subproblem K :=
  calls.foldl (fun m c => final c.perform m) m

theorem Registered.afterCalls (hm : Registered size lost m) (calls : List (Call K)) :
    Registered size (lost + (calls.map Call.unread).sum) (m.afterCalls calls) := by
  induction calls generalizing m lost with
  | nil => exact hm
  | cons c calls ih =>
    have hcalls := ih (c.ensures_perform.final hm)
    rwa [Nat.add_assoc, ← List.sum_cons, ← List.map_cons] at hcalls

/-- A subproblem is in order after any calls, whether they failed or not. All noise has values for the
same number of realizations, and further calls do not change it once it is fixed. Each state has a local
copy, and an initial value too, exactly if no call left states without one. So a realization
that there is finds its values; only an action can still reach for something that is not there. -/
theorem scenarios_stay_aligned (title : String) (sense : Sense) (calls : List (Call K)) :
    let m := (empty title sense).afterCalls calls
    m.IsAligned ∧
    (∀ more n, m.noiseSize = some n → (m.afterCalls more).noiseSize = some n) ∧
    (m.localCopies.length = m.states.length ∧ m.initialValues.length = m.stateCount) ∧
    (m.states.length = m.stateCount ↔ ∀ c ∈ calls, c.unread = 0) ∧
    ∀ k < m.sampleCount, ∀ w v, w.part = m → setRealization (k : ℤ) w = .error .outOfRange v →
      ∃ p ∈ m.parameterizations, ∃ point, p.support[k]? = some point ∧
        ∃ a ∈ p.actions, ∃ w v, Action.perform point a w = .error .outOfRange v := by
  intro m
  have hm : Registered none (0 + (calls.map Call.unread).sum) m :=
    (registered_empty title sense).afterCalls calls
  refine ⟨hm.aligned, fun more n hn => (hm.fixed.afterCalls more).size n hn,
    ⟨hm.copies, hm.initialValues⟩, ?_, fun k hk w v => hm.aligned.raises_setRealization hk⟩
  rw [hm.states, Nat.zero_add, Nat.add_eq_left, List.sum_eq_zero_iff, List.forall_mem_map]

/-- A variable between zero and ten that costs one. -/
def tank (name : String) : Variable ℤ := { name, lower := some 0, upper := some 10, cost := 1 }

/-- A reservoir, of which two calls fail: one of the constraint's two rows of scenarios is too short, after
the other one has fixed the number of realizations, and so are the scenarios of the spillage. -/
def reservoir : List (Call ℤ) :=
  [.addState (tank "level") (tank "before") (.whole 5) .absent,
    .addConstraint { name := "balance", terms := [(0, 1), (1, -1)], relation := .equal, rhs := 0 }
      (.table [(.rhs, .list [.whole 1, .whole 2, .whole 3]), (.var 0, .list [.whole 1, .whole 2])]),
    .addVariable (tank "spillage") (.list [.whole 4, .whole 5]),
    .addVariable (tank "release") (.list [.whole 6, .whole 7, .whole 8])]

/-- The two failures leave the reservoir in order, with the three realizations that the first one
fixed. -/
theorem scenarios_stay_aligned_reservoir :
    let m := (empty "reservoir" .minimize).afterCalls reservoir
    m.sampleCount = 3 ∧ m.costNoise.length = 1 ∧
      (∀ x ∈ m.costNoise, m.noiseSize = some x.size ∧ x.IsFull) ∧
      (∀ more, (m.afterCalls more).noiseSize = some 3) ∧ m.states.length = m.stateCount := by
  obtain ⟨haligned, hsize, -, hstates, -⟩ :=
    scenarios_stay_aligned "reservoir" .minimize reservoir
  exact ⟨rfl, rfl, haligned.costNoise, fun more => hsize more 3 rfl, hstates.2 (by decide)⟩

/-- Two states, of which the first has an initial value that is no number. -/
def misread : List (Call ℤ) :=
  [.addState (tank "level") (tank "before") (.text "full") .absent,
    .addState (tank "stock") (tank "stored") (.whole 5) .absent]

/-- States whose initial value is no number stay, uncounted, and what is read after them is taken for
theirs: the initial value five of the second state is now in the place of the first one. -/
theorem not_counted_misread : ¬ ∀ calls : List (Call ℤ),
    let m := (empty "stocks" .minimize).afterCalls calls
    m.states.length = m.stateCount ∧ m.localCopies.length = m.stateCount ∧
      m.initialValues.length = m.stateCount := by
  intro h
  have hcount : 2 = 1 := (h misread).1
  omega

end Subproblem

end DualDynamic
