import DualDynamic.Proofs.LinearProgram.Footprint
import DualDynamic.Subproblem.Setup

/-!
# Setting a subproblem up writes cells

Every step that sets a subproblem up has a footprint that is known beforehand: it follows from the
noise, the rules and the links of the subproblem, which no setting changes. In a well-formed
subproblem the footprint lies within its constraints.
-/

namespace DualDynamic

open Step LinearProgram

variable {K : Type} [Numeral K]

namespace Subproblem

/-- All of a subproblem that settings and solving leave as it is. -/
def outline (m : Subproblem K) : Subproblem K :=
  { m with
    program := { sense := .minimize }
    reductions := true
    status := 1
    solution := none }

omit [Numeral K] in
/-- Subproblems with one outline differ in nothing else. -/
theorem exists_of_outline {m m' : Subproblem K} (h : m'.outline = m.outline) :
    ∃ p r t s, m' = { m with program := p, reductions := r, status := t, solution := s } := by
  refine ⟨m'.program, m'.reductions, m'.status, m'.solution, ?_⟩
  cases m
  cases m'
  simp only [outline, mk.injEq, true_and] at h ⊢
  exact h

instance : Programmed K (Subproblem K) where
  program := program
  Rest := Subproblem K
  rest := outline
  Outline := Subproblem K
  outline := outline
  outline_eq := id

theorem sets_changeProgram {m : Subproblem K} {f : LinearProgram K → LinearProgram K} {d : Cell}
    (hf : WritesCell f d) (hd : d.IsWithin m.program.constraints.size) :
    Sets m {d} (Action.changeProgram f) :=
  Sets.change hf (fun _ => ⟨rfl, rfl⟩) hd

/-! ## Well-formed subproblems -/

end Subproblem

/-- The positions that a noise is about. -/
def Noise.targets : Noise K → List ℕ
  | one i _ => [i]
  | group is _ => is

/-- There is a value for each member of a group in each realization. -/
def Noise.IsFull : Noise K → Prop
  | one _ _ => True
  | group is scenarios => ∀ xs ∈ scenarios, xs.length = is.length

namespace Subproblem

/-- The data of a subproblem is about its variables and about its first `n` constraints; behind
these are the linking constraints. -/
structure WellFormed (n : ℕ) (m : Subproblem K) : Prop where
  rows : n + m.links.length ≤ m.program.constraints.size
  links : m.links = (List.range m.links.length).map (n + ·)
  rhsNoise : ∀ x ∈ m.rhsNoise, x.IsFull ∧ ∀ c ∈ x.targets, c < n
  costNoise : ∀ x ∈ m.costNoise, x.IsFull ∧ ∀ i ∈ x.targets, i < m.program.vars.size
  coefficientNoise : ∀ e ∈ m.coefficientNoise, e.1 < n ∧ e.2.1 < m.program.vars.size
  constraintNames : ∀ e ∈ m.constraintNames, e.2 < n
  variableNames : ∀ e ∈ m.variableNames, e.2 < m.program.vars.size
  priceObjective : ∀ e ∈ m.priceObjective, e.1 < m.program.vars.size
  states : ∀ i ∈ m.states, i < m.program.vars.size
  distinct : m.states.Nodup
  stateCount : m.states.length = m.stateCount
  initialValues : m.initialValues.length = m.stateCount

omit [Numeral K] in
/-- The linking constraints are constraints of the program. -/
theorem WellFormed.lt_of_mem_links {n : ℕ} {m : Subproblem K} (h : WellFormed n m) {c : ℕ}
    (hc : c ∈ m.links) : c < m.program.constraints.size := by
  rw [h.links] at hc
  obtain ⟨j, hj, rfl⟩ := List.mem_map.1 hc
  exact (Nat.add_lt_add_left (List.mem_range.1 hj) n).trans_le h.rows

omit [Numeral K] in
/-- A subproblem with the data of a well-formed one and perhaps more variables and constraints. -/
theorem WellFormed.mono {n : ℕ} {m m' : Subproblem K} (h : WellFormed n m) (hm : m'.outline = m.outline)
    (hvars : m.program.vars.size ≤ m'.program.vars.size)
    (hrows : m.program.constraints.size ≤ m'.program.constraints.size) : WellFormed n m' := by
  obtain ⟨p, r, t, s, rfl⟩ := exists_of_outline hm
  have hv : ∀ {i}, i < m.program.vars.size → i < p.vars.size := fun hi => hi.trans_le hvars
  exact { h with
    rows := h.rows.trans hrows
    costNoise := fun x hx => ⟨(h.costNoise x hx).1, fun i hi => hv ((h.costNoise x hx).2 i hi)⟩
    coefficientNoise := fun e he => ⟨(h.coefficientNoise e he).1, hv (h.coefficientNoise e he).2⟩
    variableNames := fun e he => hv (h.variableNames e he)
    priceObjective := fun e he => hv (h.priceObjective e he)
    states := fun i hi => hv (h.states i hi) }

/-! ## Settings -/

/-- The cells that an action writes to. -/
def actionCells (m : Subproblem K) : Action K → Set Cell
  | .rhs c _ => {d | ∃ i, m.constraintNamed c = .ok i ∧ d = .rhs i}
  | .cost v _ => {d | ∃ i, m.variableNamed v = .ok i ∧ d = .cost i}
  | .lower v _ => {d | ∃ i, m.variableNamed v = .ok i ∧ d = .lower i}
  | .upper v _ => {d | ∃ i, m.variableNamed v = .ok i ∧ d = .upper i}
  | .coefficient c v _ => {d | ∃ j i, m.constraintNamed c = .ok j ∧
      m.variableNamed v = .ok i ∧ d = .coefficient j i}
  | .interruptAt _ => ∅

/-- The cells that a realization is written to. -/
def noiseCells (m : Subproblem K) : Set Cell :=
  {d | ∃ e ∈ m.coefficientNoise, d ∈ ({.coefficient e.1 e.2.1} : Set Cell)} ∪
    ({d | ∃ x ∈ m.rhsNoise, d ∈ {d | ∃ i ∈ x.targets, d = .rhs i}} ∪
      ({d | ∃ x ∈ m.costNoise, d ∈ {d | ∃ i ∈ x.targets, d = .cost i}} ∪
        {d | ∃ q ∈ m.parameterizations, d ∈ {d | ∃ a ∈ q.actions, d ∈ m.actionCells a}}))

/-- The cells that a price is written to. -/
def priceCells (m : Subproblem K) : Set Cell :=
  {d | ∃ e ∈ m.priceObjective, d ∈ ({.cost e.1} : Set Cell)}

/-- The cells that an incoming state is written to. -/
def incomingCells (m : Subproblem K) : Set Cell := {d | ∃ i ∈ m.links, d = .rhs i}

section Settings

variable {A : Type} {m : Subproblem K} {n : ℕ} {write : ℕ → K → LinearProgram K → LinearProgram K} {cell : ℕ → Cell}

/-- Writing to targets, as a change of something that holds a program. -/
theorem sets_change_writeAll {S : Type} [Programmed K S] {s : S}
    {g : (LinearProgram K → LinearProgram K) → S → S} (hchanges : ∀ f t, Changes f t (g f t))
    (hg : ∀ f f' t, g (fun p => f' (f p)) t = g f' (g f t))
    (hwrite : ∀ i x, WritesCell (write i x) (cell i)) {targets : List ℕ} {values : List K}
    (hlength : values.length = targets.length)
    (hwithin : ∀ i ∈ targets, (cell i).IsWithin (Programmed.program s).constraints.size) :
    Sets s {d | ∃ i ∈ targets, d = cell i} (Run.change (g (writeAll write targets values))) := by
  induction targets generalizing values with
  | nil =>
    have hnone : writeAll write [] values = id := rfl
    rw [hnone]
    exact (Sets.change_rest (hchanges id)).congr (by simp)
  | cons i targets ih =>
    obtain ⟨x, values, rfl⟩ := List.exists_cons_of_ne_nil (l := values)
      (List.ne_nil_of_length_eq_add_one hlength)
    have hsplit : (Run.change (g (writeAll write (i :: targets) (x :: values))) : Run K S Unit) =
        (Run.change (g (write i x)) >>= fun _ =>
          Run.change (g (writeAll write targets values))) := by
      have hfold : writeAll write (i :: targets) (x :: values) =
          fun p => writeAll write targets values (write i x p) := rfl
      rw [hfold, funext (hg (write i x) (writeAll write targets values))]
      rfl
    rw [hsplit]
    refine ((Sets.change (hwrite i x) (hchanges _) (hwithin i (by simp))).bind fun _ =>
      ih (by simpa using hlength) fun j hj => hwithin j (by simp [hj])).congr ?_
    ext d
    simp

theorem sets_writeAll (hwrite : ∀ i x, WritesCell (write i x) (cell i)) {targets : List ℕ}
    {values : List K} (hlength : values.length = targets.length)
    (hwithin : ∀ i ∈ targets, (cell i).IsWithin m.program.constraints.size) :
    Sets m {d | ∃ i ∈ targets, d = cell i}
      (Action.changeProgram (writeAll write targets values)) :=
  sets_change_writeAll (g := fun f (m : Subproblem K) => { m with program := f m.program })
    (fun _ _ => ⟨rfl, rfl⟩) (fun _ _ _ => rfl) hwrite hlength hwithin

theorem sets_writeNoise (hwrite : ∀ i x, WritesCell (write i x) (cell i)) (k : ℤ) {x : Noise K}
    (hfull : x.IsFull) (hwithin : ∀ i ∈ x.targets, (cell i).IsWithin m.program.constraints.size) :
    Sets m {d | ∃ i ∈ x.targets, d = cell i} (writeNoise write k x) := by
  cases x with
  | one i scenarios =>
    refine Sets.ofExcept_bind fun a _ => Sets.ofExcept_bind fun b _ => ?_
    exact (sets_changeProgram (hwrite i b) (hwithin i (by simp [Noise.targets]))).congr
      (by ext d; simp [Noise.targets])
  | group is scenarios =>
    exact Sets.ofExcept_bind fun xs hxs =>
      sets_writeAll hwrite (hfull xs (mem_of_itemAt hxs)) hwithin

omit [Numeral K] in
theorem constraintNamed_eq_ok {c : String} {i : ℕ} :
    m.constraintNamed c = .ok i ↔ m.constraintNames.lookup c = some i := by
  unfold constraintNamed
  cases m.constraintNames.lookup c <;> simp

omit [Numeral K] in
theorem variableNamed_eq_ok {v : String} {i : ℕ} :
    m.variableNamed v = .ok i ↔ m.variableNames.lookup v = some i := by
  unfold variableNamed
  cases m.variableNames.lookup v <;> simp

omit [Numeral K] in
theorem lookup_mem {key : String} {i : ℕ} {names : List (String × ℕ)}
    (h : names.lookup key = some i) : ∃ e ∈ names, e.2 = i := by
  obtain ⟨front, back, rfl, -⟩ := List.lookup_eq_some_iff.1 h
  exact ⟨(key, i), by simp, rfl⟩

theorem valueFor_eq_ok {w : Datum K} {check : K → Except (Fault K) K}
    {target : Except (Fault K) ℕ} {rule : Formula K} {i : ℕ} {x : K}
    (h : Action.valueFor w check target rule = .ok (i, x)) : target = .ok i := by
  cases target with
  | error e => cases h
  | ok j =>
    simp only [Action.valueFor, bind, Except.bind] at h
    split at h
    · cases h
    · split at h <;> cases h
      rfl

/-- An action that may interrupt the run counts and leaves the subproblem alone. -/
theorem perform_interruptAt (w : Datum K) (k : ℤ) (v : Watched (Subproblem K)) :
    ∃ u : Monitor, Action.perform w (.interruptAt k) v = .ok () ⟨u, v.part⟩ ∨
      Action.perform w (.interruptAt k) v = .error .interrupted ⟨u, v.part⟩ := by
  have hrun : Action.perform w (.interruptAt k) v =
      (if ((v.monitor.ticks + 1 : ℕ) : ℤ) == k then throw .interrupted else pure () :
        Run K (Subproblem K) Unit) ⟨{ v.monitor with ticks := v.monitor.ticks + 1 }, v.part⟩ := rfl
  refine ⟨{ v.monitor with ticks := v.monitor.ticks + 1 }, ?_⟩
  rw [hrun]
  split_ifs
  · exact Or.inr rfl
  · exact Or.inl rfl

theorem sets_interruptAt (w : Datum K) (k : ℤ) : Sets m ∅ (Action.perform w (.interruptAt k)) where
  keeps I _ _ := by
    intro v hv
    obtain ⟨u, h | h⟩ := perform_interruptAt w k v <;> rw [h] <;> exact hv
  simulates R _ W := by
    intro v v' hv a t ht a' t' ht'
    have hpart : ∀ {v t : Watched (Subproblem K)} {a : Unit},
        Action.perform w (.interruptAt k) v = .ok a t → t.part = v.part := by
      intro v t a h
      obtain ⟨u, h' | h'⟩ := perform_interruptAt w k v <;> rw [h'] at h <;> cases h
      rfl
    rw [hpart ht, hpart ht', Set.union_empty]
    exact ⟨rfl, hv⟩
  decides v v' _ _ hmonitor := by
    obtain ⟨k₀, m₀⟩ := v
    obtain ⟨k₁, m₁⟩ := v'
    obtain rfl : k₁ = k₀ := hmonitor
    have hrun : ∀ m : Subproblem K, Action.perform w (.interruptAt k) ⟨k₁, m⟩ =
        (if ((k₁.ticks + 1 : ℕ) : ℤ) == k then throw .interrupted else pure () :
          Run K (Subproblem K) Unit) ⟨{ k₁ with ticks := k₁.ticks + 1 }, m⟩ := fun _ => rfl
    simp only [Run.outcome, attempt, hrun]
    split_ifs <;> rfl

/-- An action that looks its target up and writes a number there. -/
theorem sets_write_named {target : Subproblem K → Except (Fault K) ℕ}
    (htarget : ∀ m', m'.outline = m.outline → target m' = target m) {w : Datum K}
    {check : K → Except (Fault K) K} {rule : Formula K}
    {write : ℕ → K → LinearProgram K → LinearProgram K}
    (hwrite : ∀ i x, WritesCell (write i x) (cell i))
    (hwithin : ∀ i, target m = .ok i → (cell i).IsWithin m.program.constraints.size) :
    Sets m {d | ∃ i, target m = .ok i ∧ d = cell i}
      (Run.part >>= fun m => Step.ofExcept (Action.valueFor w check (target m) rule) >>= fun q =>
        Action.changeProgram (write q.1 q.2)) := by
  refine Sets.part_bind (fun m' hm' => by rw [htarget m' hm']) (Sets.ofExcept_bind fun q hq => ?_)
  have hi := valueFor_eq_ok (x := q.2) (i := q.1) hq
  refine (sets_changeProgram (hwrite q.1 q.2) (hwithin q.1 hi)).congr ?_
  ext d
  simp [hi]

omit [Numeral K] in
theorem constraintNamed_congr (c : String) {m' : Subproblem K} (h : m'.outline = m.outline) :
    m'.constraintNamed c = m.constraintNamed c := by
  obtain ⟨p, r, t, s, rfl⟩ := exists_of_outline h
  rfl

omit [Numeral K] in
theorem variableNamed_congr (v : String) {m' : Subproblem K} (h : m'.outline = m.outline) :
    m'.variableNamed v = m.variableNamed v := by
  obtain ⟨p, r, t, s, rfl⟩ := exists_of_outline h
  rfl

theorem sets_perform (h : WellFormed n m) (w : Datum K) (a : Action K) :
    Sets m (m.actionCells a) (Action.perform w a) := by
  have hrows : ∀ {c i}, m.constraintNamed c = .ok i → i < m.program.constraints.size := by
    intro c i hi
    obtain ⟨e, he, rfl⟩ := lookup_mem (constraintNamed_eq_ok.1 hi)
    exact (h.constraintNames e he).trans_le (le_of_add_le_left h.rows)
  cases a with
  | rhs c rule =>
    exact sets_write_named (fun _ => constraintNamed_congr c) writesCell_setRhs
      fun i hi => by simpa using hrows hi
  | cost v rule =>
    exact sets_write_named (fun _ => variableNamed_congr v) writesCell_setCost fun i _ => by simp
  | lower v rule =>
    exact sets_write_named (fun _ => variableNamed_congr v)
      (fun i (x : K) => writesCell_setLower i (LinearProgram.lowerBound x)) fun i _ => by simp
  | upper v rule =>
    exact sets_write_named (fun _ => variableNamed_congr v)
      (fun i (x : K) => writesCell_setUpper i (LinearProgram.upperBound x)) fun i _ => by simp
  | coefficient c v rule =>
    refine Sets.part_bind (fun m' hm' => ?_)
      (Sets.ofExcept_bind fun j hj => Sets.ofExcept_bind fun q hq => ?_)
    · rw [constraintNamed_congr c hm', variableNamed_congr v hm']
    · have hi := valueFor_eq_ok (x := q.2) (i := q.1) hq
      refine (sets_changeProgram (writesCell_setCoefficient j q.1 q.2)
        (by simpa using hrows hj)).congr ?_
      ext d
      simp [actionCells, hi, hj]
  | interruptAt k => exact sets_interruptAt w k

theorem sets_setRealization (h : WellFormed n m) (k : ℤ) :
    Sets m m.noiseCells (setRealization k) := by
  have hrows : ∀ {c}, c < n → c < m.program.constraints.size :=
    fun hc => hc.trans_le (le_of_add_le_left h.rows)
  refine Sets.part_bind (fun m' hm' => ?_) ?_
  · obtain ⟨p, r, t, s, rfl⟩ := exists_of_outline hm'
    rfl
  · refine (Sets.each fun e he => ?_).bind fun _ => (Sets.each fun x hx => ?_).bind fun _ =>
      (Sets.each fun x hx => ?_).bind fun _ => Sets.each fun q _ => ?_
    · exact Sets.ofExcept_bind fun x _ => sets_changeProgram
        (writesCell_setCoefficient e.1 e.2.1 x) (by simpa using hrows (h.coefficientNoise e he).1)
    · exact sets_writeNoise writesCell_setRhs k (h.rhsNoise x hx).1
        fun i hi => by simpa using hrows ((h.rhsNoise x hx).2 i hi)
    · exact sets_writeNoise writesCell_setCost k (h.costNoise x hx).1 fun i _ => by simp
    · exact Sets.ofExcept_bind fun w _ => Sets.each fun a _ => sets_perform h w a

theorem sets_setPrice (price : Option K) : Sets m m.priceCells (setPrice price) := by
  refine Sets.part_bind (fun m' hm' => ?_) (Sets.each fun e _ => ?_)
  · obtain ⟨p, r, t, s, rfl⟩ := exists_of_outline hm'
    rfl
  · exact Sets.ofExcept_bind fun x _ => Sets.ofExcept_bind fun y _ =>
      sets_changeProgram (writesCell_setCost e.1 y) (by simp)

theorem sets_setIncoming (h : WellFormed n m) (state : List K) :
    Sets m m.incomingCells (setIncoming state) := by
  refine Sets.part_bind (fun m' hm' => ?_) ?_
  · obtain ⟨p, r, t, s, rfl⟩ := exists_of_outline hm'
    rfl
  · split_ifs with hempty hlength
    · have hnone : m.links = [] := List.isEmpty_iff.1 hempty
      exact (Sets.pure ()).congr (by simp [incomingCells, hnone])
    · exact Sets.throw _
    · refine sets_writeAll writesCell_setRhs (by simpa using hlength) fun i hi => ?_
      exact Cell.isWithin_rhs.2 (h.lt_of_mem_links hi)

end Settings

end Subproblem

end DualDynamic
