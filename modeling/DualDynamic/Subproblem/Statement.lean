import DualDynamic.Subproblem.Setup

/-!
# Model statements

A subproblem written down as a list of statements that refer to variables and constraints by name.
Running a statement adds its part to a subproblem; names become known only if the whole
statement succeeds. The members of a group `x` are known as `x[0]`, `x[1]`, and so on, and the
local copy of a state variable by its name with an ending.
-/

namespace DualDynamic

/-- A variable as it is written down. -/
structure VariableSpec (K : Type) where
  lower : K
  upper : K
  cost : K
  /-- The letter of its kind: `C` is continuous, `B` binary. -/
  kind : String
  deriving Repr

/-- A constraint as it is written down. -/
structure RowSpec (K : Type) where
  terms : List (String × K)
  relation : Relation
  rhs : K
  deriving Repr

/-- A data item of a variable that can be overwritten. -/
inductive VariableItem where
  | lower
  | upper
  | cost
  | kind
  deriving Repr, DecidableEq

/-- The item with this name, in any case of letters. -/
def VariableItem.ofText? (text : String) : Option VariableItem :=
  match text.toLower with
  | "lb" => some lower
  | "ub" => some upper
  | "obj" => some cost
  | "vtype" => some kind
  | _ => none

/-- A statement. -/
inductive Statement (K : Type) where
  | var (name : String) (spec : VariableSpec K) (uncertainty : Datum K)
  | vars (name : String) (specs : List (VariableSpec K)) (uncertainty : Datum K)
  | state (name : String) (spec : VariableSpec K) (initial uncertainty : Datum K)
  | states (name : String) (specs : List (VariableSpec K)) (initial uncertainty : Datum K)
  /-- Without a table, `uncertainty` is what was given instead. -/
  | constr (name : String) (row : RowSpec K) (uncertainty : Datum K ⊕ List (String × Datum K))
  | constrs (name : String) (rows : List (RowSpec K)) (uncertainty : Datum K)
  | probability (p : Datum K)
  | objective (terms : List (String × K))
  | item (name attr : String) (value : Datum K)
  | parameterize (actions : Option (List (Action K))) (support probability : Datum K)
  | priceObjective (rules : List (String × Option (Formula K)))
  deriving Repr

namespace VariableSpec

variable {K : Type} [Scalar K]

/-- The variable that a specification describes. A binary variable lies between zero and one. -/
def toVariable (name : String) (s : VariableSpec K) : Variable K :=
  let binary := s.kind == "B"
  { name
    lower := LinearProgram.lowerBound (if binary then Scalar.max s.lower Scalar.zero else s.lower)
    upper := LinearProgram.upperBound (if binary then Scalar.min s.upper Scalar.one else s.upper)
    cost := s.cost
    integral := s.kind != "C" }

end VariableSpec

namespace Statement

variable {K : Type} [Numeral K]

open Subproblem (Build member nameVariable nameConstraint)

/-- The name of a local copy. -/
def copyName (name : String) : String := name ++ "_local_copy"

/-- Makes the members of a group of variables known. -/
def nameVariables (name : String) (is : List Nat) : Build K Unit :=
  Step.each is.zipIdx fun (i, n) => nameVariable (member name n) i

/-- Makes the members of a group of constraints known. -/
def nameConstraints (name : String) (rows : List Nat) : Build K Unit :=
  Step.each rows.zipIdx fun (row, n) => nameConstraint (member name n) row

/-- The terms of a constraint with its variables looked up. -/
def findTerms (terms : List (String × K)) : Build K (List (Nat × K)) := do
  let m ← get
  terms.mapM fun (name, a) => do return (← Step.ofExcept (m.variableNamed name), a)

/-- The constraint that a row describes. -/
def findRow (name : String) (row : RowSpec K) : Build K (Constraint K) := do
  let terms ← findTerms row.terms
  return { name, terms := LinearProgram.collect terms, relation := row.relation, rhs := row.rhs }

/-- What a name in the scenarios of a constraint stands for. -/
def rowKey (m : Subproblem K) (name : String) : Subproblem.RowKey :=
  if name == "rhs" then .rhs
  else match m.variableNames.lookup name with
    | some i => .var i
    | none => .other name

/-- An entry of a table overwritten, or added behind the others. -/
def putEntry (key : Subproblem.RowKey) (d : Datum K) :
    List (Subproblem.RowKey × Datum K) → List (Subproblem.RowKey × Datum K)
  | [] => [(key, d)]
  | (k, e) :: rest => if k == key then (k, d) :: rest else (k, e) :: putEntry key d rest

/-- The scenarios of a constraint with its variables looked up; of two entries with one key the
later value counts. -/
def rowNoise (m : Subproblem K) :
    Datum K ⊕ List (String × Datum K) → Subproblem.RowNoise K
  | .inl .absent => .none
  | .inl _ => .other
  | .inr entries =>
    .table (entries.foldl (fun table (name, d) => putEntry (rowKey m name) d table) [])

/-- The specifications of a group as variables with member names. -/
def group (name : String) (specs : List (VariableSpec K)) : List (Variable K) :=
  specs.zipIdx.map fun (s, n) => s.toVariable (member name n)

/-- The local copies of a group. -/
def groupCopies (name : String) (specs : List (VariableSpec K)) : List (Variable K) :=
  specs.zipIdx.map fun (_, n) => Subproblem.localCopy (member (copyName name) n)

/-- The kind of a variable set from a letter. -/
def setKind (i : Nat) (value : Datum K) : Build K Unit :=
  match value with
  | .text letter => modify fun m =>
    { m with program :=
      m.program.changeVariable i fun v => { v with integral := letter != "C" } }
  | _ => throw .badType

/-- Overwrites an item of a variable. -/
def setItem (i : Nat) (item : VariableItem) (value : Datum K) : Build K Unit :=
  let write := fun (check : K → Except (Fault K) K)
      (f : K → LinearProgram K → LinearProgram K) => do
      let .real x := value | throw .badType
      let x ← Step.ofExcept (check x)
      modify fun (m : Subproblem K) => { m with program := f x m.program }
  match item with
  | .lower => write Action.checkNumber fun x => .setLower i (LinearProgram.lowerBound x)
  | .upper => write Action.checkNumber fun x => .setUpper i (LinearProgram.upperBound x)
  | .cost => write Action.checkFinite fun x => .setCost i x
  | .kind => setKind i value

/-- A rule overwritten, or added behind the others. -/
def putRuleFor (rules : List (Nat × Option (Formula K))) (rule : Nat × Option (Formula K)) :
    List (Nat × Option (Formula K)) :=
  if rules.any (·.1 == rule.1) then rules.map fun r => if r.1 == rule.1 then rule else r
  else rules ++ [rule]

/-- The rules of a table with every variable once; of two rules the later one counts. -/
def mergeRules (rules : List (Nat × Option (Formula K))) : List (Nat × Option (Formula K)) :=
  rules.foldl putRuleFor []

/-- Runs a statement. -/
def run : Statement K → Build K Unit
  | var name spec uncertainty => do
    let i ← Subproblem.addVariable (spec.toVariable name) uncertainty
    nameVariable name i
  | vars name specs uncertainty => do
    let is ← Subproblem.addVariables (group name specs) uncertainty
    nameVariables name is
  | state name spec initial uncertainty => do
    let (i, copied) ← Subproblem.addState (spec.toVariable name)
      (Subproblem.localCopy (copyName name)) initial uncertainty
    nameVariable name i
    nameVariable (copyName name) copied
  | states name specs initial uncertainty => do
    let (is, copied) ← Subproblem.addStates (group name specs) (groupCopies name specs) initial
      uncertainty
    nameVariables name is
    nameVariables (copyName name) copied
  | constr name row uncertainty => do
    let c ← findRow name row
    let noise := rowNoise (← get) uncertainty
    let i ← Subproblem.addConstraint c noise
    nameConstraint name i
  | constrs name rows uncertainty => do
    let cs ← rows.zipIdx.mapM fun (row, n) => findRow (member name n) row
    let is ← Subproblem.addConstraints cs uncertainty
    nameConstraints name is
  | probability p => Subproblem.setProbability p
  | objective terms => do Subproblem.setObjective (← findTerms terms)
  | item name attr value => do
    let i ← Step.ofExcept ((← get).variableNamed name)
    match VariableItem.ofText? attr with
    | some which => setItem i which value
    | none => throw .refusedAttribute
  | parameterize actions support p => Subproblem.parameterize actions support p
  | priceObjective rules => do
    let m ← get
    let found ← rules.mapM fun (name, rule) => do
      return (← Step.ofExcept (m.variableNamed name), rule)
    Subproblem.setPriceObjective (mergeRules found)

end Statement

/-- The statements of a node's subproblem, by stage and Markov state. -/
abbrev Recipe (K : Type) : Type := Nat → Nat → List (Statement K)

/-- Runs the statements of a node, up to the first fault. -/
def Recipe.build {K : Type} [Numeral K] (r : Recipe K) (stage markov : Nat) :
    Subproblem.Build K Unit :=
  Step.each (r stage markov) Statement.run

namespace Subproblem

/-- A property of the program, by its name in any case of letters. -/
def programProperty? {K : Type} (m : Subproblem K) (name : String) :
    Option (Attribute K ⊕ String) :=
  let whole := fun (n : Nat) => some (.inl (.whole n))
  match name.toLower with
  | "numvars" => whole m.program.vars.size
  | "numconstrs" => whole m.program.constraints.size
  | "numintvars" => whole (m.program.vars.filter Variable.integral).size
  | "numnzs" => whole ((m.program.constraints.map fun c => c.terms.length).foldl (· + ·) 0)
  | "ismip" => whole (if m.isIntegral then 1 else 0)
  | "modelsense" => some (.inl (.whole m.program.sense.sign))
  | "status" => whole m.status
  | "modelname" => some (.inr m.title)
  | _ => none

/-- A property of a subproblem, or else of its program, that can be asked for by name. -/
def property? {K : Type} (m : Subproblem K) (name : String) : Option (Attribute K ⊕ String) :=
  match name with
  | "n_samples" => some (.inl (.whole m.sampleCount))
  | "n_states" => some (.inl (.whole m.stateCount))
  | "initial_values" => some (.inl (.reals m.initialValues))
  | "probability" => some (.inl (match m.probability with
    | none => .absent
    | some p => .reals p))
  | _ => m.programProperty? name

end Subproblem

end DualDynamic
