import DualDynamic.Proofs.Subproblem.Setup
import DualDynamic.Subproblem.Solve

/-!
# Solving leaves the program alone

A solve changes what is known of a subproblem and nothing of its program, as long as the retry does
not: either its actions only count, or the engine never gives reason to ask it. The answer of a
solve is an optimal solution of the program as it is set up.
-/

namespace DualDynamic

open Step

variable {K : Type}

/-- The actions of a retry do nothing but count and interrupt. -/
def Retry.IsPassive (r : Retry K) : Prop := ∀ a ∈ r.actions, ∃ k, a = .interruptAt k

/-- The engine always comes to an answer: a solution, or that there is none. -/
def Engine.IsDecided (engine : Engine K) : Prop :=
  ∀ call reductions p, (∃ s, engine.solve call reductions p = .optimal s) ∨
    engine.solve call reductions p = .infeasible

/-- A retry is never asked to change a subproblem. -/
def Engine.Spares (engine : Engine K) (retry : Option (Retry K)) : Prop :=
  (∀ r ∈ retry, r.IsPassive) ∨ engine.IsDecided

/-- The engine has answered with an outcome for a program. -/
def Engine.Answers (engine : Engine K) (p : LinearProgram K) (o : Outcome K) : Prop :=
  ∃ call reductions, engine.solve call reductions p = o

namespace Subproblem

variable [Numeral K] {engine : Engine K} {m : Subproblem K}

omit [Numeral K] in
theorem retry_of_outline {m m' : Subproblem K} (h : m'.outline = m.outline) : m'.retry = m.retry := by
  obtain ⟨p, r, t, s, rfl⟩ := exists_of_outline h
  rfl

/-- A subproblem with the program and the outline of `m`. -/
def IsLike (m m' : Subproblem K) : Prop := m'.outline = m.outline ∧ m'.program = m.program

theorem IsLike.touches {m' : Subproblem K} (h : IsLike m m') (C : Set Cell) : Touches C m m' :=
  ⟨h.1, Or.inl h.2⟩

/-- What is known after an optimization. -/
structure Knows (engine : Engine K) (m : Subproblem K) (o : Outcome K) (m' : Subproblem K) :
    Prop where
  like : IsLike m m'
  answers : engine.Answers m.program o
  solution : m'.solution = o.solution?

omit [Numeral K] in
theorem ensures_optimize : Ensures (fun w => IsLike m w.part) (optimize engine)
    (fun o w => Knows engine m o w.part) fun _ => False := by
  intro w hw
  exact ⟨hw, ⟨_, _, by rw [← hw.2]⟩, rfl⟩

omit [Numeral K] in
theorem ensures_optimizeDecided : Ensures (fun w => IsLike m w.part) (optimizeDecided engine)
    (fun o w => Knows engine m o w.part) fun _ => False := by
  refine ensures_optimize.bind fun o => ?_
  cases o with
  | infeasibleOrUnbounded =>
    have hoff : Ensures (fun w : Watched (Subproblem K) =>
        Knows engine m .infeasibleOrUnbounded w.part) (setReductions false : Run K _ Unit)
        (fun _ w => IsLike m w.part) fun _ => False := fun w hw => hw.like
    refine hoff.bind fun _ => ensures_optimize.bind fun o => ?_
    have hon : Ensures (fun w : Watched (Subproblem K) => Knows engine m o w.part)
        (setReductions true : Run K _ Unit) (fun _ w => Knows engine m o w.part)
        fun _ => False := fun w hw => ⟨hw.like, hw.answers, hw.solution⟩
    exact hon.bind fun _ => ensures_pure fun _ => id
  | _ => exact ensures_pure fun _ => id

theorem keeps_isLike_askRetry {retry : Option (Retry K)} (hretry : m.retry = retry)
    (hpassive : ∀ r ∈ retry, r.IsPassive) (status : ℕ) :
    Keeps (fun w => IsLike m w.part) (askRetry status) := by
  refine Run.keeps_part_bind fun w hw => ?_
  have hm : w.part.retry = retry := (retry_of_outline hw.1).trans hretry
  cases hr : w.part.retry with
  | none => exact keeps_pure false
  | some r =>
    refine Keeps.bind (fun _ h => h) fun _ => Keeps.bind (Keeps.each fun a ha => ?_) fun _ =>
      keeps_pure r.answer
    obtain ⟨k, rfl⟩ := hpassive r (by rw [← hm, hr]; rfl) a ha
    intro v hv
    obtain ⟨u, h | h⟩ := perform_interruptAt (.real Scalar.zero) k v <;> rw [h] <;> exact hv

/-- The answer of a solve is an optimal solution of the program as it is; the program stays. -/
structure Solved (engine : Engine K) (m : Subproblem K) (value : K) (m' : Subproblem K) :
    Prop where
  like : IsLike m m'
  solution : ∃ s, engine.Answers m.program (.optimal s) ∧ s.value = value ∧ m'.solution = some s

omit [Numeral K] in
theorem Knows.solved {s : Solution K} {m' : Subproblem K}
    (h : Knows engine m (.optimal s) m') : Solved engine m s.value m' :=
  ⟨h.like, s, h.answers, rfl, h.solution⟩

theorem ensures_again (hpassive : ∀ r ∈ m.retry, r.IsPassive) (title : String) (o : Outcome K) :
    Ensures (fun w => IsLike m w.part)
      (askRetry o.status >>= fun yes => if yes = true then
        optimize engine >>= fun again => match again with
          | .optimal s => pure s.value
          | again => throw (.solver title again.status)
        else throw (.solver title o.status))
      (fun v w => Solved engine m v w.part) fun w => IsLike m w.part := by
  refine Ensures.bind (keeps_isLike_askRetry rfl hpassive o.status) fun yes => ?_
  split_ifs
  · refine (ensures_optimize.weaken (fun _ => id) (fun _ _ => id) fun _ => False.elim).bind
      fun again => ?_
    cases again with
    | optimal s => exact ensures_pure fun v hv => hv.solved
    | _ => exact ensures_throw fun v hv => hv.like
  · exact ensures_throw fun _ => id

theorem ensures_solve (hspares : engine.Spares m.retry) (stage markov : Option ℤ) :
    Ensures (fun w => IsLike m w.part) (solve engine stage markov)
      (fun v w => Solved engine m v w.part) fun w => IsLike m w.part := by
  refine Run.ensures_part_bind fun w hw => ?_
  refine ((ensures_optimizeDecided (m := m)).weaken (fun v (hv : v = w) => hv ▸ hw)
    (fun _ _ => id) fun _ => False.elim).bind fun o => ?_
  rcases hspares with hpassive | hdecided
  · cases o with
    | optimal s => exact ensures_pure fun v hv => hv.solved
    | infeasible => exact ensures_throw fun v hv => hv.like
    | _ => exact (ensures_again hpassive _ _).weaken (fun v hv => hv.like) (fun _ _ => id) fun _ => id
  · intro v hv
    obtain ⟨call, reductions, ho⟩ := hv.answers
    rcases hdecided call reductions m.program with ⟨s, hs⟩ | hs
    · obtain rfl := ho.symm.trans hs
      exact hv.solved
    · obtain rfl := ho.symm.trans hs
      exact hv.like

theorem keeps_solve (hspares : engine.Spares m.retry) (stage markov : Option ℤ)
    {I : Subproblem K → Prop} (hI : IsBlind ∅ I) (hm : ∀ m', I m' → m'.outline = m.outline) :
    Keeps (fun w => I w.part) (solve engine stage markov) := by
  intro w hw
  have hretry : w.part.retry = m.retry := retry_of_outline (hm _ hw)
  have h := ensures_solve (m := w.part) (hretry ▸ hspares) stage markov w ⟨rfl, rfl⟩
  cases hx : solve engine stage markov w with
  | ok v w' =>
    rw [hx] at h
    exact hI _ _ (h.like.touches ∅) hw
  | error e w' =>
    rw [hx] at h
    exact hI _ _ (h.touches ∅) hw

theorem solved_of_eq_ok {w w' : Watched (Subproblem K)} {stage markov : Option ℤ} {v : K}
    (hspares : engine.Spares w.part.retry) (h : solve engine stage markov w = .ok v w') :
    Solved engine w.part v w'.part :=
  (ensures_solve hspares stage markov).of_ok (s := w) ⟨rfl, rfl⟩ h

end Subproblem

/-! ## What never changes

Whatever a retry does, a subproblem that is set up and solved keeps its outline. This holds in any
arithmetic. -/

namespace Subproblem

/-- What is blind to the program and to the count of actions, an action keeps. -/
theorem keeps_perform_of_change [Scalar K] {I : Watched (Subproblem K) → Prop}
    (hprogram : ∀ w p, I w → I { w with part := { w.part with program := p } })
    (hticks : ∀ w n, I w → I { w with monitor := { w.monitor with ticks := n } }) (x : Datum K)
    (a : Action K) : Keeps I (Action.perform x a) := by
  have hchange : ∀ f, Keeps I (Action.changeProgram f) := fun f w hw => hprogram w _ hw
  cases a with
  | coefficient c v rule =>
    exact Run.keeps_part_bind fun _ _ => (keeps_ofExcept _).bind fun _ =>
      (keeps_ofExcept _).bind fun _ => hchange _
  | interruptAt count =>
    refine Keeps.bind (fun w hw => hticks w _ hw) fun _ => keeps_get.bind fun _ => ?_
    exact Keeps.ite (keeps_throw _) (keeps_pure _)
  | _ => exact Run.keeps_part_bind fun _ _ => (keeps_ofExcept _).bind fun _ => hchange _

variable [Numeral K] {engine : Engine K} {o : Subproblem K}

omit [Numeral K] in
theorem keeps_outline_changeProgram (f : LinearProgram K → LinearProgram K) :
    Keeps (fun w => w.part.outline = o) (Action.changeProgram f) := Run.keeps_change fun _ hw => hw

theorem keeps_outline_perform (x : Datum K) (a : Action K) :
    Keeps (fun w => w.part.outline = o) (Action.perform x a) :=
  keeps_perform_of_change (fun _ _ hw => hw) (fun _ _ hw => hw) x a

theorem keeps_outline_writeNoise (write : ℕ → K → LinearProgram K → LinearProgram K) (k : ℤ)
    (x : Noise K) : Keeps (fun w => w.part.outline = o) (writeNoise write k x) := by
  cases x with
  | one i scenarios =>
    exact (keeps_ofExcept _).bind fun _ => (keeps_ofExcept _).bind fun _ =>
      keeps_outline_changeProgram _
  | group is scenarios => exact (keeps_ofExcept _).bind fun _ => keeps_outline_changeProgram _

theorem keeps_outline_setRealization (k : ℤ) :
    Keeps (fun w => w.part.outline = o) (setRealization k) := by
  refine Run.keeps_part_bind fun _ _ => (Keeps.each fun e _ => ?_).bind fun _ =>
    (Keeps.each fun x _ => keeps_outline_writeNoise _ k x).bind fun _ =>
      (Keeps.each fun x _ => keeps_outline_writeNoise _ k x).bind fun _ => Keeps.each fun q _ => ?_
  · exact (keeps_ofExcept _).bind fun _ => keeps_outline_changeProgram _
  · exact (keeps_ofExcept _).bind fun x => Keeps.each fun a _ => keeps_outline_perform x a

theorem keeps_outline_setPrice (price : Option K) :
    Keeps (fun w => w.part.outline = o) (setPrice price) :=
  Run.keeps_part_bind fun _ _ => Keeps.each fun _ _ => (keeps_ofExcept _).bind fun _ =>
    (keeps_ofExcept _).bind fun _ => keeps_outline_changeProgram _

omit [Numeral K] in
theorem keeps_outline_setIncoming (state : List K) :
    Keeps (fun w => w.part.outline = o) (setIncoming state) :=
  Run.keeps_part_bind fun _ _ => Keeps.ite (keeps_pure _) <|
    Keeps.ite (keeps_throw _) (keeps_outline_changeProgram _)

/-- What the actions of a retry keep, the question to it keeps. -/
theorem keeps_askRetry_of_perform {I : Subproblem K → Prop} (hretry : ∀ m, I m → ∀ r ∈ m.retry,
      ∀ a ∈ r.actions, Keeps (fun w => I w.part) (Action.perform (.real Scalar.zero) a))
    (status : ℕ) : Keeps (fun w => I w.part) (askRetry status) := by
  refine Run.keeps_part_bind fun w hw => ?_
  cases hr : w.part.retry with
  | none => exact keeps_pure _
  | some retry =>
    exact Keeps.bind (fun _ hv => hv) fun _ =>
      (Keeps.each fun a ha => hretry w.part hw retry (by simp [hr]) a ha).bind fun _ => keeps_pure _

/-- A property of outline and program that the actions of a retry keep, a solve keeps. -/
theorem keeps_solve_of_perform {I : Subproblem K → Prop}
    (hI : ∀ m m' : Subproblem K, m'.outline = m.outline → m'.program = m.program → I m → I m')
    (hretry : ∀ m, I m → ∀ r ∈ m.retry, ∀ a ∈ r.actions,
      Keeps (fun w => I w.part) (Action.perform (.real Scalar.zero) a))
    (stage markov : Option ℤ) : Keeps (fun w => I w.part) (solve engine stage markov) := by
  have hoptimize : Keeps (fun w => I w.part) (optimize engine) := fun w => hI w.part _ rfl rfl
  have hset : ∀ on, Keeps (fun w => I w.part) (setReductions on : Run K _ Unit) :=
    fun on => Run.keeps_change fun w => hI w.part _ rfl rfl
  have hdecided : Keeps (fun w => I w.part) (optimizeDecided engine) := by
    refine hoptimize.bind fun outcome => ?_
    cases outcome with
    | infeasibleOrUnbounded =>
      exact (hset false).bind fun _ => hoptimize.bind fun _ => (hset true).bind fun _ => keeps_pure _
    | _ => exact keeps_pure _
  refine Run.keeps_part_bind fun _ _ => hdecided.bind fun outcome => ?_
  have hagain := keeps_askRetry_of_perform hretry outcome.status
  cases outcome with
  | optimal s => exact keeps_pure _
  | infeasible => exact keeps_throw _
  | _ =>
    refine hagain.bind fun _ => Keeps.ite (hoptimize.bind fun again => ?_) (keeps_throw _)
    cases again with
    | optimal s => exact keeps_pure _
    | _ => exact keeps_throw _

theorem keeps_outline_solve (stage markov : Option ℤ) :
    Keeps (fun w => w.part.outline = o) (solve engine stage markov) :=
  keeps_solve_of_perform (I := fun m => m.outline = o) (fun _ _ hm _ h => hm.trans h)
    (fun _ _ _ _ a _ => keeps_outline_perform _ a) stage markov

/-- The cells that the actions of a retry write to. -/
def retryCells (m : Subproblem K) : Set Cell :=
  {d | ∃ r ∈ m.retry, ∃ a ∈ r.actions, d ∈ m.actionCells a}

omit [Numeral K] in
theorem retryCells_of_outline {m m' : Subproblem K} (h : m'.outline = m.outline) :
    m'.retryCells = m.retryCells := by
  obtain ⟨p, r, t, s, rfl⟩ := exists_of_outline h
  rfl

section IsBlind

variable {m : Subproblem K} {n : ℕ} (hwell : WellFormed n m) {I : Subproblem K → Prop}
  (hI : IsBlind m.retryCells I) (hm : ∀ m', I m' → m'.outline = m.outline)
include hwell hI hm

/-- What is blind to the cells that the actions of a retry write to, each of them keeps. -/
theorem keeps_perform_of_isBlind (m' : Subproblem K) (hm' : I m') (r : Retry K) (hr : r ∈ m'.retry)
    (a : Action K) (ha : a ∈ r.actions) :
    Keeps (fun w => I w.part) (Action.perform (.real Scalar.zero) a) := by
  have hretry : m'.retry = m.retry := retry_of_outline (hm _ hm')
  exact (sets_perform hwell _ a).keeps I (hI.mono fun d hd => ⟨r, hretry ▸ hr, a, ha, hd⟩) hm

theorem keeps_askRetry_of_isBlind (status : ℕ) : Keeps (fun w => I w.part) (askRetry status) :=
  keeps_askRetry_of_perform (keeps_perform_of_isBlind hwell hI hm) status

/-- Whatever the retry does, a solve keeps what is blind to the cells that it writes to. -/
theorem keeps_solve_of_isBlind (stage markov : Option ℤ) :
    Keeps (fun w => I w.part) (solve engine stage markov) :=
  keeps_solve_of_perform (fun _ _ houtline hprogram => hI _ _ ⟨houtline, Or.inl hprogram⟩)
    (keeps_perform_of_isBlind hwell hI hm) stage markov

end IsBlind

omit [Numeral K] in
theorem states_of_outline {m m' : Subproblem K} (h : m'.outline = m.outline) :
    m'.states = m.states := by
  obtain ⟨p, r, t, s, rfl⟩ := exists_of_outline h
  rfl

omit [Numeral K] in
theorem stateCount_of_outline {m m' : Subproblem K} (h : m'.outline = m.outline) :
    m'.stateCount = m.stateCount := by
  obtain ⟨p, r, t, s, rfl⟩ := exists_of_outline h
  rfl

end Subproblem

end DualDynamic
