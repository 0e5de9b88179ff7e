import DualDynamic.Proofs.Subproblem.Solve

/-!
# What a solve reports

A solve hands the program of a subproblem to the engine up to three times: as it is, without
reductions if infeasible and unbounded were not told apart, and once more if the retry asks for it.
What it reports should be told by the last outcome alone: the value of a solution, a fault of its own
for an infeasible program, and a fault that carries the status for everything else.

A `Course` keeps the attempts and the question to the retry in their order, whatever the engine and
the retry do. The report is that of the last outcome, but for one case: an infeasible program behind
a retry is reported as any other failure of the solver.
-/

namespace DualDynamic

open Step

variable {K : Type}

namespace Outcome

/-- Neither a solution nor the certainty that there is none. -/
def IsUnclear : Outcome K → Prop
  | optimal _ => False
  | infeasible => False
  | _ => True

/-- The status codes of solutions and of infeasible programs are not used for anything else. -/
def IsCoded : Outcome K → Prop
  | other n => n ≠ 2 ∧ n ≠ 3
  | _ => True

/-- What an outcome says about a subproblem. -/
def report (title : String) (stage markov : Option ℤ) : Outcome K → Except (Fault K) K
  | optimal s => .ok s.value
  | infeasible => .error (.infeasible title stage markov)
  | o => .error (.solver title o.status)

/-- The same, without a fault of its own for infeasible programs. -/
def blame (title : String) : Outcome K → Except (Fault K) K
  | optimal s => .ok s.value
  | o => .error (.solver title o.status)

theorem report_of_isUnclear {o : Outcome K} (ho : o.IsUnclear) (title : String)
    (stage markov : Option ℤ) : o.report title stage markov = .error (.solver title o.status) := by
  cases o <;> first | rfl | exact ho.elim

theorem blame_eq_report_iff {o : Outcome K} {title : String} {stage markov : Option ℤ} :
    o.blame title = o.report title stage markov ↔ o ≠ .infeasible := by
  cases o <;> simp [blame, report]

/-- The status of a fault is that of the outcome, and tells the outcome of a solve without a
solution from infeasibility. -/
theorem status_of_blame {o : Outcome K} {title title' : String} {n : ℕ}
    (h : o.blame title = .error (.solver title' n)) :
    n = o.status ∧ (o.IsCoded → n ≠ 2 ∧ (n = 3 ↔ o = .infeasible)) := by
  cases o <;> simp_all [blame, status, IsCoded] <;> omega

end Outcome

namespace Subproblem

/-! ## Attempts -/

/-- A program that was handed to the engine, and what came of it. -/
structure Attempt (K : Type) where
  reductions : Bool
  program : LinearProgram K
  outcome : Outcome K

/-- What happens in a solve: the attempts until the retry is asked, the statuses that it is asked
about, and the attempts after that. -/
structure Course (K : Type) where
  before : List (Attempt K)
  asked : List ℕ := []
  after : List (Attempt K) := []

namespace Course

/-- All attempts, in their order. -/
def attempts (c : Course K) : List (Attempt K) := c.before ++ c.after

/-- The course of a solve that has come from `w` to `w'`. -/
structure Leads (engine : Engine K) (w : Watched (Subproblem K)) (c : Course K)
    (w' : Watched (Subproblem K)) : Prop where
  first : ∃ a, c.before.head? = some a ∧ a.reductions = w.part.reductions
  before : ∀ a ∈ c.before, a.program = w.part.program
  after : ∀ a ∈ c.after, a.program = w'.part.program
  answered : ∀ i a, c.attempts[i]? = some a →
    engine.solve (w.monitor.calls + i) a.reductions a.program = a.outcome
  calls : w'.monitor.calls = w.monitor.calls + c.attempts.length
  asked : w'.monitor.asked = w.monitor.asked ++ c.asked
  last : ∃ a, c.attempts.getLast? = some a ∧ w'.part.status = a.outcome.status ∧
    w'.part.solution = a.outcome.solution?

end Course

/-- The attempt that is made in a state. -/
def attemptAt (engine : Engine K) (w : Watched (Subproblem K)) : Attempt K :=
  { reductions := w.part.reductions
    program := w.part.program
    outcome := engine.solve w.monitor.calls w.part.reductions w.part.program }

/-- The state after an attempt. -/
def attempted (engine : Engine K) (w : Watched (Subproblem K)) : Watched (Subproblem K) :=
  { monitor := { w.monitor with calls := w.monitor.calls + 1 }
    part := { w.part with
      status := (attemptAt engine w).outcome.status
      solution := (attemptAt engine w).outcome.solution? } }

theorem optimize_apply (engine : Engine K) (w : Watched (Subproblem K)) :
    optimize engine w = .ok (attemptAt engine w).outcome (attempted engine w) := rfl

/-- The state with the reductions switched on or off. -/
def switched (on : Bool) (w : Watched (Subproblem K)) : Watched (Subproblem K) :=
  { w with part := { w.part with reductions := on } }

@[simp] theorem outline_attempted (engine : Engine K) (w : Watched (Subproblem K)) :
    (attempted engine w).part.outline = w.part.outline := rfl

@[simp] theorem outline_switched (on : Bool) (w : Watched (Subproblem K)) :
    (switched on w).part.outline = w.part.outline := rfl

/-- What questions to a retry and switches of the reductions leave alone. -/
structure IsBeside (u v : Watched (Subproblem K)) : Prop where
  calls : v.monitor.calls = u.monitor.calls
  status : v.part.status = u.part.status
  solution : v.part.solution = u.part.solution
  outline : v.part.outline = u.part.outline

namespace Course

variable {engine : Engine K} {w u v : Watched (Subproblem K)} {c : Course K}

/-- The course of a single attempt. -/
theorem leads_attempted (engine : Engine K) (w : Watched (Subproblem K)) :
    Leads engine w { before := [attemptAt engine w] } (Subproblem.attempted engine w) where
  first := ⟨_, rfl, rfl⟩
  before := by simp [attemptAt]
  after := by simp
  answered i a ha := by
    cases i with
    | zero =>
      obtain rfl := Option.some.inj ha
      rfl
    | succ i => simp [attempts] at ha
  calls := rfl
  asked := by simp [Subproblem.attempted]
  last := ⟨_, rfl, rfl, rfl⟩

/-- The answers of one more attempt. -/
theorem Leads.answered_concat (h : Leads engine w c u) (hv : IsBeside u v) (i : ℕ) (a : Attempt K)
    (ha : (c.attempts ++ [attemptAt engine v])[i]? = some a) :
    engine.solve (w.monitor.calls + i) a.reductions a.program = a.outcome := by
  rcases lt_or_ge i c.attempts.length with hi | hi
  · exact h.answered i a (by rwa [List.getElem?_append_left hi] at ha)
  · rw [List.getElem?_append_right hi, List.getElem?_singleton] at ha
    split_ifs at ha with hlast
    obtain rfl := Option.some.inj ha
    have hcalls : v.monitor.calls = w.monitor.calls + i := by
      rw [hv.calls, h.calls]
      omega
    simp only [attemptAt, hcalls]

/-- One more attempt before the retry is asked. -/
theorem Leads.attempted (h : Leads engine w c u) (hasked : c.asked = []) (hafter : c.after = [])
    (hv : IsBeside u v) (hprogram : v.part.program = w.part.program)
    (hsame : v.monitor.asked = u.monitor.asked) :
    Leads engine w { before := c.before ++ [attemptAt engine v] }
      (Subproblem.attempted engine v) where
  first := by
    obtain ⟨a, ha, hfirst⟩ := h.first
    exact ⟨a, by simp [List.head?_append, ha], hfirst⟩
  before a ha := by
    rcases List.mem_append.1 ha with ha | ha
    · exact h.before a ha
    · obtain rfl := List.mem_singleton.1 ha
      exact hprogram
  after := by simp
  answered i a ha :=
    h.answered_concat hv i a (by simpa [attempts, hafter] using ha)
  calls := by simp [Subproblem.attempted, attempts, hv.calls, h.calls, hafter, Nat.add_assoc]
  asked := by simp [Subproblem.attempted, hsame, h.asked, hasked]
  last := ⟨attemptAt engine v, by simp [attempts], rfl, rfl⟩

/-- The retry is asked. -/
theorem Leads.ask (h : Leads engine w c u) (hasked : c.asked = []) (hafter : c.after = [])
    (hv : IsBeside u v) {asked : List ℕ} (hmore : v.monitor.asked = u.monitor.asked ++ asked) :
    Leads engine w { before := c.before, asked } v where
  first := h.first
  before := h.before
  after := by simp
  answered := by simpa [attempts, hafter] using h.answered
  calls := by simpa [attempts, hafter, hv.calls] using h.calls
  asked := by simp [hmore, h.asked, hasked]
  last := by simpa [attempts, hafter, hv.status, hv.solution] using h.last

/-- One more attempt after the retry was asked. -/
theorem Leads.again (h : Leads engine w c u) (hafter : c.after = []) :
    Leads engine w { c with after := [attemptAt engine u] } (Subproblem.attempted engine u) where
  first := h.first
  before := h.before
  after := by simp [attemptAt, Subproblem.attempted]
  answered i a ha :=
    h.answered_concat ⟨rfl, rfl, rfl, rfl⟩ i a (by simpa [attempts, hafter] using ha)
  calls := by simp [Subproblem.attempted, attempts, h.calls, hafter, Nat.add_assoc]
  asked := h.asked
  last := ⟨attemptAt engine u, by simp [attempts], rfl, rfl⟩

end Course

/-! ## The first answer -/

/-- The reductions are as they were in all attempts, or they are on again in the end. -/
def KeepsReductions (w : Watched (Subproblem K)) (c : Course K) (w' : Watched (Subproblem K)) : Prop :=
  (w'.part.reductions = w.part.reductions ∧ ∀ a ∈ c.attempts, a.reductions = w.part.reductions) ∨
    w'.part.reductions = true

/-- What has happened when the first answer `o` is there. -/
structure IsDecided (engine : Engine K) (w : Watched (Subproblem K)) (o : Outcome K)
    (c : Course K) (u : Watched (Subproblem K)) : Prop where
  leads : c.Leads engine w u
  asked : c.asked = []
  after : c.after = []
  few : c.before.length ≤ 2
  last : ∃ a, c.before.getLast? = some a ∧ a.outcome = o
  unclear : ∀ a ∈ c.before.dropLast, a.outcome.IsUnclear
  reductions : KeepsReductions w c u
  outline : u.part.outline = w.part.outline

/-- The state in which the second attempt is made. -/
def hesitated (engine : Engine K) (w : Watched (Subproblem K)) : Watched (Subproblem K) :=
  switched false (attempted engine w)

theorem optimizeDecided_of_ne {engine : Engine K} {w : Watched (Subproblem K)}
    (h : (attemptAt engine w).outcome ≠ .infeasibleOrUnbounded) :
    optimizeDecided engine w = .ok (attemptAt engine w).outcome (attempted engine w) := by
  refine (bind_of_ok (optimize_apply engine w)).trans ?_
  cases ho : (attemptAt engine w).outcome with
  | infeasibleOrUnbounded => exact absurd ho h
  | _ => rfl

theorem optimizeDecided_of_eq {engine : Engine K} {w : Watched (Subproblem K)}
    (h : (attemptAt engine w).outcome = .infeasibleOrUnbounded) :
    optimizeDecided engine w = .ok (attemptAt engine (hesitated engine w)).outcome
      (switched true (attempted engine (hesitated engine w))) := by
  refine (bind_of_ok (optimize_apply engine w)).trans ?_
  rw [h]
  rfl

theorem exists_decided (engine : Engine K) (w : Watched (Subproblem K)) :
    ∃ o c u, optimizeDecided engine w = .ok o u ∧ IsDecided engine w o c u := by
  have hone := Course.leads_attempted engine w
  by_cases ho : (attemptAt engine w).outcome = .infeasibleOrUnbounded
  · have htwo := hone.attempted rfl rfl (v := hesitated engine w) ⟨rfl, rfl, rfl, rfl⟩ rfl rfl
    have hon := htwo.ask rfl rfl (v := switched true (attempted engine (hesitated engine w)))
      ⟨rfl, rfl, rfl, rfl⟩ (List.append_nil _).symm
    refine ⟨_, _, _, optimizeDecided_of_eq ho,
      { leads := hon
        asked := rfl
        after := rfl
        few := by simp
        last := ⟨attemptAt engine (hesitated engine w), rfl, rfl⟩
        unclear := by simp [ho, Outcome.IsUnclear]
        reductions := Or.inr rfl
        outline := ?_ }⟩
    rw [outline_switched, outline_attempted, hesitated, outline_switched, outline_attempted]
  · exact ⟨_, _, _, optimizeDecided_of_ne ho,
      { leads := hone
        asked := rfl
        after := rfl
        few := by simp
        last := ⟨attemptAt engine w, rfl, rfl⟩
        unclear := by simp
        reductions := Or.inl ⟨rfl, by simp [Course.attempts, attemptAt]⟩
        outline := rfl }⟩

/-! ## The question to the retry -/

section Scalars

variable [Scalar K] {engine : Engine K} {stage markov : Option ℤ} {w u v : Watched (Subproblem K)}

/-- The actions of a retry, which are performed when it is asked. -/
def retryActions (r : Retry K) : Run K (Subproblem K) Unit :=
  Step.each r.actions (Action.perform (.real Scalar.zero))

/-- The question to a retry has come from `u` to `v`. -/
structure Asks (status : ℕ) (asked : List ℕ) (u v : Watched (Subproblem K)) : Prop where
  beside : IsBeside u v
  reductions : v.part.reductions = u.part.reductions
  asks : v.monitor.asked = u.monitor.asked ++ asked
  asked : asked = [] ∨ asked = [status]

omit [Scalar K] in
theorem asks_refl (status : ℕ) (u : Watched (Subproblem K)) : Asks status [] u u :=
  ⟨⟨rfl, rfl, rfl, rfl⟩, rfl, (List.append_nil _).symm, Or.inl rfl⟩

theorem keeps_asks_retryActions (status : ℕ) (u : Watched (Subproblem K)) (r : Retry K) :
    Keeps (Asks status [status] u) (retryActions r) :=
  Keeps.each fun a _ => keeps_perform_of_change
    (fun _ _ h => ⟨⟨h.beside.calls, h.beside.status, h.beside.solution, h.beside.outline⟩,
      h.reductions, h.asks, h.asked⟩)
    (fun _ _ h => ⟨⟨h.beside.calls, h.beside.status, h.beside.solution, h.beside.outline⟩,
      h.reductions, h.asks, h.asked⟩) _ a

/-- Asking the retry: there is none or it says no, it says yes, or its own actions fail. -/
theorem askRetry_cases (status : ℕ) (u : Watched (Subproblem K)) : ∃ asked v, Asks status asked u v ∧
    (askRetry status u = .ok false v ∨
      asked = [status] ∧ askRetry status u = .ok true v ∨
      ∃ r ∈ u.part.retry, ∃ e s t, retryActions r s = .error e t ∧
        askRetry status u = .error e v) := by
  cases hr : u.part.retry with
  | none => exact ⟨[], u, asks_refl status u, Or.inl (by simp [askRetry, Run.part_bind_apply, hr]; rfl)⟩
  | some r =>
    let s : Watched (Subproblem K) :=
      { u with monitor := { u.monitor with asked := u.monitor.asked ++ [status] } }
    have hrun : askRetry status u = (retryActions r >>= fun _ => pure r.answer) s := by
      simp only [askRetry, Run.part_bind_apply, hr]
      rfl
    have hasks : Asks status [status] u (final (retryActions r) s) :=
      (keeps_asks_retryActions status u r).final ⟨⟨rfl, rfl, rfl, rfl⟩, rfl, rfl, Or.inr rfl⟩
    refine ⟨[status], _, hasks, ?_⟩
    cases hactions : retryActions r s with
    | ok x t =>
      rw [hrun, bind_of_ok hactions, final_of_ok hactions]
      cases hanswer : r.answer with
      | false => exact Or.inl rfl
      | true => exact Or.inr (Or.inl ⟨rfl, rfl⟩)
    | error e t =>
      rw [hrun, bind_of_error hactions, final_of_error hactions]
      exact Or.inr (Or.inr ⟨r, rfl, e, s, t, hactions, rfl⟩)

/-! ## The report -/

/-- The rest of a solve behind an unclear answer. -/
def followUp (engine : Engine K) (title : String) (status : ℕ) : Run K (Subproblem K) K := do
  if ← askRetry status then
    match ← optimize engine with
    | .optimal s => return s.value
    | again => throw (.solver title again.status)
  else throw (.solver title status)

theorem attempt_solve_of_isUnclear {o : Outcome K} (ho : o.IsUnclear)
    (h : optimizeDecided engine w = .ok o u) : attempt (solve engine stage markov) w =
      attempt (followUp engine w.part.title o.status) u := by
  have hrun : solve engine stage markov w = _ := (Run.part_bind_apply _ _).trans (bind_of_ok h)
  rw [attempt, attempt, hrun]
  cases o <;> first | rfl | exact ho.elim

theorem attempt_solve_of_not_isUnclear {o : Outcome K} (ho : ¬ o.IsUnclear)
    (h : optimizeDecided engine w = .ok o u) :
    attempt (solve engine stage markov) w = (o.report w.part.title stage markov, u) := by
  have hrun : solve engine stage markov w = _ := (Run.part_bind_apply _ _).trans (bind_of_ok h)
  rw [attempt, hrun]
  cases o <;> first | rfl | exact absurd trivial ho

/-- The retry is not there or says no. -/
theorem attempt_followUp_of_refused {title : String} {status : ℕ}
    (h : askRetry status u = .ok false v) :
    attempt (followUp engine title status) u = (.error (.solver title status), v) := by
  rw [attempt, followUp, bind_of_ok h]
  rfl

/-- The retry says yes. -/
theorem attempt_followUp_of_granted {title : String} {status : ℕ}
    (h : askRetry status u = .ok true v) : attempt (followUp engine title status) u =
      ((attemptAt engine v).outcome.blame title, attempted engine v) := by
  rw [attempt, followUp, bind_of_ok h, if_pos rfl, bind_of_ok (optimize_apply engine v)]
  cases (attemptAt engine v).outcome <;> rfl

theorem attempt_followUp_of_error {title : String} {status : ℕ} {e : Fault K}
    (h : askRetry status u = .error e v) :
    attempt (followUp engine title status) u = (.error e, v) := by
  rw [attempt, followUp, bind_of_error h]

/-- The retry is asked at most once, about an unclear outcome that is the last one so far, and only
behind that the program may be solved once more. Reductions that were switched off are on again. -/
structure Course.IsOrderly (engine : Engine K) (w : Watched (Subproblem K)) (c : Course K)
    (w' : Watched (Subproblem K)) : Prop where
  leads : c.Leads engine w w'
  few : c.before.length ≤ 2
  unclear : ∀ a ∈ c.before.dropLast, a.outcome.IsUnclear
  asked : c.asked = [] ∨ ∃ a, c.before.getLast? = some a ∧ a.outcome.IsUnclear ∧
    c.asked = [a.outcome.status]
  after : c.after.length ≤ c.asked.length
  reductions : KeepsReductions w c w'

omit [Scalar K] in
theorem IsDecided.isOrderly {o : Outcome K} {c : Course K} (h : IsDecided engine w o c u) :
    c.IsOrderly engine w u where
  leads := h.leads
  few := h.few
  unclear := h.unclear
  asked := Or.inl h.asked
  after := by simp [h.after]
  reductions := h.reductions

omit [Scalar K] in
/-- The question to the retry behind a first answer. -/
theorem IsDecided.isOrderly_ask {a : Attempt K} {c : Course K} {asked : List ℕ}
    (h : IsDecided engine w a.outcome c u) (ha : c.before.getLast? = some a)
    (ho : a.outcome.IsUnclear) (hasks : Asks a.outcome.status asked u v) :
    Course.IsOrderly engine w { before := c.before, asked } v where
  leads := h.leads.ask h.asked h.after hasks.beside hasks.asks
  few := h.few
  unclear := h.unclear
  asked := hasks.asked.imp_right fun hasked => ⟨a, ha, ho, hasked⟩
  after := by simp
  reductions := by
    rw [KeepsReductions, hasks.reductions]
    simpa [KeepsReductions, Course.attempts, h.after] using h.reductions

omit [Scalar K] in
/-- One more attempt, behind the question. -/
theorem Course.IsOrderly.again {before : List (Attempt K)} {status : ℕ}
    (h : Course.IsOrderly engine w { before, asked := [status] } v) :
    Course.IsOrderly engine w { before, asked := [status], after := [attemptAt engine v] }
      (attempted engine v) where
  leads := h.leads.again rfl
  few := h.few
  unclear := h.unclear
  asked := h.asked
  after := le_rfl
  reductions := by
    refine h.reductions.imp_left fun ⟨hv, hall⟩ => ⟨hv, fun a ha => ?_⟩
    rcases List.mem_append.1 ha with ha | ha
    · exact hall a (by simpa [Course.attempts] using ha)
    · obtain rfl := List.mem_singleton.1 ha
      exact hv

/-- The report is that of the last outcome, but for an infeasible program behind a retry. -/
structure Tells (title : String) (stage markov : Option ℤ) (c : Course K) (o : Outcome K)
    (result : Except (Fault K) K) : Prop where
  report : result = o.report title stage markov ↔ ¬ ∃ a ∈ c.after, a.outcome = .infeasible
  status : ∀ title' n, result = .error (.solver title' n) → n = o.status ∧
    (o.IsCoded → n ≠ 2 ∧ (n = 3 ↔ ∃ a ∈ c.after, a.outcome = .infeasible))

omit [Scalar K] in
theorem tells_report {title : String} {c : Course K} (hafter : c.after = []) (o : Outcome K) :
    Tells title stage markov c o (o.report title stage markov) where
  report := by simp [hafter]
  status title' n h := by
    cases o <;> simp_all [Outcome.report, Outcome.status, Outcome.IsCoded] <;> omega

omit [Scalar K] in
theorem tells_blame {title : String} {c : Course K} {a : Attempt K} (hafter : c.after = [a]) :
    Tells title stage markov c a.outcome (a.outcome.blame title) where
  report := by rw [Outcome.blame_eq_report_iff, hafter]; simp
  status title' n h := by simpa [hafter] using Outcome.status_of_blame h

/-- Whatever the engine answers and whatever the retry does, a solve is orderly, and unless the retry
fails itself, the report is that of the last outcome exactly if this is not an infeasible program
behind the retry. -/
theorem solve_reports_iff (engine : Engine K) (stage markov : Option ℤ)
    (w : Watched (Subproblem K)) :
    ∃ (c : Course K) (last : Attempt K), c.attempts.getLast? = some last ∧
      c.IsOrderly engine w (attempt (solve engine stage markov) w).2 ∧
      (Tells w.part.title stage markov c last.outcome (attempt (solve engine stage markov) w).1 ∨
        ∃ r ∈ w.part.retry, ∃ e u v, retryActions r u = .error e v ∧
          (attempt (solve engine stage markov) w).1 = .error e) := by
  obtain ⟨o, c, u, hrun, hdecided⟩ := exists_decided engine w
  obtain ⟨a, ha, rfl⟩ := hdecided.last
  by_cases ho : a.outcome.IsUnclear
  · rw [attempt_solve_of_isUnclear ho hrun]
    obtain ⟨asked, v, hasks, hrefused | ⟨rfl, hgranted⟩ | ⟨r, hr, e, s, t, hfails, herror⟩⟩ :=
      askRetry_cases a.outcome.status u
    · rw [attempt_followUp_of_refused hrefused]
      refine ⟨_, a, by simpa [Course.attempts] using ha, hdecided.isOrderly_ask ha ho hasks,
        Or.inl ?_⟩
      rw [← Outcome.report_of_isUnclear ho _ stage markov]
      exact tells_report rfl a.outcome
    · rw [attempt_followUp_of_granted hgranted]
      exact ⟨_, attemptAt engine v, by simp [Course.attempts],
        (hdecided.isOrderly_ask ha ho hasks).again, Or.inl (tells_blame rfl)⟩
    · rw [attempt_followUp_of_error herror]
      have hretry : u.part.retry = w.part.retry := retry_of_outline hdecided.outline
      exact ⟨_, a, by simpa [Course.attempts] using ha, hdecided.isOrderly_ask ha ho hasks,
        Or.inr ⟨r, hretry ▸ hr, e, s, t, hfails, rfl⟩⟩
  · rw [attempt_solve_of_not_isUnclear ho hrun]
    exact ⟨c, a, by rw [Course.attempts, hdecided.after, List.append_nil, ha], hdecided.isOrderly,
      Or.inl (tells_report hdecided.after a.outcome)⟩

end Scalars

/-! ## An infeasible program behind a retry -/

/-- Solves programs of one variable with a cost of at least zero. -/
def boundSolver : Engine ℚ where
  solve _ _ p := match p.vars[0]? with
    | none => .optimal ⟨0, #[], #[]⟩
    | some v => match v.lower with
      | none => .unbounded
      | some low => if v.upper.any (· < low) then .infeasible else .optimal ⟨v.cost * low, #[low], #[]⟩
  elapsed _ := 0
  interval _ _ := .ok (0, 0)

/-- A program without a lower bound, and a retry that sets one above the upper bound. -/
def overdrawn : Watched (Subproblem ℚ) where
  monitor := {}
  part :=
    { title := "q"
      program := { sense := .minimize, vars := #[⟨"x", none, some 5, 1, false⟩] }
      retry := some { answer := true, actions := [.lower "x" (.constant (.real 6))] }
      variableNames := [("x", 0)] }

theorem attempt_solve_overdrawn :
    (attempt (solve boundSolver none none) overdrawn).1 = .error (.solver "q" 3) := by
  rfl

/-- The report need not be that of the last outcome. -/
theorem not_report_overdrawn : ¬ ∃ (c : Course ℚ) (last : Attempt ℚ),
    c.attempts.getLast? = some last ∧
      c.Leads boundSolver overdrawn (attempt (solve boundSolver none none) overdrawn).2 ∧
      (attempt (solve boundSolver none none) overdrawn).1 =
        last.outcome.report overdrawn.part.title none none := by
  rintro ⟨c, last, hlast, hleads, hreport⟩
  rw [attempt_solve_overdrawn] at hreport
  rw [List.getLast?_eq_getElem?] at hlast
  have hanswered := hleads.answered _ _ hlast
  cases ho : last.outcome with
  | other n =>
    rw [ho] at hanswered
    unfold boundSolver at hanswered
    dsimp only at hanswered
    split at hanswered
    · cases hanswered
    · split at hanswered
      · cases hanswered
      · split_ifs at hanswered
  | _ => simp [ho, Outcome.report, Outcome.status] at hreport

end Subproblem

end DualDynamic
