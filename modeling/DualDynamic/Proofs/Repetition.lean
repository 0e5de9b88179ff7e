import DualDynamic.Proofs.Node.Twins
import DualDynamic.Proofs.Subproblem.Verdict

/-!
# Doing the same again

What has succeeded once succeeds again in a state like the one before, unless it is interrupted: an
interruption is told by counts, and these go on (`Step.Follows`). Steps that set a node up do not look
at the counts for anything else (`Run.IsHeedless`).

If moreover the engine solves a program again that it has solved before (`Engine.IsReliable`) and its
values are exact, then the twin of a node comes to the values that the node came to, for everything that
can happen.
-/

namespace DualDynamic

open Step

variable {K S S' T T' A A' B B' : Type}

namespace Step

/-- Where `x` succeeds, `y` succeeds too, started in a related state, or it is interrupted; results and
states are related then. -/
def Follows (P : S → S' → Prop) (x : Step K S A) (y : Step K S' A')
    (Q : A → A' → S → S' → Prop) : Prop :=
  ∀ s s', P s s' → ∀ a t, x s = .ok a t →
    (∃ a' t', y s' = .ok a' t' ∧ Q a a' t t') ∨ ∃ t', y s' = .error .interrupted t'

variable {P P' : S → S' → Prop} {Q Q' : A → A' → S → S' → Prop} {R : B → B' → S → S' → Prop}

theorem Follows.weaken {x : Step K S A} {y : Step K S' A'} (h : Follows P x y Q)
    (hP : ∀ s s', P' s s' → P s s') (hQ : ∀ a a' s s', Q a a' s s' → Q' a a' s s') :
    Follows P' x y Q' := by
  intro s s' hs a t ht
  refine (h s s' (hP s s' hs) a t ht).imp_left ?_
  rintro ⟨a', t', ht', hQ'⟩
  exact ⟨a', t', ht', hQ _ _ _ _ hQ'⟩

theorem Follows.bind {x : Step K S A} {y : Step K S' A'} {f : A → Step K S B}
    {f' : A' → Step K S' B'} (hx : Follows P x y Q)
    (hf : ∀ a a', Follows (Q a a') (f a) (f' a') R) : Follows P (x >>= f) (y >>= f') R := by
  intro s s' hs b u hb
  obtain ⟨a, t, ha, hb⟩ := bind_eq_ok.1 hb
  obtain ⟨a', t', ha', hQ⟩ | ⟨t', hinterrupted⟩ := hx s s' hs a t ha
  · obtain ⟨b', u', hb', hR⟩ | ⟨u', hinterrupted⟩ := hf a a' t t' hQ b u hb
    · exact Or.inl ⟨b', u', bind_eq_ok.2 ⟨a', t', ha', hb'⟩, hR⟩
    · exact Or.inr ⟨u', (bind_of_ok ha').trans hinterrupted⟩
  · exact Or.inr ⟨t', bind_of_error hinterrupted⟩

theorem follows_pure {a : A} {a' : A'} (h : ∀ s s', P s s' → Q a a' s s') :
    Follows P (pure a : Step K S A) (pure a' : Step K S' A') Q := by
  intro s s' hs b t hb
  cases hb
  exact Or.inl ⟨a', s', rfl, h s s' hs⟩

theorem follows_ofExcept {r : Except (Fault K) A} {r' : Except (Fault K) A'}
    (h : ∀ a, r = .ok a → ∃ a', r' = .ok a' ∧ ∀ s s', P s s' → Q a a' s s') :
    Follows P (ofExcept r : Step K S A) (ofExcept r' : Step K S' A') Q := by
  intro s s' hs a t ht
  obtain ⟨hr, rfl⟩ := ofExcept_eq_ok.1 ht
  obtain ⟨a', hr', hQ⟩ := h a hr
  exact Or.inl ⟨a', s', ofExcept_eq_ok.2 ⟨hr', rfl⟩, hQ _ _ hs⟩

theorem Follows.mapM {C : B → B' → Prop} {items : List A} {f : A → Step K S B}
    {f' : A → Step K S' B'}
    (h : ∀ a ∈ items, Follows P (f a) (f' a) fun b b' s s' => C b b' ∧ P s s') :
    Follows P (items.mapM f) (items.mapM f') fun bs bs' s s' => List.Forall₂ C bs bs' ∧ P s s' := by
  induction items with
  | nil => exact follows_pure fun s s' hs => ⟨.nil, hs⟩
  | cons a items ih =>
    rw [mapM_cons, mapM_cons]
    refine (h a (by simp)).bind fun b b' => ?_
    intro s s' hs
    refine ((ih fun c hc => h c (by simp [hc])).bind (R := fun bs bs' s s' =>
      List.Forall₂ C bs bs' ∧ P s s') fun bs bs' => follows_pure fun t t' ht => ?_) s s' hs.2
    exact ⟨.cons hs.1 ht.1, ht.2⟩

/-- Run again in a related state, the step has the same result, unless it is interrupted. -/
def Recurs (C : S → S → Prop) (x : Step K S A) : Prop :=
  Follows C x x fun a a' s s' => a' = a ∧ C s s'

section Recurs

variable {C : S → S → Prop}

theorem Recurs.follows_bind {x : Step K S A} {f f' : A → Step K S B} {R : B → B → S → S → Prop}
    (hx : Recurs C x) (hf : ∀ a, Follows C (f a) (f' a) R) : Follows C (x >>= f) (x >>= f') R := by
  refine Follows.bind hx fun a a' => ?_
  rintro s s' ⟨rfl, hs⟩
  exact hf a' s s' hs

theorem Recurs.bind {x : Step K S A} {f : A → Step K S B} (hx : Recurs C x)
    (hf : ∀ a, Recurs C (f a)) : Recurs C (x >>= f) := hx.follows_bind hf

theorem recurs_pure (a : A) : Recurs C (pure a : Step K S A) := follows_pure fun _ _ hs => ⟨rfl, hs⟩

theorem recurs_throw (e : Fault K) : Recurs C (throw e : Step K S A) := fun _ _ _ _ _ ht => by cases ht

theorem recurs_ofExcept (r : Except (Fault K) A) : Recurs C (ofExcept r : Step K S A) :=
  follows_ofExcept fun a ha => ⟨a, ha, fun _ _ hs => ⟨rfl, hs⟩⟩

theorem Recurs.ite {c : Prop} [Decidable c] {x y : Step K S A} (hx : Recurs C x)
    (hy : Recurs C y) : Recurs C (if c then x else y) := by
  split_ifs
  · exact hx
  · exact hy

theorem Recurs.each {items : List A} {step : A → Step K S Unit}
    (h : ∀ a ∈ items, Recurs C (step a)) : Recurs C (each items step) := by
  induction items with
  | nil => exact recurs_pure ()
  | cons a items ih => exact (h a (by simp)).bind fun _ => ih fun b hb => h b (by simp [hb])

/-- Where it is not interrupted, it has the same result. -/
theorem Recurs.respects {x : Step K S A} (h : Recurs C x) : Respects C x := by
  intro s s' hs a t ht a' t' ht'
  obtain ⟨b, u, hb, rfl, hC⟩ | ⟨u, hinterrupted⟩ := h s s' hs a t ht
  · rw [ht'] at hb
    cases hb
    exact ⟨rfl, hC⟩
  · rw [ht'] at hinterrupted
    cases hinterrupted

end Recurs

end Step

/-! ## Watched steps -/

namespace Run

theorem follows_part_bind {P : Watched S → Watched S' → Prop}
    {Q : A → A' → Watched S → Watched S' → Prop} {f : S → Run K S A} {f' : S' → Run K S' A'}
    (h : ∀ w w', P w w' → Follows P (f w.part) (f' w'.part) Q) :
    Follows P (part >>= f) (part >>= f') Q :=
  fun w w' hw a t ht => h w w' hw w w' hw a t ht

theorem follows_within {P : Watched S → Watched S' → Prop} {O : Watched T → Watched T' → Prop}
    {Q : A → A' → Watched T → Watched T' → Prop} {R : A → A' → Watched S → Watched S' → Prop}
    {read : S → T} {put : T → S → S} {read' : S' → T'} {put' : T' → S' → S'} {x : Run K T A}
    {y : Run K T' A'} (hstep : Follows O x y Q)
    (hread : ∀ w w', P w w' → O ⟨w.monitor, read w.part⟩ ⟨w'.monitor, read' w'.part⟩)
    (hput : ∀ w w', P w w' → ∀ a a' v v', Q a a' v v' →
      R a a' ⟨v.monitor, put v.part w.part⟩ ⟨v'.monitor, put' v'.part w'.part⟩) :
    Follows P (within read put x) (within read' put' y) R := by
  intro w w' hw a t ht
  obtain ⟨v, hv, rfl⟩ := within_eq_ok.1 ht
  obtain ⟨a', v', hv', hQ⟩ | ⟨v', hinterrupted⟩ := hstep _ _ (hread w w' hw) a v hv
  · exact Or.inl ⟨a', _, within_eq_ok.2 ⟨v', hv', rfl⟩, hput w w' hw a a' v v' hQ⟩
  · refine Or.inr ⟨⟨v'.monitor, put' v'.part w'.part⟩, ?_⟩
    unfold within Step.within
    rw [hinterrupted]

/-- The counts tell nothing but whether the step is interrupted. -/
abbrev IsHeedless (x : Run K S A) : Prop := Recurs (fun w w' => w.part = w'.part) x

theorem isHeedless_part_bind {f : S → Run K S A} (h : ∀ s, IsHeedless (f s)) :
    IsHeedless (part >>= f) := follows_part_bind fun w w' hw => by
  rw [hw]
  exact h w'.part

theorem isHeedless_change (f : S → S) : IsHeedless (change f : Run K S Unit) := by
  intro w w' hw a t ht
  cases ht
  exact Or.inl ⟨(), _, rfl, rfl, congrArg f hw⟩

theorem isHeedless_within {read : S → T} {put : T → S → S} {x : Run K T A} (hx : IsHeedless x) :
    IsHeedless (within read put x) :=
  follows_within hx (fun _ _ hw => congrArg read hw) fun _ _ hw _ _ _ _ hv => ⟨hv.1, by rw [hv.2, hw]⟩

end Run

/-! ## Setting up -/

section Numerals

variable [Numeral K]

theorem Action.isHeedless_perform (x : Datum K) (a : Action K) :
    Run.IsHeedless (Action.perform x a) := by
  cases a with
  | interruptAt count =>
    intro w w' hw r t ht
    obtain ⟨u, h | h⟩ := Subproblem.perform_interruptAt x count w <;> rw [h] at ht <;> cases ht
    obtain ⟨u', h' | h'⟩ := Subproblem.perform_interruptAt x count w'
    · exact Or.inl ⟨(), _, h', rfl, hw⟩
    · exact Or.inr ⟨_, h'⟩
  | coefficient c v rule =>
    exact Run.isHeedless_part_bind fun _ => (recurs_ofExcept _).bind fun _ =>
      (recurs_ofExcept _).bind fun _ => Run.isHeedless_change _
  | _ =>
    exact Run.isHeedless_part_bind fun _ => (recurs_ofExcept _).bind fun _ => Run.isHeedless_change _

namespace Subproblem

theorem isHeedless_writeNoise (write : ℕ → K → LinearProgram K → LinearProgram K) (k : ℤ)
    (x : Noise K) : Run.IsHeedless (writeNoise write k x) := by
  cases x with
  | one i scenarios =>
    exact (recurs_ofExcept _).bind fun _ => (recurs_ofExcept _).bind fun _ => Run.isHeedless_change _
  | group is scenarios => exact (recurs_ofExcept _).bind fun _ => Run.isHeedless_change _

theorem isHeedless_setRealization (k : ℤ) :
    Run.IsHeedless (setRealization k : Run K (Subproblem K) Unit) :=
  Run.isHeedless_part_bind fun _ =>
    (Recurs.each fun _ _ => (recurs_ofExcept _).bind fun _ => Run.isHeedless_change _).bind fun _ =>
      (Recurs.each fun _ _ => isHeedless_writeNoise _ _ _).bind fun _ =>
        (Recurs.each fun _ _ => isHeedless_writeNoise _ _ _).bind fun _ =>
          Recurs.each fun _ _ => (recurs_ofExcept _).bind fun x =>
            Recurs.each fun a _ => Action.isHeedless_perform x a

theorem isHeedless_setPrice (price : Option K) :
    Run.IsHeedless (setPrice price : Run K (Subproblem K) Unit) :=
  Run.isHeedless_part_bind fun _ => Recurs.each fun _ _ => (recurs_ofExcept _).bind fun _ =>
    (recurs_ofExcept _).bind fun _ => Run.isHeedless_change _

omit [Numeral K] in
theorem isHeedless_setIncoming (state : List K) :
    Run.IsHeedless (setIncoming state : Run K (Subproblem K) Unit) :=
  Run.isHeedless_part_bind fun _ => Recurs.ite (recurs_pure _) <|
    Recurs.ite (recurs_throw _) (Run.isHeedless_change _)

end Subproblem

namespace Node

theorem isHeedless_setPrice (price : Option K) : Run.IsHeedless (setPrice price) :=
  (Run.isHeedless_within (Subproblem.isHeedless_setPrice price)).bind fun _ =>
    Run.isHeedless_part_bind fun _ => Recurs.ite (Run.isHeedless_change _) <|
      (recurs_ofExcept _).bind fun _ => Run.isHeedless_change _

theorem isHeedless_setting (price : Option K) (k : ℕ) : Run.IsHeedless
    (onModel (Subproblem.setRealization k) >>= fun _ => setPrice price) :=
  (Run.isHeedless_within (Subproblem.isHeedless_setRealization k)).bind fun _ =>
    isHeedless_setPrice price

end Node

/-- Twins that are set up for the same, one of them with success, are twins without the cells that this
overwrites. -/
theorem Sets.follows_twins [Programmed K S] {s : S} {C : Set Cell} {x : Run K S A} (h : Sets s C x)
    (hx : Run.IsHeedless x) (D : Set Cell) :
    Follows (fun w w' => TwinsFrom s D w.part w'.part) x x
      fun a a' w w' => a' = a ∧ TwinsFrom s (D \ C) w.part w'.part := by
  intro w w' hw a t ht
  obtain ⟨hleft, hright⟩ := hw.outline
  have houtcome := h.decides ⟨w'.monitor, w.part⟩ w' hleft hright rfl
  -- with the counts of the other run it would have succeeded as well, unless interrupted
  obtain ⟨b, v, hv, -⟩ | ⟨v, hv⟩ := hx w ⟨w'.monitor, w.part⟩ rfl a t ht
  · rw [Run.outcome_of_ok hv] at houtcome
    cases ht' : x w' with
    | ok a' t' =>
      obtain ⟨heq, htwins⟩ := h.couples_twins D w w' hw a t ht a' t' ht'
      exact Or.inl ⟨a', t', rfl, heq.symm, htwins⟩
    | error e t' =>
      rw [Run.outcome_of_error ht'] at houtcome
      cases (Prod.mk.inj houtcome).1
  · rw [Run.outcome_of_error hv] at houtcome
    cases ht' : x w' with
    | ok a' t' =>
      rw [Run.outcome_of_ok ht'] at houtcome
      cases (Prod.mk.inj houtcome).1
    | error e t' =>
      rw [Run.outcome_of_error ht'] at houtcome
      obtain rfl := Except.error.inj (Prod.mk.inj houtcome).1
      exact Or.inr ⟨t', rfl⟩

end Numerals

/-! ## Solving -/

/-- A program that was solved is solved again, with as many duals, whatever was solved in between. -/
def Engine.IsReliable [Numeral K] (engine : Engine K) : Prop :=
  ∀ call call' reductions reductions' (p q : LinearProgram K) s,
    LinearProgram.Extends ∅ p q → q.constraints.size = p.constraints.size →
      engine.solve call reductions p = .optimal s →
        ∃ s', engine.solve call' reductions' q = .optimal s' ∧ s'.dual.size = s.dual.size

/-- What is read off the data of a program and checked can be read off and checked again. -/
theorem Engine.isReliable_certified [ExactNumeral K]
    (candidate : (Cell → Option K) → Array K × Array K) :
    (certified fun _ p => candidate p.read).IsReliable := by
  intro call call' reductions reductions' p q s hext hrows hs
  have hread := hext.read_eq hrows
  simp only [certified] at hs ⊢
  split_ifs at hs with hcheck
  obtain rfl := Outcome.optimal.inj hs
  have hcheck' := ((LinearProgram.isCertificate_of_certifies hcheck).of_extends hext hrows).certifies
  rw [hread, if_pos hcheck']
  exact ⟨_, rfl, rfl⟩

theorem Engine.IsReliable.orUnbounded [ExactNumeral K] {engine : Engine K} (h : engine.IsReliable) :
    engine.orUnbounded.IsReliable := by
  intro call call' reductions reductions' p q s hext hrows hs
  obtain ⟨s', hs', hduals⟩ :=
    h call call' reductions reductions' p q s hext hrows (orUnbounded_eq_optimal.1 hs)
  exact ⟨s', orUnbounded_eq_optimal.2 hs', hduals⟩

namespace Subproblem

variable {engine : Engine K} {m m' : Subproblem K}

/-- There are state duals if there are as many duals as links ask for. -/
theorem exists_stateDuals_iff {s : Solution K} (h : m.solution = some s) :
    (∃ duals, m.stateDuals = .ok duals) ↔ ∀ row ∈ m.links, row < s.dual.size := by
  have hduals : m.stateDuals = m.links.mapM fun row =>
      s.dual[row]?.elim (throw .refusedAttribute : Except (Fault K) K) pure := by
    simp only [stateDuals, currentSolution, h, bind, Except.bind]
    refine congrArg (List.mapM · m.links) (funext fun row => ?_)
    cases s.dual[row]? <;> rfl
  rw [hduals]
  induction m.links with
  | nil => simp [pure, Except.pure]
  | cons row rows ih =>
    simp only [List.mapM_cons, exceptBind_eq_ok, List.forall_mem_cons, ← ih]
    constructor
    · rintro ⟨duals, a, ha, rest, hrest, -⟩
      refine ⟨?_, rest, hrest⟩
      by_contra hrow
      rw [Array.getElem?_eq_none (by omega)] at ha
      cases ha
    · rintro ⟨hrow, rest, hrest⟩
      refine ⟨s.dual[row] :: rest, s.dual[row], ?_, rest, hrest, rfl⟩
      rw [Array.getElem?_eq_getElem hrow]
      rfl

/-- A program with the same data is solved, too. -/
theorem exists_solve_of_answers [Numeral K] (hreliable : engine.IsReliable)
    {p : LinearProgram K} (hprogram : LinearProgram.Extends ∅ p m.program)
    (hrows : m.program.constraints.size = p.constraints.size) {s : Solution K}
    (hs : engine.Answers p (.optimal s)) (stage markov : Option ℤ) (k : Monitor) :
    ∃ s' u, solve engine stage markov ⟨k, m⟩ = .ok s'.value u ∧ u.part.solution = some s' ∧
      u.part.links = m.links ∧ s'.dual.size = s.dual.size := by
  obtain ⟨call, reductions, hs⟩ := hs
  obtain ⟨s', hs', hduals⟩ :=
    hreliable call k.calls reductions m.reductions _ _ s hprogram hrows hs
  have hattempt : (attemptAt engine ⟨k, m⟩).outcome = .optimal s' := hs'
  have hdecided : optimizeDecided engine ⟨k, m⟩ = .ok (.optimal s') (attempted engine ⟨k, m⟩) := by
    rw [← hattempt]
    exact optimizeDecided_of_ne (by simp [hattempt])
  have hsolve : attempt (solve engine stage markov) ⟨k, m⟩ = _ :=
    attempt_solve_of_not_isUnclear (o := .optimal s') id hdecided
  refine ⟨s', attempted engine ⟨k, m⟩, ?_, ?_, rfl, hduals⟩
  · have hok := attempt_eq_ok (congrArg Prod.fst hsolve)
    rwa [congrArg Prod.snd hsolve] at hok
  · simp only [attempted, hattempt, Outcome.solution?]

end Subproblem

section Exact

variable [ExactNumeral K] {engine : Engine K}

/-- Programs with the same data have the same optimal value. -/
theorem Engine.IsExact.value_eq (hexact : engine.IsExact) {p q : LinearProgram K}
    (h : LinearProgram.Extends ∅ p q) (hrows : q.constraints.size = p.constraints.size)
    (hcontinuous : p.IsContinuous) {s s' : Solution K} (hs : engine.Answers p (.optimal s))
    (hs' : engine.Answers q (.optimal s')) : s'.value = s.value := by
  obtain ⟨call, reductions, hs⟩ := hs
  obtain ⟨call', reductions', hs'⟩ := hs'
  have hbest := hexact _ _ _ _ hcontinuous hs
  have hbest' := hexact _ _ _ _ (h.isContinuous hcontinuous) hs'
  rw [h.sense] at hbest'
  exact (hbest'.mono hbest (h.symm hrows).values_subset).antisymm
    (hbest.mono hbest' h.values_subset)

namespace Node

variable {n : Node K} {rows : ℕ}

/-- Equal values with equal weights. -/
def SameValue (r r' : K × List K × K) : Prop := r'.1 = r.1 ∧ r'.2.2 = r.2.2

section Solves

variable (hwell : n.model.WellFormed rows) (hspares : engine.Spares n.model.retry)
  (hexact : engine.IsExact) (hreliable : engine.IsReliable) (hcontinuous : n.IsContinuous)
include hwell hspares hexact hreliable hcontinuous

omit hwell in
/-- The twin of a node that has an answer has one, with the same value. -/
theorem follows_twins_answer : Follows (fun w w' => TwinsFrom n ∅ w.part w'.part)
    (answer engine) (answer engine)
    fun r r' w w' => r'.1 = r.1 ∧ TwinsFrom n ∅ w.part w'.part := by
  intro w w' hw r t ht
  obtain ⟨hleft, hright⟩ := hw.outline
  obtain ⟨hsolved, htouches, hduals⟩ := solved_of_answer (retry_congr hleft ▸ hspares) ht
  obtain ⟨s, hs, hvalue, hsolution⟩ := hsolved.solution
  obtain ⟨s', u, hsolve, hsolution', hlinks, hsize⟩ := Subproblem.exists_solve_of_answers hreliable
    hw.2.program hw.2.rows hs (some w'.part.stage) (some w'.part.markov) w'.monitor
  have hsame : u.part.links = t.part.model.links := by
    obtain ⟨p, q, z, x, hmodel⟩ := Subproblem.exists_of_outline
      (model_outline ((Programmed.outline_eq htouches.rest).trans hw.2.outline.symm))
    rw [hlinks, hmodel]
  obtain ⟨duals', hduals'⟩ := (Subproblem.exists_stateDuals_iff hsolution').2 fun row hrow =>
    hsize ▸ (Subproblem.exists_stateDuals_iff hsolution).1 ⟨_, hduals⟩ row (hsame ▸ hrow)
  have hanswer : answer engine w' =
      .ok (s'.value, duals') ⟨u.monitor, { w'.part with model := u.part }⟩ := by
    rw [answer, Run.part_bind_apply]
    refine bind_eq_ok.2 ⟨s'.value, _, Run.within_eq_ok.2 ⟨u, hsolve, rfl⟩, ?_⟩
    rw [Run.part_bind_apply]
    exact bind_eq_ok.2 ⟨duals', _, ofExcept_eq_ok.2 ⟨hduals', rfl⟩, rfl⟩
  obtain ⟨hsolved', htouches', -⟩ := solved_of_answer (retry_congr hright ▸ hspares) hanswer
  obtain ⟨s'', hs'', hvalue', -⟩ := hsolved'.solution
  have hcontinuous' : w.part.model.program.IsContinuous := hw.1.program.isContinuous hcontinuous
  refine Or.inl ⟨_, _, hanswer, ?_, isBlind_extends (Set.empty_subset _) _ _ _ htouches hw.1,
    (hw.2.touches_left htouches subset_rfl).touches_right htouches' subset_rfl⟩
  rw [← hvalue, ← hvalue']
  exact hexact.value_eq hw.2.program hw.2.rows hcontinuous' hs hs''

theorem follows_twins_solveRealization {D : Set Cell} (hD : D ⊆ n.settingCells) (price : Option K)
    (k : ℕ) : Follows (fun w w' => TwinsFrom n D w.part w'.part)
      (solveRealization engine price k) (solveRealization engine price k)
      fun r r' w w' => r'.1 = r.1 ∧ TwinsFrom n D w.part w'.part := by
  rw [solveRealization_eq]
  refine ((sets_setting hwell price k).follows_twins (isHeedless_setting price k) D).bind
    fun _ _ => ?_
  rw [Set.sdiff_eq_empty.2 hD]
  exact (follows_twins_answer hspares hexact hreliable hcontinuous).weaken (fun _ _ hw => hw.2)
    fun _ _ _ _ hr => ⟨hr.1, hr.2.mono (Set.empty_subset _)⟩

theorem follows_twins_solvePriced {D : Set Cell} (hD : D ⊆ n.settingCells) (price : Option K)
    (weight : K) (noise : Datum K × K) : Follows (fun w w' => TwinsFrom n D w.part w'.part)
      (solvePriced engine price weight noise) (solvePriced engine price weight noise)
      fun rs rs' w w' => List.Forall₂ SameValue rs rs' ∧ TwinsFrom n D w.part w'.part := by
  refine Run.follows_part_bind fun w w' hw => ?_
  obtain ⟨hleft, hright⟩ := hw.outline
  rw [nextPrice_congr hright, nextPrice_congr hleft, possible_congr hright, possible_congr hleft]
  refine (recurs_ofExcept _).follows_bind fun next => (recurs_ofExcept _).follows_bind fun items =>
    Follows.mapM fun kp _ => ?_
  exact (follows_twins_solveRealization hwell hspares hexact hreliable hcontinuous hD next
    kp.1).bind fun r r' => follows_pure fun _ _ hr => ⟨⟨hr.1, rfl⟩, hr.2⟩

/-- The twin of a node that was solved for everything that can happen can be solved for all of this, and
comes to the same values. -/
theorem follows_twins_solveAll (state : Option (List K)) (price : Option K) (weight : K) :
    Follows (fun w w' => TwinsFrom n n.cells w.part w'.part)
      (solveAll engine state price weight) (solveAll engine state price weight)
      fun rs rs' w w' => List.Forall₂ SameValue rs rs' ∧ TwinsFrom n n.cells w.part w'.part := by
  refine Run.follows_part_bind fun w w' hw => ?_
  obtain ⟨hleft, hright⟩ := hw.outline
  rw [initialValues_congr hright, initialValues_congr hleft, priceNoise_congr hright,
    priceNoise_congr hleft]
  have hcells := n.cells_sdiff_subset
  have hincoming := (sets_onModel (Subproblem.sets_setIncoming hwell
    (state.getD n.model.initialValues))).follows_twins
      (Run.isHeedless_within (Subproblem.isHeedless_setIncoming _)) n.cells
  refine hincoming.bind fun _ _ => Follows.bind ((Follows.mapM fun noise _ =>
    follows_twins_solvePriced hwell hspares hexact hreliable hcontinuous hcells price weight
      noise).weaken (fun _ _ hw => hw.2) fun _ _ _ _ => id)
    fun parts parts' => follows_pure fun _ _ hparts => ?_
  exact ⟨List.rel_flatten hparts.1, hparts.2.mono Set.sdiff_subset⟩

end Solves

end Node

end Exact

end DualDynamic
