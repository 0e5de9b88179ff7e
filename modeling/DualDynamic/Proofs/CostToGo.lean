import DualDynamic.Proofs.Step
import DualDynamic.Node

/-!
# Starting, and installing cuts

A cost-to-go that is started has a variable and an empty pool for each of its ribs, and no cuts.

A cut that a cost-to-go accepts goes to one pool and has, then or before, a row on the variable of its
rib. Nothing else of the cost-to-go changes. A node accepts the cuts that its cost-to-go does, unless it
has none.
-/

namespace DualDynamic

open Step

variable {K : Type} [Numeral K]

namespace CostToGo

variable {v v' : CostToGo K} {m m' : Subproblem K} {cut : Cut K} {rib : Option K}
  {state : Option (Datum K)} {new : Bool} {i : ℕ}

/-! ## Starting -/

/-- The cost-to-go that is started on a subproblem, with the next variables for its ribs. -/
def started (v : CostToGo K) (f : Frame K) (m : Subproblem K) : CostToGo K :=
  { v with
    frame := some f
    vars := nextVariables v.ribCount m
    pools := List.replicate v.ribCount (.empty v.selection (some f.dimension))
    installed := List.replicate v.ribCount [] }

/-- What starting comes to. -/
theorem start_eq_ok {sense : Int} {bound : K} (h : v.start sense bound m = .ok (v', m')) :
    ∃ s, Sense.ofInt? sense = some s ∧ v' = v.started ⟨s, bound, m.stateCount⟩ m ∧
      m' = withRibVariables ⟨s, bound, m.stateCount⟩ v.ribCount m := by
  unfold start at h
  cases hsense : Sense.ofInt? sense with
  | none => simp [hsense] at h
  | some s =>
    simp only [hsense] at h
    obtain ⟨rfl, rfl⟩ := Prod.mk.inj (Except.ok.inj h)
    exact ⟨s, rfl, rfl, rfl⟩

/-- A cost-to-go can be started in either sense. -/
theorem start_sign (v : CostToGo K) (s : Sense) (bound : K) (m : Subproblem K) :
    v.start s.sign bound m = .ok (v.started ⟨s, bound, m.stateCount⟩ m,
      withRibVariables ⟨s, bound, m.stateCount⟩ v.ribCount m) := by
  cases s <;> rfl

section Started

omit [Numeral K]

variable (v : CostToGo K) (f : Frame K) (m : Subproblem K)

@[simp]
theorem length_vars_started : (v.started f m).vars.length = v.ribCount := by
  simp [started, nextVariables]

@[simp]
theorem length_pools_started : (v.started f m).pools.length = v.ribCount := by
  simp [started]

@[simp]
theorem length_installed_started : (v.started f m).installed.length = v.ribCount := by
  simp [started]

theorem getD_installed_started (i : ℕ) : (v.started f m).installed.getD i [] = [] := by
  rw [started, List.getD_eq_getElem?_getD, List.getElem?_getD_replicate_default_eq]

theorem eq_empty_of_mem_started {pool : CutPool K} (h : pool ∈ (v.started f m).pools) :
    pool = .empty v.selection (some f.dimension) :=
  List.eq_of_mem_replicate h

end Started

/-! ## Installing -/

/-- What an accepted cut comes to. -/
theorem installCut_eq_ok (h : v.installCut cut rib state m = .ok (new, v', m')) :
    v.checkCut cut = .ok () ∧ ∃ i pool pool', v.ribIndex rib = .ok i ∧ v.pools[i]? = some pool ∧
      pool.store cut state = .ok (new, pool') ∧
      (v', m') = ({ v with pools := v.pools.set i pool' }).installRow i cut m := by
  obtain ⟨⟨⟩, hcheck, h⟩ := exceptBind_eq_ok.1 h
  obtain ⟨i, hi, h⟩ := exceptBind_eq_ok.1 h
  refine ⟨hcheck, i, ?_⟩
  cases hpool : v.pools[i]? with
  | none => simp [hpool] at h
  | some pool =>
    simp only [hpool] at h
    obtain ⟨⟨new', pool'⟩, hstore, h⟩ := exceptBind_eq_ok.1 h
    obtain ⟨rfl, hrow⟩ := Prod.mk.inj (Except.ok.inj h)
    exact ⟨pool, pool', hi, rfl, hstore, hrow.symm⟩

/-- What makes a cut accepted does not depend on the subproblem. -/
theorem installCut_of_store {pool pool' : CutPool K} (hcheck : v.checkCut cut = .ok ())
    (hi : v.ribIndex rib = .ok i) (hpool : v.pools[i]? = some pool)
    (hstore : pool.store cut state = .ok (new, pool')) (m : Subproblem K) :
    v.installCut cut rib state m =
      .ok (new, ({ v with pools := v.pools.set i pool' }).installRow i cut m) := by
  refine exceptBind_eq_ok.2 ⟨(), hcheck, exceptBind_eq_ok.2 ⟨i, hi, ?_⟩⟩
  simp only [hpool]
  exact exceptBind_eq_ok.2 ⟨(new, pool'), hstore, rfl⟩

/-- A cut gets a row, or nothing happens. Which of both does not depend on the subproblem. -/
theorem installRow_everywhere (v : CostToGo K) (i : ℕ) (cut : Cut K) :
    ((∀ m, v.installRow i cut m = (v, m)) ∧
        ((v.installed.getD i []).any cut.same = true ∨ v.vars[i]? = none)) ∨
      ∃ x, v.vars[i]? = some x ∧ ∀ m, v.installRow i cut m =
        ({ v with installed := v.installed.modify i (· ++ [cut]) },
          m.withConstraint (cutRow x cut m)) := by
  cases hx : v.vars[i]? with
  | none => exact Or.inl ⟨fun m => by simp only [installRow, hx], Or.inr rfl⟩
  | some x =>
    by_cases hany : (v.installed.getD i []).any cut.same = true
    · exact Or.inl ⟨fun m => by simp only [installRow, hx, if_pos hany], Or.inl hany⟩
    · exact Or.inr ⟨x, rfl, fun m => by simp only [installRow, hx, if_neg hany]⟩

theorem installRow_cases (v : CostToGo K) (i : ℕ) (cut : Cut K) (m : Subproblem K) :
    (v.installRow i cut m = (v, m) ∧
        ((v.installed.getD i []).any cut.same = true ∨ v.vars[i]? = none)) ∨
      ∃ x, v.vars[i]? = some x ∧ v.installRow i cut m =
        ({ v with installed := v.installed.modify i (· ++ [cut]) },
          m.withConstraint (cutRow x cut m)) :=
  (v.installRow_everywhere i cut).imp (fun h => ⟨h.1 m, h.2⟩) fun ⟨x, hx, h⟩ => ⟨x, hx, h m⟩

/-- A row changes what counts as installed, and nothing else of the cost-to-go. -/
theorem exists_installRow (v : CostToGo K) (i : ℕ) (cut : Cut K) (m : Subproblem K) :
    ∃ installed, (v.installRow i cut m).1 = { v with installed } ∧
      installed.length = v.installed.length ∧ (v.installRow i cut m).2.states = m.states := by
  rcases installRow_cases v i cut m with ⟨heq, -⟩ | ⟨x, -, heq⟩ <;> rw [heq]
  · exact ⟨v.installed, rfl, rfl, rfl⟩
  · exact ⟨_, rfl, List.length_modify .., rfl⟩

/-- What holds of a cost-to-go and a subproblem, and goes on to hold whenever an active cut gets a
row, holds after all active cuts have been installed. -/
theorem installActive_induction {P : CostToGo K → Subproblem K → Prop} (h : P v m)
    (hrow : ∀ v' m' i x cut pool, P v' m' → v'.vars[i]? = some x → v.pools[i]? = some pool →
      cut ∈ pool.active → P { v' with installed := v'.installed.modify i (· ++ [cut]) }
        (m'.withConstraint (cutRow x cut m'))) :
    P (v.installActive m).1 (v.installActive m).2 := by
  refine List.foldlRecOn (motive := fun s : CostToGo K × Subproblem K => P s.1 s.2) _ _ h
    fun s hs c hc => ?_
  obtain ⟨⟨pool, i⟩, hpool, hc⟩ := List.mem_flatMap.1 hc
  obtain ⟨cut, hcut, rfl⟩ := List.mem_map.1 hc
  obtain ⟨v', m'⟩ := s
  rcases installRow_cases v' i cut m' with ⟨heq, -⟩ | ⟨x, hx, heq⟩
  · simpa only [heq] using hs
  · simpa only [heq] using
      hrow v' m' i x cut pool hs hx (List.mk_mem_zipIdx_iff_getElem?.1 hpool) hcut

end CostToGo

/-- A node that takes a cut has stages behind it, and its cost-to-go takes the cut. -/
theorem Node.installCut_eq_ok {n n' : Node K} {cut : Cut K} {rib : Option K}
    {state : Option (Datum K)} {new : Bool} : n.installCut cut rib state = .ok (new, n') ↔
      ∃ v m, n.isTerminal = false ∧ n.costToGo.installCut cut rib state n.model = .ok (new, v, m) ∧
        n' = { n with costToGo := v, model := m } := by
  rw [installCut]
  cases n.isTerminal with
  | true => simp
  | false =>
    cases n.costToGo.installCut cut rib state n.model with
    | error e => simp [Except.map]
    | ok q =>
      obtain ⟨new', v, m⟩ := q
      simp only [Except.map, Bool.false_eq_true, if_false, Except.ok.injEq, Prod.mk.injEq, true_and]
      constructor
      · rintro ⟨rfl, rfl⟩
        exact ⟨v, m, ⟨rfl, rfl, rfl⟩, rfl⟩
      · rintro ⟨v', m', ⟨rfl, rfl, rfl⟩, rfl⟩
        exact ⟨rfl, rfl⟩

end DualDynamic
