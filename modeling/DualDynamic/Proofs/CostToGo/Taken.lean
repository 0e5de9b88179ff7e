import DualDynamic.Proofs.PolicyGraph.Rows

/-!
# Cuts that were taken

A cost-to-go has a cut (`HasCut`) if it takes it at a rib, stores it or one that is the same, and has a row
for it as far as there is a variable. Such a cut changes nothing when it is installed again, and it is
not counted; a cut that was installed is had from then on, whatever else is installed. This needs a list of
rows for every variable, and a cut that is the same as itself.
-/

namespace DualDynamic

open Step

variable {K : Type} [Numeral K]

/-- A cut whose numbers are equal to themselves, so that none of them is a NaN, is the same as itself. -/
theorem Cut.same_self {c : Cut K} (h : ∀ x ∈ c.intercept :: c.coefficients, Scalar.eq x x = true) :
    c.same c = true := by
  have hall : ∀ xs : List K, (∀ x ∈ xs, Scalar.eq x x = true) → Scalar.eqAll xs xs = true := by
    intro xs hxs
    rw [Scalar.eqAll, beq_self_eq_true, Bool.true_and, List.zipWith_self, List.all_map]
    exact List.all_eq_true.2 hxs
  rw [List.forall_mem_cons] at h
  rw [same, beq_self_eq_true, h.1, hall _ h.2, Bool.and_self, Bool.and_self]

/-! ## Pools -/

namespace CutPool

variable {p p' : CutPool K} {c d : Cut K} {state : Option (Datum K)} {new : Bool}

/-- The pool stores the cut, or one that is the same. -/
structure Has (p : CutPool K) (c : Cut K) : Prop where
  dimension : p.dimension = some c.dimension
  stored : p.contains c = true

/-- Without a state to track, nothing happens to a pool that stores a cut again. -/
theorem Has.store (h : p.Has c) : p.store c none = .ok (false, p) := by
  have hcheck : p.checkCut c = .ok p := by
    simp only [checkCut, h.dimension, Option.getD_some, beq_self_eq_true, if_true]
    rw [← h.dimension]
  have hstore : p.store c none = p.storeAt c none := rfl
  rw [hstore, storeAt, hcheck]
  cases hselection : p.selection <;> simp [bind, Except.bind, pure, Except.pure, h.stored, hselection]

theorem has_of_store (hself : c.same c = true) (h : p.store c state = .ok (new, p')) : p'.Has c := by
  refine ⟨(dimension_of_store h).1, ?_⟩
  rw [contains, (store_eq_ok h).2]
  obtain ⟨e, he, hsame⟩ := Cut.exists_mem_insertNew p.cuts c
  exact List.any_eq_true.2 ⟨e, he, hsame.elim (fun heq => heq ▸ hself) id⟩

theorem Has.of_store (hc : p.Has c) (h : p.store d state = .ok (new, p')) : p'.Has c := by
  refine ⟨dimension_store hc.dimension h, ?_⟩
  obtain ⟨e, he, hsame⟩ := List.any_eq_true.1 hc.stored
  rw [contains, (store_eq_ok h).2]
  exact List.any_eq_true.2 ⟨e, Cut.subset_insertNew p.cuts d he, hsame⟩

end CutPool

/-! ## Costs to go -/

namespace CostToGo

variable {v v' : CostToGo K} {m m' : Subproblem K} {cut other : Cut K} {rib rib' : Option K}
  {state : Option (Datum K)} {new : Bool} {i : ℕ}

/-- A cut is among those that have a row on the variable of a rib, if there is one. -/
def IsInstalled (v : CostToGo K) (i : ℕ) (cut : Cut K) : Prop :=
  v.vars[i]? = none ∨ (v.installed.getD i []).any cut.same = true

/-- The cost-to-go takes the cut at this rib, and has taken it. -/
structure HasCut (v : CostToGo K) (rib : Option K) (cut : Cut K) : Prop where
  check : v.checkCut cut = .ok ()
  place : ∃ i pool, v.ribIndex rib = .ok i ∧ v.pools[i]? = some pool ∧ pool.Has cut ∧
    v.IsInstalled i cut

/-- What a cost-to-go has taken does not change it any more. -/
theorem HasCut.installCut (h : v.HasCut rib cut) (m : Subproblem K) :
    v.installCut cut rib none m = .ok (false, v, m) := by
  obtain ⟨i, pool, hi, hpool, hhas, hinstalled⟩ := h.place
  rw [installCut_of_store h.check hi hpool hhas.store m]
  obtain ⟨hlt, rfl⟩ := List.getElem?_eq_some_iff.1 hpool
  have hpools : { v with pools := v.pools.set i v.pools[i] } = v := by rw [List.set_getElem_self]
  rw [hpools]
  rcases hinstalled with hvar | hany
  · simp only [installRow, hvar]
  · cases hvar : v.vars[i]? with
    | none => simp only [installRow, hvar]
    | some x => simp only [installRow, hvar, if_pos hany]

theorem isInstalled_installRow (hroom : v.vars.length ≤ v.installed.length)
    (hself : cut.same cut = true) : (v.installRow i cut m).1.IsInstalled i cut := by
  rcases installRow_cases v i cut m with ⟨heq, hany | hvar⟩ | ⟨x, hx, heq⟩ <;> rw [heq]
  · exact Or.inr hany
  · exact Or.inl hvar
  · have hi : i < v.installed.length := (List.getElem?_eq_some_iff.1 hx).1.trans_le hroom
    refine Or.inr ?_
    rw [getD_modify _ _ hi, if_pos rfl, List.any_append, List.any_cons, hself, Bool.true_or,
      Bool.or_true]

theorem IsInstalled.installRow (h : v.IsInstalled i cut) (j : ℕ) (other : Cut K) (m : Subproblem K) :
    (v.installRow j other m).1.IsInstalled i cut := by
  rcases installRow_cases v j other m with ⟨heq, -⟩ | ⟨x, -, heq⟩ <;> rw [heq]
  · exact h
  · refine h.imp id fun hany => ?_
    obtain ⟨e, he, hsame⟩ := List.any_eq_true.1 hany
    exact List.any_eq_true.2 ⟨e, Node.subset_getD_modify v.installed j i other he, hsame⟩

theorem hasCut_of_installCut (hroom : v.vars.length ≤ v.installed.length)
    (hself : cut.same cut = true) (h : v.installCut cut rib state m = .ok (new, v', m')) :
    v'.HasCut rib cut := by
  obtain ⟨hcheck, i, pool, pool', hi, hpool, hstore, hrow⟩ := installCut_eq_ok h
  have hv : v' = _ := congrArg Prod.fst hrow
  have hinstalled : v'.IsInstalled i cut := hv ▸ isInstalled_installRow hroom hself
  obtain ⟨installed, hfst, -⟩ := exists_installRow { v with pools := v.pools.set i pool' } i cut m
  obtain rfl := hv.trans hfst
  exact ⟨hcheck, i, pool', hi, List.getElem?_set_self (List.getElem?_eq_some_iff.1 hpool).1,
    CutPool.has_of_store hself hstore, hinstalled⟩

theorem HasCut.of_installCut (hcut : v.HasCut rib cut)
    (h : v.installCut other rib' state m = .ok (new, v', m')) : v'.HasCut rib cut := by
  obtain ⟨-, j, pool, pool', hj, hpool, hstore, hrow⟩ := installCut_eq_ok h
  obtain ⟨i, held, hi, hheld, hhas, hinstalled⟩ := hcut.place
  have hv : v' = _ := congrArg Prod.fst hrow
  have hbefore : IsInstalled { v with pools := v.pools.set j pool' } i cut := hinstalled
  have hafter : v'.IsInstalled i cut := hv ▸ hbefore.installRow j other m
  obtain ⟨installed, hfst, -⟩ := exists_installRow { v with pools := v.pools.set j pool' } j other m
  obtain rfl := hv.trans hfst
  refine ⟨hcut.check, i, ?_⟩
  by_cases hij : j = i
  · subst hij
    obtain rfl : held = pool := Option.some.inj (hheld.symm.trans hpool)
    exact ⟨pool', hi, List.getElem?_set_self (List.getElem?_eq_some_iff.1 hpool).1,
      hhas.of_store hstore, hafter⟩
  · exact ⟨held, hi, (List.getElem?_set_ne hij).trans hheld, hhas, hafter⟩

/-! ### Counting -/

omit [Numeral K] in
/-- A sum over a list of which one item was changed. -/
theorem sum_map_modify {A : Type} (f : A → ℕ) (u : A → A) {xs : List A} {i : ℕ} {a : A}
    (h : xs[i]? = some a) : ((xs.modify i u).map f).sum + f a = (xs.map f).sum + f (u a) := by
  induction xs generalizing i with
  | nil => simp at h
  | cons b xs ih =>
    cases i with
    | zero =>
      obtain rfl : b = a := by simpa using h
      simp only [List.modify_zero_cons, List.map_cons, List.sum_cons]
      omega
    | succ i =>
      have hrest := ih (i := i) (by simpa using h)
      simp only [List.modify_succ_cons, List.map_cons, List.sum_cons]
      omega

omit [Numeral K] in
theorem cutCount_eq_sum (v : CostToGo K) : v.cutCount = (v.pools.map CutPool.size).sum := by
  rw [cutCount, List.sum_eq_foldl, List.foldl_map]

/-- One cut more is counted if it is new. -/
theorem cutCount_installCut (h : v.installCut cut rib state m = .ok (new, v', m')) :
    v'.cutCount = v.cutCount + new.toNat := by
  obtain ⟨-, i, pool, pool', -, hpool, hstore, hrow⟩ := installCut_eq_ok h
  obtain ⟨installed, hfst, -⟩ := exists_installRow { v with pools := v.pools.set i pool' } i cut m
  obtain rfl := (congrArg Prod.fst hrow).trans hfst
  obtain ⟨hnew, hcuts⟩ := CutPool.store_eq_ok hstore
  have hsize : pool'.size = pool.size + new.toNat := by
    rw [CutPool.size, hcuts, Cut.insertNew, ← CutPool.contains, hnew, CutPool.size]
    cases pool.contains cut <;> simp
  have hsum := sum_map_modify CutPool.size (fun _ => pool') hpool
  rw [← List.set_eq_modify] at hsum
  rw [cutCount_eq_sum, cutCount_eq_sum]
  dsimp only
  omega

end CostToGo

end DualDynamic
