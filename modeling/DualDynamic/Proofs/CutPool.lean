import DualDynamic.Proofs.Cut
import DualDynamic.Proofs.Step
import DualDynamic.CutPool

/-!
# Stored cuts

Whatever a pool does to tell active cuts from retired ones, it stores every cut that it is given and
no other one, each once.
-/

namespace DualDynamic

open Step

variable {K : Type} [Numeral K]

namespace CutPool

variable {p p' : CutPool K} {c : Cut K} {state : Option (Datum K)} {new : Bool}

theorem cuts_addCompeting (tolerance : K) (c : Cut K) (p : CutPool K) :
    (p.addCompeting tolerance c).cuts = p.cuts ++ [c] := rfl

theorem cuts_track (tolerance : K) (state : List K) (p : CutPool K) :
    (p.track tolerance state).cuts = p.cuts := by
  simp only [track]
  split <;> rfl

omit [Numeral K] in
theorem checkCut_eq_ok (h : p.checkCut c = .ok p') :
    p'.cuts = p.cuts ∧ p'.selection = p.selection := by
  simp only [checkCut] at h
  split_ifs at h
  obtain rfl := Except.ok.inj h
  exact ⟨rfl, rfl⟩

theorem storeAt_eq_ok {state : Option (List K)} (h : p.storeAt c state = .ok (new, p')) :
    new = !p.contains c ∧ p'.cuts = Cut.insertNew p.cuts c := by
  obtain ⟨q, hcheck, h⟩ := exceptBind_eq_ok.1 h
  obtain ⟨hcuts, -⟩ := checkCut_eq_ok hcheck
  have hcontains : q.contains c = p.contains c := by rw [contains, contains, hcuts]
  have hinsert : Cut.insertNew p.cuts c = if p.contains c then p.cuts else p.cuts ++ [c] := rfl
  simp only [hcontains] at h
  rw [hinsert]
  cases hselection : q.selection with
  | keepAll =>
    rw [hselection] at h
    obtain ⟨rfl, rfl⟩ := Prod.mk.inj (Except.ok.inj h)
    refine ⟨rfl, ?_⟩
    cases p.contains c <;> simp [hcuts]
  | levelOne tolerance =>
    rw [hselection] at h
    obtain ⟨rfl, rfl⟩ := Prod.mk.inj (Except.ok.inj h)
    refine ⟨rfl, ?_⟩
    cases state <;> cases p.contains c <;> simp [cuts_track, cuts_addCompeting, hcuts]

/-- A state is read before the cut is looked at. -/
theorem exists_storeAt (h : p.store c state = .ok (new, p')) :
    ∃ read, p.storeAt c read = .ok (new, p') := by
  cases state with
  | none => exact ⟨none, h⟩
  | some d =>
    obtain ⟨read, -, hstored⟩ := exceptBind_eq_ok.1 h
    exact ⟨read, hstored⟩

/-- A cut that is stored is new unless the same one is there already, and is put behind the others. -/
theorem store_eq_ok (h : p.store c state = .ok (new, p')) :
    new = !p.contains c ∧ p'.cuts = Cut.insertNew p.cuts c := by
  obtain ⟨read, hstored⟩ := exists_storeAt h
  exact storeAt_eq_ok hstored

theorem mem_store (h : p.store c state = .ok (new, p')) {d : Cut K} (hd : d ∈ p'.cuts) :
    d ∈ p.cuts ∨ d = c := by
  rw [(store_eq_ok h).2] at hd
  exact Cut.mem_of_mem_insertNew hd

theorem selection_track (tolerance : K) (state : List K) (p : CutPool K) :
    (p.track tolerance state).selection = p.selection := by
  simp only [track]
  split <;> rfl

theorem selection_store (h : p.store c state = .ok (new, p')) : p'.selection = p.selection := by
  obtain ⟨read, hstored⟩ := exists_storeAt h
  obtain ⟨q, hcheck, hstored⟩ := exceptBind_eq_ok.1 hstored
  rw [← (checkCut_eq_ok hcheck).2]
  cases hselection : q.selection with
  | keepAll =>
    rw [hselection] at hstored
    obtain ⟨-, rfl⟩ := Prod.mk.inj (Except.ok.inj hstored)
    rw [← hselection]
    split_ifs <;> rfl
  | levelOne tolerance =>
    rw [hselection] at hstored
    obtain ⟨-, rfl⟩ := Prod.mk.inj (Except.ok.inj hstored)
    have hgrown : (if (!q.contains c) = true then q.addCompeting tolerance c else q).selection =
        .levelOne tolerance := by
      rw [← hselection]
      split_ifs <;> rfl
    cases read with
    | none => exact hgrown
    | some x => rw [← hgrown]; exact selection_track ..

/-! ## Active cuts -/

omit [Numeral K] in
/-- The items at the positions of a list are the items of the list. -/
theorem filterMap_getElem? {A : Type} (xs : List A) :
    ((List.range xs.length).filterMap fun i => xs[i]?) = xs := by
  have hmap : ((List.range xs.length).map fun i => xs[i]?) = xs.map some := by
    refine List.ext_getElem (by simp) fun j hj _ => ?_
    simp [List.getElem?_eq_getElem (show j < xs.length by simpa using hj)]
  calc ((List.range xs.length).filterMap fun i => xs[i]?)
      = ((List.range xs.length).map fun i => xs[i]?).filterMap id := by simp [List.filterMap_map]
    _ = xs := by rw [hmap, List.filterMap_map]; simp

omit [Numeral K] in
/-- The active cuts are among the cuts, in the same order. -/
theorem active_sublist (p : CutPool K) : p.active.Sublist p.cuts := by
  have hall := filterMap_getElem? p.cuts
  conv_rhs => rw [← hall]
  exact List.filter_sublist.filterMap _

omit [Numeral K] in
theorem mem_of_active (h : c ∈ p.active) : c ∈ p.cuts := p.active_sublist.subset h

omit [Numeral K] in
/-- A pool that does not tell active cuts from retired ones has all of them active. -/
theorem active_eq_cuts (h : p.isSelective = false) : p.active = p.cuts := by
  have hpositions : p.activePositions = List.range p.cuts.length := by
    simp [activePositions, h, size]
  rw [active, hpositions, filterMap_getElem?]

omit [Numeral K] in
/-- A pool that keeps all cuts active does so. -/
theorem active_keepAll (h : p.selection = .keepAll) : p.active = p.cuts :=
  active_eq_cuts (by simp [isSelective, Selection.prunes, h])

end CutPool

end DualDynamic
