import DualDynamic.Proofs.Exact
import DualDynamic.CutRecord

/-!
# The identity of cuts

Two cuts are the same if their numbers are equal. Where equality of numbers is transitive, so is this
relation, and a list that takes every cut once answers the question whether a cut is in it just
as the list of all cuts does. In exact arithmetic being the same is an equivalence.

On floats a cut with a NaN is not the same as itself. `Cut.Alike` relates it to the cuts with just its
numbers; so this is an equivalence on floats too.
-/

namespace DualDynamic

deriving instance DecidableEq for Cut

variable {K : Type}

section Numerals

variable [Scalar K]

namespace Scalar

/-- Equality of scalars is transitive: in exact arithmetic, and on floats too. -/
def EqTransitive (K : Type) [Scalar K] : Prop :=
  ∀ a b c : K, Scalar.eq a b = true → Scalar.eq b c = true → Scalar.eq a c = true

/-- Equality of scalars is symmetric: in exact arithmetic, and on floats too. -/
def EqSymmetric (K : Type) [Scalar K] : Prop :=
  ∀ a b : K, Scalar.eq a b = true → Scalar.eq b a = true

theorem eqAll_cons_iff {x y : K} {xs ys : List K} :
    eqAll (x :: xs) (y :: ys) = true ↔ Scalar.eq x y = true ∧ eqAll xs ys = true := by
  simp only [Scalar.eqAll, List.length_cons, List.zipWith_cons_cons, List.all_cons, id_eq,
    Bool.and_eq_true, beq_iff_eq, Nat.add_right_cancel_iff]
  exact and_left_comm

theorem EqSymmetric.eqAll (h : EqSymmetric K) {xs ys : List K} (hxy : eqAll xs ys = true) :
    eqAll ys xs = true := by
  induction xs generalizing ys with
  | nil =>
    cases ys with
    | nil => exact hxy
    | cons y ys => simp [Scalar.eqAll] at hxy
  | cons x xs ih =>
    cases ys with
    | nil => simp [Scalar.eqAll] at hxy
    | cons y ys =>
      obtain ⟨hfirst, hrest⟩ := eqAll_cons_iff.1 hxy
      exact eqAll_cons_iff.2 ⟨h x y hfirst, ih hrest⟩

theorem EqTransitive.eqAll (h : EqTransitive K) {xs ys zs : List K} (hxy : eqAll xs ys = true)
    (hyz : eqAll ys zs = true) : eqAll xs zs = true := by
  induction xs generalizing ys zs with
  | nil =>
    cases ys with
    | nil => exact hyz
    | cons y ys => simp [Scalar.eqAll] at hxy
  | cons x xs ih =>
    cases ys with
    | nil => simp [Scalar.eqAll] at hxy
    | cons y ys =>
      cases zs with
      | nil => simp [Scalar.eqAll] at hyz
      | cons z zs =>
        obtain ⟨hxy, htxy⟩ := eqAll_cons_iff.1 hxy
        obtain ⟨hyz, htyz⟩ := eqAll_cons_iff.1 hyz
        exact eqAll_cons_iff.2 ⟨h x y z hxy hyz, ih htxy htyz⟩

end Scalar

namespace Cut

theorem same_trans (h : Scalar.EqTransitive K) {a b c : Cut K} (hab : a.same b = true)
    (hbc : b.same c = true) : a.same c = true := by
  simp only [same, Bool.and_eq_true, beq_iff_eq] at hab hbc ⊢
  exact ⟨⟨hab.1.1.trans hbc.1.1, h _ _ _ hab.1.2 hbc.1.2⟩, h.eqAll hab.2 hbc.2⟩

theorem same_symm (h : Scalar.EqSymmetric K) {a b : Cut K} (hab : a.same b = true) :
    b.same a = true := by
  simp only [same, Bool.and_eq_true, beq_iff_eq] at hab ⊢
  exact ⟨⟨hab.1.1.symm, h _ _ hab.1.2⟩, h.eqAll hab.2⟩

theorem any_insertNew (h : Scalar.EqTransitive K) (cuts : List (Cut K)) (c d : Cut K) :
    (insertNew cuts c).any d.same = (cuts ++ [c]).any d.same := by
  unfold insertNew
  split_ifs with hany
  · -- What is the same as the cut left out is the same as the one it was left out for.
    obtain ⟨e, he, hce⟩ := List.any_eq_true.1 hany
    rw [List.any_append, List.any_cons, List.any_nil, Bool.or_false, Bool.eq_iff_iff, Bool.or_eq_true]
    refine ⟨Or.inl, fun hd => hd.elim id fun hdc => ?_⟩
    exact List.any_eq_true.2 ⟨e, he, same_trans h hdc hce⟩
  · rfl

/-- A list that takes every cut once holds the same cuts as the list of all. -/
theorem any_foldl_insertNew (h : Scalar.EqTransitive K) (cuts more : List (Cut K)) (d : Cut K) :
    (more.foldl insertNew cuts).any d.same = (cuts ++ more).any d.same := by
  induction more generalizing cuts with
  | nil => simp
  | cons c more ih =>
    rw [List.foldl_cons, ih, List.any_append, any_insertNew h]
    simp [Bool.or_assoc]

theorem mem_of_mem_insertNew {cuts : List (Cut K)} {c d : Cut K} (h : d ∈ insertNew cuts c) :
    d ∈ cuts ∨ d = c := by
  unfold insertNew at h
  split_ifs at h
  · exact Or.inl h
  · simpa using h

theorem subset_insertNew (cuts : List (Cut K)) (c : Cut K) : cuts ⊆ insertNew cuts c := by
  unfold insertNew
  split_ifs
  · exact List.Subset.refl _
  · exact List.subset_append_left _ _

/-- A cut that was handed in is there, or one that is the same. -/
theorem exists_mem_insertNew (cuts : List (Cut K)) (c : Cut K) :
    ∃ d ∈ insertNew cuts c, d = c ∨ c.same d = true := by
  unfold insertNew
  split_ifs with hany
  · obtain ⟨d, hd, hsame⟩ := List.any_eq_true.1 hany
    exact ⟨d, hd, Or.inr hsame⟩
  · exact ⟨c, by simp, Or.inl rfl⟩

theorem mem_of_mem_foldl_insertNew {cuts more : List (Cut K)} {d : Cut K}
    (h : d ∈ more.foldl insertNew cuts) : d ∈ cuts ∨ d ∈ more := by
  induction more generalizing cuts with
  | nil => exact Or.inl h
  | cons c more ih =>
    rcases ih h with h | h
    · rcases mem_of_mem_insertNew h with h | rfl
      · exact Or.inl h
      · simp
    · simp [h]

/-! ## Lists without repetition -/

/-- No cut of the list is the same as one before it. -/
def Distinct (cuts : List (Cut K)) : Prop := cuts.Pairwise fun c d => d.same c = false

theorem Distinct.concat {cuts : List (Cut K)} {c : Cut K} (h : Distinct cuts)
    (hc : cuts.any c.same = false) : Distinct (cuts ++ [c]) := by
  rw [Distinct, List.pairwise_append]
  refine ⟨h, List.pairwise_singleton _ _, fun d hd e he => ?_⟩
  obtain rfl := List.mem_singleton.1 he
  exact Bool.eq_false_iff.2 fun hsame =>
    Bool.eq_false_iff.1 hc (List.any_eq_true.2 ⟨d, hd, hsame⟩)

theorem Distinct.insertNew {cuts : List (Cut K)} (h : Distinct cuts) (c : Cut K) :
    Distinct (insertNew cuts c) := by
  unfold Cut.insertNew
  split_ifs with hany
  · exact h
  · exact h.concat (by simpa using hany)

theorem Distinct.foldl_insertNew {cuts : List (Cut K)} (h : Distinct cuts) (more : List (Cut K)) :
    Distinct (more.foldl Cut.insertNew cuts) := by
  induction more generalizing cuts with
  | nil => exact h
  | cons c more ih => exact ih (h.insertNew c)

/-- Distinct cuts are all taken. -/
theorem foldl_insertNew_of_distinct {cuts more : List (Cut K)} (h : Distinct (cuts ++ more)) :
    more.foldl insertNew cuts = cuts ++ more := by
  induction more generalizing cuts with
  | nil => simp
  | cons c more ih =>
    have hnew : cuts.any c.same = false := by
      have hbefore := (List.pairwise_append.1 h).2.2
      exact List.any_eq_false.2 fun d hd => Bool.eq_false_iff.1 (hbefore d hd c (by simp))
    have hassoc : cuts ++ c :: more = (cuts ++ [c]) ++ more := by simp
    rw [hassoc] at h ⊢
    rw [List.foldl_cons, insertNew, hnew]
    exact ih h

theorem Distinct.foldl_insertNew_nil {cuts : List (Cut K)} (h : Distinct cuts) :
    cuts.foldl Cut.insertNew [] = cuts := foldl_insertNew_of_distinct h

/-! ## The numbers of cuts -/

omit [Scalar K] in
/-- The numbers of a cut. -/
def bare (c : Cut K) : Cut K := { c with stage := none, markov := none, iteration := none }

omit [Scalar K] in
@[simp] theorem bare_bare (c : Cut K) : c.bare.bare = c.bare := rfl

@[simp] theorem bare_same (c d : Cut K) : c.bare.same d = c.same d := rfl

@[simp] theorem same_bare (c d : Cut K) : c.same d.bare = c.same d := rfl

theorem any_same_map_bare (c : Cut K) (cuts : List (Cut K)) :
    (cuts.map bare).any c.same = cuts.any c.same := by
  rw [List.any_map]
  rfl

/-- Cuts with the same numbers, or with equal ones. -/
def Alike (c d : Cut K) : Prop := c.bare = d.bare ∨ c.same d = true

/-- A cut like this one is in the list. -/
def Among (c : Cut K) (cuts : List (Cut K)) : Prop := ∃ d ∈ cuts, c.Alike d

theorem Alike.refl (c : Cut K) : c.Alike c := Or.inl rfl

theorem Alike.symm (h : Scalar.EqSymmetric K) {c d : Cut K} (hcd : c.Alike d) : d.Alike c :=
  hcd.imp Eq.symm (same_symm h)

theorem Alike.trans (h : Scalar.EqTransitive K) {c d e : Cut K} (hcd : c.Alike d) (hde : d.Alike e) :
    c.Alike e := by
  rcases hcd with hcd | hcd
  · rcases hde with hde | hde
    · exact Or.inl (hcd.trans hde)
    · right
      rwa [← bare_same, hcd, bare_same]
  · right
    rcases hde with hde | hde
    · rwa [← same_bare, ← hde, same_bare]
    · exact same_trans h hcd hde

theorem Among.of_alike (h : Scalar.EqTransitive K) {c d : Cut K} {cuts : List (Cut K)}
    (hcd : c.Alike d) (hd : d.Among cuts) : c.Among cuts := by
  obtain ⟨e, he, hde⟩ := hd
  exact ⟨e, he, hcd.trans h hde⟩

theorem among_map_bare (c : Cut K) (cuts : List (Cut K)) :
    c.Among (cuts.map bare) ↔ c.Among cuts := by
  simp [Among, Alike]

theorem among_append {c : Cut K} {cuts more : List (Cut K)} :
    c.Among (cuts ++ more) ↔ c.Among cuts ∨ c.Among more := by
  simp [Among, or_and_right, exists_or]

theorem among_insertNew (h : Scalar.EqTransitive K) (cuts : List (Cut K)) (c d : Cut K) :
    d.Among (insertNew cuts c) ↔ d.Among (cuts ++ [c]) := by
  unfold insertNew
  split_ifs with hany
  · rw [among_append]
    refine ⟨Or.inl, fun hd => hd.elim id ?_⟩
    rintro ⟨c', hc', halike⟩
    obtain rfl := List.mem_singleton.1 hc'
    obtain ⟨e, he, hce⟩ := List.any_eq_true.1 hany
    exact ⟨e, he, halike.trans h (Or.inr hce)⟩
  · rfl

/-- A list that takes every cut once has the cuts of the list of all among it. -/
theorem among_foldl_insertNew (h : Scalar.EqTransitive K) (cuts more : List (Cut K)) (d : Cut K) :
    d.Among (more.foldl insertNew cuts) ↔ d.Among cuts ∨ d.Among more := by
  induction more generalizing cuts with
  | nil => simp [Among]
  | cons c more ih =>
    have hcons : d.Among ([c] ++ more) ↔ d.Among [c] ∨ d.Among more := among_append
    rw [List.singleton_append] at hcons
    rw [List.foldl_cons, ih, among_insertNew h, among_append, or_assoc, hcons]

end Cut

end Numerals

/-! ## Exact arithmetic -/

section Exact

variable [ExactNumeral K]

theorem Scalar.eqSymmetric : Scalar.EqSymmetric K := by
  intro a b hab
  rw [Scalar.eq_iff] at *
  exact hab.symm

theorem Scalar.eqTransitive : Scalar.EqTransitive K := by
  intro a b c hab hbc
  rw [Scalar.eq_iff] at *
  exact hab.trans hbc

theorem Scalar.eqAll_iff {xs ys : List K} : Scalar.eqAll xs ys = true ↔ xs = ys := by
  induction xs generalizing ys with
  | nil => cases ys <;> simp [Scalar.eqAll]
  | cons x xs ih =>
    cases ys with
    | nil => simp [Scalar.eqAll]
    | cons y ys => rw [Scalar.eqAll_cons_iff, Scalar.eq_iff, ih, List.cons.injEq]

namespace Cut

variable {c d : Cut K}

theorem same_iff : c.same d = true ↔
    c.side = d.side ∧ c.intercept = d.intercept ∧ c.coefficients = d.coefficients := by
  simp only [same, Bool.and_eq_true, beq_iff_eq, Scalar.eq_iff, Scalar.eqAll_iff, and_assoc]

@[simp] theorem same_refl (c : Cut K) : c.same c = true := same_iff.2 ⟨rfl, rfl, rfl⟩

theorem evaluate_of_same (h : c.same d = true) (state : List K) :
    c.evaluate state = d.evaluate state := by
  obtain ⟨-, hintercept, hcoefficients⟩ := same_iff.1 h
  rw [evaluate, evaluate, hintercept, hcoefficients]

end Cut

end Exact

end DualDynamic
