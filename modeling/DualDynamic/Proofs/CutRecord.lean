import DualDynamic.Proofs.Cut

/-!
# What is known of records

A receiver of records keeps what it knows. Where equality of numbers is symmetric and transitive, as
it is on floats too, the fresh records of those that come are all that is missing to know them
(`among_fresh`), and no two of them are the same, nor the same as a known one.

On floats a record with a NaN is not the same as itself. So records count as known if a record that is
`Alike` is known: the same one, or one with the same numbers.
-/

namespace DualDynamic.CutRecord

variable {K : Type}

/-- The record of the numbers of a cut. -/
def bare (r : CutRecord K) : CutRecord K := { r with cut := r.cut.bare }

variable [Scalar K] {known records seen more : List (CutRecord K)} {r s t : CutRecord K}

/-! ## Records alike -/

theorem sameRib_symm (h : Scalar.EqSymmetric K) {a b : Option K} (hab : sameRib a b = true) :
    sameRib b a = true := by
  cases a <;> cases b <;> first | exact hab | exact h _ _ hab

theorem sameRib_trans (h : Scalar.EqTransitive K) {a b c : Option K} (hab : sameRib a b = true)
    (hbc : sameRib b c = true) : sameRib a c = true := by
  cases a <;> cases b <;> cases c <;> first
    | rfl
    | exact absurd hab Bool.false_ne_true
    | exact absurd hbc Bool.false_ne_true
    | exact h _ _ _ hab hbc

theorem same_iff : r.same s = true ↔
    r.stage = s.stage ∧ r.markov = s.markov ∧ sameRib r.rib s.rib = true ∧ r.cut.same s.cut = true := by
  simp only [same, Bool.and_eq_true, beq_iff_eq, and_assoc]

theorem same_symm (h : Scalar.EqSymmetric K) (hrs : r.same s = true) : s.same r = true := by
  obtain ⟨hstage, hmarkov, hrib, hcut⟩ := same_iff.1 hrs
  exact same_iff.2 ⟨hstage.symm, hmarkov.symm, sameRib_symm h hrib, Cut.same_symm h hcut⟩

theorem same_comm (h : Scalar.EqSymmetric K) (r s : CutRecord K) : r.same s = s.same r :=
  Bool.eq_iff_iff.2 ⟨same_symm h, same_symm h⟩

theorem same_trans (h : Scalar.EqTransitive K) (hrs : r.same s = true) (hst : s.same t = true) :
    r.same t = true := by
  obtain ⟨hstage, hmarkov, hrib, hcut⟩ := same_iff.1 hrs
  obtain ⟨hstage', hmarkov', hrib', hcut'⟩ := same_iff.1 hst
  exact same_iff.2 ⟨hstage.trans hstage', hmarkov.trans hmarkov', sameRib_trans h hrib hrib',
    Cut.same_trans h hcut hcut'⟩

@[simp] theorem bare_same (r s : CutRecord K) : r.bare.same s = r.same s := rfl

@[simp] theorem same_bare (r s : CutRecord K) : r.same s.bare = r.same s := rfl

/-- Records of the same numbers at the same place, or of equal ones. -/
def Alike (r s : CutRecord K) : Prop := r.bare = s.bare ∨ r.same s = true

/-- A record like this one is in the list. -/
def Among (r : CutRecord K) (records : List (CutRecord K)) : Prop := ∃ s ∈ records, r.Alike s

theorem Alike.refl (r : CutRecord K) : r.Alike r := Or.inl rfl

theorem Alike.trans (h : Scalar.EqTransitive K) (hrs : r.Alike s) (hst : s.Alike t) : r.Alike t := by
  rcases hrs with hrs | hrs
  · rcases hst with hst | hst
    · exact Or.inl (hrs.trans hst)
    · right
      rwa [← bare_same, hrs, bare_same]
  · right
    rcases hst with hst | hst
    · rwa [← same_bare, ← hst, same_bare]
    · exact same_trans h hrs hst

theorem Alike.cut (h : r.Alike s) : r.cut.Alike s.cut :=
  h.imp (congrArg CutRecord.cut) fun hsame => (same_iff.1 hsame).2.2.2

theorem among_of_mem (h : r ∈ records) : r.Among records := ⟨r, h, .refl r⟩

theorem Among.of_alike (h : Scalar.EqTransitive K) (hrs : r.Alike s) (hs : s.Among records) :
    r.Among records := by
  obtain ⟨t, ht, hst⟩ := hs
  exact ⟨t, ht, hrs.trans h hst⟩

theorem Among.trans (h : Scalar.EqTransitive K) (hr : r.Among records)
    (hall : ∀ s ∈ records, s.Among more) : r.Among more := by
  obtain ⟨s, hs, hrs⟩ := hr
  exact (hall s hs).of_alike h hrs

theorem among_append : r.Among (records ++ more) ↔ r.Among records ∨ r.Among more := by
  simp [Among, or_and_right, exists_or]

theorem among_of_isIn (h : r.isIn records = true) : r.Among records := by
  obtain ⟨s, hs, hrs⟩ := List.any_eq_true.1 h
  exact ⟨s, hs, Or.inr hrs⟩

/-! ## Learning -/

theorem mem_of_mem_learn (h : s ∈ learn known r) : s ∈ known ∨ s = r := by
  unfold learn at h
  split_ifs at h
  · exact Or.inl h
  · simpa using h

theorem mem_of_mem_learnAll (h : s ∈ learnAll known records) : s ∈ known ∨ s ∈ records := by
  induction records generalizing known with
  | nil => exact Or.inl h
  | cons r records ih =>
    rcases ih h with h | h
    · rcases mem_of_mem_learn h with h | rfl
      · exact Or.inl h
      · simp
    · simp [h]

theorem among_learn (h : Scalar.EqTransitive K) :
    s.Among (learn known r) ↔ s.Among known ∨ s.Among [r] := by
  rw [← among_append]
  unfold learn
  split_ifs with hknown
  · rw [among_append]
    refine ⟨Or.inl, fun hs => hs.elim id ?_⟩
    rintro ⟨t, ht, hst⟩
    obtain rfl := List.mem_singleton.1 ht
    exact (among_of_isIn hknown).of_alike h hst
  · rfl

/-- What is learned is known afterwards, and nothing else. -/
theorem among_learnAll (h : Scalar.EqTransitive K) :
    s.Among (learnAll known records) ↔ s.Among known ∨ s.Among records := by
  induction records generalizing known with
  | nil => simp [learnAll, Among]
  | cons r records ih =>
    have hcons : s.Among ([r] ++ records) ↔ s.Among [r] ∨ s.Among records := among_append
    rw [List.singleton_append] at hcons
    have hfold : learnAll known (r :: records) = learnAll (learn known r) records := rfl
    rw [hfold, ih, among_learn h, or_assoc, hcons]

/-! ## Fresh records -/

theorem mem_of_mem_freshAfter (h : s ∈ freshAfter known seen records) :
    s ∈ records ∧ s.isIn known = false ∧ s.isIn seen = false := by
  induction records generalizing seen with
  | nil => simp [freshAfter] at h
  | cons r records ih =>
    rw [freshAfter] at h
    split_ifs at h with hold
    · obtain ⟨hs, hnew⟩ := ih h
      exact ⟨by simp [hs], hnew⟩
    · rcases List.mem_cons.1 h with rfl | h
      · exact ⟨by simp, by simpa using hold⟩
      · obtain ⟨hs, hknown, hseen⟩ := ih h
        refine ⟨by simp [hs], hknown, ?_⟩
        rw [isIn, List.any_cons, Bool.or_eq_false_iff] at hseen
        exact hseen.2

/-- Fresh records are some of those that came, and not known. -/
theorem mem_of_mem_fresh (h : s ∈ fresh records known) : s ∈ records ∧ s.isIn known = false :=
  ⟨(mem_of_mem_freshAfter h).1, (mem_of_mem_freshAfter h).2.1⟩

theorem same_eq_false_of_mem_fresh (hr : r ∈ fresh records known) (hs : s ∈ known) :
    r.same s = false := by
  simpa using List.any_eq_false.1 (mem_of_mem_fresh hr).2 s hs

/-- What is fresh is not the same as anything known. -/
theorem same_eq_false_of_among (h : Scalar.EqTransitive K) (hr : r ∈ fresh records known)
    (hs : s.Among known) : r.same s = false := by
  obtain ⟨t, ht, halike⟩ := hs
  by_contra hsame
  rw [Bool.not_eq_false] at hsame
  have hrt : r.same t = true := by
    rcases halike with hbare | halike
    · rw [← same_bare, ← hbare, same_bare, hsame]
    · exact same_trans h hsame halike
  rw [same_eq_false_of_mem_fresh hr ht] at hrt
  cases hrt

/-- What is not known is fresh when it comes. -/
theorem fresh_of_not_among (hr : ¬ r.Among known) : fresh [r] known = [r] := by
  have hnew : r.isIn known = false := by
    by_contra hold
    exact hr (among_of_isIn (by simpa using hold))
  have hseen : r.isIn [] = false := rfl
  rw [fresh, freshAfter, hnew, hseen]
  rfl

theorem pairwise_freshAfter :
    (freshAfter known seen records).Pairwise fun r s => s.same r = false := by
  induction records generalizing seen with
  | nil => exact .nil
  | cons r records ih =>
    rw [freshAfter]
    split_ifs with hold
    · exact ih
    · refine List.pairwise_cons.2 ⟨fun s hs => ?_, ih⟩
      have hseen := (mem_of_mem_freshAfter hs).2.2
      rw [isIn, List.any_cons, Bool.or_eq_false_iff] at hseen
      exact hseen.1

theorem pairwise_fresh : (fresh records known).Pairwise fun r s => s.same r = false :=
  pairwise_freshAfter

theorem among_freshAfter (h : Scalar.EqTransitive K) (hs : s.Among records) :
    s.Among known ∨ s.Among seen ∨ s.Among (freshAfter known seen records) := by
  induction records generalizing seen with
  | nil =>
    obtain ⟨t, ht, -⟩ := hs
    simp at ht
  | cons r records ih =>
    rw [freshAfter]
    obtain ⟨t, ht, hst⟩ := hs
    split_ifs with hold
    · rcases List.mem_cons.1 ht with rfl | ht
      · rcases Bool.or_eq_true_iff.1 hold with hknown | hseen
        · exact Or.inl ((among_of_isIn hknown).of_alike h hst)
        · exact Or.inr (Or.inl ((among_of_isIn hseen).of_alike h hst))
      · exact ih ⟨t, ht, hst⟩
    · rcases List.mem_cons.1 ht with rfl | ht
      · exact Or.inr (Or.inr ⟨t, by simp, hst⟩)
      · have hrest : s.Among known ∨ s.Among (r :: seen) ∨
            s.Among (freshAfter known (r :: seen) records) := ih ⟨t, ht, hst⟩
        rcases hrest with hknown | ⟨t', ht', hst'⟩ | ⟨t', ht', hst'⟩
        · exact Or.inl hknown
        · rcases List.mem_cons.1 ht' with rfl | ht'
          · exact Or.inr (Or.inr ⟨t', by simp, hst'⟩)
          · exact Or.inr (Or.inl ⟨t', ht', hst'⟩)
        · exact Or.inr (Or.inr ⟨t', by simp [ht'], hst'⟩)

/-- What came is known, or fresh. -/
theorem among_fresh (h : Scalar.EqTransitive K) (hs : s.Among records) :
    s.Among known ∨ s.Among (fresh records known) := by
  have hparts : s.Among known ∨ s.Among [] ∨ s.Among (freshAfter known [] records) :=
    among_freshAfter h hs
  rcases hparts with hknown | ⟨t, ht, -⟩ | hfresh
  · exact Or.inl hknown
  · simp at ht
  · exact Or.inr hfresh

/-- Fresh records are learned as they are. -/
theorem learnAll_fresh (records known : List (CutRecord K)) :
    learnAll known (fresh records known) = known ++ fresh records known := by
  have hall : ∀ rest old : List (CutRecord K), rest.Pairwise (fun r s => s.same r = false) →
      (∀ r ∈ rest, r.isIn old = false) → learnAll old rest = old ++ rest := by
    intro rest
    induction rest with
    | nil => intro old _ _; simp [learnAll]
    | cons r rest ih =>
      intro old hpairwise hnew
      have hlearn : learn old r = old ++ [r] := by
        rw [learn, hnew r (by simp)]
        rfl
      obtain ⟨hr, hrest⟩ := List.pairwise_cons.1 hpairwise
      have hfold : learnAll old (r :: rest) = learnAll (learn old r) rest := rfl
      rw [hfold, hlearn, ih _ hrest fun s hs => ?_, List.append_assoc, List.singleton_append]
      rw [isIn, List.any_append, List.any_cons, List.any_nil, Bool.or_false, hr s hs, Bool.or_false]
      exact hnew s (by simp [hs])
  exact hall _ _ pairwise_fresh fun r hr => (mem_of_mem_fresh hr).2

end DualDynamic.CutRecord
