import DualDynamic.Proofs.CutRecord

/-!
# Batches of records

Records travel in batches, and a batch may come twice, in parts, or overlap with another one. What is
fresh of a batch does not depend on any of this: it is the first record of each kind that is not known
(`firstOccurrences`), and with it the receiver knows as much as with the whole batch (`isIn_fresh`).
Hence what is fresh of two batches in a row is what is fresh of the first one, and then of the second
one for a receiver that has learned the first one (`fresh_append`).

Records are compared without the marks of where their cuts come from, and all that is used of equality
is that it is transitive. Only that a batch brings nothing new when it comes again needs records that
are the same as themselves, as all are without a NaN.
-/

namespace DualDynamic.CutRecord

variable {K : Type} [Scalar K] {known others seen records more : List (CutRecord K)}
  {r s : CutRecord K}

/-! ## Membership -/

@[simp] theorem isIn_nil (r : CutRecord K) : r.isIn [] = false := rfl

@[simp] theorem isIn_cons : r.isIn (s :: records) = (r.same s || r.isIn records) := rfl

@[simp] theorem isIn_append : r.isIn (records ++ more) = (r.isIn records || r.isIn more) :=
  List.any_append

@[simp] theorem isIn_reverse : r.isIn records.reverse = r.isIn records := List.any_reverse

theorem isIn_of_mem (hr : r ∈ records) (hclean : r.same r = true) : r.isIn records = true :=
  List.any_eq_true.2 ⟨r, hr, hclean⟩

theorem isIn_of_same (h : Scalar.EqTransitive K) (hrs : r.same s = true)
    (hs : s.isIn records = true) : r.isIn records = true := by
  obtain ⟨t, ht, hst⟩ := List.any_eq_true.1 hs
  exact List.any_eq_true.2 ⟨t, ht, same_trans h hrs hst⟩

/-- To a list that has a record, the record adds nothing. -/
theorem isIn_or_same (h : Scalar.EqTransitive K) (hs : s.isIn records = true) (r : CutRecord K) :
    (r.isIn records || r.same s) = r.isIn records := by
  cases hrs : r.same s with
  | false => rw [Bool.or_false]
  | true => rw [isIn_of_same h hrs hs, Bool.or_true]

/-- Learning is putting together, as far as membership goes. -/
theorem isIn_learnAll (h : Scalar.EqTransitive K) (known records : List (CutRecord K))
    (r : CutRecord K) : r.isIn (learnAll known records) = r.isIn (known ++ records) := by
  induction records generalizing known with
  | nil => rw [List.append_nil]; rfl
  | cons s records ih =>
    have hlearn : r.isIn (learn known s) = (r.isIn known || r.same s) := by
      unfold learn
      split_ifs with hold
      · rw [isIn_or_same h hold]
      · simp
    show r.isIn (learnAll (learn known s) records) = _
    rw [ih, isIn_append, hlearn, isIn_append, isIn_cons, Bool.or_assoc]

/-! ## Two batches in a row -/

/-- What is fresh depends only on which records have come before. -/
theorem freshAfter_congr {seen' : List (CutRecord K)}
    (hsame : ∀ r : CutRecord K, (r.isIn known || r.isIn seen) = (r.isIn others || r.isIn seen')) :
    freshAfter known seen records = freshAfter others seen' records := by
  induction records generalizing seen seen' with
  | nil => rfl
  | cons r records ih =>
    have hmore : ∀ s : CutRecord K,
        (s.isIn known || s.isIn (r :: seen)) = (s.isIn others || s.isIn (r :: seen')) := by
      intro s
      rw [isIn_cons, isIn_cons, Bool.or_left_comm, hsame, Bool.or_left_comm]
    rw [freshAfter, freshAfter, hsame, ih hsame, ih hmore]

theorem fresh_congr (hsame : ∀ r : CutRecord K, r.isIn known = r.isIn others) :
    fresh records known = fresh records others :=
  freshAfter_congr fun r => by rw [hsame]

theorem freshAfter_append (known seen records more : List (CutRecord K)) :
    freshAfter known seen (records ++ more) = freshAfter known seen records ++
      freshAfter known ((freshAfter known seen records).reverse ++ seen) more := by
  induction records generalizing seen with
  | nil => rfl
  | cons r records ih =>
    rw [List.cons_append, freshAfter, freshAfter]
    split_ifs with hold
    · exact ih seen
    · rw [ih, List.reverse_cons, List.append_assoc]
      rfl

/-- The fresh records stand for all records: whatever has come has been known or seen, or is the same
as a fresh one. -/
theorem isIn_freshAfter (h : Scalar.EqTransitive K) (known seen records : List (CutRecord K))
    (r : CutRecord K) : (r.isIn (known ++ seen) || r.isIn (freshAfter known seen records)) =
      (r.isIn (known ++ seen) || r.isIn records) := by
  induction records generalizing seen with
  | nil => rfl
  | cons s records ih =>
    rw [freshAfter, ← isIn_append, isIn_append, isIn_cons, ← Bool.or_assoc]
    split_ifs with hold
    · rw [← isIn_append] at hold
      rw [isIn_or_same h hold, ih]
    · -- The rest has seen the record `s`.
      have hseen : r.isIn (known ++ s :: seen) = (r.isIn (known ++ seen) || r.same s) := by
        rw [isIn_append, isIn_cons, isIn_append, Bool.or_assoc, Bool.or_comm (r.same s)]
      have hrest := ih (s :: seen)
      rwa [hseen, Bool.or_assoc, ← isIn_cons] at hrest

/-- With the fresh records of a batch one knows as much as with all of it. -/
theorem isIn_fresh (h : Scalar.EqTransitive K) (records known : List (CutRecord K))
    (r : CutRecord K) : r.isIn (known ++ fresh records known) = r.isIn (known ++ records) := by
  have hparts : (r.isIn (known ++ []) || r.isIn (fresh records known)) =
      (r.isIn (known ++ []) || r.isIn records) := isIn_freshAfter h known [] records r
  rwa [List.append_nil, ← isIn_append, ← isIn_append] at hparts

/-- What is fresh of two batches in a row. -/
theorem fresh_append (h : Scalar.EqTransitive K) (records more known : List (CutRecord K)) :
    fresh (records ++ more) known = fresh records known ++ fresh more (known ++ records) := by
  unfold fresh
  rw [freshAfter_append]
  congr 1
  refine freshAfter_congr fun r => ?_
  rw [List.append_nil, isIn_reverse, isIn_nil, Bool.or_false, ← isIn_fresh h records known r,
    isIn_append]
  rfl

/-! ## First occurrences -/

/-- The records that are not known and not the same as an earlier one. -/
def firstOccurrences (records known : List (CutRecord K)) : List (CutRecord K) :=
  (records.zipIdx.filter fun (r, i) => !r.isIn known && !r.isIn (records.take i)).map Prod.fst

theorem firstOccurrences_concat (records known : List (CutRecord K)) (r : CutRecord K) :
    firstOccurrences (records ++ [r]) known =
      firstOccurrences records known ++ fresh [r] (known ++ records) := by
  have hfront : (records.zipIdx.filter fun (s, i) =>
        !s.isIn known && !s.isIn ((records ++ [r]).take i)) =
      records.zipIdx.filter fun (s, i) => !s.isIn known && !s.isIn (records.take i) := by
    refine List.filter_congr fun ⟨s, i⟩ hmem => ?_
    have hi : i < records.length := by simpa using (List.mem_zipIdx hmem).2.1
    simp only [List.take_append_of_le_length hi.le]
  unfold firstOccurrences
  rw [List.zipIdx_append, List.filter_append, List.map_append, hfront]
  congr 1
  rw [fresh, freshAfter, isIn_append, isIn_nil, Bool.or_false, Nat.zero_add, List.zipIdx_singleton]
  cases hold : (r.isIn known || r.isIn records) <;>
    simp only [Bool.or_eq_false_iff, Bool.or_eq_true_iff] at hold
  · simp [hold.1, hold.2, freshAfter]
  · rcases hold with hold | hold <;> simp [hold, freshAfter]

theorem fresh_eq_firstOccurrences (h : Scalar.EqTransitive K) (records known : List (CutRecord K)) :
    fresh records known = firstOccurrences records known := by
  induction records using List.reverseRecOn with
  | nil => rfl
  | append_singleton records r ih => rw [fresh_append h, firstOccurrences_concat, ih]

/-! ## Merging -/

/-- What a receiver finds fresh in batches that come one after the other. It learns what is fresh of
each of them. -/
def mergeAll (known : List (CutRecord K)) : List (List (CutRecord K)) → List (CutRecord K)
  | [] => []
  | records :: batches =>
    fresh records known ++ mergeAll (learnAll known (fresh records known)) batches

/-- What is known is what counts, not how it has been learned. -/
theorem isIn_learnAll_fresh (h : Scalar.EqTransitive K) (records known : List (CutRecord K))
    (r : CutRecord K) :
    r.isIn (learnAll known (fresh records known)) = r.isIn (known ++ records) := by
  rw [learnAll_fresh, isIn_fresh h]

/-- Merging batches one after the other is merging all of them at once. -/
theorem mergeAll_eq (h : Scalar.EqTransitive K) (known : List (CutRecord K))
    (batches : List (List (CutRecord K))) : mergeAll known batches = fresh batches.flatten known := by
  induction batches generalizing known with
  | nil => rfl
  | cons records batches ih =>
    rw [mergeAll, ih, List.flatten_cons, fresh_append h]
    exact congrArg _ (fresh_congr (isIn_learnAll_fresh h records known))

/-- Of records that are known none is fresh. -/
theorem fresh_eq_nil (hknown : ∀ r ∈ records, r.isIn known = true) : fresh records known = [] := by
  refine List.eq_nil_iff_forall_not_mem.2 fun r hr => ?_
  obtain ⟨hmem, hnew⟩ := mem_of_mem_fresh hr
  rw [hknown r hmem] at hnew
  cases hnew

/-- The algebra of fresh records, for records without a NaN. The fresh records of a batch are the first
ones of each kind that is not known. With them the receiver knows what it knew and the whole batch. Of
two batches in a row, the fresh records are those of the first one and then, for a receiver that has
learned it, those of the second one. So a batch that comes twice brings nothing new the second time, and
a batch that is split, anywhere and in any number of parts, brings the same records in the same order. -/
theorem fresh_records_add_up (htrans : Scalar.EqTransitive K) (a b known : List (CutRecord K))
    (hclean : ∀ r ∈ a ++ b, r.same r = true) :
    fresh a known = firstOccurrences a known ∧
    (∀ r : CutRecord K, r.isIn (known ++ fresh a known) = r.isIn (known ++ a) ∧
      r.isIn (learnAll known a) = r.isIn (known ++ a)) ∧
    fresh (a ++ b) known = fresh a known ++ fresh b (learnAll known a) ∧
    (fresh a (learnAll known a) = [] ∧ fresh a (learnAll known (fresh a known)) = [] ∧
      fresh (a ++ a) known = fresh a known) ∧
    ∀ batches : List (List (CutRecord K)), batches.flatten = a →
      mergeAll known batches = fresh a known := by
  have hlearned : ∀ r : CutRecord K, r.isIn (known ++ a) = r.isIn (learnAll known a) :=
    fun r => (isIn_learnAll htrans known a r).symm
  have hmember : ∀ r ∈ a, r.isIn (known ++ a) = true := by
    intro r hr
    rw [isIn_append, isIn_of_mem hr (hclean r (List.mem_append_left b hr)), Bool.or_true]
  refine ⟨fresh_eq_firstOccurrences htrans a known,
    fun r => ⟨isIn_fresh htrans a known r, (hlearned r).symm⟩, ?_, ⟨?_, ?_, ?_⟩, ?_⟩
  · rw [fresh_append htrans, fresh_congr hlearned]
  · exact fresh_eq_nil fun r hr => by rw [← hlearned, hmember r hr]
  · exact fresh_eq_nil fun r hr => by rw [isIn_learnAll_fresh htrans, hmember r hr]
  · rw [fresh_append htrans, fresh_eq_nil hmember, List.append_nil]
  · rintro batches rfl
    exact mergeAll_eq htrans known batches

/-- A bound on the cost after the first stage, found in some iteration. -/
def bound (intercept : ℚ) (iteration : ℤ) : CutRecord ℚ :=
  ⟨0, 0, none, ⟨intercept, [1], .atLeast, none, none, some iteration⟩⟩

/-- A batch with a known bound, and another one that two iterations have found, followed by a batch with
a third bound and the second one again. Of the bounds that are found twice the first one is fresh. -/
theorem fresh_records_add_up_bounds :
    let known := [bound 1 0]
    let a := [bound 2 1, bound 1 1, bound 2 2]
    let b := [bound 3 3, bound 2 3]
    (∀ r ∈ a ++ b, r.same r = true) ∧
      fresh (a ++ b) known = fresh a known ++ fresh b (learnAll known a) ∧
      (fresh (a ++ b) known).map (fun r => r.cut.iteration) = [some 1, some 3] ∧
      mergeAll known [a.take 1, a.drop 1] = fresh a known := by
  intro known a b
  have hclean : ∀ r ∈ a ++ b, r.same r = true := by decide +kernel
  obtain ⟨-, -, htwo, -, hsplit⟩ := fresh_records_add_up Scalar.eqTransitive a b known hclean
  exact ⟨hclean, htwo, by decide +kernel, hsplit _ rfl⟩

end DualDynamic.CutRecord
