import DualDynamic.Proofs.RiskMeasure.Width
import DualDynamic.Proofs.Step
import DualDynamic.CutGeneration

/-!
# When risk-averse cuts are valid

The aggregate of values and gradients with a tail is a weighted mean of both with the same weights:
the mixture of the probabilities with the weights of the tail (`tailWeight`). A cut that is put
together from subgradients of convex functions bounds the risk-adjusted value everywhere if no
realization has more than its share `probability / level` in the tail.

All realizations but the first of the tail have their share. The first one takes what is left, and
this is more than its share exactly if the realizations that tie with it are needed to fill the
level. Then there are functions whose cut is too steep (`cutsAreValid_iff`).
-/

namespace DualDynamic

variable {K : Type} [ExactNumeral K]

/-! ## Vectors put together with weights -/

namespace Scalar

@[simp] theorem dot_replicate_zero (d : ℕ) (ys : List K) :
    Scalar.dot (List.replicate d (0 : K)) ys = 0 := by
  induction d generalizing ys with
  | zero => simp
  | succ d ih =>
    cases ys with
    | nil => simp [dot_eq]
    | cons y ys => rw [List.replicate_succ, dot_cons, ih, zero_mul, add_zero]

theorem zipWith_sub_eq (xs ys : List K) :
    List.zipWith (· - ·) xs ys = Scalar.addAll xs (Scalar.scale (-1) ys) := by
  rw [Scalar.addAll, Scalar.scale, List.zipWith_map_right]
  exact congrArg (List.zipWith · xs ys) (funext₂ fun a b => by ring)

theorem map_div_eq (xs : List K) (a : K) : xs.map (· / a) = Scalar.scale (1 / a) xs :=
  List.map_congr_left fun x _ => by ring

theorem zipWith_mix_eq (w : K) (xs ys : List K) :
    List.zipWith (RiskMeasure.mix w) xs ys =
      Scalar.addAll (Scalar.scale (1 - w) xs) (Scalar.scale w ys) := by
  rw [Scalar.addAll, Scalar.scale, Scalar.scale, List.zipWith_map]
  exact congrArg (List.zipWith · xs ys) (funext₂ fun a b => by simp [RiskMeasure.mix])

end Scalar

namespace Realizations

theorem foldl_addAll_scale {d : ℕ} (parts : List (K × List K)) (total : List K)
    (htotal : total.length = d) (hparts : ∀ q ∈ parts, q.2.length = d) :
    (parts.foldl (fun t q => Scalar.addAll t (Scalar.scale q.1 q.2)) total).length = d ∧
      ∀ y, Scalar.dot (parts.foldl (fun t q => Scalar.addAll t (Scalar.scale q.1 q.2)) total) y =
        Scalar.dot total y + (parts.map fun q => q.1 * Scalar.dot q.2 y).sum := by
  induction parts generalizing total with
  | nil => simpa using htotal
  | cons q parts ih =>
    have hq : q.2.length = d := hparts q (by simp)
    have hnext : (Scalar.addAll total (Scalar.scale q.1 q.2)).length = d :=
      Scalar.length_addAll htotal (by simpa using hq)
    obtain ⟨hlength, hdot⟩ := ih _ hnext fun q' hq' => hparts q' (by simp [hq'])
    refine ⟨hlength, fun y => ?_⟩
    rw [List.foldl_cons, hdot, Scalar.dot_addAll _ _ _ (by simp [htotal, hq]), Scalar.dot_scale]
    simp [add_assoc]

variable {ι : Type} {d : ℕ} (l : List ι) (f : ι → K) (v : ι → List K)

/-- The inner product with a weighted sum of vectors. -/
theorem dot_weightedSum (h : ∀ i ∈ l, (v i).length = d) (y : List K) :
    Scalar.dot (weightedSum d (l.map f) (l.map v)) y =
      (l.map fun i => f i * Scalar.dot (v i) y).sum := by
  have hfold := (foldl_addAll_scale (d := d) (List.zip (l.map f) (l.map v))
    (List.replicate d Scalar.zero) (by simp) ?_).2 y
  · rw [weightedSum, hfold, Scalar.zero_eq, Scalar.dot_replicate_zero, zero_add, List.zip_map',
      List.map_map]
    rfl
  · rw [List.zip_map']
    rintro q hq
    obtain ⟨i, hi, rfl⟩ := List.mem_map.1 hq
    exact h i hi

end Realizations

/-! ## The weights of a tail -/

section Weights

variable {n : ℕ} (s : Sense) (level : K) (p z : Fin n → K) (k : Fin n)

/-- The mass of the realizations that are worse than the beginning `k` of a tail. -/
def excessMass : K := ∑ i, if 0 < s.unit * z i - s.unit * z k then p i else 0

/-- The weight of a realization in the tail that begins at `k`: its share of the level if it is
worse; the beginning takes the rest. -/
def tailWeight (i : Fin n) : K :=
  (if 0 < s.unit * z i - s.unit * z k then p i / level else 0) +
    if i = k then 1 - excessMass s p z k / level else 0

theorem sum_tailWeight : ∑ i, tailWeight s level p z k i = 1 := by
  have hworse : (∑ i, if 0 < s.unit * z i - s.unit * z k then p i / level else 0) =
      excessMass s p z k / level := by
    rw [excessMass, Finset.sum_div]
    exact Finset.sum_congr rfl fun i _ => by split_ifs <;> simp
  simp only [tailWeight, Finset.sum_add_distrib, Finset.sum_ite_eq', Finset.mem_univ, if_true,
    hworse]
  ring

/-- What is put together from the distances to the beginning of a tail is a weighted mean. -/
theorem tail_eq_sum_tailWeight (f : Fin n → K) :
    f k + (∑ i, if 0 < s.unit * z i - s.unit * z k then p i * (f i - f k) else 0) / level =
      ∑ i, tailWeight s level p z k i * f i := by
  have hworse : (∑ i, if 0 < s.unit * z i - s.unit * z k then p i * (f i - f k) else 0) =
      (∑ i, (if 0 < s.unit * z i - s.unit * z k then p i else 0) * f i) -
        excessMass s p z k * f k := by
    rw [excessMass, Finset.sum_mul, ← Finset.sum_sub_distrib]
    exact Finset.sum_congr rfl fun i _ => by split_ifs <;> ring
  have hmean : ∑ i, tailWeight s level p z k i * f i =
      (∑ i, (if 0 < s.unit * z i - s.unit * z k then p i else 0) * f i) / level +
        (1 - excessMass s p z k / level) * f k := by
    simp only [tailWeight, add_mul, Finset.sum_add_distrib, ite_mul, zero_mul, Finset.sum_ite_eq',
      Finset.mem_univ, if_true]
    rw [Finset.sum_div]
    congr 1
    exact Finset.sum_congr rfl fun i _ => by split_ifs <;> ring
  rw [hworse, hmean]
  ring

variable {s level p z k}

theorem tailWeight_nonneg (h : TailShares p level) (hk : excessMass s p z k ≤ level)
    (i : Fin n) : 0 ≤ tailWeight s level p z k i := by
  have hrest : 0 ≤ 1 - excessMass s p z k / level :=
    sub_nonneg.2 ((div_le_one h.level_pos).2 hk)
  unfold tailWeight
  refine add_nonneg ?_ ?_
  · split_ifs
    · exact div_nonneg (h.nonneg i) h.level_pos.le
    · exact le_rfl
  · split_ifs
    · exact hrest
    · exact le_rfl

/-- Nothing in the tail has more than its share if the beginning fills the level. -/
theorem tailWeight_mul_level_le (h : TailShares p level)
    (hfill : level ≤ excessMass s p z k + p k) (i : Fin n) :
    tailWeight s level p z k i * level ≤ p i := by
  have hpos := h.level_pos
  rcases eq_or_ne i k with rfl | hik
  · have : tailWeight s level p z i i * level = level - excessMass s p z i := by
      simp only [tailWeight, sub_self, lt_self_iff_false, if_false, if_true, zero_add]
      field_simp
    rw [this]
    linarith
  · unfold tailWeight
    rw [if_neg hik, add_zero]
    split_ifs
    · exact le_of_eq (div_mul_cancel₀ _ hpos.ne')
    · simpa using h.nonneg i

end Weights

/-! ## Value and gradient as weighted means -/

namespace Realizations

variable {n d : ℕ} (z : Fin n → K) (γ : Fin n → Fin d → K) (p : Fin n → K)

omit [ExactNumeral K] in
theorem width_family (hn : 0 < n) : (family z (fun i => List.ofFn (γ i)) p).width = d := by
  obtain ⟨n, rfl⟩ := Nat.exists_eq_succ_of_ne_zero hn.ne'
  simp [family, width, List.ofFn_succ]

theorem dot_meanGradient (hn : 0 < n) (y : Fin d → K) :
    Scalar.dot (family z (fun i => List.ofFn (γ i)) p).meanGradient (List.ofFn y) =
      ∑ i, p i * ∑ j, γ i j * y j := by
  rw [meanGradient, width_family z γ p hn]
  simp only [family]
  rw [List.ofFn_eq_map, List.ofFn_eq_map (f := fun i => List.ofFn (γ i)),
    dot_weightedSum _ _ _ (by simp), ← List.ofFn_eq_map, List.sum_ofFn]
  exact Finset.sum_congr rfl fun i _ => by rw [Scalar.dot_ofFn]

theorem length_meanGradient (hn : 0 < n) :
    (family z (fun i => List.ofFn (γ i)) p).meanGradient.length = d := by
  rw [meanGradient, width_family z γ p hn]
  simp only [family]
  rw [List.ofFn_eq_map, List.ofFn_eq_map (f := fun i => List.ofFn (γ i))]
  exact length_weightedSum (by simp)

omit [ExactNumeral K] in
theorem length_gradient_family {i : ℕ} (hi : i < n) :
    ((family z (fun i => List.ofFn (γ i)) p).gradient i).length = d := by
  rw [show i = ((⟨i, hi⟩ : Fin n) : ℕ) from rfl, gradient_family, List.length_ofFn]

variable (s : Sense) (level : K) (k : Fin n)

/-- The distances to the gradient at the beginning of a tail. -/
theorem length_distance {i : ℕ}
    (hi : i ∈ (family z (fun i => List.ofFn (γ i)) p).excess s k) :
    (List.zipWith (· - ·) ((family z (fun i => List.ofFn (γ i)) p).gradient i)
      ((family z (fun i => List.ofFn (γ i)) p).gradient k)).length = d := by
  have hin : i < n := by
    have := (List.mem_filter.1 hi).1
    rwa [length_family, List.mem_range] at this
  rw [List.length_zipWith, length_gradient_family z γ p hin, length_gradient_family z γ p k.2,
    min_self]

theorem length_tailGradient :
    ((family z (fun i => List.ofFn (γ i)) p).tailGradient s level k).length = d := by
  rw [tailGradient, width_family z γ p k.pos]
  refine Scalar.length_addAll (length_gradient_family z γ p k.2) ?_
  rw [List.length_map]
  exact length_weightedSum (List.forall_mem_map.2 fun i hi => length_distance z γ p s k hi)

theorem dot_tailGradient (y : Fin d → K) :
    Scalar.dot ((family z (fun i => List.ofFn (γ i)) p).tailGradient s level k) (List.ofFn y) =
      ∑ i, tailWeight s level p z k i * ∑ j, γ i j * y j := by
  set r := family z (fun i => List.ofFn (γ i)) p with hr
  have hlength : ∀ i ∈ r.excess s k,
      (List.zipWith (· - ·) (r.gradient i) (r.gradient k)).length = d :=
    fun i hi => length_distance z γ p s k hi
  have hslope : ∀ i : Fin n, Scalar.dot (r.gradient i) (List.ofFn y) = ∑ j, γ i j * y j :=
    fun i => by rw [hr, gradient_family, Scalar.dot_ofFn]
  have hdistance : ∀ i : Fin n,
      Scalar.dot (List.zipWith (· - ·) (r.gradient i) (r.gradient k)) (List.ofFn y) =
        (∑ j, γ i j * y j) - ∑ j, γ k j * y j := by
    intro i
    rw [Scalar.zipWith_sub_eq, Scalar.dot_addAll _ _ _ (by simp [hr]), Scalar.dot_scale, hslope,
      hslope]
    ring
  rw [tailGradient, width_family z γ p k.pos, Scalar.map_div_eq, Scalar.dot_addAll,
    Scalar.dot_scale, dot_weightedSum _ _ _ hlength, hslope, sum_excess]
  · rw [← tail_eq_sum_tailWeight s level p z k fun i => ∑ j, γ i j * y j, one_div_mul_eq_div]
    congr 2
    refine Finset.sum_congr rfl fun i _ => ?_
    rw [hdistance, weight_family]
  · rw [length_gradient_family z γ p k.2, Scalar.length_scale, length_weightedSum (List.forall_mem_map.2 hlength)]

theorem tailValue_eq_sum (g : Fin n → List K) :
    (family z g p).tailValue s level k = ∑ i, tailWeight s level p z k i * z i := by
  rw [tailValue_family, tail_eq_sum_tailWeight]

end Realizations

/-- The weights of a mixture: the probabilities and the weights of the tail. -/
def mixedWeight {n : ℕ} (s : Sense) (level weight : K) (p z : Fin n → K) (k i : Fin n) : K :=
  (1 - weight) * p i + weight * tailWeight s level p z k i

theorem sum_mixedWeight {n : ℕ} (s : Sense) (level weight : K) (p z f : Fin n → K) (k : Fin n) :
    ∑ i, mixedWeight s level weight p z k i * f i =
      (1 - weight) * ∑ i, p i * f i + weight * ∑ i, tailWeight s level p z k i * f i := by
  simp only [mixedWeight, add_mul, Finset.sum_add_distrib, Finset.mul_sum, mul_assoc]

section Mixtures

variable {n d : ℕ} (z : Fin n → K) (γ : Fin n → Fin d → K) (p : Fin n → K) (s : Sense)
  (level weight : K) (k : Fin n)

/-- The mixed value, wherever the tail begins, as a weighted mean. -/
theorem mix_tailValue (g : Fin n → List K) :
    RiskMeasure.mix weight (Realizations.family z g p).meanValue
        ((Realizations.family z g p).tailValue s level k) =
      ∑ i, mixedWeight s level weight p z k i * z i := by
  simp only [RiskMeasure.mix, Realizations.meanValue_family, Realizations.tailValue_eq_sum,
    sum_mixedWeight, Scalar.one_eq]

theorem length_mix_tailGradient :
    (List.zipWith (RiskMeasure.mix weight)
      (Realizations.family z (fun i => List.ofFn (γ i)) p).meanGradient
      ((Realizations.family z (fun i => List.ofFn (γ i)) p).tailGradient s level k)).length = d := by
  rw [List.length_zipWith, Realizations.length_meanGradient z γ p k.pos,
    Realizations.length_tailGradient, min_self]

/-- The mixed gradient, wherever the tail begins, has the same weights as the value. -/
theorem dot_mix_tailGradient (y : Fin d → K) :
    Scalar.dot (List.zipWith (RiskMeasure.mix weight)
        (Realizations.family z (fun i => List.ofFn (γ i)) p).meanGradient
        ((Realizations.family z (fun i => List.ofFn (γ i)) p).tailGradient s level k))
      (List.ofFn y) = ∑ i, mixedWeight s level weight p z k i * ∑ j, γ i j * y j := by
  have hmean := Realizations.length_meanGradient z γ p k.pos
  have htail := Realizations.length_tailGradient z γ p s level k
  rw [Scalar.zipWith_mix_eq, Scalar.dot_addAll _ _ _ (by simp [hmean, htail]),
    Scalar.dot_scale, Scalar.dot_scale, Realizations.dot_meanGradient z γ p k.pos,
    Realizations.dot_tailGradient, sum_mixedWeight]

end Mixtures

/-- The aggregate of a mixture is the weighted mean of values and of gradients. -/
theorem RiskMeasure.aggregate_family {n d : ℕ} {s : Sense} {level : K} (weight : K)
    {p z : Fin n → K} {k : Fin n} (γ : Fin n → Fin d → K)
    (hk : (Realizations.family z (fun i => List.ofFn (γ i)) p).tailStart s level = some (k : ℕ)) :
    ∃ G, (averageAtRisk level weight).aggregate s
        (.family z (fun i => List.ofFn (γ i)) p) =
          .ok (∑ i, mixedWeight s level weight p z k i * z i, G) ∧
      G.length = d ∧ ∀ y : Fin d → K, Scalar.dot G (List.ofFn y) =
        ∑ i, mixedWeight s level weight p z k i * ∑ j, γ i j * y j := by
  refine ⟨_, ?_, length_mix_tailGradient z γ p s level weight k,
    dot_mix_tailGradient z γ p s level weight k⟩
  simp only [aggregate, hk, mix_tailValue]

/-! ## Validity -/

/-- What the cost-to-go has to be: convex for costs, concave for profits. -/
def Sense.IsCurved (s : Sense) {d : ℕ} (V : (Fin d → K) → K) : Prop :=
  match s with
  | .minimize => ConvexOn K Set.univ V
  | .maximize => ConcaveOn K Set.univ V

/-- A subgradient of costs or a supergradient of profits at a state. -/
def Sense.IsSubgradient (s : Sense) {d : ℕ} (V : (Fin d → K) → K) (state slope : Fin d → K) :
    Prop :=
  ∀ x, s.Bounds (V state + ∑ j, slope j * (x j - state j)) (V x)

/-- A number bounds the risk-adjusted mean of values. -/
def BoundsMixture {n : ℕ} (s : Sense) (level weight : K) (p z : Fin n → K) (a : K) : Prop :=
  ∃ m, IsAverageAtRisk s level p z m ∧
    s.Bounds a ((1 - weight) * ∑ i, p i * z i + weight * m)

/-- Whatever the functions behind values `z` at a state and whatever their subgradients, the
aggregated value and gradient bound the risk-adjusted value at every state. -/
def CutsAreValid {n : ℕ} (s : Sense) (level weight : K) (p z : Fin n → K) : Prop :=
  ∀ (d : ℕ) (V : Fin n → (Fin d → K) → K) (state : Fin d → K) (slope : Fin n → Fin d → K),
    (∀ i, s.IsCurved (V i)) → (∀ i, V i state = z i) →
    (∀ i, s.IsSubgradient (V i) state (slope i)) →
    ∃ R G, (RiskMeasure.averageAtRisk level weight).aggregate s
        (.family z (fun i => List.ofFn (slope i)) p) = .ok (R, G) ∧
      G.length = d ∧
      ∀ x, BoundsMixture s level weight p (fun i => V i x)
        (R + Scalar.dot G (List.ofFn (x - state)))

/-- The first realization of the tail and the worse ones fill the level. -/
def TailFills {n : ℕ} (s : Sense) (level : K) (p z : Fin n → K) : Prop :=
  ∃ k : Fin n, (Realizations.family z (fun _ => []) p).tailStart s level = some (k : ℕ) ∧
    level ≤ excessMass s p z k + p k

variable {n : ℕ} {s : Sense} {level weight : K} {p z : Fin n → K}

theorem Realizations.reaching_congr {r r' : Realizations K} (h : r.weights = r'.weights) (acc : K)
    (order : List ℕ) : r.reaching level acc order = r'.reaching level acc order := by
  induction order generalizing acc with
  | nil => rfl
  | cons i order ih =>
    have hi : r.weight i = r'.weight i := by rw [weight, weight, h]
    rw [reaching, reaching, hi, ih]

/-- The search for the beginning of the tail does not look at gradients. -/
theorem Realizations.tailStart_congr (g g' : Fin n → List K) :
    (family z g p).tailStart s level = (family z g' p).tailStart s level := by
  have hreaching : ∀ order, (family z g p).reaching (1 - level) 0 order =
      (family z g' p).reaching (1 - level) 0 order := fun _ => reaching_congr (by rfl) _ _
  simp only [tailStart, Scalar.one_eq, Scalar.zero_eq, hreaching]
  rfl

/-- Weights below their shares put a bound together from bounds. -/
theorem boundsMixture_of_weights (h : TailShares p level) (hweight₀ : 0 ≤ weight)
    (hweight₁ : weight ≤ 1) {q y : Fin n → K} (hq : ∀ i, 0 ≤ q i)
    (hshare : weight = 0 ∨ ∀ i, q i * level ≤ p i) (hsum : ∑ i, q i = 1)
    (hz : ∀ i, s.Bounds (y i) (z i)) :
    BoundsMixture s level weight p z
      ((1 - weight) * ∑ i, p i * y i + weight * ∑ i, q i * y i) := by
  obtain ⟨k, -, habove, hfrom⟩ := Realizations.tailStart_family (z := z) (fun _ => []) h s
  have hm := Realizations.isAverageAtRisk_tailValue (z := z) (fun _ => []) h habove hfrom
  refine ⟨_, hm, ?_⟩
  have hmean : s.Bounds (∑ i, p i * y i) (∑ i, p i * z i) :=
    Sense.bounds_sum _ fun i _ => (hz i).mul_left (h.nonneg i)
  refine (hmean.mul_left (sub_nonneg.2 hweight₁)).add ?_
  rcases hshare with rfl | hshare
  · simpa using s.bounds_refl 0
  · have htail : s.Bounds (∑ i, q i * y i) (∑ i, q i * z i) :=
      Sense.bounds_sum _ fun i _ => (hz i).mul_left (hq i)
    obtain ⟨η, hη⟩ := (isAverageAtRisk_iff.1 hm).1
    have hbound := bounds_tailObjective s h.level_pos (z := z) hq hshare hsum η
    rw [hη] at hbound
    exact (htail.trans hbound).mul_left hweight₀

theorem cutsAreValid_of_tailFills (h : TailShares p level) (hweight₀ : 0 ≤ weight)
    (hweight₁ : weight ≤ 1) (hfill : weight = 0 ∨ TailFills s level p z) :
    CutsAreValid s level weight p z := by
  intro d V state slope _ hvalue hslope
  obtain ⟨k, hk, habove, -⟩ := Realizations.tailStart_family (fun _ => []) h s
  obtain ⟨G, haggregate, hlength, hdot⟩ :=
    RiskMeasure.aggregate_family weight slope ((Realizations.tailStart_congr _ _).trans hk)
  refine ⟨_, G, haggregate, hlength, fun x => ?_⟩
  have hline : (∑ i, mixedWeight s level weight p z k i * z i) +
      Scalar.dot G (List.ofFn (x - state)) =
        (1 - weight) * ∑ i, p i * (z i + ∑ j, slope i j * (x j - state j)) +
          weight * ∑ i, tailWeight s level p z k i * (z i + ∑ j, slope i j * (x j - state j)) := by
    rw [hdot, ← Finset.sum_add_distrib, ← sum_mixedWeight]
    exact Finset.sum_congr rfl fun i _ => by simp only [Pi.sub_apply]; ring
  rw [hline]
  refine boundsMixture_of_weights h hweight₀ hweight₁ (tailWeight_nonneg h habove) ?_
    (sum_tailWeight s level p z k) fun i => ?_
  · refine hfill.imp_right fun ⟨k', hk', hfills⟩ => ?_
    obtain rfl : k' = k := Fin.ext (by simpa [hk] using hk'.symm)
    exact tailWeight_mul_level_le h hfills
  · have := hslope i x
    rwa [hvalue i] at this

/-- An affine function is both convex and concave. -/
theorem Sense.isCurved_affine (s : Sense) {d : ℕ} (a : K) (c : Fin d → K) :
    s.IsCurved fun x => a + ∑ j, c j * x j := by
  have haffine : ∀ (x y : Fin d → K) (α β : K), α + β = 1 →
      a + ∑ j, c j * (α • x + β • y) j =
        α • (a + ∑ j, c j * x j) + β • (a + ∑ j, c j * y j) := by
    intro x y α β hαβ
    have hsum : ∑ j, c j * (α • x + β • y) j = α * ∑ j, c j * x j + β * ∑ j, c j * y j := by
      rw [Finset.mul_sum, Finset.mul_sum, ← Finset.sum_add_distrib]
      refine Finset.sum_congr rfl fun j _ => ?_
      simp only [Pi.add_apply, Pi.smul_apply, smul_eq_mul]
      ring
    rw [hsum, smul_eq_mul, smul_eq_mul]
    linear_combination -a * hαβ
  cases s with
  | minimize => exact ⟨convex_univ, fun x _ y _ α β _ _ h => (haffine x y α β h).le⟩
  | maximize => exact ⟨convex_univ, fun x _ y _ α β _ _ h => (haffine x y α β h).ge⟩

/-- The excess over a value when this value itself has moved by one. -/
theorem sum_max_moved (k : Fin n) :
    (∑ i, p i * max (s.unit * (z i + if i = k then s.unit else 0) - s.unit * z k) 0) =
      (∑ i, if 0 < s.unit * z i - s.unit * z k then p i * (s.unit * z i - s.unit * z k) else 0) +
        p k := by
  have hunit : (s.unit : K) * s.unit = 1 := by cases s <;> simp
  have hk : p k = ∑ i, if i = k then p i else 0 := by simp
  rw [hk, ← Finset.sum_add_distrib]
  refine Finset.sum_congr rfl fun i _ => ?_
  rcases eq_or_ne i k with rfl | hik
  · simp [mul_add, hunit]
  · simp only [if_neg hik, add_zero]
    split_ifs with hi
    · rw [max_eq_left hi.le]
    · rw [max_eq_right (not_lt.1 hi), mul_zero]

/-- The weight of the first realization of the tail is at most what it has in a tail that fills: a function
that moves away there alone would find a steeper cut. -/
theorem tailWeight_le_of_cutsAreValid {k : Fin n}
    (hk : (Realizations.family z (fun _ => []) p).tailStart s level = some (k : ℕ))
    (hpos : 0 < weight) (hvalid : CutsAreValid s level weight p z) :
    tailWeight s level p z k k ≤ p k / level := by
  -- every function is constant but the one at the first realization of the tail
  set c : Fin n → Fin 1 → K := fun i _ => if i = k then s.unit else 0 with hc
  obtain ⟨R, G, haggregate, -, hbound⟩ := hvalid 1 (fun i x => z i + ∑ j, c i j * x j) 0 c
    (fun i => s.isCurved_affine _ _) (by simp) (fun i x => by
      have : z i + ∑ j, c i j * (0 : Fin 1 → K) j + ∑ j, c i j * (x j - (0 : Fin 1 → K) j) =
          z i + ∑ j, c i j * x j := by simp
      rw [this]
      exact s.bounds_refl _)
  obtain ⟨G', haggregate', -, hdot⟩ := RiskMeasure.aggregate_family weight c
    ((Realizations.tailStart_congr _ _).trans hk)
  obtain ⟨rfl, rfl⟩ : R = _ ∧ G = G' := by
    rw [haggregate] at haggregate'
    simpa using haggregate'
  obtain ⟨m, hm, hline⟩ := hbound 1
  have hunit : (s.unit : K) * s.unit = 1 := by cases s <;> simp
  have hpromise := (isAverageAtRisk_iff.1 hm).2 (z k)
  rw [hdot] at hline
  simp only [hc, Finset.univ_unique, Finset.sum_singleton, Pi.sub_apply, Pi.one_apply,
    Pi.zero_apply, sub_zero, mul_one] at hline hpromise
  rw [Sense.bounds_iff, unit_mul_tailObjective] at hpromise
  rw [Sense.bounds_iff] at hline
  simp only [mul_add, Finset.sum_add_distrib, sum_mixedWeight, mul_ite, mul_zero,
    Finset.sum_ite_eq', Finset.mem_univ, if_true] at hline
  have htail := tail_eq_sum_tailWeight s level p z k fun i => s.unit * z i
  have hexcess := sum_max_moved (s := s) (p := p) (z := z) k
  have hmean : ∑ i, tailWeight s level p z k i * (s.unit * z i) =
      s.unit * ∑ i, tailWeight s level p z k i * z i := by
    rw [Finset.mul_sum]
    exact Finset.sum_congr rfl fun i _ => by ring
  rw [hexcess, add_div, ← add_assoc, htail, hmean] at hpromise
  have hscaled : weight * (s.unit * ∑ i, tailWeight s level p z k i * z i +
      tailWeight s level p z k k) ≤ weight * (s.unit * m) := by
    have hflip : s.unit * (mixedWeight s level weight p z k k * s.unit) =
        mixedWeight s level weight p z k k := by linear_combination (mixedWeight _ _ _ _ _ _ _) * hunit
    have hflip' : s.unit * ((1 - weight) * (p k * s.unit)) = (1 - weight) * p k := by
      linear_combination (1 - weight) * p k * hunit
    rw [hflip, hflip', mixedWeight] at hline
    linarith
  have := le_of_mul_le_mul_left hscaled hpos
  linarith

/-- Where cuts are valid, the tail fills, if it counts at all. -/
theorem tailFills_of_cutsAreValid (h : TailShares p level) (hweight₀ : 0 ≤ weight)
    (hvalid : CutsAreValid s level weight p z) : weight = 0 ∨ TailFills s level p z := by
  by_contra hno
  obtain ⟨hweight, hfill⟩ := not_or.1 hno
  have hpos : 0 < weight := lt_of_le_of_ne hweight₀ (Ne.symm hweight)
  obtain ⟨k, hk, -, -⟩ := Realizations.tailStart_family (z := z) (p := p) (fun _ => []) h s
  have hshort : excessMass s p z k + p k < level := by
    by_contra hfills
    exact hfill ⟨k, hk, not_lt.1 hfills⟩
  have hself : tailWeight s level p z k k = 1 - excessMass s p z k / level := by
    simp [tailWeight]
  have hsteep := tailWeight_le_of_cutsAreValid hk hpos hvalid
  rw [hself, le_div_iff₀ h.level_pos, sub_mul, div_mul_cancel₀ _ h.level_pos.ne'] at hsteep
  linarith

/-- If no other value ties with the first one of the tail, the tail fills. -/
theorem tailFills_of_injective (h : TailShares p level) (s : Sense) (hz : Function.Injective z) :
    TailFills s level p z := by
  obtain ⟨k, hk, -, hfrom⟩ := Realizations.tailStart_family (z := z) (fun _ => []) h s
  refine ⟨k, hk, hfrom.trans (le_of_eq ?_)⟩
  have hself : p k = ∑ i, if i = k then p i else 0 := by simp
  rw [excessMass, hself, ← Finset.sum_add_distrib]
  refine Finset.sum_congr rfl fun i _ => ?_
  rcases eq_or_ne i k with rfl | hik
  · simp
  · have hne : s.unit * z i - s.unit * z k ≠ 0 := fun h0 =>
      hik (hz (mul_left_cancel₀ s.unit_ne_zero (sub_eq_zero.1 h0)))
    simp only [if_neg hik, add_zero, le_iff_lt_or_eq, hne.symm, or_false]

/-! ## Generated cuts -/

/-- Whatever the functions behind values `z` at a state and whatever their subgradients, if the
programs behind a node answer with them then the cut that is generated at the state bounds the
risk-adjusted value at every state. -/
def GeneratedCutsAreValid {n : ℕ} (s : Sense) (level weight : K) (p z : Fin n → K) : Prop :=
  ∀ (d : ℕ) (V : Fin n → (Fin d → K) → K) (state : Fin d → K) (slope : Fin n → Fin d → K),
    (∀ i, s.IsCurved (V i)) → (∀ i, V i state = z i) →
    (∀ i, s.IsSubgradient (V i) state (slope i)) →
    ∀ (engine : Engine K) (node : Node K) (rib : Option K) (iteration : Option Int)
      (w w' : Watched (PolicyGraph K)),
      PolicyGraph.solveBehind engine node (some (List.ofFn state)) rib w =
        .ok (.family z (fun i => List.ofFn (slope i)) p) w' →
      w'.part.measure = .averageAtRisk level weight → w'.part.sense = s →
      ∃ cut, PolicyGraph.generateCut engine node (List.ofFn state) rib iteration w =
          .ok cut w' ∧
        ∀ x, BoundsMixture s level weight p (fun i => V i x) (cut.evaluate (List.ofFn x))

/-- A cut through a state, evaluated at another one. -/
theorem Cut.evaluate_through {d : ℕ} {cut : Cut K} {value : K} {state : Fin d → K} {G : List K}
    (hcut : cut.intercept = value - Scalar.dot G (List.ofFn state)) (hG : cut.coefficients = G)
    (hlength : G.length = d) (x : Fin d → K) :
    cut.evaluate (List.ofFn x) = value + Scalar.dot G (List.ofFn (x - state)) := by
  obtain ⟨γ, rfl⟩ : ∃ γ : Fin d → K, G = List.ofFn γ :=
    ⟨fun j => G[j], List.ext_getElem (by simp [hlength]) (by simp)⟩
  have hsub : ∑ j, γ j * (x - state) j = ∑ j, γ j * x j - ∑ j, γ j * state j := by
    rw [← Finset.sum_sub_distrib]
    exact Finset.sum_congr rfl fun j _ => by rw [Pi.sub_apply, mul_sub]
  rw [Cut.evaluate, hcut, hG, Scalar.dot_ofFn, Scalar.dot_ofFn, Scalar.dot_ofFn, hsub]
  ring

theorem generatedCutsAreValid (hvalid : CutsAreValid s level weight p z) :
    GeneratedCutsAreValid s level weight p z := by
  intro d V state slope hcurved hvalue hslope engine node rib iteration w w' hsolve hmeasure hsense
  obtain ⟨R, G, haggregate, hlength, hbound⟩ := hvalid d V state slope hcurved hvalue hslope
  refine ⟨⟨R - Scalar.dot G (List.ofFn state), G, w.part.sense.cutSide, some node.stage,
    some node.markov, iteration⟩, ?_, fun x => ?_⟩
  · have hstage : PolicyGraph.aggregateStage engine (node.stage + 1) (w.part.successors node)
        (some (List.ofFn state)) rib w = .ok (R, G) w' := by
      have hsolve' : PolicyGraph.solveStage engine (node.stage + 1) (w.part.successors node)
          (some (List.ofFn state)) rib w = .ok (.family z (fun i => List.ofFn (slope i)) p) w' :=
        hsolve
      rw [PolicyGraph.aggregateStage, Step.bind_of_ok hsolve', Run.part_bind_apply, hmeasure,
        hsense, haggregate]
      rfl
    rw [PolicyGraph.generateCut, Run.part_bind_apply, Step.bind_of_ok hstage]
    simp only [hlength, List.length_ofFn, bne_self_eq_false, Bool.false_eq_true, if_false]
    rfl
  · rw [Cut.evaluate_through rfl rfl hlength]
    exact hbound x

/-- Risk-averse cuts are valid, whatever the functions behind the values, exactly if the measure is
the plain expectation or the tail fills; then the cuts that are generated from them are valid. -/
theorem cutsAreValid_iff_tailFills {n : ℕ} (s : Sense) {level weight : K} {p : Fin n → K}
    (z : Fin n → K) (h : TailShares p level) (hweight₀ : 0 ≤ weight) (hweight₁ : weight ≤ 1) :
    (CutsAreValid s level weight p z ↔ weight = 0 ∨ TailFills s level p z) ∧
      (CutsAreValid s level weight p z → GeneratedCutsAreValid s level weight p z) :=
  ⟨⟨tailFills_of_cutsAreValid h hweight₀, cutsAreValid_of_tailFills h hweight₀ hweight₁⟩,
    generatedCutsAreValid⟩

/-- Two equally likely values that differ: half of the weight goes to the worse one, at any level. -/
theorem cutsAreValid_distinct :
    TailShares ![(1 / 2 : ℚ), 1 / 2] (1 / 4) ∧ (0 : ℚ) ≤ 1 / 2 ∧ (1 / 2 : ℚ) ≤ 1 ∧
      CutsAreValid .minimize (1 / 4 : ℚ) (1 / 2) ![1 / 2, 1 / 2] ![0, 1] := by
  have hshares : TailShares ![(1 / 2 : ℚ), 1 / 2] (1 / 4) :=
    ⟨fun i => by fin_cases i <;> norm_num, by norm_num [Fin.sum_univ_two], by norm_num,
      by norm_num⟩
  have hdistinct : Function.Injective ![(0 : ℚ), 1] := by
    intro i j
    fin_cases i <;> fin_cases j <;> simp
  exact ⟨hshares, by norm_num, by norm_num,
    (cutsAreValid_iff_tailFills .minimize _ hshares (by norm_num) (by norm_num)).1.2
      (Or.inr (tailFills_of_injective hshares .minimize hdistinct))⟩

/-- Of two equally likely values that tie, the first one gives the tail its gradient. -/
theorem aggregate_tied :
    (RiskMeasure.averageAtRisk (1 : ℚ) 1).aggregate .minimize
      (.family ![0, 0] ![[1], [0]] ![1 / 2, 1 / 2]) = .ok (0, [1]) := by
  set r : Realizations ℚ := .family ![0, 0] ![[1], [0]] ![1 / 2, 1 / 2] with hr
  have horder : r.increasing = [0, 1] :=
    List.mergeSort_of_pairwise (by simp [hr, Realizations.family, List.range_succ,
      Realizations.value])
  have hstart : r.tailStart .minimize 1 = some 0 := by
    rw [Realizations.tailStart, Realizations.bestFirst, horder]
    norm_num [hr, Realizations.reaching, Realizations.family, Realizations.weight]
  simp only [RiskMeasure.aggregate, hstart]
  norm_num [hr, RiskMeasure.mix, Realizations.family, Realizations.meanValue,
    Realizations.tailValue, Realizations.meanGradient, Realizations.tailGradient,
    Realizations.excess, Realizations.exceeds, Realizations.value, Realizations.width,
    Realizations.weightedSum, Realizations.gradient, List.range_succ, Scalar.addAll, Scalar.scale]

/-- Two equally likely values that tie: the first one gets all the weight of the tail, twice its
share at level one. -/
theorem not_cutsAreValid_tied :
    TailShares ![(1 / 2 : ℚ), 1 / 2] 1 ∧
      (RiskMeasure.averageAtRisk (1 : ℚ) 1).aggregate .minimize
        (.family ![0, 0] ![[1], [0]] ![1 / 2, 1 / 2]) = .ok (0, [1]) ∧
      ¬ CutsAreValid .minimize (1 : ℚ) 1 ![1 / 2, 1 / 2] ![0, 0] := by
  have hshares : TailShares ![(1 / 2 : ℚ), 1 / 2] 1 :=
    ⟨fun i => by fin_cases i <;> norm_num, by norm_num [Fin.sum_univ_two], by norm_num, le_rfl⟩
  refine ⟨hshares, aggregate_tied, fun hvalid => ?_⟩
  rcases tailFills_of_cutsAreValid hshares zero_le_one hvalid with h | ⟨k, -, hfills⟩
  · exact one_ne_zero h
  · have hhalf : ![(1 / 2 : ℚ), 1 / 2] k = 1 / 2 := by fin_cases k <;> rfl
    have hexcess : excessMass .minimize ![(1 / 2 : ℚ), 1 / 2] ![0, 0] k = 0 := by
      fin_cases k <;> simp [excessMass, Fin.sum_univ_two]
    rw [hhalf, hexcess] at hfills
    norm_num at hfills

end DualDynamic
