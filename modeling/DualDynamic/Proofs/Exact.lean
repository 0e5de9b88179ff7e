import Mathlib
import DualDynamic.Numeral
import DualDynamic.Sense

/-!
# Exact arithmetic

The library is written over any scalar type. Here it is instantiated at an ordered field, with the
field's own arithmetic and order, so that statements about sums, products and comparisons become
statements of algebra. Texts of numbers and the number that stands for a missing entry are left
open; rounding to a whole number is any rounding to nearest that sends a half to the even
neighbour.

The two senses are treated at once: `s.Bounds a b` says that `a` is a lower bound of `b` when `s`
minimizes and an upper bound when it maximizes.
-/

namespace DualDynamic

/-- An ordered field whose numbers can be rounded, written and read. -/
class ExactNumeral (K : Type) extends Field K, LinearOrder K, IsStrictOrderedRing K where
  nearest : K → K
  nearest_spec : ∀ a, ∃ n : ℤ, nearest a = n ∧ 2 * |a - n| ≤ 1 ∧ (2 * |a - n| = 1 → Even n)
  text : K → String
  read : String → Option K
  missing : K

instance ExactNumeral.toNumeral {K : Type} [ExactNumeral K] : Numeral K where
  ofInt n := (n : K)
  le a b := decide (a ≤ b)
  lt a b := decide (a < b)
  eq a b := decide (a = b)
  isFinite _ := true
  isNaN _ := false
  nearest := ExactNumeral.nearest
  text := ExactNumeral.text
  read := ExactNumeral.read
  missing := ExactNumeral.missing

variable {K : Type} [ExactNumeral K]

/-! ## Scalars -/

namespace Scalar

@[simp] theorem le_iff {a b : K} : Scalar.le a b = true ↔ a ≤ b := decide_eq_true_iff

@[simp] theorem lt_iff {a b : K} : Scalar.lt a b = true ↔ a < b := decide_eq_true_iff

@[simp] theorem eq_iff {a b : K} : Scalar.eq a b = true ↔ a = b := decide_eq_true_iff

@[simp] theorem isNaN_eq (a : K) : Scalar.isNaN a = false := rfl

@[simp] theorem isFinite_eq (a : K) : Scalar.isFinite a = true := rfl

@[simp] theorem ofInt_eq (n : ℤ) : (Scalar.ofInt n : K) = n := rfl

@[simp] theorem zero_eq : (Scalar.zero : K) = 0 := by simp [Scalar.zero]

@[simp] theorem one_eq : (Scalar.one : K) = 1 := by simp [Scalar.one]

@[simp] theorem abs_eq (a : K) : Scalar.abs a = |a| := by
  simp only [Scalar.abs, zero_eq, lt_iff, eq_iff]
  split_ifs with hneg hzero
  · rw [abs_of_neg hneg]
  · rw [hzero, abs_zero]
  · rw [abs_of_nonneg (not_lt.1 hneg)]

@[simp] theorem max_eq (a b : K) : Scalar.max a b = Max.max a b := by
  simp only [Scalar.max, lt_iff]
  split_ifs with h
  · rw [max_eq_right h.le]
  · rw [max_eq_left (not_lt.1 h)]

@[simp] theorem min_eq (a b : K) : Scalar.min a b = Min.min a b := by
  simp only [Scalar.min, lt_iff]
  split_ifs with h
  · rw [min_eq_right h.le]
  · rw [min_eq_left (not_lt.1 h)]

theorem sum_eq (xs : List K) : Scalar.sum xs = xs.sum := by
  rw [Scalar.sum, zero_eq, List.sum_eq_foldl]

theorem dot_eq (xs ys : List K) : Scalar.dot xs ys = (List.zipWith (· * ·) xs ys).sum := sum_eq _

@[simp] theorem dot_nil (ys : List K) : Scalar.dot [] ys = 0 := by simp [dot_eq]

@[simp] theorem dot_cons (x y : K) (xs ys : List K) :
    Scalar.dot (x :: xs) (y :: ys) = x * y + Scalar.dot xs ys := by simp [dot_eq]

/-- The inner product along a list of positions is a sum over the positions. -/
theorem dot_map {ι : Type} (l : List ι) (f g : ι → K) :
    Scalar.dot (l.map f) (l.map g) = (l.map fun i => f i * g i).sum := by
  rw [dot_eq, List.zipWith_map, List.zipWith_self]

theorem dot_addAll (xs ys zs : List K) (h : xs.length = ys.length) :
    Scalar.dot (Scalar.addAll xs ys) zs = Scalar.dot xs zs + Scalar.dot ys zs := by
  induction xs generalizing ys zs with
  | nil => cases ys <;> simp_all [Scalar.addAll]
  | cons x xs ih =>
    cases ys with
    | nil => simp at h
    | cons y ys =>
      cases zs with
      | nil => simp [Scalar.addAll, dot_eq]
      | cons z zs =>
        have := ih ys zs (by simpa using h)
        simp only [Scalar.addAll, List.zipWith_cons_cons, dot_cons] at this ⊢
        rw [this]
        ring

theorem dot_scale (a : K) (xs ys : List K) :
    Scalar.dot (Scalar.scale a xs) ys = a * Scalar.dot xs ys := by
  induction xs generalizing ys with
  | nil => simp [Scalar.scale]
  | cons x xs ih =>
    cases ys with
    | nil => simp [Scalar.scale, dot_eq]
    | cons y ys =>
      have := ih ys
      simp only [Scalar.scale, List.map_cons, dot_cons] at this ⊢
      rw [this]
      ring

/-- The inner product of two vectors given entry by entry. -/
theorem dot_ofFn {d : ℕ} (x y : Fin d → K) :
    Scalar.dot (List.ofFn x) (List.ofFn y) = ∑ j, x j * y j := by
  rw [List.ofFn_eq_map, List.ofFn_eq_map, dot_map, ← List.ofFn_eq_map, List.sum_ofFn]

end Scalar

/-! ## Senses -/

namespace Sense

/-- The sign of a sense as a scalar. -/
def unit (s : Sense) : K := (s.sign : K)

@[simp] theorem unit_minimize : (Sense.minimize.unit : K) = 1 := by simp [unit, sign]

@[simp] theorem unit_maximize : (Sense.maximize.unit : K) = -1 := by simp [unit, sign]

theorem unit_ne_zero (s : Sense) : (s.unit : K) ≠ 0 := by cases s <;> simp

/-- `a` bounds `b` on the side on which optimal values are bounded: from below for costs, from above
for profits. -/
def Bounds (s : Sense) (a b : K) : Prop :=
  match s with
  | minimize => a ≤ b
  | maximize => b ≤ a

/-- Both senses at once: bounding is the order of the values times the sign. -/
theorem bounds_iff {s : Sense} {a b : K} : s.Bounds a b ↔ s.unit * a ≤ s.unit * b := by
  cases s <;> simp [Bounds]

theorem bounds_refl (s : Sense) (a : K) : s.Bounds a a := by simp [bounds_iff]

theorem Bounds.trans {s : Sense} {a b c : K} (h : s.Bounds a b) (h' : s.Bounds b c) :
    s.Bounds a c := by
  rw [bounds_iff] at *
  exact h.trans h'

theorem Bounds.antisymm {s : Sense} {a b : K} (h : s.Bounds a b) (h' : s.Bounds b a) : a = b := by
  cases s
  · exact le_antisymm h h'
  · exact le_antisymm h' h

theorem bounds_total (s : Sense) (a b : K) : s.Bounds a b ∨ s.Bounds b a := by
  rw [bounds_iff, bounds_iff]
  exact le_total _ _

theorem Bounds.add {s : Sense} {a b c d : K} (h : s.Bounds a b) (h' : s.Bounds c d) :
    s.Bounds (a + c) (b + d) := by
  rw [bounds_iff] at *
  rw [mul_add, mul_add]
  exact add_le_add h h'

theorem Bounds.mul_left {s : Sense} {a b p : K} (h : s.Bounds a b) (hp : 0 ≤ p) :
    s.Bounds (p * a) (p * b) := by
  rw [bounds_iff] at *
  rw [mul_left_comm, mul_left_comm _ p]
  exact mul_le_mul_of_nonneg_left h hp

theorem bounds_sum {s : Sense} {ι : Type} (t : Finset ι) {f g : ι → K}
    (h : ∀ i ∈ t, s.Bounds (f i) (g i)) : s.Bounds (∑ i ∈ t, f i) (∑ i ∈ t, g i) := by
  rw [bounds_iff, Finset.mul_sum, Finset.mul_sum]
  exact Finset.sum_le_sum fun i hi => bounds_iff.1 (h i hi)

/-- The best value of a set of objective values: its greatest lower bound, or its least upper
bound. -/
def IsOptimum (s : Sense) (values : Set K) (v : K) : Prop :=
  match s with
  | minimize => IsGLB values v
  | maximize => IsLUB values v

theorem IsOptimum.bounds {s : Sense} {values : Set K} {v w : K} (h : s.IsOptimum values v)
    (hw : w ∈ values) : s.Bounds v w := by
  cases s
  · exact h.1 hw
  · exact h.1 hw

theorem IsOptimum.le_of_bounds {s : Sense} {values : Set K} {v b : K} (h : s.IsOptimum values v)
    (hb : ∀ w ∈ values, s.Bounds b w) : s.Bounds b v := by
  cases s
  · exact h.2 hb
  · exact h.2 hb

theorem isOptimum_of_le_of_bounds {s : Sense} {values : Set K} {v : K}
    (hv : ∀ w ∈ values, s.Bounds v w) (hb : ∀ b, (∀ w ∈ values, s.Bounds b w) → s.Bounds b v) :
    s.IsOptimum values v := by
  cases s
  · exact ⟨fun w hw => hv w hw, fun b h => hb b fun w hw => h hw⟩
  · exact ⟨fun w hw => hv w hw, fun b h => hb b fun w hw => h hw⟩

theorem isOptimum_of_mem {s : Sense} {values : Set K} {v : K} (hv : v ∈ values)
    (hb : ∀ w ∈ values, s.Bounds v w) : s.IsOptimum values v := by
  cases s
  · exact ⟨hb, fun _ h => h hv⟩
  · exact ⟨hb, fun _ h => h hv⟩

/-- Whether a number is an optimum depends on what bounds the values. -/
theorem isOptimum_congr {s : Sense} {values others : Set K} {v : K}
    (h : ∀ b, (∀ w ∈ values, s.Bounds b w) ↔ ∀ w ∈ others, s.Bounds b w) :
    s.IsOptimum values v ↔ s.IsOptimum others v := by
  cases s
  · have hbounds : lowerBounds values = lowerBounds others := Set.ext fun b => by
      simpa [lowerBounds, Bounds] using h b
    rw [IsOptimum, IsOptimum, IsGLB, IsGLB, hbounds]
  · have hbounds : upperBounds values = upperBounds others := Set.ext fun b => by
      simpa [upperBounds, Bounds] using h b
    rw [IsOptimum, IsOptimum, IsLUB, IsLUB, hbounds]

/-- What bounds all sums with a number bounds the sum with the optimum. -/
theorem IsOptimum.bounds_add {s : Sense} {values : Set K} {v a b : K} (h : s.IsOptimum values v)
    (hb : ∀ w ∈ values, s.Bounds b (a + w)) : s.Bounds b (a + v) := by
  have hbounds : s.Bounds (b - a) v := h.le_of_bounds fun w hw => by
    have := (hb w hw).add (s.bounds_refl (-a))
    simpa [sub_eq_add_neg] using this
  simpa using (s.bounds_refl a).add hbounds

/-- The optimum of weighted sums of two values is the weighted sum of the optima. -/
theorem IsOptimum.add_mul {s : Sense} {values others : Set K} {v w a : K}
    (h : s.IsOptimum values v) (ha : 0 < a) (h' : s.IsOptimum others w) :
    s.IsOptimum {c | ∃ x ∈ values, ∃ y ∈ others, a * x + y = c} (a * v + w) := by
  refine isOptimum_of_le_of_bounds ?_ fun b hb => h'.bounds_add fun y hy => ?_
  · rintro c ⟨x, hx, y, hy, rfl⟩
    exact ((h.bounds hx).mul_left ha.le).add (h'.bounds hy)
  · have hscaled : s.Bounds ((b - y) / a) v := h.le_of_bounds fun x hx => by
      have hsum := (hb _ ⟨x, hx, y, hy, rfl⟩).add (s.bounds_refl (-y))
      have hdivided := hsum.mul_left (inv_nonneg.2 ha.le)
      rw [add_neg_cancel_right, inv_mul_cancel_left₀ ha.ne'] at hdivided
      rwa [div_eq_inv_mul, sub_eq_add_neg]
    have hback := (hscaled.mul_left ha.le).add (s.bounds_refl y)
    rwa [mul_div_cancel₀ _ ha.ne', sub_add_cancel] at hback

/-- With fewer values to choose from the optimum is no better. -/
theorem IsOptimum.mono {s : Sense} {values fewer : Set K} {v w : K} (h : s.IsOptimum values v)
    (h' : s.IsOptimum fewer w) (hf : fewer ⊆ values) : s.Bounds v w :=
  h'.le_of_bounds fun _ hx => h.bounds (hf hx)

end Sense

/-! ## The rationals -/

/-- The whole number nearest to a rational, a half going to the even neighbour. -/
def nearestRational (q : ℚ) : ℤ :=
  let n := ⌊q⌋
  if 2 * (q - n) < 1 then n
  else if 1 < 2 * (q - n) then n + 1
  else if n % 2 = 0 then n else n + 1

theorem nearestRational_spec (q : ℚ) :
    2 * |q - nearestRational q| ≤ 1 ∧ (2 * |q - nearestRational q| = 1 → Even (nearestRational q)) := by
  have hlow := Int.floor_le q
  have hhigh := Int.lt_floor_add_one q
  simp only [nearestRational]
  split_ifs with h₁ h₂ h₃
  · rw [abs_of_nonneg (by linarith)]
    exact ⟨h₁.le, fun h => absurd h h₁.ne⟩
  · push_cast
    rw [abs_of_nonpos (by linarith)]
    exact ⟨by linarith, fun h => absurd h (by linarith)⟩
  · rw [abs_of_nonneg (by linarith)]
    exact ⟨by linarith, fun _ => Int.even_iff.2 h₃⟩
  · push_cast
    rw [abs_of_nonpos (by linarith)]
    exact ⟨by linarith, fun _ => Int.even_iff.2 (by omega)⟩

instance : ExactNumeral ℚ where
  nearest q := nearestRational q
  nearest_spec q := ⟨nearestRational q, rfl, nearestRational_spec q⟩
  text q := toString q.num ++ "/" ++ toString q.den
  read _ := none
  missing := 0

end DualDynamic
