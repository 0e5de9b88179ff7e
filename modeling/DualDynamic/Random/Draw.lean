import DualDynamic.Random.MersenneTwister
import DualDynamic.Step

/-!
# Random choices

Seeds of a stream, and draws of one of `k` items, equally likely or with given probabilities. An
equally likely item comes from the lowest bits of a word that suffice, and words that are too large
are passed over; with probabilities, a number in `[0, 1)` is looked up among the partial sums.
-/

namespace DualDynamic

/-- What a stream starts from. -/
inductive Seed where
  | word (value : UInt32)
  | key (words : Array UInt32)
  deriving Repr

namespace Seed

variable {K : Type}

/-- The largest word. -/
def wordMax : Int := 4294967295

/-- The stream of a seed. -/
def stream : Seed → MersenneTwister
  | word w => .ofWord w
  | key ws => .ofKey ws

/-- A whole number that fits into a word. -/
def ofInt (n : Int) : Except (Fault K) Seed :=
  if 0 ≤ n && n ≤ wordMax then .ok (word (UInt32.ofNat n.toNat)) else .error .badNumber

/-- A list of whole numbers that fit into words, at least one. -/
def ofList (ns : List Int) : Except (Fault K) Seed :=
  if ns.isEmpty || ns.any (fun n => n < 0 || wordMax < n) then .error .badNumber
  else .ok (key (ns.map fun n => UInt32.ofNat n.toNat).toArray)

/-- The whole number in a list. -/
def wholeOf : Datum K → Except (Fault K) Int
  | .whole n => .ok n
  | .flag b => .ok (if b then 1 else 0)
  | _ => .error .badNumber

/-- A seed from data: a truth value counts as zero or one. -/
def ofDatum [Numeral K] : Datum K → Except (Fault K) Seed
  | .whole n => ofInt n
  | .flag b => ofInt (if b then 1 else 0)
  | .list items => do ofList (← items.mapM wholeOf)
  | d => .error (.seed d.inner)

/-- The stream of the `i`-th training iteration. -/
def iteration (i : Nat) : MersenneTwister := .ofWord (UInt32.ofNat i)

/-- The stream of the `i`-th iteration of worker `p`. -/
def workerIteration (p : Int) (i : Nat) : MersenneTwister :=
  .ofKey #[UInt32.ofNat p.toNat, UInt32.ofNat i]

/-- The stream of evaluations without a seed, the same each time. -/
def evaluation : MersenneTwister := .ofWord 4294967295

end Seed

/-- A step on a stream. -/
abbrev Draw (K A : Type) : Type := Step K MersenneTwister A

namespace Draw

variable {K : Type}

/-- The next word. -/
def word : Draw K UInt32 := do
  let (w, s) := (← get).next
  set s
  return w

/-- The next two words as one number, the first one in front. -/
def doubleWord : Draw K Nat := do
  let high ← word
  let low ← word
  return high.toNat * Nat.pow 2 32 + low.toNat

/-- How many draws may be passed over; each one is with a chance of less than one half. -/
def patience : Nat := 10000

/-- The first number up to `top` among draws cut to their lowest bits. -/
def firstUpTo (top mask : Nat) (draw : Draw K Nat) : Nat → Draw K Nat
  | 0 => return 0
  | fuel + 1 => do
    let n := (← draw) &&& mask
    if n ≤ top then return n else firstUpTo top mask draw fuel

/-- The numbers of items that fit into two words, less a sign. -/
def itemLimit : Int := 9223372036854775808

/-- One of `k` equally likely items. A single item needs no draw. -/
def uniform (k : Int) : Draw K Nat :=
  if k ≤ 0 || itemLimit < k then throw .badNumber
  else
    let top := (k - 1).toNat
    let mask := Nat.pow 2 (top.log2 + 1) - 1
    if top == 0 then return 0
    else if top < Nat.pow 2 32 then firstUpTo top mask (UInt32.toNat <$> word) patience
    else firstUpTo top mask doubleWord patience

section Weighted

variable [Scalar K]

/-- A number in `[0, 1)` with 53 random bits. -/
def unit : Draw K K := do
  let high ← word
  let low ← word
  let bits := (high >>> 5).toNat * Nat.pow 2 26 + (low >>> 6).toNat
  return Scalar.ofNat bits / Scalar.ofNat (Nat.pow 2 53)

/-- How far the sum of probabilities may be from one. -/
def slack : K := Scalar.one / Scalar.ofNat (Nat.pow 2 26)

/-- Whether `k` items can be drawn with these probabilities. -/
def accepts (k : Int) (p : List K) : Bool :=
  0 < k && (p.length : Int) == k && !(p.any fun x => Scalar.lt x Scalar.zero) &&
    Scalar.le (Scalar.abs (Scalar.sum p - Scalar.one)) slack

/-- The partial sums from the left. -/
def partialSums : K → List K → List K
  | _, [] => []
  | total, x :: xs => (total + x) :: partialSums (total + x) xs

/-- The number of partial sums, divided by the whole sum, that are at most `u`. -/
def locate (p : List K) (u : K) : Nat :=
  let sums := partialSums Scalar.zero p
  let total := (sums.getLast?).getD Scalar.one
  (sums.filter fun s => Scalar.le (s / total) u).length

/-- One of `k` items with given probabilities. -/
def weighted (k : Int) (p : List K) : Draw K Nat :=
  if accepts k p then do return locate p (← unit) else throw .badNumber

/-- One of `k` items, equally likely unless probabilities are given. -/
def item (k : Int) (p : Option (List K)) : Draw K Nat :=
  match p with
  | none => uniform k
  | some p => weighted k p

end Weighted

end Draw

end DualDynamic
