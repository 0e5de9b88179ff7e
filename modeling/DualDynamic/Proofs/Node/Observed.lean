import DualDynamic.Proofs.Node

/-!
# Looking on while a node is solved

The runs of a node that are defined here are those that solve it, for one outcome or for all of them,
except that each program is shown when it goes to the engine, next to what it is about
(`Occurrence`). To forget what was shown gives the runs back.

What is shown has the data of the node for a state, a price and a realization (`HasData`): this is
determined in the cells that settings write to, whatever was done with the node before and whatever a
retry does to it in between.
-/

namespace DualDynamic

open Step

variable {K : Type}

/-- What happens in a stage, and the program that is solved for it. -/
structure Occurrence (K : Type) where
  markov : ℕ
  /-- The price noise. -/
  noise : Datum K
  realization : ℕ
  program : LinearProgram K

/-- An occurrence with its optimal value, its state duals and its weight. -/
abbrev Entry (K : Type) : Type := Occurrence K × K × List K × K

namespace Node

variable [Numeral K] {engine : Engine K} {n n₀ : Node K} {rows : ℕ}

/-! ## Runs with occurrences -/

/-- Sets a node up for a realization at a price, and shows its program. -/
def present (price : Option K) (k : ℕ) : Run K (Node K) (LinearProgram K) := do
  onModel (Subproblem.setRealization k)
  setPrice price
  return (← Run.part).model.program

theorem present_eq (price : Option K) (k : ℕ) : present price k =
    (onModel (Subproblem.setRealization k) >>= fun _ => setPrice price) >>= fun _ =>
      Run.part >>= fun n => pure n.model.program := by
  rw [bind_assoc]
  rfl

/-- The answer of a node for a realization at a price, behind the program that it belongs to. -/
def observeRealization (engine : Engine K) (price : Option K) (k : ℕ) :
    Run K (Node K) (LinearProgram K × K × List K) := do
  let p ← present price k
  let r ← answer engine
  return (p, r)

theorem map_observeRealization (price : Option K) (k : ℕ) :
    Prod.snd <$> observeRealization engine price k = solveRealization engine price k := by
  simp only [observeRealization, present, solveRealization_eq, map_bind, bind_assoc, map_pure,
    pure_bind, bind_pure]
  rfl

/-- The entries of all realizations, for a realization of the price noise. -/
def observePriced (engine : Engine K) (price : Option K) (weight : K) (noise : Datum K × K) :
    Run K (Node K) (List (Entry K)) := do
  let n ← Run.part
  let next ← Step.ofExcept (n.costToGo.nextPrice price noise.1 n.stage n.markov)
  let realizations ← Step.ofExcept n.possible
  realizations.mapM fun (k, p) => do
    let (program, value, duals) ← observeRealization engine next k
    return (⟨n.markov, noise.1, k, program⟩, value, duals, weight * noise.2 * p)

theorem map_observePriced (price : Option K) (weight : K) (noise : Datum K × K) :
    List.map Prod.snd <$> observePriced engine price weight noise =
      solvePriced engine price weight noise := by
  simp only [observePriced, solvePriced, map_bind, map_mapM, ← map_observeRealization, map_pure,
    bind_map_left]

/-- The entries of all realizations of price and noise. -/
def observeAll (engine : Engine K) (state : Option (List K)) (price : Option K) (weight : K) :
    Run K (Node K) (List (Entry K)) := do
  let n ← Run.part
  onModel (Subproblem.setIncoming (state.getD n.model.initialValues))
  let parts ← n.costToGo.priceNoise.mapM (observePriced engine price weight)
  return parts.flatten

theorem map_observeAll (state : Option (List K)) (price : Option K) (weight : K) :
    List.map Prod.snd <$> observeAll engine state price weight =
      solveAll engine state price weight := by
  have hpriced : solvePriced engine price weight =
      fun noise => List.map Prod.snd <$> observePriced engine price weight noise :=
    funext fun noise => (map_observePriced price weight noise).symm
  simp only [observeAll, solveAll, map_bind, map_pure, List.map_flatten, hpriced, ← map_mapM,
    bind_map_left]

/-- Takes the decision for a realization at a price, and shows its program. -/
def observeDecision (engine : Engine K) (price : Option K) (k : ℕ) :
    Run K (Node K) (LinearProgram K) := do
  let p ← present price k
  let n ← Run.part
  let _ ← onModel (Subproblem.solve engine (some n.stage) (some n.markov))
  return p

theorem map_observeDecision (price : Option K) (k : ℕ) :
    (fun _ => ()) <$> observeDecision engine price k = Simulated.decide engine price k := by
  simp only [observeDecision, present, Simulated.decide, map_bind, bind_assoc, map_pure, pure_bind]
  rfl

/-! ## What solving a node comes to -/

/-- The entry for a realization of the price noise and one of the node, each with its weight. -/
structure IsEntry (n : Node K) (p : K) (R : ℕ → LinearProgram K × K × List K → Prop)
    (drawn : Datum K × K) (item : ℕ × K) (e : Entry K) : Prop where
  markov : e.1.markov = n.markov
  noise : e.1.noise = drawn.1
  realization : e.1.realization = item.1
  answer : R item.1 (e.1.program, e.2.1, e.2.2.1)
  weight : e.2.2.2 = p * drawn.2 * item.2

/-- The entries for one realization of the price noise: one for each realization that can happen. -/
def ShowsPart (n : Node K) (price : Option K) (weight : K)
    (R : Option K → ℕ → LinearProgram K × K × List K → Prop) (noise : Datum K × K)
    (es : List (Entry K)) : Prop :=
  ∃ next items, n.costToGo.nextPrice price noise.1 n.stage n.markov = .ok next ∧
    n.possible = .ok items ∧ List.Forall₂ (n.IsEntry weight (R next) noise) items es

/-- The same without the occurrences. -/
def IsPart (n : Node K) (price : Option K) (weight : K) (R : Option K → ℕ → K × List K → Prop)
    (noise : Datum K × K) (rs : List (K × List K × K)) : Prop :=
  ∃ next items, n.costToGo.nextPrice price noise.1 n.stage n.markov = .ok next ∧
    n.possible = .ok items ∧ List.Forall₂
      (fun kp r => R next kp.1 (r.1, r.2.1) ∧ r.2.2 = weight * noise.2 * kp.2) items rs

theorem ShowsPart.isPart {price : Option K} {weight : K} {R : Option K → ℕ → K × List K → Prop}
    {noise : Datum K × K} {es : List (Entry K)}
    (h : n.ShowsPart price weight (fun next k r => R next k r.2) noise es) :
    n.IsPart price weight R noise (es.map Prod.snd) := by
  obtain ⟨next, items, hnext, hitems, hes⟩ := h
  exact ⟨next, items, hnext, hitems, List.forall₂_map_right_iff.2
    (hes.imp fun _ _ he => ⟨he.answer, he.weight⟩)⟩

section Ensures

variable {I I' : Watched (Node K) → Prop}

section Observed

variable {R : Option K → ℕ → LinearProgram K × K × List K → Prop}
  (hI : ∀ w, I w → w.part.outline = n.outline)
  (h : ∀ next k, Ensures I (observeRealization engine next k) (fun r w => R next k r ∧ I w) I)
include hI h

theorem ensures_observePriced (price : Option K) (weight : K) (noise : Datum K × K) :
    Ensures I (observePriced engine price weight noise)
      (fun es w => n.ShowsPart price weight R noise es ∧ I w) I := by
  refine Run.ensures_part_bind fun w hw => ?_
  obtain ⟨m, pools, installed, price', -, hn⟩ := exists_of_outline (hI w hw)
  have hmarkov : w.part.markov = n.markov := by rw [hn]
  rw [nextPrice_congr (hI w hw), possible_congr (hI w hw), hmarkov]
  have hstart : ∀ v, v = w → I v := fun v hv => hv ▸ hw
  refine Ensures.bind (Q := fun next v =>
    n.costToGo.nextPrice price noise.1 n.stage n.markov = .ok next ∧ v = w)
    (ensures_ofExcept (fun next hnext v hv => ⟨hnext, hv⟩) hstart) fun next => ?_
  refine Ensures.bind (Q := fun items v =>
    n.costToGo.nextPrice price noise.1 n.stage n.markov = .ok next ∧ n.possible = .ok items ∧ v = w)
    (ensures_ofExcept (fun items hitems v hv => ⟨hv.1, hitems, hv.2⟩) fun v hv => hstart v hv.2)
    fun items => ?_
  rintro v ⟨hok, hitems, hv⟩
  have hall : Ensures I (items.mapM fun (k, p) => do
      let (program, value, duals) ← observeRealization engine next k
      return (⟨n.markov, noise.1, k, program⟩, value, duals, weight * noise.2 * p))
      (fun es w => List.Forall₂ (n.IsEntry weight (R next) noise) items es ∧ I w) I :=
    Ensures.mapM fun kp _ => (h next kp.1).bind fun r => ensures_pure fun u hu =>
      ⟨⟨rfl, rfl, rfl, hu.1, rfl⟩, hu.2⟩
  exact (hall.weaken (fun _ => id) (fun es u hu => ⟨⟨next, items, hok, hitems, hu.1⟩, hu.2⟩)
    fun _ => id) v (hstart v hv)

theorem ensures_observeAll {E : Watched (Node K) → Prop} {state : Option (List K)}
    (hI' : ∀ w, I' w → w.part.outline = n.outline) (hE : ∀ w, I w → E w)
    (hincoming : Ensures I' (onModel (Subproblem.setIncoming
      (state.getD n.model.initialValues))) (fun _ => I) E) (price : Option K) (weight : K) :
    Ensures I' (observeAll engine state price weight) (fun es w =>
      (∃ parts, es = parts.flatten ∧
        List.Forall₂ (n.ShowsPart price weight R) n.costToGo.priceNoise parts) ∧ I w) E := by
  refine Run.ensures_part_bind fun w hw => ?_
  rw [initialValues_congr (hI' w hw), priceNoise_congr (hI' w hw)]
  have hparts : Ensures I (n.costToGo.priceNoise.mapM (observePriced engine price weight))
      (fun parts w => List.Forall₂ (n.ShowsPart price weight R) n.costToGo.priceNoise parts ∧ I w)
      I := Ensures.mapM fun noise _ => ensures_observePriced hI h price weight noise
  intro v hv
  obtain rfl : v = w := hv
  exact (hincoming.bind fun _ => (hparts.weaken (fun _ => id) (fun _ _ => id) hE).bind fun parts =>
    ensures_pure fun u hu => ⟨⟨parts, rfl, hu.1⟩, hu.2⟩) v hw

end Observed

theorem ensures_solveAll {R : Option K → ℕ → K × List K → Prop}
    {E : Watched (Node K) → Prop} {state : Option (List K)}
    (hI : ∀ w, I w → w.part.outline = n.outline)
    (h : ∀ next k, Ensures I (solveRealization engine next k) (fun r w => R next k r ∧ I w) I)
    (hI' : ∀ w, I' w → w.part.outline = n.outline) (hE : ∀ w, I w → E w)
    (hincoming : Ensures I' (onModel (Subproblem.setIncoming
      (state.getD n.model.initialValues))) (fun _ => I) E) (price : Option K) (weight : K) :
    Ensures I' (solveAll engine state price weight) (fun rs w =>
      (∃ parts, rs = parts.flatten ∧
        List.Forall₂ (n.IsPart price weight R) n.costToGo.priceNoise parts) ∧ I w) E := by
  have hobserved : ∀ next k, Ensures I (observeRealization engine next k)
      (fun r w => R next k r.2 ∧ I w) I := by
    intro next k
    have hsolve := h next k
    rwa [← map_observeRealization, ensures_map] at hsolve
  rw [← map_observeAll, ensures_map]
  refine ((ensures_observeAll hI hobserved hI' hE hincoming price weight).weaken
    (fun _ => id) (fun es w hes => ?_) fun _ => id)
  obtain ⟨⟨parts, rfl, hparts⟩, hw⟩ := hes
  refine ⟨⟨parts.map (List.map Prod.snd), List.map_flatten, ?_⟩, hw⟩
  exact List.forall₂_map_right_iff.2 (hparts.imp fun _ _ hpart => hpart.isPart)

end Ensures

end Node

end DualDynamic
