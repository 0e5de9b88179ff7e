import DualDynamic.Proofs.CostToGo.Contents
import DualDynamic.Proofs.CostToGo.Weights
import DualDynamic.Proofs.Subproblem.Approximation

/-!
# The envelope of the cuts

A subproblem knows of the cost-to-go what its variables know: the bound they have and the rows of the
installed cuts. With the outgoing state fixed the best value of the variable of a rib is therefore the
envelope of the rib, the tightest of the bound and the cuts at that state. Setting the location puts the
weights of a price into the objective, over whatever stood there, so that the variables contribute the
interpolated envelope to the objective, whatever happened before.

A bound of a size that counts as none is not kept. Then the cuts of a rib are all there is, and without
one the variable is free.
-/

namespace DualDynamic

open Step

variable {K : Type}

/-! ## The tightest bound -/

namespace Sense

variable [ExactNumeral K] {s : Sense} {a b c v : K}

/-- The one of two numbers that bounds more. -/
def tighter (s : Sense) (a b : K) : K :=
  match s with
  | minimize => max a b
  | maximize => min a b

/-- The number that bounds most. -/
def tightest (s : Sense) : List K → K
  | [] => 0
  | b :: bounds => bounds.foldl s.tighter b

/-- The best of some values, which is one of them. -/
def IsBest (s : Sense) (values : Set K) (v : K) : Prop :=
  match s with
  | minimize => IsLeast values v
  | maximize => IsGreatest values v

theorem isBest_iff {values : Set K} :
    s.IsBest values v ↔ v ∈ values ∧ ∀ w ∈ values, s.Bounds v w := by
  cases s <;> rfl

theorem bounds_tighter : s.Bounds (s.tighter a b) c ↔ s.Bounds a c ∧ s.Bounds b c := by
  cases s
  · exact max_le_iff
  · exact le_min_iff

theorem bounds_foldl_tighter (bounds : List K) (b : K) :
    s.Bounds (bounds.foldl s.tighter b) c ↔ s.Bounds b c ∧ ∀ a ∈ bounds, s.Bounds a c := by
  induction bounds generalizing b with
  | nil => simp
  | cons a bounds ih => rw [List.foldl_cons, ih, bounds_tighter, List.forall_mem_cons, and_assoc]

theorem bounds_tightest {bounds : List K} (h : bounds ≠ []) :
    s.Bounds (s.tightest bounds) c ↔ ∀ a ∈ bounds, s.Bounds a c := by
  cases bounds with
  | nil => exact absurd rfl h
  | cons b bounds => rw [tightest, bounds_foldl_tighter, List.forall_mem_cons]

theorem bounds_tightest_of_mem {bounds : List K} (h : b ∈ bounds) : s.Bounds b (s.tightest bounds) :=
  (bounds_tightest (List.ne_nil_of_mem h)).1 (s.bounds_refl _) b h

theorem bounds_sum_map {A : Type} {f g : A → K} {l : List A} (h : ∀ a ∈ l, s.Bounds (f a) (g a)) :
    s.Bounds (l.map f).sum (l.map g).sum := by
  induction l with
  | nil => exact s.bounds_refl _
  | cons a l ih =>
    rw [List.forall_mem_cons] at h
    rw [List.map_cons, List.sum_cons, List.map_cons, List.sum_cons]
    exact h.1.add (ih h.2)

/-- The values of a weighted sum of numbers, each of them bounded by some others. -/
def weighted (s : Sense) (weights : List (ℕ × K)) (bounds : ℕ → List K) : Set K :=
  {c | ∃ t : ℕ → K, (∀ i, ∀ b ∈ bounds i, s.Bounds b (t i)) ∧
    (weights.map fun w => w.2 * t w.1).sum = c}

variable {weights : List (ℕ × K)} {bounds : ℕ → List K}

/-- The best weighted sum puts every number at its tightest bound. -/
theorem isBest_weighted (hweights : ∀ w ∈ weights, 0 ≤ w.2)
    (hbounds : ∀ w ∈ weights, w.2 ≠ 0 → bounds w.1 ≠ []) : s.IsBest (s.weighted weights bounds)
      (weights.map fun w => w.2 * s.tightest (bounds w.1)).sum := by
  refine isBest_iff.2 ⟨⟨fun i => s.tightest (bounds i), fun i b => bounds_tightest_of_mem, rfl⟩, ?_⟩
  rintro c ⟨t, ht, rfl⟩
  refine bounds_sum_map fun w hw => ?_
  by_cases hzero : w.2 = 0
  · rw [hzero, zero_mul, zero_mul]
    exact s.bounds_refl 0
  · exact ((bounds_tightest (hbounds w hw hzero)).2 (ht w.1)).mul_left (hweights w hw)

/-- What is added to one of the numbers counts with the weight of that number. -/
theorem sum_single (hnodup : (weights.map Prod.fst).Nodup) {w : ℕ × K} (hw : w ∈ weights) (a : K) :
    (weights.map fun u => u.2 * if u.1 = w.1 then a else 0).sum = w.2 * a := by
  induction weights with
  | nil => simp at hw
  | cons u weights ih =>
    obtain ⟨hu, hnodup⟩ := List.nodup_cons.1 hnodup
    rw [List.map_cons, List.sum_cons]
    rcases List.mem_cons.1 hw with rfl | hw
    · have hzero : ∀ v ∈ weights, (v.2 * if v.1 = w.1 then a else 0) = 0 := by
        intro v hv
        rw [if_neg fun heq => hu (List.mem_map.2 ⟨v, hv, heq⟩), mul_zero]
      rw [if_pos rfl, List.map_congr_left hzero]
      simp
    · rw [if_neg fun heq => hu (List.mem_map.2 ⟨w, hw, heq.symm⟩), mul_zero, zero_add, ih hnodup hw]

/-- A number that nothing bounds makes the sum as good as one likes, if it has a weight. -/
theorem exists_weighted_beyond (s : Sense) (bounds : ℕ → List K)
    (hnodup : (weights.map Prod.fst).Nodup) {w : ℕ × K} (hw : w ∈ weights) (hne : w.2 ≠ 0)
    (hnone : bounds w.1 = []) (c : K) :
    ∃ d ∈ s.weighted weights bounds, ¬ s.Bounds c d := by
  set rest := (weights.map fun u => u.2 * s.tightest (bounds u.1)).sum with hrest
  set free := (c - rest - s.unit) / w.2 with hfree
  refine ⟨c - s.unit, ⟨fun i => s.tightest (bounds i) + if i = w.1 then free else 0,
    fun i b hb => ?_, ?_⟩, fun h => ?_⟩
  · have hi : i ≠ w.1 := by
      rintro rfl
      simp [hnone] at hb
    simpa only [if_neg hi, add_zero] using bounds_tightest_of_mem hb
  · simp only [mul_add, List.sum_map_add, sum_single hnodup hw, ← hrest]
    rw [hfree, mul_div_cancel₀ _ hne]
    ring
  · have hpos : s.unit * (s.unit : K) = 1 := by cases s <;> simp
    rw [bounds_iff, mul_sub, hpos] at h
    linarith

end Sense

/-! ## Costs of variables -/

namespace LinearProgram

theorem foldl_setCost (costs : List (ℕ × K)) (p : LinearProgram K) :
    (costs.foldl (fun p (i, a) => p.setCost i a) p).constraints = p.constraints ∧
      (costs.foldl (fun p (i, a) => p.setCost i a) p).vars.size = p.vars.size := by
  induction costs generalizing p with
  | nil => exact ⟨rfl, rfl⟩
  | cons c costs ih =>
    obtain ⟨hrows, hsize⟩ := ih (p.setCost c.1 c.2)
    exact ⟨hrows, hsize.trans Array.size_modify⟩

/-- Costs that are overwritten, each once, are the new ones, and nothing else of a variable changes. -/
theorem getElem?_foldl_setCost (costs : List (ℕ × K)) (hnodup : (costs.map Prod.fst).Nodup)
    (p : LinearProgram K) (x : ℕ) : (costs.foldl (fun p (i, a) => p.setCost i a) p).vars[x]? =
      p.vars[x]?.map fun w => { w with cost := (costs.lookup x).getD w.cost } := by
  induction costs generalizing p with
  | nil => simp
  | cons c costs ih =>
    obtain ⟨i, a⟩ := c
    obtain ⟨hi, hnodup⟩ := List.nodup_cons.1 hnodup
    rw [List.foldl_cons, ih hnodup]
    have hfirst : (p.setCost i a).vars[x]? =
        if i = x then p.vars[x]?.map fun w => { w with cost := a } else p.vars[x]? :=
      getElem?_changeVariable ..
    by_cases hix : i = x
    · subst hix
      have hnone : costs.lookup i = none := List.lookup_eq_none_iff.2 fun t ht =>
        bne_iff_ne.2 fun heq => hi (List.mem_map.2 ⟨t, ht, heq.symm⟩)
      simp [hfirst, hnone, Function.comp_def]
    · simp [hfirst, if_neg hix, List.lookup_cons, beq_false_of_ne (Ne.symm hix)]

/-- A list beside another one, looked up. -/
theorem lookup_zip {xs : List ℕ} {ys : List K} {i x : ℕ} {y : K} (hnodup : xs.Nodup)
    (hx : xs[i]? = some x) (hy : ys[i]? = some y) : (List.zip xs ys).lookup x = some y := by
  induction xs generalizing ys i with
  | nil => simp at hx
  | cons z xs ih =>
    obtain ⟨hz, hnodup⟩ := List.nodup_cons.1 hnodup
    cases ys with
    | nil => simp at hy
    | cons w ys =>
      cases i with
      | zero =>
        obtain rfl := Option.some.inj hx
        obtain rfl := Option.some.inj hy
        simp
      | succ i =>
        have hne : x ≠ z := by
          rintro rfl
          exact hz (List.mem_of_getElem? hx)
        rw [List.zip_cons_cons, List.lookup_cons, beq_false_of_ne hne]
        exact ih hnodup hx hy

end LinearProgram

/-- A subproblem that a cost-to-go can be started on: rows and states are about variables that there
are, and no state is there twice. -/
structure Subproblem.IsFit (m : Subproblem K) : Prop where
  closed : m.IsClosed
  distinct : m.states.Nodup

/-- The subproblem of a new node is fit. -/
theorem Subproblem.isFit_newModel [Numeral K] {g : PolicyGraph K} {recipe : Recipe K}
    {stage markov : ℕ} {m : Subproblem K} (h : g.newModel recipe stage markov = .ok m) : m.IsFit := by
  obtain ⟨n, hlinked⟩ := PolicyGraph.isLinked_newModel h
  exact ⟨isClosed_newModel h, hlinked.wellFormed.distinct⟩

namespace CostToGo

open LinearProgram

variable [ExactNumeral K] {v v' : CostToGo K} {m m' : Subproblem K} {f : Frame K}
  {axis : Option (Pricing K)}

/-! ## The subproblem at a price -/

/-- The costs of the variables that stand for the cost-to-go, given weights of the ribs. -/
def costs (v : CostToGo K) (ws : List (ℕ × K)) : List (ℕ × K) :=
  List.zip v.vars (v.vars.zipIdx.map fun (_, i) => (ws.lookup i).getD 0)

/-- The subproblem with given weights of the ribs in its objective. -/
def located (v : CostToGo K) (ws : List (ℕ × K)) (m : Subproblem K) : Subproblem K :=
  { m with program := (v.costs ws).foldl (fun p (i, w) => p.setCost i w) m.program }

/-- Setting the location writes the weights of the price over the costs of the variables. -/
theorem setLocation_eq_ok {price : Option K} : v.setLocation price m = .ok m' ↔
    ∃ ws, v.weights price = .ok ws ∧ (∀ w ∈ ws, w.1 < v.vars.length) ∧ m' = located v ws m := by
  constructor
  · intro h
    obtain ⟨weights, hweights, h⟩ := exceptBind_eq_ok.1 h
    obtain ⟨ws, hws, hweights⟩ := exceptBind_eq_ok.1 hweights
    obtain ⟨hany, hweights⟩ := guard_eq_ok hweights
    obtain rfl := Except.ok.inj hweights
    obtain rfl := Except.ok.inj h
    refine ⟨ws, hws, fun w hw => not_le.1 fun hle => hany ?_, ?_⟩
    · exact List.any_eq_true.2 ⟨w, hw, decide_eq_true hle⟩
    · simp only [located, costs, Scalar.zero_eq]
  · rintro ⟨ws, hws, hlt, rfl⟩
    have hany : ¬ (ws.any fun (i, _) => decide (v.vars.length ≤ i)) = true := by
      rw [List.any_eq_true]
      rintro ⟨w, hw, hle⟩
      exact absurd (hlt w hw) (not_lt.2 (of_decide_eq_true hle))
    refine exceptBind_eq_ok.2 ⟨_, exceptBind_eq_ok.2 ⟨ws, hws, if_neg hany⟩, ?_⟩
    simp only [located, costs, Scalar.zero_eq]
    rfl

/-- Setting the location changes costs only. -/
theorem located_fields (v : CostToGo K) (ws : List (ℕ × K)) (m : Subproblem K) :
    (located v ws m).states = m.states ∧
      (located v ws m).program.constraints = m.program.constraints ∧
      (located v ws m).program.vars.size = m.program.vars.size :=
  ⟨rfl, foldl_setCost _ _⟩

/-- A variable at a location has the weight of its rib for its cost. -/
theorem getElem?_located (hnodup : v.vars.Nodup) {i x : ℕ} (hx : v.vars[i]? = some x)
    (ws : List (ℕ × K)) : (located v ws m).program.vars[x]? =
      m.program.vars[x]?.map fun w => { w with cost := (ws.lookup i).getD 0 } := by
  have hkeys : (v.costs ws).map Prod.fst = v.vars := List.map_fst_zip (by simp)
  have hlookup : (v.costs ws).lookup x = some ((ws.lookup i).getD 0) :=
    lookup_zip hnodup hx (by simp [hx])
  rw [located, getElem?_foldl_setCost _ (by rw [hkeys]; exact hnodup), hlookup]
  rfl

/-! ## What lasts -/

/-- What lasts of a cost-to-go in its subproblem: it stays with the frame and the price axis that it was
started with, its variables are those of ribs up to their costs, its cuts are on the side of the
frame, and the states are variables of the subproblem, each once. -/
structure IsFramed (f : Frame K) (axis : Option (Pricing K)) (v : CostToGo K) (m : Subproblem K) :
    Prop where
  contents : HasContents v m
  frame : v.frame = some f
  axis : v.pricing = axis
  ribs : ∀ x ∈ v.vars, ∃ k cost, m.program.vars[x]? = some { ribVariable f k with cost := cost }
  sides : ∀ (i : ℕ) (pool : CutPool K), v.pools[i]? = some pool →
    ∀ c ∈ pool.cuts, c.side = f.sense.cutSide
  states : ∀ x ∈ m.states, x < m.program.vars.size
  distinct : m.states.Nodup

omit [ExactNumeral K] in
theorem foldl_withVariable (ws : List (Variable K)) (m : Subproblem K) :
    (ws.foldl Subproblem.withVariable m).states = m.states ∧
      (ws.foldl Subproblem.withVariable m).program.vars = m.program.vars ++ ws.toArray := by
  induction ws generalizing m with
  | nil => simp
  | cons w ws ih =>
    obtain ⟨hstates, hvars⟩ := ih (m.withVariable w)
    refine ⟨hstates, ?_⟩
    rw [List.foldl_cons, hvars]
    simp [Subproblem.withVariable, LinearProgram.addVariable]

/-- The new variables of a subproblem are those of the ribs. -/
theorem getElem?_withRibVariables {n x : ℕ} (hx : x ∈ nextVariables n m) :
    ∃ k cost, (withRibVariables f n m).program.vars[x]? = some { ribVariable f k with cost := cost } := by
  obtain ⟨k, hk, rfl⟩ := List.mem_map.1 hx
  refine ⟨k, 0, ?_⟩
  rw [withRibVariables, (foldl_withVariable _ m).2, Array.getElem?_append_right (by omega)]
  simp [List.mem_range.1 hk, ribVariable]

theorem states_withRibVariables (f : Frame K) (n : ℕ) (hm : m.IsFit) :
    (withRibVariables f n m).states = m.states ∧
      ∀ x ∈ m.states, x < (withRibVariables f n m).program.vars.size := by
  obtain ⟨hstates, hvars⟩ := foldl_withVariable ((List.range n).map (ribVariable f)) m
  refine ⟨hstates, fun x hx => ?_⟩
  have hlt := hm.closed.states x hx
  rw [withRibVariables, hvars, Array.size_append]
  omega

theorem isFramed_start {template : CostToGo K} {sense : Int} {bound : K} (hm : m.IsFit)
    (h : template.start sense bound m = .ok (v, m')) :
    ∃ f, Sense.ofInt? sense = some f.sense ∧ f.bound = bound ∧ IsFramed f template.pricing v m' := by
  have hcontents := hasContents_start hm.closed h
  obtain ⟨s, hs, rfl, rfl⟩ := start_eq_ok h
  obtain ⟨hstates, hsize⟩ := states_withRibVariables ⟨s, bound, m.stateCount⟩ template.ribCount hm
  refine ⟨⟨s, bound, m.stateCount⟩, hs, rfl, hcontents, rfl, rfl,
    fun x hx => getElem?_withRibVariables hx, fun i pool hpool c hc => ?_, ?_, ?_⟩
  · obtain rfl := eq_empty_of_mem_started _ _ _ (List.mem_of_getElem? hpool)
    simp [CutPool.empty] at hc
  · rw [hstates]
    exact hsize
  · rw [hstates]
    exact hm.distinct

omit [ExactNumeral K] in
theorem side_of_checkCut {cut : Cut K} (h : v.checkCut cut = .ok ()) : cut.side = v.side := by
  obtain ⟨-, h⟩ := guard_eq_ok h
  unfold pure at h
  split_ifs at h with hside
  · simpa using hside

theorem IsFramed.installCut {cut : Cut K} {rib : Option K} {state : Option (Datum K)} {new : Bool}
    (h : IsFramed f axis v m) (hcut : v.installCut cut rib state m = .ok (new, v', m')) :
    IsFramed f axis v' m' := by
  have hcontents := h.contents.installCut hcut
  obtain ⟨hcheck, i, pool, pool', -, hpool, hstore, heq⟩ := installCut_eq_ok hcut
  have hside : cut.side = f.sense.cutSide := by
    rw [side_of_checkCut hcheck, CostToGo.side, h.frame]
  have hsides : ∀ (j : ℕ) (p : CutPool K), (v.pools.set i pool')[j]? = some p →
      ∀ c ∈ p.cuts, c.side = f.sense.cutSide := by
    intro j p hp c hc
    rcases eq_or_of_getElem?_set hp with ⟨-, rfl⟩ | ⟨-, hp⟩
    · rw [(CutPool.store_eq_ok hstore).2] at hc
      rcases Cut.mem_of_mem_insertNew hc with hc | rfl
      · exact h.sides i pool hpool c hc
      · exact hside
    · exact h.sides j p hp c hc
  rcases installRow_cases { v with pools := v.pools.set i pool' } i cut m with
    ⟨hrow, -⟩ | ⟨x, -, hrow⟩ <;>
  · rw [hrow] at heq
    obtain ⟨rfl, rfl⟩ := Prod.mk.inj heq
    exact ⟨hcontents, h.frame, h.axis, h.ribs, hsides, h.states, h.distinct⟩

theorem IsFramed.rebuild (h : IsFramed f axis v m) (hm : m'.IsFit) :
    IsFramed f axis (v.rebuild m').1 (v.rebuild m').2 := by
  have hcontents := (h.contents.rebuild hm.closed).1
  have hpools := pools_rebuild v m'
  obtain ⟨hframe, haxis, hribs, hstates⟩ : (v.rebuild m').1.frame = some f ∧
      (v.rebuild m').1.pricing = axis ∧ (∀ x ∈ (v.rebuild m').1.vars, ∃ k cost,
        (v.rebuild m').2.program.vars[x]? = some { ribVariable f k with cost := cost }) ∧
      (∀ x ∈ (v.rebuild m').2.states, x < (v.rebuild m').2.program.vars.size) ∧
      (v.rebuild m').2.states.Nodup := by
    obtain ⟨hstates, hsize⟩ := states_withRibVariables f v.ribCount hm
    simp only [CostToGo.rebuild, h.frame]
    refine installActive_induction (P := fun w k => w.frame = some f ∧ w.pricing = axis ∧
      (∀ x ∈ w.vars, ∃ i cost, k.program.vars[x]? = some { ribVariable f i with cost := cost }) ∧
      (∀ x ∈ k.states, x < k.program.vars.size) ∧ k.states.Nodup) ?_ fun _ _ _ _ _ _ hw _ _ _ => hw
    exact ⟨rfl, h.axis, fun x hx => getElem?_withRibVariables hx, by rw [hstates]; exact hsize,
      by rw [hstates]; exact hm.distinct⟩
  refine ⟨hcontents, hframe, haxis, hribs, ?_, hstates.1, hstates.2⟩
  rw [hpools]
  exact h.sides

theorem hasContents_located (h : HasContents v m) (ws : List (ℕ × K)) :
    HasContents v (located v ws m) := by
  obtain ⟨hstates, hrows, -⟩ := located_fields v ws m
  have hrow : ∀ x c, cutRow x c (located v ws m) = cutRow x c m := fun x c => cutRow_congr x c hstates
  have hrowsOn : ∀ x, (located v ws m).rowsOn x = m.rowsOn x := fun x => by
    rw [Subproblem.rowsOn, hrows, Subproblem.rowsOn]
  refine ⟨⟨h.balanced.isStarted, h.balanced.vars, h.balanced.pools, h.balanced.installed,
    h.balanced.booked, fun i x hx d hd => ?_⟩,
    ⟨h.shows.vars, h.shows.beyond, h.shows.installed, fun i x hx => ?_⟩, h.selection, h.distinct,
    h.stored, h.keepAll⟩
  · rw [hrow, hrows]
    exact h.balanced.rows i x hx d hd
  · simp only [hrow, hrowsOn]
    exact h.shows.rows i x hx

theorem IsFramed.located (h : IsFramed f axis v m) (ws : List (ℕ × K)) :
    IsFramed f axis v (v.located ws m) := by
  have hsize := (located_fields v ws m).2.2
  refine ⟨hasContents_located h.contents ws, h.frame, h.axis, fun x hx => ?_, h.sides, ?_, h.distinct⟩
  · obtain ⟨i, hi⟩ := List.mem_iff_getElem?.1 hx
    obtain ⟨k, cost, hvar⟩ := h.ribs x hx
    exact ⟨k, _, by rw [getElem?_located h.contents.shows.vars hi, hvar]; rfl⟩
  · rw [hsize]
    exact h.states

/-! ## Histories -/

/-- What is done with a cost-to-go and its subproblem. -/
inductive Use (K : Type) where
  | event (e : Event K)
  /-- The location is set to a price. -/
  | locate (price : Option K)

/-- A cost-to-go and its subproblem after a use. What is refused changes nothing. -/
def afterUse (s : CostToGo K × Subproblem K) : Use K → CostToGo K × Subproblem K
  | .event e => after s e
  | .locate price =>
    match s.1.setLocation price s.2 with
    | .ok m => (s.1, m)
    | .error _ => s

/-- A cost-to-go and its subproblem after a sequence of uses. -/
def afterUses (s : CostToGo K × Subproblem K) (uses : List (Use K)) :
    CostToGo K × Subproblem K := uses.foldl afterUse s

theorem IsFramed.afterUse {s : CostToGo K × Subproblem K} {u : Use K} (h : IsFramed f axis s.1 s.2)
    (hu : ∀ m, u = .event (.rebuild m) → m.IsFit) :
    IsFramed f axis (CostToGo.afterUse s u).1 (CostToGo.afterUse s u).2 := by
  cases u with
  | event e =>
    cases e with
    | install cut rib state =>
      simp only [CostToGo.afterUse, after]
      cases hcut : s.1.installCut cut rib state s.2 with
      | error e => exact h
      | ok answer => exact h.installCut hcut
    | rebuild m => exact h.rebuild (hu m rfl)
  | locate price =>
    simp only [CostToGo.afterUse]
    cases hset : s.1.setLocation price s.2 with
    | error e => exact h
    | ok m =>
      obtain ⟨ws, -, -, rfl⟩ := setLocation_eq_ok.1 hset
      exact h.located ws

theorem IsFramed.afterUses {s : CostToGo K × Subproblem K} {uses : List (Use K)}
    (h : IsFramed f axis s.1 s.2) (huses : ∀ m, .event (.rebuild m) ∈ uses → m.IsFit) :
    IsFramed f axis (CostToGo.afterUses s uses).1 (CostToGo.afterUses s uses).2 := by
  induction uses generalizing s with
  | nil => exact h
  | cons u uses ih =>
    exact ih (h.afterUse fun m hm => huses m (by simp [hm]))
      fun m hm => huses m (List.mem_cons_of_mem u hm)

/-! ## Envelopes -/

instance (f : Frame K) : Decidable f.IsKept := by
  unfold Frame.IsKept
  cases f.sense <;> infer_instance

/-- The numbers that bound the variable of a rib at a state: the bound of the frame, if it is kept, and
the values of the cuts. -/
def limits (f : Frame K) (cuts : List (Cut K)) (x : List K) : List K :=
  (if f.IsKept then [f.bound] else []) ++ cuts.map fun cut => cut.evaluate x

/-- A point respects what the subproblem says of the variables that stand for the cost-to-go: their
bounds, and the rows in which one of them occurs. -/
structure IsAllowed (v : CostToGo K) (m : Subproblem K) (y : ℕ → K) : Prop where
  lower : ∀ x ∈ v.vars, ∀ a, m.program.read (.lower x) = some a → a ≤ y x
  upper : ∀ x ∈ v.vars, ∀ a, m.program.read (.upper x) = some a → y x ≤ a
  rows : ∀ c (r : Constraint K), m.program.constraints[c]? = some r → (∃ t ∈ r.terms, t.1 ∈ v.vars) →
    r.relation.Holds (m.program.rowValue c y) r.rhs

/-- What the variables that stand for the cost-to-go can contribute to the objective at a state. -/
def contributions (v : CostToGo K) (m : Subproblem K) (state : List K) : Set K :=
  {c | ∃ y : ℕ → K, m.states.map y = state ∧ IsAllowed v m y ∧
    (v.vars.map fun x => (m.program.read (.cost x)).getD 0 * y x).sum = c}

/-- The row of an installed cut at a point. -/
theorem IsFramed.rowValue (h : IsFramed f axis v m) {c x : ℕ} (hx : x ∈ v.vars) {cut : Cut K}
    (hc : m.program.constraints[c]? = some (cutRow x cut m)) (y : ℕ → K) :
    m.program.rowValue c y = y x - Scalar.dot cut.coefficients (m.states.map y) := by
  obtain ⟨k, cost, hvar⟩ := h.ribs x hx
  have hlt : x < m.program.vars.size := (Array.getElem?_eq_some_iff.1 hvar).1
  exact rowValue_cutRow hc h.states h.distinct hlt (h.contents.shows.beyond x hx) y

/-- Installed cuts are on the side of the frame. -/
theorem IsFramed.side (h : IsFramed f axis v m) {i : ℕ} {cut : Cut K}
    (hcut : cut ∈ v.installed.getD i []) : cut.side = f.sense.cutSide := by
  have hlt : i < v.installed.length := by
    by_contra hge
    rw [List.getD_eq_default _ _ (not_lt.1 hge)] at hcut
    simp at hcut
  rw [h.contents.balanced.installed, ← h.contents.balanced.pools] at hlt
  have hpool := List.getElem?_eq_getElem hlt
  rcases h.contents.stored i _ hpool cut hcut with hmem | hany
  · exact h.sides i _ hpool cut hmem
  · -- It is there under another stage or iteration.
    obtain ⟨d, hd, hsame⟩ := List.any_eq_true.1 hany
    simp only [Cut.same, Bool.and_eq_true, beq_iff_eq] at hsame
    exact hsame.1.1.trans (h.sides i _ hpool d hd)

theorem IsFramed.bounds_of_isAllowed (h : IsFramed f axis v m) {y : ℕ → K} (hy : IsAllowed v m y)
    {i x : ℕ} (hx : v.vars[i]? = some x) {b : K}
    (hb : b ∈ limits f (v.installed.getD i []) (m.states.map y)) : f.sense.Bounds b (y x) := by
  have hmem := List.mem_of_getElem? hx
  rcases List.mem_append.1 hb with hb | hb
  · split_ifs at hb with hkept
    · obtain rfl := List.mem_singleton.1 hb
      obtain ⟨k, cost, hvar⟩ := h.ribs x hmem
      refine (ribVariable_bounds_iff (k := k)).1 ⟨fun a ha => ?_, fun a ha => ?_⟩ hkept
      · exact hy.lower x hmem a (by rw [LinearProgram.read, hvar]; exact ha)
      · exact hy.upper x hmem a (by rw [LinearProgram.read, hvar]; exact ha)
    · simp at hb
  · obtain ⟨cut, hcut, rfl⟩ := List.mem_map.1 hb
    have hrow : cutRow x cut m ∈ m.rowsOn x := by
      rw [h.contents.shows.rows i x hx]
      exact List.mem_map_of_mem hcut
    obtain ⟨c, hc⟩ := List.mem_iff_getElem?.1 (List.mem_filter.1 hrow).1
    rw [Array.getElem?_toList] at hc
    have hholds := hy.rows c _ hc ⟨(x, Scalar.one), List.mem_cons_self, hmem⟩
    rw [h.rowValue hmem hc] at hholds
    exact (holds_cutRow_iff (h.side hcut) x).1 hholds

theorem IsFramed.isAllowed_of_bounds (h : IsFramed f axis v m) {y : ℕ → K}
    (hy : ∀ i x, v.vars[i]? = some x →
      ∀ b ∈ limits f (v.installed.getD i []) (m.states.map y), f.sense.Bounds b (y x)) :
    IsAllowed v m y := by
  have hbounds : ∀ x ∈ v.vars, ∃ k cost,
      m.program.vars[x]? = some { ribVariable f k with cost := cost } ∧
        (∀ a ∈ (ribVariable f k).lower, a ≤ y x) ∧ ∀ a ∈ (ribVariable f k).upper, y x ≤ a := by
    intro x hx
    obtain ⟨i, hi⟩ := List.mem_iff_getElem?.1 hx
    obtain ⟨k, cost, hvar⟩ := h.ribs x hx
    refine ⟨k, cost, hvar, ribVariable_bounds_iff.2 fun hkept => hy i x hi _ ?_⟩
    exact List.mem_append_left _ (by rw [if_pos hkept]; exact List.mem_singleton_self _)
  refine ⟨fun x hx a ha => ?_, fun x hx a ha => ?_, fun c r hr hmem => ?_⟩
  · obtain ⟨k, cost, hvar, hlower, -⟩ := hbounds x hx
    rw [LinearProgram.read, hvar] at ha
    exact hlower a ha
  · obtain ⟨k, cost, hvar, -, hupper⟩ := hbounds x hx
    rw [LinearProgram.read, hvar] at ha
    exact hupper a ha
  · obtain ⟨t, ht, htx⟩ := hmem
    obtain ⟨i, hi⟩ := List.mem_iff_getElem?.1 htx
    have hrow : r ∈ m.rowsOn t.1 := by
      refine List.mem_filter.2 ⟨?_, List.any_eq_true.2 ⟨t, ht, beq_self_eq_true _⟩⟩
      exact Array.mem_def.1 (Array.mem_of_getElem? hr)
    rw [h.contents.shows.rows i t.1 hi] at hrow
    obtain ⟨cut, hcut, rfl⟩ := List.mem_map.1 hrow
    rw [h.rowValue htx hr, holds_cutRow_iff (h.side hcut)]
    exact hy i t.1 hi _ (List.mem_append_right _ (List.mem_map_of_mem hcut))

/-- A point is allowed exactly if the variable of every rib respects its limits at the state. -/
theorem IsFramed.isAllowed_iff (h : IsFramed f axis v m) (y : ℕ → K) : IsAllowed v m y ↔
    ∀ i x, v.vars[i]? = some x →
      ∀ b ∈ limits f (v.installed.getD i []) (m.states.map y), f.sense.Bounds b (y x) :=
  ⟨fun hy _ _ hx _ hb => h.bounds_of_isAllowed hy hx hb, h.isAllowed_of_bounds⟩

/-- Variables that cost what their ribs weigh contribute the weighted values of those of the ribs that
count. -/
theorem sum_costs {p : LinearProgram K} {ws : List (ℕ × K)}
    (hnodup : (ws.map Prod.fst).Nodup) (hlt : ∀ w ∈ ws, w.1 < v.vars.length)
    (hcost : ∀ i (hi : i < v.vars.length), (p.read (.cost v.vars[i])).getD 0 = (ws.lookup i).getD 0)
    (y : ℕ → K) : (v.vars.map fun x => (p.read (.cost x)).getD 0 * y x).sum =
      (ws.map fun w => w.2 * y (v.vars.getD w.1 0)).sum := by
  rw [← sum_lookup hnodup hlt fun i => y (v.vars.getD i 0), Finset.sum_range, ← List.sum_ofFn]
  congr 1
  refine List.ext_getElem (by simp) fun i hi hi' => ?_
  have hi : i < v.vars.length := by simpa using hi
  simp [hcost i hi]

/-- At a location a variable of the subproblem costs what its rib weighs. -/
theorem cost_located (hnodup : v.vars.Nodup) {i : ℕ} (hi : i < v.vars.length)
    (hthere : v.vars[i] < m.program.vars.size) (ws : List (ℕ × K)) :
    ((v.located ws m).program.read (.cost v.vars[i])).getD 0 = (ws.lookup i).getD 0 := by
  have hlocated := getElem?_located (m := m) hnodup (List.getElem?_eq_getElem hi) ws
  rw [Array.getElem?_eq_getElem hthere] at hlocated
  simp [LinearProgram.read, hlocated]

/-- At a location the variables contribute the weighted values of those of the ribs that count. -/
theorem IsFramed.sum_located (h : IsFramed f axis v m) {ws : List (ℕ × K)}
    (hnodup : (ws.map Prod.fst).Nodup) (hlt : ∀ w ∈ ws, w.1 < v.vars.length) (y : ℕ → K) :
    (v.vars.map fun x => ((v.located ws m).program.read (.cost x)).getD 0 * y x).sum =
      (ws.map fun w => w.2 * y (v.vars.getD w.1 0)).sum := by
  refine sum_costs hnodup hlt (fun i hi => cost_located h.contents.shows.vars hi ?_ ws) y
  obtain ⟨k, cost, hvar⟩ := h.ribs _ (List.getElem_mem hi)
  exact (Array.getElem?_eq_some_iff.1 hvar).1

/-- What the variables can contribute at a location is what weighted sums of numbers within the limits
of the ribs come to. -/
theorem IsFramed.contributions_located (h : IsFramed f axis v m) {ws : List (ℕ × K)}
    (hnodup : (ws.map Prod.fst).Nodup) (hlt : ∀ w ∈ ws, w.1 < v.vars.length) {state : List K}
    (hstate : state.length = m.states.length) : contributions v (v.located ws m) state =
      f.sense.weighted ws fun i => limits f (v.installed.getD i []) state := by
  have hvars : v.vars.Nodup := h.contents.shows.vars
  ext c
  constructor
  · rintro ⟨y, hy, hallowed, rfl⟩
    rw [(h.located ws).isAllowed_iff, hy] at hallowed
    refine ⟨fun i => (v.vars[i]?.map y).getD (f.sense.tightest (limits f (v.installed.getD i []) state)),
      fun i b hb => ?_, ?_⟩
    · cases hx : v.vars[i]? with
      | none => simpa only [hx, Option.map_none, Option.getD_none] using Sense.bounds_tightest_of_mem hb
      | some x => simpa only [hx, Option.map_some, Option.getD_some] using hallowed i x hx b hb
    · rw [h.sum_located hnodup hlt]
      refine congrArg List.sum (List.map_congr_left fun w hw => ?_)
      simp [hlt w hw]
  · rintro ⟨t, ht, rfl⟩
    -- The variables of the ribs take the numbers, the states what is given.
    set y : ℕ → K := fun x =>
      if x ∈ v.vars then t (v.vars.idxOf x) else state.getD (m.states.idxOf x) 0 with hy
    have hrib : ∀ i (hi : i < v.vars.length), y v.vars[i] = t i := fun i hi => by
      rw [hy]
      simp only [List.getElem_mem hi, if_true, hvars.idxOf_getElem]
    have hat : m.states.map y = state := by
      refine List.ext_getElem (by simp [hstate]) fun i hi hi' => ?_
      have hi : i < m.states.length := by simpa using hi
      have hbeyond : m.states[i] ∉ v.vars := fun hmem =>
        h.contents.shows.beyond _ hmem (List.getElem_mem hi)
      simp [hy, hbeyond, h.distinct.idxOf_getElem, hi']
    refine ⟨y, hat, ((h.located ws).isAllowed_iff y).2 fun i x hx b hb => ?_, ?_⟩
    · have hb : b ∈ limits f (v.installed.getD i []) (m.states.map y) := hb
      obtain ⟨hi, rfl⟩ := List.getElem?_eq_some_iff.1 hx
      rw [hat] at hb
      rw [hrib]
      exact ht i b hb
    · rw [h.sum_located hnodup hlt]
      refine congrArg List.sum (List.map_congr_left fun w hw => ?_)
      rw [List.getD_eq_getElem _ _ (hlt w hw), hrib]

/-! ## Prices in range -/

/-- A price that the cost-to-go can be located at: any price if there is one rib, otherwise one from the
first rib to the last. -/
def IsInRange (v : CostToGo K) (price : Option K) : Prop :=
  ∀ p, v.pricing = some p → p.ribs.length = 1 ∨
    ∃ q, price = some q ∧ (∀ r ∈ p.ribs.head?, r ≤ q) ∧ ∀ r ∈ p.ribs.getLast?, q ≤ r

/-- The price axis is one that data can give: it has a rib, and the ribs are in increasing order. -/
def HasAxis (v : CostToGo K) : Prop :=
  ∀ p, v.pricing = some p → p.ribs ≠ [] ∧ p.ribs.Pairwise (· < ·)

/-- A price in range has weights. -/
theorem exists_weights {price : Option K} (haxis : v.HasAxis) (h : v.IsInRange price) :
    ∃ ws, v.weights price = .ok ws := by
  unfold weights
  cases hp : v.pricing with
  | none => exact ⟨_, rfl⟩
  | some p =>
    obtain ⟨hne, hincreasing⟩ := haxis p hp
    rcases h p hp with hone | ⟨q, rfl, hfirst, hlast⟩
    · exact ⟨[(0, Scalar.one)], by simp [Pricing.weights, hone]⟩
    · by_cases hone : p.ribs.length = 1
      · exact ⟨[(0, Scalar.one)], by simp [Pricing.weights, hone]⟩
      · have hn : 2 ≤ p.ribs.length := by
          have := List.length_pos_iff.2 hne
          omega
        have hhead : p.ribs.head? = some p.ribs[0] := by
          rw [List.head?_eq_getElem?, List.getElem?_eq_getElem]
        have hend : p.ribs.getLast? = some p.ribs[p.ribs.length - 1] := by
          rw [List.getLast?_eq_getElem?, List.getElem?_eq_getElem]
        exact ⟨_, Pricing.weights_of_mem hincreasing q hn (hfirst _ hhead) (hlast _ hend)⟩

/-- Weights are those of some ribs, each rib once, and not negative. -/
theorem weights_shape {price : Option K} {ws : List (ℕ × K)} (h : v.weights price = .ok ws) :
    (∀ w ∈ ws, w.1 < v.ribCount ∧ 0 ≤ w.2) ∧ (ws.map Prod.fst).Nodup := by
  unfold weights at h
  cases hp : v.pricing with
  | none =>
    rw [hp] at h
    obtain rfl := Except.ok.inj h
    simp [ribCount, hp]
  | some p =>
    rw [hp] at h
    rcases Pricing.weights_eq_ok h with ⟨hone, rfl⟩ | ⟨k, lam, hk, hlow, hhigh, rfl⟩
    · simp [ribCount, hp, hone]
    · have hcount : v.ribCount = p.ribs.length := by rw [ribCount, hp]
      refine ⟨fun w hw => ?_, by simp⟩
      rw [hcount]
      rcases List.mem_pair.1 hw with rfl | rfl
      · exact ⟨by omega, sub_nonneg.2 hhigh⟩
      · exact ⟨hk, hlow⟩

/-- On a rib the weights pick out the rib. -/
theorem weights_rib {p : Pricing K} (haxis : v.HasAxis) (hp : v.pricing = some p) {k : ℕ} {q : K}
    (hq : p.ribs[k]? = some q) : ∃ ws, v.weights (some q) = .ok ws ∧
      ∀ g : ℕ → K, (ws.map fun w => w.2 * g w.1).sum = g k := by
  obtain ⟨-, hincreasing⟩ := haxis p hp
  obtain ⟨hk, rfl⟩ := List.getElem?_eq_some_iff.1 hq
  unfold weights
  rw [hp]
  by_cases hone : p.ribs.length = 1
  · obtain rfl : k = 0 := by omega
    exact ⟨[(0, 1)], by simp [Pricing.weights, hone], fun g => by simp⟩
  · by_cases hlast : k + 1 < p.ribs.length
    · exact ⟨_, Pricing.weights_getElem hincreasing hlast, fun g => by simp⟩
    · obtain rfl : k = p.ribs.length - 1 := by omega
      exact ⟨_, Pricing.weights_last hincreasing (by omega), fun g => by simp⟩

/-! ## The interpolated envelope -/

/-- The envelope of a rib at a state: the tightest of the bound and the cuts. -/
def envelope (f : Frame K) (cuts : List (Cut K)) (state : List K) : K :=
  f.sense.tightest (f.bound :: cuts.map fun cut => cut.evaluate state)

/-- The limits of a rib are those of the frame and the cuts, or of the cuts alone. -/
theorem limits_eq (f : Frame K) (cuts : List (Cut K)) (state : List K) : limits f cuts state =
    if f.IsKept then f.bound :: cuts.map (fun cut => cut.evaluate state)
    else cuts.map fun cut => cut.evaluate state := by
  unfold limits
  split_ifs <;> rfl

/-- A subproblem prices the interpolated envelope of the cuts. A cost-to-go of either kind is started on
a subproblem; then, in any order and number, cuts are handed in, it is carried over to other
subproblems and its location is set, and what is refused changes nothing. After the location has been
set to a price in range, which is always possible, and with the states fixed anywhere, the best
contribution of the variables to the objective is the sum of the envelopes of the ribs with the weights
of the price. On a rib this is the envelope of that rib alone. The envelope is the tightest of the
bound and the installed cuts if the bound is of a size that counts. If it is not, the cuts alone make
the envelope, and there is no best contribution if a rib that counts has no cut. -/
theorem location_prices_envelope {template v₀ : CostToGo K} {sense : Int} {bound : K}
    {m m₀ : Subproblem K} (haxis : template.HasAxis) (hm : m.IsFit)
    (hstart : template.start sense bound m = .ok (v₀, m₀)) (uses : List (Use K))
    (huses : ∀ m', .event (.rebuild m') ∈ uses → m'.IsFit) :
    let s := afterUses (v₀, m₀) uses
    ∃ f : Frame K, s.1.frame = some f ∧ Sense.ofInt? sense = some f.sense ∧ f.bound = bound ∧
      ∀ price, s.1.IsInRange price → ∃ ws m', s.1.weights price = .ok ws ∧
        s.1.setLocation price s.2 = .ok m' ∧ ∀ state : List K, state.length = m'.states.length →
          let cuts := fun i => s.1.installed.getD i []
          let best := f.sense.IsBest (contributions s.1 m' state)
          (f.IsKept → best (ws.map fun w => w.2 * envelope f (cuts w.1) state).sum ∧
            ∀ p k q, s.1.pricing = some p → p.ribs[k]? = some q → price = some q →
              best (envelope f (cuts k) state)) ∧
          (¬ f.IsKept →
            ((∀ w ∈ ws, w.2 ≠ 0 → cuts w.1 ≠ []) → best (ws.map fun w =>
              w.2 * f.sense.tightest ((cuts w.1).map fun cut => cut.evaluate state)).sum) ∧
            ((∃ w ∈ ws, w.2 ≠ 0 ∧ cuts w.1 = []) → ∀ c, ¬ best c)) := by
  intro s
  obtain ⟨f, hsense, hbound, hstarted⟩ := isFramed_start hm hstart
  have h : IsFramed f template.pricing s.1 s.2 := IsFramed.afterUses (s := (v₀, m₀)) hstarted huses
  have hsame : s.1.HasAxis := fun p hp => haxis p (h.axis ▸ hp)
  refine ⟨f, h.frame, hsense, hbound, fun price hprice => ?_⟩
  obtain ⟨ws, hws⟩ := exists_weights hsame hprice
  obtain ⟨hshape, hnodup⟩ := weights_shape hws
  have hlt : ∀ w ∈ ws, w.1 < s.1.vars.length := fun w hw => by
    rw [h.contents.balanced.vars]
    exact (hshape w hw).1
  refine ⟨ws, s.1.located ws s.2, hws, setLocation_eq_ok.2 ⟨ws, hws, hlt, rfl⟩, fun state hstate => ?_⟩
  intro cuts best
  have hbest : ∀ c, best c ↔ f.sense.IsBest
      (f.sense.weighted ws fun i => limits f (cuts i) state) c := fun c => by
    simp only [best, h.contributions_located hnodup hlt hstate, cuts]
  have hnonneg : ∀ w ∈ ws, 0 ≤ w.2 := fun w hw => (hshape w hw).2
  refine ⟨fun hkept => ?_, fun hkept => ⟨fun hcuts => ?_, fun ⟨w, hw, hne, hnone⟩ c hc => ?_⟩⟩
  · have hlimits : ∀ i, limits f (cuts i) state =
        f.bound :: (cuts i).map fun cut => cut.evaluate state := fun i => by
      rw [limits_eq, if_pos hkept]
    have hsum : best (ws.map fun w => w.2 * envelope f (cuts w.1) state).sum := by
      rw [hbest]
      simp only [envelope, ← hlimits]
      exact Sense.isBest_weighted hnonneg fun w _ _ => by simp [hlimits]
    refine ⟨hsum, fun p k q hp hq heq => ?_⟩
    obtain ⟨ws', hws', hpick⟩ := weights_rib hsame hp hq
    obtain rfl : ws' = ws := Except.ok.inj (hws'.symm.trans (heq ▸ hws))
    rwa [hpick fun i => envelope f (cuts i) state] at hsum
  · rw [hbest]
    simp only [limits_eq, if_neg hkept]
    exact Sense.isBest_weighted hnonneg fun w hw hne => by simpa using hcuts w hw hne
  · obtain ⟨d, hd, hbeyond⟩ := f.sense.exists_weighted_beyond (fun i => limits f (cuts i) state)
      hnodup hw hne (by simp [limits_eq, if_neg hkept, hnone]) c
    exact hbeyond ((Sense.isBest_iff.1 ((hbest c).1 hc)).2 d hd)

namespace Ramp

/-- A cost-to-go with two ribs. -/
def template : CostToGo ℚ :=
  alongPrice .keepAll
    { ribs := [0, 10], dynamics := none, initial := 0, noise := [.absent], probability := [1] }

/-- The location is set to the first rib, and the other rib gets a cut. -/
def uses : List (Use ℚ) :=
  [.locate (some 0), .event (.install (Forgotten.bound 4 1) (some 10) none)]

theorem isFit_model : Forgotten.model.IsFit :=
  ⟨⟨fun r hr => by simp [Forgotten.model] at hr, by simp [Forgotten.model]⟩,
    by simp [Forgotten.model]⟩

theorem hasAxis_template : template.HasAxis := by
  rintro p hp
  obtain rfl := Option.some.inj hp
  exact ⟨by simp, by norm_num⟩

/-- In the end the second rib has the cut, which is worth six at two, and a price in between has a
quarter of its weight there. -/
theorem exists_start : ∃ v₀ m₀, template.start 1 0 Forgotten.model = .ok (v₀, m₀) ∧
    (afterUses (v₀, m₀) uses).1.pricing.map Pricing.ribs = some [0, 10] ∧
    (afterUses (v₀, m₀) uses).1.installed.map (fun cuts => cuts.map fun c => c.evaluate [2]) =
      [[], [6]] ∧
    ((afterUses (v₀, m₀) uses).1.weights (some (5 / 2))).toOption = some [(0, 3 / 4), (1, 1 / 4)] ∧
    (afterUses (v₀, m₀) uses).2.states = [0] :=
  ⟨_, _, rfl, by decide +kernel, by decide +kernel, by decide +kernel, by decide +kernel⟩

end Ramp

/-- Between two ribs, of which the second has a cut: at a quarter of the way a quarter of the value of
the cut counts, and the weights of the location before are gone. -/
theorem location_prices_envelope_ramp :
    Ramp.template.HasAxis ∧ Forgotten.model.IsFit ∧
      (∀ m', .event (.rebuild m') ∈ Ramp.uses → m'.IsFit) ∧
      ∃ v₀ m₀, Ramp.template.start 1 0 Forgotten.model = .ok (v₀, m₀) ∧
        let s := afterUses (v₀, m₀) Ramp.uses
        ∃ m', s.1.setLocation (some (5 / 2)) s.2 = .ok m' ∧
          Sense.minimize.IsBest (contributions s.1 m' [2]) (3 / 2) := by
  have huses : ∀ m', .event (.rebuild m') ∈ Ramp.uses → m'.IsFit := by simp [Ramp.uses]
  obtain ⟨v₀, m₀, hstart, haxis, hinstalled, hweights, hstates⟩ := Ramp.exists_start
  refine ⟨Ramp.hasAxis_template, Ramp.isFit_model, huses, v₀, m₀, hstart, ?_⟩
  intro s
  obtain ⟨f, -, hsense, hbound, hprices⟩ :=
    location_prices_envelope Ramp.hasAxis_template Ramp.isFit_model hstart Ramp.uses huses
  have hminimize : f.sense = .minimize := (Option.some.inj hsense).symm
  have hkept : f.IsKept := by
    unfold Frame.IsKept
    rw [hminimize, hbound]
    decide +kernel
  have hrange : s.1.IsInRange (some (5 / 2)) := by
    rintro p hp
    rw [hp] at haxis
    rw [Option.some.inj haxis]
    exact Or.inr ⟨5 / 2, rfl, by norm_num, by norm_num⟩
  obtain ⟨ws, m', hws, hset, hbest⟩ := hprices (some (5 / 2)) hrange
  refine ⟨m', hset, ?_⟩
  obtain rfl : ws = [(0, 3 / 4), (1, 1 / 4)] := by
    rw [hws] at hweights
    exact Option.some.inj hweights
  have hlength : m'.states.length = 1 := by
    obtain ⟨_, -, -, rfl⟩ := setLocation_eq_ok.1 hset
    exact congrArg List.length hstates
  have hcuts : ∀ i, (s.1.installed.getD i []).map (fun c => c.evaluate [2]) =
      ([[], [6]] : List (List ℚ)).getD i [] := fun i => by
    rw [← hinstalled]
    exact (List.getD_map _ [] fun cuts : List (Cut ℚ) => cuts.map fun c => c.evaluate [2]).symm
  have hsum := ((hbest [2] hlength.symm).1 hkept).1
  have hvalue : ([(0, 3 / 4), (1, 1 / 4)].map fun w : ℕ × ℚ =>
      w.2 * envelope f (s.1.installed.getD w.1 []) [2]).sum = 3 / 2 := by
    simp only [envelope, hcuts, hminimize, hbound]
    decide +kernel
  rw [hminimize] at hsum
  exact hvalue ▸ hsum

/-- A bound that is too large to count leaves the only variable free as long as there is no cut: no
contribution is best, least of all the bound. -/
theorem not_isBest_boundless :
    ∃ v₀ m₀ f ws m', (single .keepAll).start 1 (-10 ^ 25) Forgotten.model = .ok (v₀, m₀) ∧
      v₀.frame = some f ∧ v₀.weights none = .ok ws ∧ v₀.setLocation none m₀ = .ok m' ∧
      ¬ f.sense.IsBest (contributions v₀ m' [0])
        (ws.map fun w => w.2 * envelope f (v₀.installed.getD w.1 []) [0]).sum := by
  obtain ⟨v₀, m₀, hstart⟩ : ∃ v₀ m₀, (single .keepAll).start 1 (-10 ^ 25 : ℚ) Forgotten.model =
    .ok (v₀, m₀) := ⟨_, _, rfl⟩
  obtain ⟨f, hsense, hbound, h⟩ := isFramed_start Ramp.isFit_model hstart
  have hkept : ¬ f.IsKept := by
    unfold Frame.IsKept
    rw [← Option.some.inj hsense, hbound]
    decide +kernel
  obtain ⟨rfl, rfl⟩ := Prod.mk.inj (Except.ok.inj hstart)
  have hlt : ∀ w ∈ [(0, (1 : ℚ))], w.1 < 1 := by simp
  have hone : (0, 1) ∈ [(0, (1 : ℚ))] := List.mem_singleton_self _
  refine ⟨_, _, f, [(0, 1)], _, rfl, h.frame, rfl, setLocation_eq_ok.2 ⟨[(0, 1)], rfl, hlt, rfl⟩,
    fun hbest => ?_⟩
  rw [h.contributions_located (by simp) hlt rfl] at hbest
  obtain ⟨d, hd, hbeyond⟩ := f.sense.exists_weighted_beyond
    (fun i => limits f (([[]] : List (List (Cut ℚ))).getD i []) [0]) (by simp) hone one_ne_zero
    (by simp [limits_eq, if_neg hkept]) _
  exact hbeyond ((Sense.isBest_iff.1 hbest).2 d hd)

end CostToGo

end DualDynamic
