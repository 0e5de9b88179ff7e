import DualDynamic.Proofs.CutPool
import DualDynamic.Proofs.PolicyGraph.Bound
import DualDynamic.Proofs.PolicyGraph.Costs
import DualDynamic.Proofs.Subproblem.Approximation

/-!
# Nodes that approximate

A node with a single cost-to-go variable holds an approximation of the stated subproblem of its place,
whose cuts are all of a kind `V` (`Node.IsMade`). Settings and solves do not disturb this, nor does
another cut of the kind, nor rebuilding.

The answer of such a node, solved for an incoming state and a realization, is a line that bounds the
costs of decisions for every incoming state (`bounds_solveRealization`), as long as what comes behind
respects all cuts of the kind.
-/

namespace DualDynamic

open Step LinearProgram CostToGo

variable {K : Type} [ExactNumeral K]

namespace CostToGo

/-! ## Approximations and their cuts -/

/-- A cost-to-go and a subproblem that have been made from the stated subproblem `m`, with cuts of the
kind `V` on what comes behind. -/
structure Fits (behind : Option (Frame K)) (m : Subproblem K) (V : Cut K → Prop) (v : CostToGo K)
    (m' : Subproblem K) : Prop where
  pricing : v.pricing = none
  frame : v.frame = behind
  vars : v.vars = (behind.map fun _ => m.program.vars.size).toList
  outline : m'.outline = m.outline
  program : ∃ cuts, (∀ cut ∈ cuts, V cut) ∧ IsApproximation behind m cuts m'.program
  stored : ∀ pool ∈ v.pools, ∀ cut ∈ pool.cuts, V cut
  installed : ∀ cuts ∈ v.installed, ∀ cut ∈ cuts, V cut

variable {behind : Option (Frame K)} {f : Frame K} {m m' : Subproblem K} {V : Cut K → Prop}
  {v v' : CostToGo K} {cut : Cut K}

/-- One more row. -/
theorem Fits.withRow (h : Fits behind m V v m') (hcut : V cut) {i x : ℕ}
    (hx : v.vars[i]? = some x) :
    Fits behind m V { v with installed := v.installed.modify i (· ++ [cut]) }
      (m'.withConstraint (cutRow x cut m')) := by
  obtain ⟨cuts, hcuts, happrox⟩ := h.program
  have hmem : x ∈ v.vars := List.mem_of_getElem? hx
  rw [h.vars] at hmem
  cases behind with
  | none => simp at hmem
  | some f =>
    obtain rfl : x = m.program.vars.size := by simpa using hmem
    refine { h with program := ⟨cuts ++ [cut], ?_, ?_⟩, installed := ?_ }
    · rw [List.forall_mem_append]
      exact ⟨hcuts, by simpa using hcut⟩
    · have hsame : cutRow m.program.vars.size cut m' = cutRow m.program.vars.size cut m := by
        obtain ⟨p, r, t, s, heq⟩ := Subproblem.exists_of_outline h.outline
        rw [heq]
        rfl
      unfold IsApproximation
      rw [approximation_concat, hsame]
      exact happrox.addConstraint _
    · intro cs hcs c hc
      obtain ⟨j, hj⟩ := List.mem_iff_getElem?.1 hcs
      simp only [List.getElem?_modify] at hj
      split_ifs at hj with hij
      · obtain ⟨old, hold, rfl⟩ := Option.map_eq_some_iff.1 hj
        rcases List.mem_append.1 hc with hc | hc
        · exact h.installed old (List.mem_of_getElem? hold) c hc
        · exact List.mem_singleton.1 hc ▸ hcut
      · exact h.installed cs (List.mem_of_getElem? (by simpa using hj)) c hc

/-- A cut of the kind may be installed. -/
theorem Fits.installCut {rib : Option K} {state : Option (Datum K)} {new : Bool}
    {m'' : Subproblem K} (h : Fits behind m V v m') (hcut : V cut)
    (hrun : v.installCut cut rib state m' = .ok (new, v', m'')) : Fits behind m V v' m'' := by
  obtain ⟨-, i, pool, pool', -, hpool, hstore, hrow⟩ := installCut_eq_ok hrun
  have hstored : Fits behind m V { v with pools := v.pools.set i pool' } m' := by
    refine { h with stored := fun p hp c hc => ?_ }
    rcases List.mem_or_eq_of_mem_set hp with hp | rfl
    · exact h.stored p hp c hc
    · rcases CutPool.mem_store hstore hc with hc | rfl
      · exact h.stored pool (List.mem_of_getElem? hpool) c hc
      · exact hcut
  rcases installRow_cases { v with pools := v.pools.set i pool' } i cut m' with
    ⟨heq, -⟩ | ⟨x, hx, heq⟩
  · obtain ⟨rfl, rfl⟩ := Prod.mk.inj (hrow.trans heq)
    exact hstored
  · obtain ⟨rfl, rfl⟩ := Prod.mk.inj (hrow.trans heq)
    exact hstored.withRow hcut hx

/-- Variables for the cost of what comes behind, and no rows yet. -/
theorem fits_withRibVariables (hpricing : v.pricing = none) (hframe : v.frame = some f)
    (hstored : ∀ pool ∈ v.pools, ∀ cut ∈ pool.cuts, V cut) :
    Fits (some f) m V
      { v with vars := nextVariables v.ribCount m, installed := List.replicate v.ribCount [] }
      (withRibVariables f v.ribCount m) := by
  have hcount : v.ribCount = 1 := by simp [ribCount, hpricing]
  rw [hcount]
  refine ⟨hpricing, hframe, by simp [nextVariables, List.range_succ], ?_, ⟨[], by simp, ?_⟩, hstored,
    by simp⟩
  · simp [withRibVariables, List.range_succ, Subproblem.withVariable, Subproblem.outline]
  · unfold IsApproximation
    rw [approximation_nil]
    exact .refl _ _ _

/-- A cost-to-go that is carried over to the stated subproblem has its active cuts there. -/
theorem Fits.rebuild (h : Fits behind m V v m') (hbehind : behind = some f) :
    Fits behind m V (v.rebuild m).1 (v.rebuild m).2 := by
  subst hbehind
  have hrebuild : v.rebuild m = installActive
      { v with vars := nextVariables v.ribCount m, installed := List.replicate v.ribCount [] }
      (withRibVariables f v.ribCount m) := by
    unfold CostToGo.rebuild
    split
    · rename_i hnone
      cases hnone.symm.trans h.frame
    · rename_i f' hf'
      obtain rfl : f = f' := Option.some.inj (h.frame.symm.trans hf')
      rfl
  rw [hrebuild]
  refine installActive_induction (P := Fits (some f) m V)
    (fits_withRibVariables h.pricing h.frame h.stored) ?_
  intro v' m'' i x cut pool hfits hx hpool hactive
  exact hfits.withRow (h.stored pool (List.mem_of_getElem? hpool) cut
    (CutPool.mem_of_active hactive)) hx

end CostToGo

namespace Node

/-- The node has been made from the stated subproblem `m`. -/
structure IsMade (behind : Option (Frame K)) (m : Subproblem K) (V : Cut K → Prop) (n : Node K) :
    Prop where
  isTerminal : n.isTerminal = behind.isNone
  fits : Fits behind m V n.costToGo n.model

variable {behind : Option (Frame K)} {m : Subproblem K} {V : Cut K → Prop} {n n' : Node K}
  {o : Option (Retry K) × Sense} {rows : ℕ} {engine : Engine K}

theorem IsMade.wellFormed (h : n.IsMade behind m V) (hm : m.IsLinked o rows) :
    n.model.WellFormed rows := by
  obtain ⟨cuts, -, hprogram⟩ := h.fits.program
  have hembeds := hprogram.embeds hm
  exact hm.wellFormed.mono h.fits.outline hembeds.vars hembeds.rows

theorem IsMade.spares (h : n.IsMade behind m V) (hspares : engine.Spares m.retry) :
    engine.Spares n.model.retry := by
  rwa [Subproblem.retry_of_outline h.fits.outline]

theorem IsMade.links (h : n.IsMade behind m V) : n.model.links = m.links := by
  obtain ⟨p, r, t, s, heq⟩ := Subproblem.exists_of_outline h.fits.outline
  rw [heq]

/-- Setting the node up writes to the stated part and to the cost of the new variable. -/
theorem IsMade.cells_subset (h : n.IsMade behind m V) : n.cells ⊆ CostToGo.settingCells m := by
  have hmodel : n.model.cells = m.cells := by
    obtain ⟨p, r, t, s, heq⟩ := Subproblem.exists_of_outline h.fits.outline
    rw [heq]
    rfl
  have hstated : n.model.cells ⊆ CostToGo.settingCells m := hmodel ▸ Set.subset_union_left
  rintro d (hd | hd | hd | hd)
  · exact hstated (Or.inl hd)
  · exact hstated (Or.inr (Or.inl hd))
  · exact hstated (Or.inr (Or.inr hd))
  · split_ifs at hd
    · exact hd.elim
    · obtain ⟨i, hi, rfl⟩ := hd
      rw [h.fits.vars] at hi
      cases behind with
      | none => simp at hi
      | some f =>
        obtain rfl : i = m.program.vars.size := by simpa using hi
        exact Or.inr rfl

/-- What is set up and solved leaves the node made as it is. -/
theorem isBlind_isMade (hm : m.IsLinked o rows) (behind : Option (Frame K)) (V : Cut K → Prop) :
    IsBlind (CostToGo.settingCells m) (IsMade behind m V) := by
  rintro n n' ⟨hrest, hprogram⟩ h
  obtain ⟨m', price, houtline, rfl⟩ := exists_of_rest hrest
  obtain ⟨cuts, hcuts, happrox⟩ := h.fits.program
  have happrox' : IsApproximation behind m cuts m'.program := by
    rcases hprogram with heq | ⟨f, d, hd, hf, heq⟩
    · have heq : m'.program = n.model.program := heq
      exact heq ▸ happrox
    · have heq : m'.program = f n.model.program := heq
      have hwithin : d.IsWithin m.program.constraints.size := by
        rcases hd with (⟨c, hc, rfl⟩ | hd) | rfl
        · exact Cell.isWithin_rhs.2 (hm.wellFormed.lt_of_mem_links hc)
        · exact hm.wellFormed.isWithin d hd
        · exact Cell.isWithin_cost
      exact heq ▸ happrox.write_right hf hd hwithin
  exact ⟨h.isTerminal, { h.fits with
    outline := houtline.trans h.fits.outline
    program := ⟨cuts, hcuts, happrox'⟩ }⟩

theorem IsMade.installCut {cut : Cut K} {rib : Option K} {state : Option (Datum K)} {new : Bool}
    (h : n.IsMade behind m V) (hcut : V cut) (hrun : n.installCut cut rib state = .ok (new, n')) :
    n'.IsMade behind m V := by
  obtain ⟨v, m', -, hinstall, rfl⟩ := Node.installCut_eq_ok.1 hrun
  exact ⟨h.isTerminal, h.fits.installCut hcut hinstall⟩

/-! ## Solving -/

theorem stateDuals_eq_ok {m : Subproblem K} {s : Solution K} {duals : List K}
    (h : m.stateDuals = .ok duals) (hs : m.solution = some s) : duals = m.links.map s.dualAt := by
  have hduals := forall₂_of_mapM h
  clear h
  generalize m.links = links at hduals
  induction hduals with
  | nil => rfl
  | @cons c d links duals hd _ ih =>
    obtain ⟨s', hs', hd⟩ := exceptBind_eq_ok.1 hd
    have heq : s' = s := by
      simp only [Subproblem.currentSolution, hs] at hs'
      exact (Except.ok.inj hs').symm
    subst heq
    rw [List.map_cons, ← ih, Solution.dualAt]
    cases hc : s'.dual[c]? with
    | none => simp [hc] at hd
    | some x =>
      simp only [hc] at hd
      rw [Option.getD_some, ← Except.ok.inj hd]

/-- The price of a node without a price axis: all that comes behind counts fully. -/
theorem setPrice_none_eq_ok {w v : Watched (Node K)} {x : ℕ}
    (hterminal : w.part.isTerminal = behind.isNone) (hpricing : w.part.costToGo.pricing = none)
    (hvars : w.part.costToGo.vars = (behind.map fun _ => x).toList)
    (hrun : setPrice none w = .ok () v) :
    ∃ b, Subproblem.setPrice none ⟨w.monitor, w.part.model⟩ = .ok () b ∧
      v.part.model.program = if behind.isSome then b.part.program.setCost x 1 else b.part.program := by
  obtain ⟨⟨⟩, u, hprice, hrest⟩ := bind_eq_ok.1 hrun
  obtain ⟨b, hb, rfl⟩ := Run.within_eq_ok.1 hprice
  refine ⟨b, hb, ?_⟩
  rw [Run.part_bind_apply] at hrest
  cases behind with
  | none =>
    simp only [Option.isNone_none] at hterminal
    simp only [hterminal, if_true] at hrest
    cases hrest
    rfl
  | some f =>
    simp only [Option.isNone_some] at hterminal
    simp only [hterminal] at hrest
    have hlocation : w.part.costToGo.location none = .ok [1] := by
      simp [location, weights, hpricing, hvars, pure, Except.pure, bind, Except.bind]
    have hset : w.part.costToGo.setLocation none b.part =
        .ok { b.part with program := b.part.program.setCost x 1 } := by
      simp [setLocation, hlocation, hvars, pure, Except.pure, bind, Except.bind]
    simp only [hset] at hrest
    cases hrest
    rfl

theorem model_touches {C : Set Cell} (h : Touches C n n') : Touches C n.model n'.model where
  rest := congrArg Node.model (show n'.rest = n.rest from h.rest)
  program := h.program

section Solving

variable {x x' : List K} {k : ℕ}

/-- A node that has been made from `m`, at an incoming state. -/
structure IsMadeAt (behind : Option (Frame K)) (m : Subproblem K) (V : Cut K → Prop) (n₀ : Node K)
    (x : List K) (n : Node K) : Prop where
  made : n.IsMade behind m V
  outline : n.outline = n₀.outline
  state : n.model.IsAt x

theorem isBlind_isMadeAt (hm : m.IsLinked o rows) (hn : n.IsMade behind m V) (x : List K) :
    IsBlind n.settingCells (IsMadeAt behind m V n x) := by
  intro t t' htouches ht
  have hcells : n.settingCells ⊆ n.cells := Set.subset_union_right
  have hlinks : ∀ c ∈ m.links, Cell.rhs c ∉ n.settingCells := fun c hc =>
    rhs_notMem_settingCells (hn.wellFormed hm) (hn.links ▸ hc)
  have hstate := Subproblem.isBlind_isAt hlinks x t.model t'.model (model_touches htouches)
    ⟨ht.made.fits.outline, ht.state⟩
  exact ⟨isBlind_isMade hm behind V t t' (htouches.mono (hcells.trans hn.cells_subset)) ht.made,
    (Programmed.outline_eq htouches.rest).trans ht.outline, hstate.2⟩

/-- The line through the answer of a node for an incoming state: it bounds the costs of decisions for
every incoming state, with costs of what comes behind that respect all cuts of the kind. -/
def IsLine (behind : Option (Frame K)) (m : Subproblem K) (V : Cut K → Prop) (x : List K) (k : ℕ)
    (r : K × List K) : Prop :=
  r.2.length = m.links.length ∧ ∀ costs : List K → Set K,
    (∀ y, ∀ c ∈ costs y, ∀ cuts : List (Cut K), (∀ cut ∈ cuts, V cut) → Admits behind cuts y c) →
      ∀ y, ∀ c ∈ m.costs costs y k,
        m.program.sense.Bounds (r.1 + (Scalar.dot r.2 y - Scalar.dot r.2 x)) c

section Setting

variable {w v : Watched (Node K)} (hw : w.part.IsMade behind m V)
  (hset : (onModel (Subproblem.setRealization k) >>= fun _ => setPrice none) w = .ok () v)
include hw hset

/-- To set a node up is to set its subproblem up, with all that comes behind counting fully. -/
theorem setting_eq_ok : ∃ b,
    (Subproblem.setRealization k >>= fun _ => Subproblem.setPrice none) ⟨w.monitor, w.part.model⟩ =
      .ok () b ∧ v.part.model.program =
        if behind.isSome then b.part.program.setCost m.program.vars.size 1 else b.part.program := by
  obtain ⟨⟨⟩, u, hrealization, hprice⟩ := bind_eq_ok.1 hset
  obtain ⟨a, ha, rfl⟩ := Run.within_eq_ok.1 hrealization
  obtain ⟨b, hb, hprogram⟩ := setPrice_none_eq_ok
    (w := ⟨a.monitor, { w.part with model := a.part }⟩) hw.isTerminal hw.fits.pricing
    hw.fits.vars hprice
  exact ⟨b, bind_eq_ok.2 ⟨(), a, ha, hb⟩, hprogram⟩

/-- What the stated subproblem is when it is set up in the same way is embedded then. -/
theorem embeds_of_setting (hm : m.IsLinked o rows) {y : List K} {p : LinearProgram K}
    (hp : m.IsSetUp y k p) : Embeds m.incomingCells p v.part.model.program := by
  obtain ⟨b, hstated, hprogram⟩ := setting_eq_ok hw hset
  obtain ⟨old, -, hold⟩ := hw.fits.program
  have hbefore := Subproblem.embeds_of_isSetUp hm.wellFormed hp
    (v := ⟨w.monitor, w.part.model⟩) hw.fits.outline (hold.embeds hm) hstated
  rw [hprogram]
  split_ifs
  · exact hbefore.setCost_right (hp.like hm.wellFormed hm.terms).shape.vars.le 1
  · exact hbefore

/-- The cost of what comes behind counts fully. -/
theorem read_cost_of_setting {cuts : List (Cut K)}
    (happrox : IsApproximation behind m cuts v.part.model.program) (hsome : behind.isSome = true) :
    v.part.model.program.read (.cost m.program.vars.size) = some 1 := by
  obtain ⟨b, -, hprogram⟩ := setting_eq_ok hw hset
  have hsize : m.program.vars.size < b.part.program.vars.size := by
    have hvars := happrox.size_vars
    rw [hprogram, if_pos hsome, if_pos hsome] at hvars
    simp only [LinearProgram.setCost, LinearProgram.changeVariable, Array.size_modify] at hvars
    omega
  rw [hprogram, if_pos hsome]
  simp [LinearProgram.read, LinearProgram.setCost, getElem?_changeVariable, hsize]

end Setting

/-- The answer of a node for a realization gives a line. -/
theorem isLine_of_solveRealization (hm : m.IsLinked o rows) (hspares : engine.Spares m.retry)
    (hduals : engine.HasDuals) (hn : n.IsMade behind m V) {w t : Watched (Node K)} {r : K × List K}
    (hw : IsMadeAt behind m V n x w.part) (hrun : solveRealization engine none k w = .ok r t) :
    IsLine behind m V x k r := by
  rw [solveRealization_eq] at hrun
  obtain ⟨⟨⟩, v, hset, hanswer⟩ := bind_eq_ok.1 hrun
  have hv := ((sets_setting (hn.wellFormed hm) none k).keeps _ (isBlind_isMadeAt hm hn x)
    fun t ht => ht.outline).of_ok hw hset
  obtain ⟨hsolved, -, hstateDuals⟩ := solved_of_answer (hv.made.spares hspares) hanswer
  obtain ⟨s, ⟨call, reductions, hs⟩, hvalue, hsolution⟩ := hsolved.solution
  have hlinks : t.part.model.links = m.links := by
    obtain ⟨p, r, u, s, heq⟩ := Subproblem.exists_of_outline
      (Eq.trans hsolved.like.1 hv.made.fits.outline)
    rw [heq]
  have hduals' := stateDuals_eq_ok hstateDuals hsolution
  rw [hlinks] at hduals'
  refine ⟨by simp [hduals'], ?_⟩
  rintro costs hcosts y c ⟨p, z, f, hp, hz, hf, rfl⟩
  obtain ⟨cuts, hcuts, happrox⟩ := hv.made.fits.program
  have hat : ∀ i c : ℕ, m.links[i]? = some c →
      v.part.model.program.read (.rhs c) = x[i]? := fun i c hc => hv.state i c (hv.made.links ▸ hc)
  rw [← hvalue, hduals']
  exact bounds_decision hm happrox (read_cost_of_setting hw.made hset happrox) hat hp
    (embeds_of_setting hw.made hset hm hp) hz (hcosts _ f hf cuts hcuts) hduals hs

theorem ensures_solveRealization (hm : m.IsLinked o rows) (hspares : engine.Spares m.retry)
    (hduals : engine.HasDuals) (hn : n.IsMade behind m V) (x : List K) (k : ℕ) :
    Ensures (fun w => IsMadeAt behind m V n x w.part) (solveRealization engine none k)
      (fun r w => IsLine behind m V x k r ∧ IsMadeAt behind m V n x w.part)
      fun w => IsMadeAt behind m V n x w.part := by
  have hline : Ensures (fun w => IsMadeAt behind m V n x w.part) (solveRealization engine none k)
      (fun r _ => IsLine behind m V x k r) fun _ => True := ensures_iff.2 fun w hw =>
    ⟨fun r t hrun => isLine_of_solveRealization hm hspares hduals hn hw hrun, fun _ _ _ => trivial⟩
  exact (hline.and (keeps_solveRealization (hn.wellFormed hm) (hn.spares hspares)
    (fun t ht => ht.outline) (isBlind_isMadeAt hm hn x) none k)).weaken (fun _ => id)
      (fun _ _ h => h) fun _ h => h.2

/-- The answers of a node for all realizations that can happen, with the probability of the node and of
the realization as weights: lines at the incoming state, which is long enough. -/
def AreLines (behind : Option (Frame K)) (m : Subproblem K) (V : Cut K → Prop) (x : List K)
    (weight : K) (rs : List (K × List K × K)) : Prop :=
  m.links.length ≤ x.length ∧ ∃ items, m.chances = .ok items ∧ List.Forall₂
    (fun kp r => 0 ≤ kp.2 ∧ IsLine behind m V x kp.1 (r.1, r.2.1) ∧ r.2.2 = weight * kp.2) items rs

/-- A line at the incoming state `x`, with its weight, as a function of the incoming state. -/
def weightedLine (x y : List K) (r : K × List K × K) : K :=
  r.2.2 * (r.1 + (Scalar.dot r.2.1 y - Scalar.dot r.2.1 x))

/-- The lines of a node together bound the expected costs at every incoming state. -/
theorem AreLines.bounds {weight : K} {rs : List (K × List K × K)}
    (h : AreLines behind m V x weight rs) (hweight : 0 ≤ weight) {costs : List K → Set K}
    (hcosts : ∀ y, ∀ c ∈ costs y, ∀ cuts : List (Cut K), (∀ cut ∈ cuts, V cut) →
      Admits behind cuts y c) (y : List K) {items : List (ℕ × K)} (hitems : m.chances = .ok items) :
    ∀ c ∈ means (m.costs costs y) items,
      m.program.sense.Bounds (rs.map (weightedLine x y)).sum (weight * c) := by
  obtain ⟨-, items', hitems', hrs⟩ := h
  obtain rfl := Except.ok.inj (hitems'.symm.trans hitems)
  refine bounds_means weight (hrs.imp fun kp r hr z hz => ?_)
  obtain ⟨hkp, hline, hshare⟩ := hr
  rw [weightedLine, hshare, ← mul_assoc]
  exact (hline.2 costs hcosts y z hz).mul_left (mul_nonneg hweight hkp)

/-- Solved at an incoming state that is long enough, for a realization, the node has a line. Of prices
there is only one, so it is asked for there alone. -/
theorem ensures_isLine (hm : m.IsLinked o rows) (hspares : engine.Spares m.retry)
    (hduals : engine.HasDuals) (hn : n.IsMade behind m V) (x : List K) (next : Option K) (k : ℕ) :
    Ensures (fun w => m.links.length ≤ x.length ∧ IsMadeAt behind m V n x w.part)
      (solveRealization engine next k)
      (fun r w => (next = none → IsLine behind m V x k r) ∧
        m.links.length ≤ x.length ∧ IsMadeAt behind m V n x w.part)
      fun w => m.links.length ≤ x.length ∧ IsMadeAt behind m V n x w.part := by
  intro w ⟨hlength, hw⟩
  cases next with
  | none =>
    exact ((ensures_solveRealization hm hspares hduals hn x k).weaken (fun _ => id)
      (fun _ _ h => ⟨fun _ => h.1, ⟨hlength, h.2⟩⟩) fun _ h => ⟨hlength, h⟩) w hw
  | some price =>
    exact ((keeps_solveRealization (hn.wellFormed hm) (hn.spares hspares) (fun t ht => ht.outline)
      (isBlind_isMadeAt hm hn x) (some price) k).weaken (fun _ => id)
      (fun _ _ h => ⟨fun hnone => (by cases hnone), ⟨hlength, h⟩⟩) fun _ h => ⟨hlength, h⟩) w hw

/-- An incoming state that is set is long enough. -/
theorem ensures_isMadeAt_setIncoming (hm : m.IsLinked o rows) (hn : n.IsMade behind m V) (x : List K) :
    Ensures (fun w : Watched (Node K) => w.part = n) (onModel (Subproblem.setIncoming x))
      (fun _ w => m.links.length ≤ x.length ∧ IsMadeAt behind m V n x w.part) fun _ => True := by
  have hwell := hn.wellFormed hm
  refine ensures_iff.2 fun w hw => ⟨fun _ t hrun => ?_, fun _ _ _ => trivial⟩
  have hpart : w.part = n := hw
  obtain ⟨a, ha, rfl⟩ := Run.within_eq_ok.1 hrun
  rw [hpart] at ha
  have hincoming : IsBlind n.model.incomingCells fun t : Node K =>
      t.IsMade behind m V ∧ t.outline = n.outline := fun t t' htouches ht =>
    ⟨isBlind_isMade hm behind V t t' (htouches.mono (Set.subset_union_left.trans hn.cells_subset))
      ht.1, (Programmed.outline_eq htouches.rest).trans ht.2⟩
  have hkept := (keeps_setIncoming hwell (fun t ht => ht.2) hincoming x).of_ok
    (s := w) ⟨hpart ▸ hn, by rw [hpart]⟩ hrun
  refine ⟨hn.links ▸ Subproblem.length_of_setIncoming ha, hkept.1, hkept.2, ?_⟩
  exact Subproblem.isAt_of_setIncoming hwell rfl le_rfl ha

theorem ensures_lines (hm : m.IsLinked o rows) (hspares : engine.Spares m.retry)
    (hduals : engine.HasDuals) (hn : n.IsMade behind m V) (state : Option (List K))
    (price : Option K) (weight : K) :
    Ensures (fun w => w.part = n) (solveAll engine state price weight)
      (fun rs _ => AreLines behind m V (state.getD m.initialValues) weight rs) fun _ => True := by
  obtain ⟨p, s, u, v, heq⟩ := Subproblem.exists_of_outline hn.fits.outline
  have hinitial : n.model.initialValues = m.initialValues := by rw [heq]
  rw [← hinitial]
  refine (ensures_solveAll (fun w hw => hw.2.outline) (ensures_isLine hm hspares hduals hn _)
    (fun w hw => by rw [hw]) (fun _ _ => trivial) (ensures_isMadeAt_setIncoming hm hn _) price
    weight).weaken (fun _ => id) ?_ fun _ => id
  rintro rs w ⟨⟨parts, rfl, hparts⟩, hlength, -⟩
  have hnoise : n.costToGo.priceNoise = [(.absent, 1)] := by
    simp [priceNoise, hn.fits.pricing]
  rw [hnoise] at hparts
  obtain ⟨rs, rfl⟩ : ∃ rs, parts = [rs] := List.length_eq_one_iff.1 hparts.length_eq.symm
  obtain ⟨⟨next, items, hnext, hitems, hrs⟩, -⟩ := List.forall₂_cons.1 hparts
  have hnone : next = none := by
    simp only [nextPrice, hn.fits.pricing] at hnext
    exact (Except.ok.inj hnext).symm
  refine ⟨hlength, items, ?_, ?_⟩
  · rw [← hitems, possible, heq]
    rfl
  · have hone : weight * ((.absent, 1) : Datum K × K).2 = weight := mul_one weight
    rw [hone] at hrs
    rw [List.flatten_singleton]
    exact ((List.forall₂_and_left _ _).2 ⟨nonneg_of_possible hitems, hrs⟩).imp
      fun kp r h => ⟨h.1, h.2.1 hnone, h.2.2⟩

end Solving

end Node

end DualDynamic
