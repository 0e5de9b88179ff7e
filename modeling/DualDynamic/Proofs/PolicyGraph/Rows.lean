import DualDynamic.Proofs.CostToGo.Contents
import DualDynamic.Proofs.PolicyGraph.Open
import DualDynamic.Proofs.PolicyGraph.Stored

/-!
# The rows of records

A record that a graph takes in gives its cut a row on the variable of its rib, unless the same cut has
one. So the rows that a node gains from some records are those of the cuts that had none, each once
(`Node.Gains`); which records there were decides about them, not their order or how often they came.

Whether a graph takes a record is decided by its shape, and what it has taken before is no obstacle
(`PolicyGraph.Takes`).
-/

namespace DualDynamic

open Step

variable {K : Type} [Numeral K]

/-! ## Rows alike -/

theorem Cut.Alike.length_coefficients {c d : Cut K} (h : c.Alike d) :
    c.coefficients.length = d.coefficients.length := by
  rcases h with h | h
  · have hbare : c.bare.coefficients = d.bare.coefficients := by rw [h]
    exact congrArg List.length hbare
  · simp only [Cut.same, Scalar.eqAll, Bool.and_eq_true, beq_iff_eq] at h
    exact h.2.1

/-- Rows of cuts with the same numbers, on the same variable of one subproblem. -/
def Constraint.IsAlike (r s : Constraint K) : Prop :=
  r = s ∨ ∃ x c d, ∃ m : Subproblem K, c.Alike d ∧
    r = CostToGo.cutRow x c m ∧ s = CostToGo.cutRow x d m

/-- Rows alike are about the same variables. -/
theorem Constraint.IsAlike.variables {r s : Constraint K} (h : r.IsAlike s) :
    r.terms.map Prod.fst = s.terms.map Prod.fst := by
  have hzip : ∀ (xs : List ℕ) (ys : List K),
      (List.zipWith (fun i c => (i, -c)) xs ys).map Prod.fst = xs.take ys.length := by
    intro xs ys
    induction xs generalizing ys with
    | nil => simp
    | cons x xs ih => cases ys <;> simp [ih]
  have hrow : ∀ (x : ℕ) (c : Cut K) (m : Subproblem K), (CostToGo.cutRow x c m).terms.map Prod.fst =
      x :: m.states.take c.coefficients.length :=
    fun x c m => congrArg (x :: ·) (hzip m.states c.coefficients)
  obtain rfl | ⟨x, c, d, m, hcd, rfl, rfl⟩ := h
  · rfl
  · rw [hrow, hrow, hcd.length_coefficients]

/-! ## What a node gains -/

namespace Node

/-- The node is `n₀` after it was given cuts for some of its ribs: for those `added` it has rows behind
the others, and the other ones were there. -/
structure Gains (n₀ : Node K) (given added : List (ℕ × Cut K)) (n : Node K) : Prop where
  vars : n.costToGo.vars = n₀.costToGo.vars
  states : n.model.states = n₀.model.states
  rows : n.model.program.constraints.toList = n₀.model.program.constraints.toList ++
    added.map fun e => CostToGo.cutRow (n₀.costToGo.vars.getD e.1 0) e.2 n₀.model
  old : ∀ i, n₀.costToGo.installed.getD i [] ⊆ n.costToGo.installed.getD i []
  booked : ∀ i, ∀ c ∈ n.costToGo.installed.getD i [],
    c ∈ n₀.costToGo.installed.getD i [] ∨ (i, c) ∈ added
  missing : ∀ e ∈ added, e ∈ given ∧ e.1 < n₀.costToGo.vars.length ∧
    (n₀.costToGo.installed.getD e.1 []).any e.2.same = false
  present : ∀ e ∈ given, e.1 < n₀.costToGo.vars.length →
    (n₀.costToGo.installed.getD e.1 []).any e.2.same = true ∨
      ∃ d, (e.1, d) ∈ added ∧ e.2.Alike d

theorem Gains.refl (n : Node K) : n.Gains [] [] n where
  vars := rfl
  states := rfl
  rows := by simp
  old _ := List.Subset.refl _
  booked _ _ := Or.inl
  missing := by simp
  present := by simp

omit [Numeral K] in
theorem mem_getD_modify {A : Type} {xs : List (List A)} {i j : ℕ} {a b : A}
    (h : b ∈ (xs.modify i (· ++ [a])).getD j []) : b ∈ xs.getD j [] ∨ j = i ∧ b = a := by
  rw [List.getD_eq_getElem?_getD, List.getElem?_modify] at h
  rw [List.getD_eq_getElem?_getD]
  cases hx : xs[j]? with
  | none => simp [hx] at h
  | some x =>
    by_cases hij : i = j
    · simpa [hx, hij] using h
    · simpa [hx, hij, Ne.symm hij] using h

omit [Numeral K] in
theorem subset_getD_modify {A : Type} (xs : List (List A)) (i j : ℕ) (a : A) :
    xs.getD j [] ⊆ (xs.modify i (· ++ [a])).getD j [] := by
  rw [List.getD_eq_getElem?_getD, List.getD_eq_getElem?_getD, List.getElem?_modify]
  cases xs[j]? with
  | none => simp
  | some x => by_cases hij : i = j <;> simp [hij]

variable {n₀ n n' : Node K} {given added given' added' : List (ℕ × Cut K)} {i : ℕ} {cut : Cut K}

/-- A cut that gets no row. -/
theorem Gains.skip (h : n₀.Gains given added n) (hvars : n'.costToGo.vars = n.costToGo.vars)
    (hinstalled : n'.costToGo.installed = n.costToGo.installed) (hmodel : n'.model = n.model)
    (hcut : i < n₀.costToGo.vars.length →
      (n.costToGo.installed.getD i []).any cut.same = true) :
    n₀.Gains (given ++ [(i, cut)]) added n' where
  vars := hvars.trans h.vars
  states := by rw [hmodel, h.states]
  rows := by rw [hmodel, h.rows]
  old := hinstalled ▸ h.old
  booked := hinstalled ▸ h.booked
  missing e he := by
    obtain ⟨hgiven, hrest⟩ := h.missing e he
    exact ⟨List.mem_append_left _ hgiven, hrest⟩
  present e he hlt := by
    rcases List.mem_append.1 he with he | he
    · exact h.present e he hlt
    · obtain rfl := List.mem_singleton.1 he
      obtain ⟨c, hc, hsame⟩ := List.any_eq_true.1 (hcut hlt)
      rcases h.booked i c hc with hold | hadded
      · exact Or.inl (List.any_eq_true.2 ⟨c, hold, hsame⟩)
      · exact Or.inr ⟨c, hadded, Or.inr hsame⟩

/-- A cut that gets a row. -/
theorem Gains.row (h : n₀.Gains given added n) {x : ℕ} (hx : n.costToGo.vars[i]? = some x)
    (hcut : (n.costToGo.installed.getD i []).any cut.same = false)
    (hvars : n'.costToGo.vars = n.costToGo.vars)
    (hinstalled : n'.costToGo.installed = n.costToGo.installed.modify i (· ++ [cut]))
    (hmodel : n'.model = n.model.withConstraint (CostToGo.cutRow x cut n.model)) :
    n₀.Gains (given ++ [(i, cut)]) (added ++ [(i, cut)]) n' := by
  have hx₀ : n₀.costToGo.vars[i]? = some x := h.vars ▸ hx
  have hmissing : (n₀.costToGo.installed.getD i []).any cut.same = false :=
    List.any_eq_false.2 fun c hc => List.any_eq_false.1 hcut c (h.old i hc)
  refine ⟨hvars.trans h.vars, hmodel ▸ h.states, ?_, fun j => ?_, fun j c hc => ?_, fun e he => ?_,
    fun e he hlt => ?_⟩
  · have hrow : CostToGo.cutRow x cut n.model = CostToGo.cutRow x cut n₀.model :=
      CostToGo.cutRow_congr x cut h.states
    simp [hmodel, Subproblem.withConstraint, LinearProgram.addConstraint, h.rows, hrow, hx₀,
      List.getD_eq_getElem?_getD]
  · exact fun c hc => hinstalled ▸ subset_getD_modify _ i j cut (h.old j hc)
  · rcases mem_getD_modify (hinstalled ▸ hc) with hc | ⟨rfl, rfl⟩
    · exact (h.booked j c hc).imp_right (List.mem_append_left _)
    · exact Or.inr (by simp)
  · rcases List.mem_append.1 he with he | he
    · obtain ⟨hgiven, hrest⟩ := h.missing e he
      exact ⟨List.mem_append_left _ hgiven, hrest⟩
    · obtain rfl := List.mem_singleton.1 he
      exact ⟨by simp, (List.getElem?_eq_some_iff.1 hx₀).1, hmissing⟩
  · rcases List.mem_append.1 he with he | he
    · refine (h.present e he hlt).imp_right ?_
      rintro ⟨d, hd, halike⟩
      exact ⟨d, List.mem_append_left _ hd, halike⟩
    · obtain rfl := List.mem_singleton.1 he
      exact Or.inr ⟨cut, by simp, .refl cut⟩

/-- A cut that a node takes has got a row then, or needed none. -/
theorem Gains.installCut (h : n₀.Gains given added n) {rib : Option K} {state : Option (Datum K)}
    {new : Bool} (hi : n.costToGo.ribIndex rib = .ok i)
    (hcut : n.installCut cut rib state = .ok (new, n')) :
    ∃ added', n₀.Gains (given ++ [(i, cut)]) added' n' := by
  obtain ⟨v, m, -, hinstall, rfl⟩ := installCut_eq_ok.1 hcut
  obtain ⟨-, j, pool, pool', hj, -, -, hrow⟩ := CostToGo.installCut_eq_ok hinstall
  obtain rfl : i = j := Except.ok.inj (hi.symm.trans hj)
  cases hx : n.costToGo.vars[i]? with
  | none =>
    simp only [CostToGo.installRow, hx, Prod.mk.injEq] at hrow
    obtain ⟨rfl, rfl⟩ := hrow
    refine ⟨added, h.skip rfl rfl rfl fun hlt => ?_⟩
    rw [← h.vars] at hlt
    exact absurd hlt (List.getElem?_eq_none_iff.1 hx).not_gt
  | some x =>
    by_cases hany : (n.costToGo.installed.getD i []).any cut.same = true
    · simp only [CostToGo.installRow, hx, hany, if_true, Prod.mk.injEq] at hrow
      obtain ⟨rfl, rfl⟩ := hrow
      exact ⟨added, h.skip rfl rfl rfl fun _ => hany⟩
    · simp only [CostToGo.installRow, hx, if_neg hany, Prod.mk.injEq] at hrow
      obtain ⟨rfl, rfl⟩ := hrow
      exact ⟨_, h.row hx (eq_false_of_ne_true hany) rfl rfl rfl⟩

/-- A node gains rows of the same cuts from the same cuts. -/
theorem Gains.among (htrans : Scalar.EqTransitive K) (h : n₀.Gains given added n)
    (h' : n₀.Gains given' added' n') (hgiven : ∀ e ∈ given, ∃ d, (e.1, d) ∈ given' ∧ e.2.Alike d) :
    ∀ e ∈ added, ∃ d, (e.1, d) ∈ added' ∧ e.2.Alike d := by
  intro e he
  obtain ⟨hmem, hlt, hmissing⟩ := h.missing e he
  obtain ⟨c, hc, hec⟩ := hgiven e hmem
  rcases h'.present _ hc hlt with hold | ⟨d, hd, hcd⟩
  · obtain ⟨f, hf, hcf⟩ := List.any_eq_true.1 hold
    have hef : e.2.same f = true := by
      rcases hec with hec | hec
      · rwa [← Cut.bare_same, hec, Cut.bare_same]
      · exact Cut.same_trans htrans hec hcf
    exact absurd hef (List.any_eq_false.1 hmissing f hf)
  · exact ⟨d, hd, hec.trans htrans hcd⟩

/-- And so its rows on each variable are alike. -/
theorem Gains.exists_rowsOn (htrans : Scalar.EqTransitive K) (h : n₀.Gains given added n)
    (h' : n₀.Gains given' added' n') (hgiven : ∀ e ∈ given, ∃ d, (e.1, d) ∈ given' ∧ e.2.Alike d)
    {x : ℕ} {r : Constraint K} (hr : r ∈ n.model.rowsOn x) :
    ∃ s ∈ n'.model.rowsOn x, r.IsAlike s := by
  obtain ⟨hmem, hx⟩ := List.mem_filter.1 hr
  obtain ⟨s, hs, halike⟩ : ∃ s ∈ n'.model.program.constraints.toList, r.IsAlike s := by
    rw [h.rows] at hmem
    rw [h'.rows]
    rcases List.mem_append.1 hmem with hmem | hmem
    · exact ⟨r, List.mem_append_left _ hmem, Or.inl rfl⟩
    · obtain ⟨e, he, rfl⟩ := List.mem_map.1 hmem
      obtain ⟨d, hd, hed⟩ := h.among htrans h' hgiven e he
      exact ⟨_, List.mem_append_right _ (List.mem_map_of_mem hd),
        Or.inr ⟨_, _, _, _, hed, rfl, rfl⟩⟩
  refine ⟨s, List.mem_filter.2 ⟨hs, ?_⟩, halike⟩
  have hmap : ∀ r : Constraint K,
      (r.terms.any fun t => t.1 == x) = (r.terms.map Prod.fst).any (· == x) :=
    fun r => by rw [List.any_map]; rfl
  rw [hmap] at hx ⊢
  rwa [← halike.variables]

end Node

/-! ## What a graph gains -/

namespace PolicyGraph

variable {g g' g₀ : PolicyGraph K} {r s : CutRecord K} {records : List (CutRecord K)} {t k i : ℕ}

/-- The rows on the variable of a rib. -/
def cutRowsAt (g : PolicyGraph K) (t k i : ℕ) : List (Constraint K) :=
  ((g.nodeAt t k).bind fun n => n.costToGo.vars[i]?.map fun x => n.model.rowsOn x).getD []

/-- The cuts of the records that belong to a node, each with its rib. -/
def givenAt (g : PolicyGraph K) (records : List (CutRecord K)) (t k : ℕ) : List (ℕ × Cut K) :=
  records.filterMap fun r => (g.placeOf r).bind fun place =>
    if place.1 = t ∧ place.2.1 = k then some (place.2.2, r.cut) else none

theorem mem_givenAt {e : ℕ × Cut K} :
    e ∈ g.givenAt records t k ↔ ∃ r ∈ records, g.placeOf r = some (t, k, e.1) ∧ r.cut = e.2 := by
  simp only [givenAt, List.mem_filterMap, Option.bind_eq_some_iff, Option.ite_none_right_eq_some,
    Option.some.injEq]
  constructor
  · rintro ⟨r, hr, ⟨t', k', i⟩, hplace, ⟨rfl, rfl⟩, rfl⟩
    exact ⟨r, hr, hplace, rfl⟩
  · rintro ⟨r, hr, hplace, hcut⟩
    exact ⟨r, hr, _, hplace, ⟨rfl, rfl⟩, Prod.ext rfl hcut⟩

theorem givenAt_cons (g : PolicyGraph K) (r : CutRecord K) (records : List (CutRecord K)) (t k : ℕ) :
    g.givenAt (r :: records) t k = g.givenAt [r] t k ++ g.givenAt records t k := by
  rw [givenAt, ← List.singleton_append, List.filterMap_append]
  rfl

theorem givenAt_congr (h : g'.layout = g.layout) (records : List (CutRecord K)) (t k : ℕ) :
    g'.givenAt records t k = g.givenAt records t k := by
  simp only [givenAt, placeOf_congr h]

/-- A record that is installed is given to the node where it belongs. -/
theorem gains_installRecord (hg : g.IsSettled) {new : Bool} (h : installRecord r g = .ok new g')
    {n₀ n : Node K} {given added : List (ℕ × Cut K)} (hn : g.nodeAt t k = some n)
    (hgains : n₀.Gains given added n) : ∃ n' added', g'.nodeAt t k = some n' ∧
      n₀.Gains (given ++ g.givenAt [r] t k) added' n' := by
  obtain ⟨m, m', hnode, hinstall, rfl⟩ := installCut_eq_ok.1 h
  obtain ⟨v, p, -, hcostToGo, rfl⟩ := Node.installCut_eq_ok.1 hinstall
  obtain ⟨-, i, -, -, hrib, -⟩ := CostToGo.installCut_eq_ok hcostToGo
  have hplace : g.placeOf r = some (m.stage, m.markov, i) := by simp only [placeOf, hnode, hrib]
  obtain ⟨t', k', hat, -⟩ := exists_of_node hnode
  obtain ⟨rfl, rfl⟩ := hg t' k' m hat
  rw [nodeAt_putNode]
  by_cases hhere : t = m.stage ∧ k = m.markov
  · obtain ⟨rfl, rfl⟩ := hhere
    obtain rfl : m = n := Option.some.inj (hat.symm.trans hn)
    have hgiven : g.givenAt [r] m.stage m.markov = [(i, r.cut)] := by simp [givenAt, hplace]
    obtain ⟨added', hadded⟩ := hgains.installCut hrib hinstall
    exact ⟨_, added', by simp [hn], hgiven ▸ hadded⟩
  · have hgiven : g.givenAt [r] t k = [] := by
      simpa [givenAt, hplace] using fun ht hk => hhere ⟨ht.symm, hk.symm⟩
    exact ⟨n, added, by rw [if_neg hhere, hn], by rwa [hgiven, List.append_nil]⟩

/-- What a node gains from records that the graph takes in. -/
theorem gains_replay (hg : g.IsSettled) {count : ℕ} (h : replay records g = .ok count g')
    {n₀ n : Node K} {given added : List (ℕ × Cut K)} (hn : g.nodeAt t k = some n)
    (hgains : n₀.Gains given added n) : ∃ n' added', g'.nodeAt t k = some n' ∧
      n₀.Gains (given ++ g.givenAt records t k) added' n' := by
  induction records generalizing g n given added count with
  | nil =>
    cases h
    exact ⟨n, added, hn, by rwa [givenAt, List.filterMap_nil, List.append_nil]⟩
  | cons r records ih =>
    obtain ⟨new, g₁, rest, hr, hrest, -⟩ := replay_cons_eq_ok.1 h
    obtain ⟨hsettled, hlayout, -⟩ := storedAt_installCut hg hr
    obtain ⟨n₁, added₁, hn₁, hgains₁⟩ := gains_installRecord hg hr hn hgains
    obtain ⟨n', added', hn', hgains'⟩ := ih hsettled hrest hn₁ hgains₁
    rw [givenAt_congr hlayout, List.append_assoc, ← givenAt_cons] at hgains'
    exact ⟨n', added', hn', hgains'⟩

omit [Numeral K] in
theorem exists_nodeAt_of_layout (h : g'.layout = g.layout) {n' : Node K} (hn' : g'.nodeAt t k = some n') :
    ∃ n, g.nodeAt t k = some n := by
  obtain ⟨row', hrow', hk'⟩ := Option.bind_eq_some_iff.1 hn'
  have hrows : (g'.layout[t]?).map List.length = (g.layout[t]?).map List.length := by rw [h]
  rw [layout, layout, List.getElem?_map, List.getElem?_map, hrow'] at hrows
  obtain ⟨_, hplaces, hlength⟩ := Option.map_eq_some_iff.1 hrows.symm
  obtain ⟨row, hrow, rfl⟩ := Option.map_eq_some_iff.1 hplaces
  rw [List.length_map, List.length_map] at hlength
  have hlt : k < row.length := hlength ▸ (List.getElem?_eq_some_iff.1 hk').1
  exact ⟨row[k], Option.bind_eq_some_iff.2 ⟨row, hrow, List.getElem?_eq_getElem hlt⟩⟩

/-- Rows from records for the same cuts are alike. -/
theorem exists_cutRowsAt_of_replay (htrans : Scalar.EqTransitive K) (hg : g₀.IsSettled)
    {records' : List (CutRecord K)} {count count' : ℕ} (h : replay records g₀ = .ok count g)
    (h' : replay records' g₀ = .ok count' g')
    (hrecords : ∀ r ∈ records, ∀ place, g₀.placeOf r = some place →
      ∃ s ∈ records', g₀.placeOf s = some place ∧ r.cut.Alike s.cut)
    {c : Constraint K} (hc : c ∈ g.cutRowsAt t k i) : ∃ d ∈ g'.cutRowsAt t k i, c.IsAlike d := by
  unfold cutRowsAt at hc ⊢
  cases hn : g.nodeAt t k with
  | none => simp [hn] at hc
  | some n =>
    obtain ⟨n₀, hn₀⟩ := exists_nodeAt_of_layout (storedAt_replay hg h).2.1 hn
    obtain ⟨n₁, added, hn₁, hgains⟩ := gains_replay hg h hn₀ (.refl n₀)
    obtain ⟨n', added', hn', hgains'⟩ := gains_replay hg h' hn₀ (.refl n₀)
    obtain rfl : n = n₁ := Option.some.inj (hn.symm.trans hn₁)
    have hgiven : ∀ e ∈ g₀.givenAt records t k,
        ∃ d, (e.1, d) ∈ g₀.givenAt records' t k ∧ e.2.Alike d := fun e he => by
      obtain ⟨r, hr, hplace, hcut⟩ := mem_givenAt.1 he
      obtain ⟨s, hs, hplace', halike⟩ := hrecords r hr _ hplace
      exact ⟨s.cut, mem_givenAt.2 ⟨s, hs, hplace', rfl⟩, hcut ▸ halike⟩
    have hvars : n'.costToGo.vars = n.costToGo.vars := hgains'.vars.trans hgains.vars.symm
    rw [hn, Option.bind_some] at hc
    rw [hn', Option.bind_some, hvars]
    cases hx : n.costToGo.vars[i]? with
    | none => simp [hx] at hc
    | some x =>
      rw [hx, Option.map_some, Option.getD_some] at hc
      exact hgains.exists_rowsOn htrans hgains' hgiven hc

end PolicyGraph

/-! ## Records that are taken -/

namespace CostToGo

variable {v v' : CostToGo K} {m m' : Subproblem K} {cut cut' : Cut K} {rib rib' : Option K}
  {state : Option (Datum K)} {new : Bool}

/-- A cost-to-go that has taken a cut takes what it took before. -/
theorem exists_installCut_of_installCut (h : v.installCut cut rib state m = .ok (new, v', m'))
    {q : Bool × CostToGo K × Subproblem K} (hq : v.installCut cut' rib' none m = .ok q) :
    ∃ q', v'.installCut cut' rib' none m' = .ok q' := by
  obtain ⟨new', v'', m''⟩ := q
  obtain ⟨hcheck', j, poolj, poolj', hrib', hpool', hstore', -⟩ := installCut_eq_ok hq
  obtain ⟨hcheck, -⟩ := installCut_eq_ok h
  obtain ⟨i, pool, pool', installed, hpool, hstore, rfl, -⟩ := changes_installCut h
  have hdimension : ∀ {c : Cut K}, v.checkCut c = .ok () →
      some c.dimension = v.frame.map Frame.dimension := by
    intro c hc
    unfold checkCut at hc
    by_contra hne
    rw [if_pos (by simpa using hne)] at hc
    obtain ⟨⟨⟩, hthrow, -⟩ := exceptBind_eq_ok.1 hc
    cases hthrow
  have hsame : cut'.dimension = cut.dimension :=
    Option.some.inj ((hdimension hcheck').trans (hdimension hcheck).symm)
  obtain ⟨taken, htaken, new'', p', hstored⟩ : ∃ taken, (v.pools.set i pool')[j]? = some taken ∧
      ∃ new p', taken.store cut' none = .ok (new, p') := by
    rw [List.getElem?_set]
    split_ifs with hij hlt
    · exact ⟨pool', rfl, CutPool.exists_store (CutPool.dimension_of_store hstore).1 hsame (by simp)⟩
    · exact absurd (List.getElem?_eq_some_iff.1 hpool).1 hlt
    · exact ⟨poolj, hpool', _, _, hstore'⟩
  exact ⟨_, installCut_of_store (v := { v with pools := v.pools.set i pool', installed := installed })
    hcheck' hrib' htaken hstored m'⟩

end CostToGo

namespace PolicyGraph

variable {g g' : PolicyGraph K} {r s : CutRecord K}

/-- The graph takes the record. -/
def Takes (g : PolicyGraph K) (r : CutRecord K) : Prop := ∃ new g', installRecord r g = .ok new g'

omit [Numeral K] in
/-- Lists of one length are counted alike, from the end too. -/
theorem exists_itemAt {A : Type} {xs : List A} {k : ℤ} {a : A}
    (h : (itemAt xs k : Except (Fault K) A) = .ok a) : ∃ i : ℕ, xs[i]? = some a ∧
      ∀ ys : List A, ys.length = xs.length → ∀ b, ys[i]? = some b →
        (itemAt ys k : Except (Fault K) A) = .ok b := by
  simp only [itemAt] at h ⊢
  generalize hi : (if k < 0 then k + (xs.length : ℤ) else k) = i at h
  split_ifs at h with hnegative
  refine ⟨i.toNat, ?_, fun ys hlength b hb => ?_⟩
  · cases hx : xs[i.toNat]? with
    | none => simp [hx] at h
    | some b =>
      rw [hx] at h
      rw [Except.ok.inj h]
  · rw [hlength, hi, if_neg hnegative, hb]

omit [Numeral K] in
/-- Where a node is found does not depend on what the nodes are. -/
theorem exists_place {n : Node K} {stage markov : ℤ} (hframe : g'.frame = g.frame)
    (h : g.node stage markov = .ok n) : ∃ t k, g.nodeAt t k = some n ∧
      ∀ n', g'.nodeAt t k = some n' → g'.node stage markov = .ok n' := by
  have hlengths : g'.nodes.map List.length = g.nodes.map List.length := congrArg Prod.snd hframe
  have hstages : g'.nodes.length = g.nodes.length := by simpa using congrArg List.length hlengths
  obtain ⟨row, hrow, hn⟩ := exceptBind_eq_ok.1 h
  obtain ⟨t, ht, hrows⟩ := exists_itemAt hrow
  obtain ⟨k, hk, hnodes⟩ := exists_itemAt hn
  refine ⟨t, k, by rw [nodeAt, ht, Option.bind_some, hk], fun n' hn' => ?_⟩
  obtain ⟨row', ht', hk'⟩ := Option.bind_eq_some_iff.1 hn'
  have hlength : row'.length = row.length := by
    have hat := congrArg (·[t]?) hlengths
    simpa [List.getElem?_map, ht, ht'] using hat
  exact exceptBind_eq_ok.2 ⟨row', hrows _ hstages _ ht', hnodes _ hlength _ hk'⟩

/-- Where a node was found, the same one is found when a record was taken, or it is the one that has
taken the cut. -/
theorem node_of_installRecord (hg : g.IsSettled) {new : Bool} (h : installRecord r g = .ok new g')
    {l : Node K} {stage markov : ℤ} (hl : g.node stage markov = .ok l) :
    g'.node stage markov = .ok l ∨ ∃ v m, l.isTerminal = false ∧
      l.costToGo.installCut r.cut r.rib none l.model = .ok (new, v, m) ∧
      g'.node stage markov = .ok { l with costToGo := v, model := m } := by
  obtain ⟨n, n', hn, hinstall, rfl⟩ := installCut_eq_ok.1 h
  obtain ⟨v, m, hterminal, hv, rfl⟩ := Node.installCut_eq_ok.1 hinstall
  obtain ⟨t, k, hat, hfound⟩ := exists_place (frame_putNode g _) hl
  obtain ⟨t₀, k₀, hat₀, -⟩ := exists_of_node hn
  obtain ⟨rfl, rfl⟩ := hg t₀ k₀ n hat₀
  rw [nodeAt_putNode] at hfound
  by_cases hhere : t = n.stage ∧ k = n.markov
  · obtain ⟨rfl, rfl⟩ := hhere
    obtain rfl : n = l := Option.some.inj (hat₀.symm.trans hat)
    exact Or.inr ⟨v, m, hterminal, hv, hfound _ (by simp [hat])⟩
  · exact Or.inl (hfound l ((if_neg hhere).trans hat))

/-- A graph that has taken a record takes what it took before. -/
theorem Takes.of_installRecord (hg : g.IsSettled) (hs : g.Takes s) {new : Bool}
    (h : installRecord r g = .ok new g') : g'.Takes s := by
  obtain ⟨new', g'', hs⟩ := hs
  obtain ⟨l, l', hl, hinstall', -⟩ := installCut_eq_ok.1 hs
  rcases node_of_installRecord hg h hl with hnode | ⟨v, m, hterminal, hv, hnode⟩
  · exact ⟨new', _, installCut_eq_ok.2 ⟨l, l', hnode, hinstall', rfl⟩⟩
  · obtain ⟨v', m', -, hv', -⟩ := Node.installCut_eq_ok.1 hinstall'
    obtain ⟨⟨new'', v'', m''⟩, htaken⟩ := CostToGo.exists_installCut_of_installCut hv hv'
    have hput := Node.installCut_eq_ok (n := { l with costToGo := v, model := m }).2
      ⟨v'', m'', hterminal, htaken, rfl⟩
    exact ⟨_, _, installCut_eq_ok.2 ⟨_, _, hnode, hput, rfl⟩⟩

/-- So does one that has taken several. -/
theorem Takes.of_replay (hg : g.IsSettled) (hs : g.Takes s) {records : List (CutRecord K)} {count : ℕ}
    (h : replay records g = .ok count g') : g'.Takes s := by
  induction records generalizing g count with
  | nil =>
    cases h
    exact hs
  | cons r records ih =>
    obtain ⟨new, g₁, rest, hr, hrest, -⟩ := replay_cons_eq_ok.1 h
    exact ih (storedAt_installCut hg hr).1 (hs.of_installRecord hg hr) hrest

end PolicyGraph

end DualDynamic
