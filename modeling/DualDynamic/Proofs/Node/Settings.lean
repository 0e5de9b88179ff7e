import DualDynamic.Proofs.CostToGo.Contents
import DualDynamic.Proofs.PolicyGraph.Sound
import DualDynamic.Proofs.Subproblem.Decision

/-!
# The last settings count

One subproblem serves all solves of a node: for a pass, for a cut, for a bound and for an evaluation.
Between two of them the node is set up anew, and cuts are installed in between. Here any sequence of
these calls is performed on a node that is fresh, and calls that fail leave behind what they have
changed by then. Each call keeps the node in the state of a fresh one but for the cells that settings
write to and for the rows of its cuts (`Carries`). A full setting overwrites all of these cells. So
what is solved next is determined by the last settings and the installed cuts.
-/

namespace DualDynamic

open Step

variable {K : Type}

/-! ## Rows behind -/

namespace LinearProgram

variable {f : LinearProgram K → LinearProgram K} {d : Cell} {T : ℕ} {p q : LinearProgram K}

/-- The constraints from a position on. -/
def rowsFrom (T : ℕ) (p : LinearProgram K) : List (Constraint K) := p.constraints.toList.drop T

theorem rowsFrom_size (p : LinearProgram K) : p.rowsFrom p.constraints.size = [] := by
  rw [rowsFrom, ← Array.length_toList, List.drop_length]

theorem rowsFrom_addConstraint (h : T ≤ p.constraints.size) (r : Constraint K) :
    (p.addConstraint r).rowsFrom T = p.rowsFrom T ++ [r] := by
  rw [rowsFrom, addConstraint, Array.toList_push,
    List.drop_append_of_le_length (by rwa [Array.length_toList])]
  rfl

variable [Numeral K]

/-- What is written in front leaves the constraints behind alone. -/
theorem rowsFrom_write (hf : WritesCell f d) (hd : d.IsWithin T) (p : LinearProgram K) :
    (f p).rowsFrom T = p.rowsFrom T := by
  refine List.ext_getElem? fun j => ?_
  rw [rowsFrom, rowsFrom, List.getElem?_drop, List.getElem?_drop, Array.getElem?_toList,
    Array.getElem?_toList]
  exact hf.row p _ fun hrow => absurd (hd _ hrow) (by omega)

theorem Extends.take_relations {D : Set Cell} (h : Extends D p q) :
    q.relations.take p.constraints.size = p.relations := by
  rw [← length_relations]
  exact (List.prefix_iff_eq_take.1 h.relations).symm

/-- Two programs have the same objective, the same bounds, the same first `T` constraints and, in
some order, the same constraints behind these. -/
structure Matches (T : ℕ) (p q : LinearProgram K) : Prop where
  sense : q.sense = p.sense
  kinds : q.kinds = p.kinds
  relations : q.relations.take T = p.relations.take T
  read : ∀ d : Cell, d.IsWithin T → q.read d = p.read d
  rows : (q.rowsFrom T).Perm (p.rowsFrom T)

end LinearProgram

open LinearProgram

/-! ## Calls -/

namespace Node

variable [Numeral K]

/-- The calls that change a node or its subproblem. -/
inductive Call (K : Type) where
  | setIncoming (state : List K)
  | setRealization (k : ℤ)
  | setPrice (price : Option K)
  | solve (stage markov : Option ℤ)
  | installCut (cut : Cut K) (rib : Option K) (state : Option (Datum K))

/-- Performs a call. A cut that is refused changes nothing. -/
def Call.perform (engine : Engine K) : Call K → Run K (Node K) Unit
  | setIncoming state => onModel (Subproblem.setIncoming state)
  | setRealization k => onModel (Subproblem.setRealization k)
  | setPrice price => Node.setPrice price
  | solve stage markov => do
    let _ ← onModel (Subproblem.solve engine stage markov)
  | installCut cut rib state => do
    let (_, n) ← Step.ofExcept ((← Run.part).installCut cut rib state)
    Run.change fun _ => n

/-- Whether a call installs a cut. -/
def Call.installs : Call K → Bool
  | installCut _ _ _ => true
  | _ => false

/-- What some calls leave behind, one after the other, whether they fail or not. -/
def performAll (engine : Engine K) (calls : List (Call K)) (w : Watched (Node K)) :
    Watched (Node K) := calls.foldl (fun w c => final (c.perform engine) w) w

/-- Sets a node up for a state, a realization and a price. -/
def setUp (state : List K) (k : ℤ) (price : Option K) : Run K (Node K) Unit := do
  onModel (Subproblem.setIncoming state)
  onModel (Subproblem.setRealization k)
  setPrice price

variable {engine : Engine K} {n₀ n n' : Node K} {rows : ℕ}

theorem sets_setUp (hwell : n.model.WellFormed rows) (state : List K) (k : ℤ) (price : Option K) :
    Sets n n.cells (setUp state k price) :=
  (sets_onModel (Subproblem.sets_setIncoming hwell state)).bind fun _ =>
    (sets_onModel (Subproblem.sets_setRealization hwell k)).bind fun _ => sets_setPrice price

omit [Numeral K] in
/-- Settings write to the constraints of the node itself, none of which belongs to a cut. -/
theorem isWithin_cells (hwell : n.model.WellFormed rows) :
    ∀ d ∈ n.cells, d.IsWithin n.model.program.constraints.size := by
  rintro d (⟨i, hi, rfl⟩ | hd | hd | hd)
  · exact Cell.isWithin_rhs.2 (hwell.lt_of_mem_links hi)
  · exact hwell.isWithin d (Or.inl hd)
  · exact hwell.isWithin d (Or.inr hd)
  · split_ifs at hd
    · exact hd.elim
    · obtain ⟨i, -, rfl⟩ := hd
      exact Cell.isWithin_cost

/-! ## The rows of cuts -/

/-- The rows of the installed cuts, rib by rib. -/
def cutRows (n : Node K) : List (Constraint K) :=
  (List.zipWith (fun x cuts => cuts.map fun c => CostToGo.cutRow x c n.model) n.costToGo.vars
    n.costToGo.installed).flatten

omit [Numeral K] in
/-- One more cut on a rib is one more row. -/
theorem perm_rows_modify (row : ℕ → Cut K → Constraint K) {vars : List ℕ}
    {installed : List (List (Cut K))} (hlength : installed.length = vars.length) {i x : ℕ}
    (hx : vars[i]? = some x) (cut : Cut K) :
    (List.zipWith (fun x cuts => cuts.map (row x)) vars
      (installed.modify i (· ++ [cut]))).flatten.Perm
      ((List.zipWith (fun x cuts => cuts.map (row x)) vars installed).flatten ++ [row x cut]) := by
  induction vars generalizing installed i with
  | nil => simp at hx
  | cons y vars ih =>
    obtain ⟨cuts, installed, rfl⟩ := List.exists_cons_of_ne_nil (l := installed)
      (List.ne_nil_of_length_eq_add_one hlength)
    cases i with
    | zero =>
      obtain rfl : y = x := Option.some.inj hx
      simp only [List.modify_zero_cons, List.zipWith_cons_cons, List.flatten_cons, List.map_append,
        List.map_cons, List.map_nil, List.append_assoc]
      exact List.perm_append_comm.append_left _
    | succ i =>
      simp only [List.modify_succ_cons, List.zipWith_cons_cons, List.flatten_cons,
        List.append_assoc]
      exact (ih (by simpa using hlength) hx).append_left _

theorem cutRows_congr (hvars : n'.costToGo.vars = n.costToGo.vars)
    (hinstalled : n'.costToGo.installed = n.costToGo.installed)
    (hstates : n'.model.states = n.model.states) : n'.cutRows = n.cutRows := by
  simp only [cutRows, hvars, hinstalled, CostToGo.cutRow_congr _ _ hstates]

/-! ## What stays of a fresh node -/

/-- The node is `n₀` but for the cells that settings write to and for rows of cuts, which stand
behind. -/
structure Carries (n₀ n : Node K) : Prop where
  like : Extends n₀.cells n₀ n
  lengths : n.isTerminal = false → n.costToGo.installed.length = n.costToGo.vars.length
  rows : (n.model.program.rowsFrom n₀.model.program.constraints.size ++ n₀.cutRows).Perm n.cutRows

theorem Carries.states (h : Carries n₀ n) : n.model.states = n₀.model.states :=
  Subproblem.states_of_outline (model_outline h.like.outline)

theorem carries_refl (h : n₀.isTerminal = false →
    n₀.costToGo.installed.length = n₀.costToGo.vars.length) : Carries n₀ n₀ where
  like := .refl _ _
  lengths := h
  rows := by rw [rowsFrom_size, List.nil_append]

theorem rowsFrom_of_touches (hwell : n₀.model.WellFormed rows) (h : Touches n₀.cells n n') :
    n'.model.program.rowsFrom n₀.model.program.constraints.size =
      n.model.program.rowsFrom n₀.model.program.constraints.size := by
  rcases h.program with hsame | ⟨f, d, hd, hf, hwrite⟩
  · exact congrArg (rowsFrom _) hsame
  · exact (congrArg (rowsFrom _) hwrite).trans (rowsFrom_write hf (isWithin_cells hwell d hd) _)

theorem isBlind_carries (hwell : n₀.model.WellFormed rows) : IsBlind n₀.cells (Carries n₀) := by
  rintro n n' htouches h
  have hrows := rowsFrom_of_touches hwell htouches
  have hlike := isBlind_extends subset_rfl n₀ n n' htouches h.like
  obtain ⟨m, price, houtline, rfl⟩ := exists_of_rest htouches.rest
  have hcuts : cutRows { n with model := m, price := price } = n.cutRows :=
    cutRows_congr rfl rfl (Subproblem.states_of_outline houtline)
  refine ⟨hlike, h.lengths, ?_⟩
  rw [hrows, hcuts]
  exact h.rows

theorem Carries.installCut (h : Carries n₀ n) {cut : Cut K} {rib : Option K}
    {state : Option (Datum K)} {new : Bool} (hcut : n.installCut cut rib state = .ok (new, n')) :
    Carries n₀ n' := by
  obtain ⟨v, m, hterminal, hinstall, rfl⟩ := installCut_eq_ok.1 hcut
  obtain ⟨-, i, pool, pool', -, -, -, hrow⟩ := CostToGo.installCut_eq_ok hinstall
  have hlengths := h.lengths hterminal
  rcases CostToGo.installRow_cases { n.costToGo with pools := n.costToGo.pools.set i pool' } i cut
    n.model with ⟨heq, -⟩ | ⟨x, hx, heq⟩
  · obtain ⟨rfl, rfl⟩ := Prod.mk.inj (hrow.trans heq)
    exact ⟨⟨h.like.outline, h.like.program⟩, fun _ => hlengths, h.rows⟩
  · obtain ⟨rfl, rfl⟩ := Prod.mk.inj (hrow.trans heq)
    refine ⟨⟨h.like.outline, h.like.program.addConstraint _⟩,
      fun _ => (List.length_modify ..).trans hlengths, ?_⟩
    have hmore : (n.model.withConstraint (CostToGo.cutRow x cut n.model)).program.rowsFrom
        n₀.model.program.constraints.size = n.model.program.rowsFrom
          n₀.model.program.constraints.size ++ [CostToGo.cutRow x cut n.model] :=
      rowsFrom_addConstraint h.like.program.rows _
    refine List.Perm.trans ?_ (perm_rows_modify (fun x c => CostToGo.cutRow x c n.model) hlengths hx
      cut).symm
    rw [hmore, List.append_assoc]
    exact (List.perm_append_comm.append_left _).trans
      ((List.append_assoc ..).symm ▸ h.rows.append_right _)

/-! ## Any history -/

theorem final_installCut (cut : Cut K) (rib : Option K) (state : Option (Datum K))
    (w : Watched (Node K)) : final ((Call.installCut cut rib state).perform engine) w =
      match w.part.installCut cut rib state with
      | .ok (_, n) => ⟨w.monitor, n⟩
      | .error _ => w := by
  unfold final
  rw [Call.perform, Run.part_bind_apply]
  cases w.part.installCut cut rib state <;> rfl

section History

variable (hwell : n₀.model.WellFormed rows) (hspares : engine.Spares n₀.model.retry)
include hwell hspares

/-- Other calls than installs keep what is blind to settings. -/
theorem keeps_perform {I : Node K → Prop} (hI : IsBlind n₀.cells I)
    (hn : ∀ t, I t → Programmed.outline t = Programmed.outline n₀) {c : Call K}
    (hc : c.installs = false) : Keeps (fun w => I w.part) (c.perform engine) := by
  cases c with
  | setIncoming state =>
    exact (sets_onModel (Subproblem.sets_setIncoming hwell state)).keeps I
      (hI.mono Set.subset_union_left) hn
  | setRealization k =>
    exact (sets_onModel (Subproblem.sets_setRealization hwell k)).keeps I
      (hI.mono (Set.subset_union_left.trans Set.subset_union_right)) hn
  | setPrice price =>
    exact (sets_setPrice price).keeps I
      (hI.mono (Set.subset_union_right.trans Set.subset_union_right)) hn
  | solve stage markov =>
    exact (keeps_onModel (fun _ hJ hm => Subproblem.keeps_solve hspares stage markov hJ hm)
      (hI.mono (Set.empty_subset _)) hn).bind fun _ => keeps_pure _
  | installCut cut rib state => cases hc

theorem Carries.perform {w : Watched (Node K)} (h : Carries n₀ w.part) (c : Call K) :
    Carries n₀ (final (c.perform engine) w).part := by
  cases c with
  | installCut cut rib state =>
    rw [final_installCut]
    cases hcut : w.part.installCut cut rib state with
    | error e => exact h
    | ok answer => exact h.installCut hcut
  | _ => exact (keeps_perform hwell hspares (isBlind_carries hwell)
      (fun _ ht => ht.like.outline) rfl).final h

theorem Carries.performAll {w : Watched (Node K)} (h : Carries n₀ w.part) (calls : List (Call K)) :
    Carries n₀ (performAll engine calls w).part := by
  induction calls generalizing w with
  | nil => exact h
  | cons c calls ih => exact ih (h.perform hwell hspares c)

end History

/-! ## The order of the rows -/

/-- Nodes that have taken the same cuts in the same order. -/
structure SameCuts (T : ℕ) (n n' : Node K) : Prop where
  isTerminal : n'.isTerminal = n.isTerminal
  costToGo : n'.costToGo = n.costToGo
  states : n'.model.states = n.model.states
  rows : n'.model.program.rowsFrom T = n.model.program.rowsFrom T

omit [Numeral K] in
theorem SameCuts.symm {T : ℕ} (h : SameCuts T n n') : SameCuts T n' n :=
  ⟨h.isTerminal.symm, h.costToGo.symm, h.states.symm, h.rows.symm⟩

omit [Numeral K] in
theorem SameCuts.trans {T : ℕ} {n'' : Node K} (h : SameCuts T n n') (h' : SameCuts T n' n'') :
    SameCuts T n n'' :=
  ⟨h'.isTerminal.trans h.isTerminal, h'.costToGo.trans h.costToGo, h'.states.trans h.states,
    h'.rows.trans h.rows⟩

theorem SameCuts.installCut {T : ℕ} (h : SameCuts T n n') (hn : T ≤ n.model.program.constraints.size)
    (hn' : T ≤ n'.model.program.constraints.size) {cut : Cut K} {rib : Option K}
    {state : Option (Datum K)} {new : Bool} {p : Node K}
    (hcut : n.installCut cut rib state = .ok (new, p)) :
    ∃ p', n'.installCut cut rib state = .ok (new, p') ∧ SameCuts T p p' := by
  obtain ⟨v, m, hterminal, hinstall, rfl⟩ := installCut_eq_ok.1 hcut
  obtain ⟨hcheck, i, pool, pool', hi, hpool, hstore, hrow⟩ := CostToGo.installCut_eq_ok hinstall
  have hinstall' := CostToGo.installCut_of_store hcheck hi hpool hstore n'.model
  have htaken : ∀ v m, n.costToGo.installCut cut rib state n'.model = .ok (new, v, m) →
      n'.installCut cut rib state = .ok (new, { n' with costToGo := v, model := m }) :=
    fun v m hv => installCut_eq_ok.2 ⟨v, m, h.isTerminal.trans hterminal, by rw [h.costToGo, hv], rfl⟩
  rcases CostToGo.installRow_everywhere { n.costToGo with pools := n.costToGo.pools.set i pool' } i
    cut with ⟨hnone, -⟩ | ⟨x, -, hone⟩
  · rw [hnone] at hrow hinstall'
    obtain ⟨rfl, rfl⟩ := Prod.mk.inj hrow
    exact ⟨_, htaken _ _ hinstall', h.isTerminal, rfl, h.states, h.rows⟩
  · rw [hone] at hrow hinstall'
    obtain ⟨rfl, rfl⟩ := Prod.mk.inj hrow
    refine ⟨_, htaken _ _ hinstall', h.isTerminal, rfl, h.states, ?_⟩
    have hmore := rowsFrom_addConstraint hn (CostToGo.cutRow x cut n.model)
    have hmore' := rowsFrom_addConstraint hn' (CostToGo.cutRow x cut n'.model)
    refine hmore'.trans ?_
    rw [h.rows, CostToGo.cutRow_congr x cut h.states]
    exact hmore.symm

theorem isBlind_sameCuts (hwell : n₀.model.WellFormed rows) (q : Node K) :
    IsBlind n₀.cells fun n => Programmed.outline n = Programmed.outline n₀ ∧
      SameCuts n₀.model.program.constraints.size q n := by
  rintro n n' htouches ⟨houtline, h⟩
  have hrows := rowsFrom_of_touches hwell htouches
  have houtline' := isBlind_outline n₀ _ n n' htouches houtline
  obtain ⟨m, price, hm, rfl⟩ := exists_of_rest htouches.rest
  exact ⟨houtline', h.trans ⟨rfl, rfl, Subproblem.states_of_outline hm, hrows⟩⟩

/-- Setting up leaves the rows behind as they are. -/
theorem rowsFrom_setUp (hwell : n₀.model.WellFormed rows) {state : List K} {k : ℤ}
    {price : Option K} {w v : Watched (Node K)}
    (hw : Programmed.outline w.part = Programmed.outline n₀)
    (h : setUp state k price w = .ok () v) :
    v.part.model.program.rowsFrom n₀.model.program.constraints.size =
      w.part.model.program.rowsFrom n₀.model.program.constraints.size := by
  have hkeeps := (sets_setUp hwell state k price).keeps _ (isBlind_sameCuts hwell w.part)
    fun _ hn => hn.1
  exact (hkeeps.of_ok ⟨hw, rfl, rfl, rfl, rfl⟩ h).2.rows

section Order

variable (hwell : n₀.model.WellFormed rows) (hspares : engine.Spares n₀.model.retry)
  {w w' : Watched (Node K)}
include hwell hspares

/-- All calls but installs leave the cuts and their rows alone. -/
theorem sameCuts_perform (hw : Carries n₀ w.part) {c : Call K} (hc : c.installs = false) :
    SameCuts n₀.model.program.constraints.size w.part (final (c.perform engine) w).part := by
  have hkeeps := keeps_perform hwell hspares (isBlind_sameCuts hwell w.part) (fun _ h => h.1) hc
  exact (hkeeps.final ⟨hw.like.outline, rfl, rfl, rfl, rfl⟩).2

omit hwell hspares in
/-- The same cut, handed in to both. -/
theorem SameCuts.perform (h : SameCuts n₀.model.program.constraints.size w.part w'.part)
    (hw : Carries n₀ w.part) (hw' : Carries n₀ w'.part) {c : Call K} (hc : c.installs = true) :
    SameCuts n₀.model.program.constraints.size (final (c.perform engine) w).part
      (final (c.perform engine) w').part := by
  cases c with
  | installCut cut rib state =>
    rw [final_installCut, final_installCut]
    cases hcut : w.part.installCut cut rib state with
    | ok answer =>
      obtain ⟨p', hcut', hsame⟩ := h.installCut hw.like.program.rows hw'.like.program.rows hcut
      rw [hcut']
      exact hsame
    | error e =>
      cases hcut' : w'.part.installCut cut rib state with
      | ok answer =>
        obtain ⟨p, hp, -⟩ := h.symm.installCut hw'.like.program.rows hw.like.program.rows hcut'
        cases hcut.symm.trans hp
      | error e' => exact h
  | _ => cases hc

/-- Which cuts a node has, and in which order, is decided by the installs among the calls. -/
theorem sameCuts_performAll (hw : Carries n₀ w.part) (hw' : Carries n₀ w'.part)
    (h : SameCuts n₀.model.program.constraints.size w.part w'.part) (calls : List (Call K)) :
    SameCuts n₀.model.program.constraints.size (performAll engine calls w).part
      (performAll engine (calls.filter Call.installs) w').part := by
  induction calls generalizing w w' with
  | nil => exact h
  | cons c calls ih =>
    have hnext := hw.perform hwell hspares c
    cases hc : c.installs with
    | true =>
      rw [List.filter_cons_of_pos hc]
      exact ih hnext (hw'.perform hwell hspares c) (h.perform hw hw' hc)
    | false =>
      rw [List.filter_cons_of_neg (by simp [hc])]
      exact ih hnext hw' ((sameCuts_perform hwell hspares hw hc).symm.trans h)

end Order

/-! ## The last settings -/

/-- A node that was just built, or built again after it had been started. -/
def IsFresh (n : Node K) : Prop :=
  ∃ g : PolicyGraph K, (∃ b t k, g.newNode b t k = .ok n) ∨
    ∃ n', (n'.isTerminal = true ∨ n'.costToGo.frame.isSome = true) ∧ g.rebuilt n' = .ok n

theorem IsFresh.wellFormed (h : n.IsFresh) : ∃ rows, n.model.WellFormed rows := by
  obtain ⟨g, ⟨b, t, k, hnew⟩ | ⟨n', -, hrebuilt⟩⟩ := h
  · exact (PolicyGraph.isSound_newNode hnew).model.wellFormed
  · obtain ⟨b, m, -, hm, -, rfl⟩ := PolicyGraph.rebuilt_eq_ok hrebuilt
    obtain ⟨rows, hlinked⟩ := PolicyGraph.isLinked_newModel hm
    split_ifs
    · exact ⟨rows, hlinked.wellFormed⟩
    · exact (PolicyGraph.isSound_rebuild hlinked.isRegular).2.2.wellFormed

theorem IsFresh.carries (h : n.IsFresh) : Carries n n := by
  refine carries_refl fun hterminal => ?_
  obtain ⟨g, ⟨b, t, k, hnew⟩ | ⟨n', hstarted, hrebuilt⟩⟩ := h
  · obtain ⟨model, hmodel, hnew⟩ := exceptBind_eq_ok.1 hnew
    split_ifs at hnew
    · obtain rfl := Except.ok.inj hnew
      cases hterminal
    · obtain ⟨⟨v, m⟩, hstart, hnew⟩ := exceptBind_eq_ok.1 hnew
      obtain rfl := Except.ok.inj hnew
      exact (CostToGo.hasContents_start (Subproblem.isClosed_newModel hmodel) hstart).shows.installed
  · obtain ⟨b, m, -, hm, -, rfl⟩ := PolicyGraph.rebuilt_eq_ok hrebuilt
    split_ifs at hterminal with hlast
    · cases hterminal.symm.trans hlast
    · rw [if_neg hlast]
      obtain ⟨f, hf⟩ := Option.isSome_iff_exists.1 (hstarted.resolve_left hlast)
      exact (CostToGo.shows_rebuild hf (Subproblem.isClosed_newModel hm)).installed

/-- Nodes that carry the same cuts beside a fresh one have the same rows behind it. -/
theorem Carries.perm_rows (h : Carries n₀ n) (h' : Carries n₀ n')
    (hinstalled : n'.costToGo.installed = n.costToGo.installed) :
    (n'.model.program.rowsFrom n₀.model.program.constraints.size).Perm
      (n.model.program.rowsFrom n₀.model.program.constraints.size) := by
  have hvars : ∀ {n}, Carries n₀ n → n.costToGo.vars = n₀.costToGo.vars := by
    intro n h
    obtain ⟨m, pools, installed, price, -, rfl⟩ := exists_of_outline h.like.outline
    rfl
  have hrows : n'.cutRows = n.cutRows := cutRows_congr ((hvars h').trans (hvars h).symm) hinstalled
    (h'.states.trans h.states.symm)
  exact (List.perm_append_right_iff _).1 ((hrows ▸ h'.rows).trans h.rows.symm)

/-- The last settings count. On a fresh node any calls are performed, in any order, and some of them may
fail; on another copy of it only cuts are installed, or any other calls are performed, such that
in the end both have the same installed cuts. Then to set a node up succeeds on both or on neither; if it
succeeds, the two subproblems have the same objective, the same bounds, and the same right hand sides
and coefficients of the same constraints. The rows of the cuts stand in the same order if the cuts
arrived in the same order. -/
theorem last_settings_count (hfresh : n₀.IsFresh) (hspares : engine.Spares n₀.model.retry)
    (calls calls' : List (Call K)) (u u' : Monitor)
    (hcuts : (performAll engine calls' ⟨u', n₀⟩).part.costToGo.installed =
      (performAll engine calls ⟨u, n₀⟩).part.costToGo.installed)
    (state : List K) (k : ℤ) (price : Option K) :
    let n := (performAll engine calls ⟨u, n₀⟩).part
    let n' := (performAll engine calls' ⟨u', n₀⟩).part
    (∀ v, succeeds (setUp state k price) ⟨v, n'⟩ = succeeds (setUp state k price) ⟨v, n⟩) ∧
    ∀ v v' w w', setUp state k price ⟨v, n⟩ = .ok () w → setUp state k price ⟨v', n'⟩ = .ok () w' →
      w.part.model.program.Matches n₀.model.program.constraints.size w'.part.model.program ∧
      (calls'.filter Call.installs = calls.filter Call.installs →
        w'.part.model.program.rowsFrom n₀.model.program.constraints.size =
          w.part.model.program.rowsFrom n₀.model.program.constraints.size) := by
  intro n n'
  obtain ⟨rows, hwell⟩ := hfresh.wellFormed
  have hn : Carries n₀ n := Carries.performAll hwell hspares (w := ⟨u, n₀⟩) hfresh.carries calls
  have hn' : Carries n₀ n' := Carries.performAll hwell hspares (w := ⟨u', n₀⟩) hfresh.carries calls'
  have hsets := sets_setUp hwell state k price
  refine ⟨fun v => Run.succeeds_congr (hsets.decides ⟨v, n⟩ ⟨v, n'⟩ hn.like.outline hn'.like.outline
    rfl), fun v v' w w' hw hw' => ?_⟩
  obtain ⟨-, hlike, hlike', hread⟩ := hsets.agree ⟨v, n⟩ ⟨v', n'⟩ ⟨hn.like, hn'.like⟩ () w hw () w' hw'
  have hrows := rowsFrom_setUp (w := ⟨v, n⟩) hwell hn.like.outline hw
  have hrows' := rowsFrom_setUp (w := ⟨v', n'⟩) hwell hn'.like.outline hw'
  refine ⟨⟨?_, ?_, ?_, hread, ?_⟩, fun horder => ?_⟩
  · exact hlike'.program.sense.trans hlike.program.sense.symm
  · exact hlike'.program.kinds.trans hlike.program.kinds.symm
  · exact hlike'.program.take_relations.trans hlike.program.take_relations.symm
  · rw [hrows, hrows']
    exact hn.perm_rows hn' hcuts
  · rw [hrows, hrows']
    have hcarries := hfresh.carries
    have hsame : SameCuts n₀.model.program.constraints.size n₀ n₀ := ⟨rfl, rfl, rfl, rfl⟩
    have hfirst : SameCuts n₀.model.program.constraints.size n
        (performAll engine (calls.filter Call.installs) ⟨u', n₀⟩).part :=
      sameCuts_performAll hwell hspares hcarries hcarries hsame calls
    have hsecond : SameCuts n₀.model.program.constraints.size n'
        (performAll engine (calls'.filter Call.installs) ⟨u', n₀⟩).part :=
      sameCuts_performAll hwell hspares hcarries hcarries hsame calls'
    rw [horder] at hsecond
    exact (hfirst.trans hsecond.symm).rows

end Node

/-! ## A turbine -/

namespace Turbine

/-- Water is kept or released. The inflow, the yield of a release and how much may be released are
uncertain, and a release is worth the price. -/
def recipe : Recipe ℚ := fun _ _ =>
  [.state "volume" ⟨0, 100, 0, "C"⟩ (.real 10) .absent, .var "release" ⟨0, 9, 0, "C"⟩ .absent,
    .constr "balance" ⟨[("volume", 1), (Statement.copyName "volume", -1), ("release", 1)], .equal, 0⟩
      (.inr [("rhs", .list [.real 0, .real 3, .real 0]),
        ("release", .list [.real 1, .real 2, .real 1])]),
    .parameterize (some [.upper "release" (.name "w")]) (.list [.real 4, .real 5, .real 4])
      (.list [.real 0, .real 1, .real 0]),
    .priceObjective [("release", some (.apply .sub (.constant (.real 0)) (.name "price")))]]

def builder : Builder ℚ := ⟨some 3, recipe, recipe⟩

/-- A price that moves by its noise, with ribs at zero and ten. -/
def pricing : Pricing ℚ :=
  { ribs := [0, 10], dynamics := some (.apply .add (.name "price") (.name "noise")), initial := 5,
    noise := [.real 100, .real 1, .real 100], probability := [0, 1, 0] }

/-- The problem before it is built. Of each distribution only one outcome can happen. -/
def unbuilt : PolicyGraph ℚ :=
  { stages := 3, sense := .minimize, knownBound := .whole (-1000),
    transitions := ⟨[[[1]], [[0, 1, 0]], [[1, 0, 0], [0, 0, 1], [0, 1, 0]]], [1, 3, 3]⟩,
    template := .alongPrice .keepAll pricing }

/-- A node of the second stage. -/
def node : Node ℚ := (unbuilt.newNode builder 1 1).toOption.getD
  ⟨1, 1, false, .single .keepAll, .empty "" .minimize, none⟩

theorem isFresh_node : node.IsFresh := by
  have hnew : (unbuilt.newNode builder 1 1).isOk = true := by decide +kernel
  refine ⟨unbuilt, Or.inl ⟨builder, 1, 1, ?_⟩⟩
  unfold node
  cases h : unbuilt.newNode builder 1 1 with
  | ok n => rfl
  | error e => simp [h, Except.isOk, Except.toBool] at hnew

/-- An engine that answers every program with zeros. -/
def idle : Engine ℚ where
  solve _ _ p := .optimal ⟨0, Array.replicate p.vars.size 0, Array.replicate p.constraints.size 0⟩
  elapsed _ := 0
  interval _ _ := .ok (0, 0)

/-- A lower bound that falls with the volume. -/
def cut (height slope : ℚ) : Cut ℚ :=
  { intercept := height, coefficients := [slope], side := .atLeast }

/-- Settings, of which one is refused and another one breaks off at a price that is too high for the
ribs, a solve, two cuts, and a cut about too many states. -/
def calls : List (Node.Call ℚ) :=
  [.setIncoming [7], .setRealization 2, .setPrice (some 2), .solve none none,
    .installCut (cut 3 (-1)) (some 0) none, .setIncoming [1, 2], .setPrice (some 1000),
    .installCut ⟨0, [1, 1], .atLeast, none, none, none⟩ (some 0) none,
    .installCut (cut 4 (-2)) (some 10) none]

/-- The two cuts in the other order. -/
def cuts : List (Node.Call ℚ) :=
  [.installCut (cut 4 (-2)) (some 10) none, .installCut (cut 3 (-1)) (some 0) none]

end Turbine

/-- A turbine that has been used, and one that has only got the cuts. -/
theorem Node.last_settings_count_turbine :
    let n := (performAll Turbine.idle Turbine.calls ⟨{}, Turbine.node⟩).part
    let n' := (performAll Turbine.idle Turbine.cuts ⟨{}, Turbine.node⟩).part
    (Turbine.node.IsFresh ∧ Turbine.idle.Spares Turbine.node.model.retry ∧
      n'.costToGo.installed = n.costToGo.installed) ∧
    ∃ w w', setUp [7] 1 (some 6) ⟨{}, n⟩ = .ok () w ∧ setUp [7] 1 (some 6) ⟨{}, n'⟩ = .ok () w' ∧
      w.part.model.program.Matches Turbine.node.model.program.constraints.size
        w'.part.model.program := by
  intro n n'
  have hspares : Turbine.idle.Spares Turbine.node.model.retry := by
    have hretry : Turbine.node.model.retry.isNone = true := by decide +kernel
    rw [Option.isNone_iff_eq_none.1 hretry]
    exact Or.inl (by simp)
  have hcuts : n'.costToGo.installed = n.costToGo.installed := by decide +kernel
  obtain ⟨htogether, hagree⟩ := last_settings_count Turbine.isFresh_node hspares Turbine.calls
    Turbine.cuts {} {} hcuts [7] 1 (some 6)
  have hn : succeeds (setUp [7] 1 (some 6)) (⟨{}, n⟩ : Watched (Node ℚ)) = true := by decide +kernel
  obtain ⟨⟨⟩, hw⟩ := exists_eq_ok_final hn
  obtain ⟨⟨⟩, hw'⟩ := exists_eq_ok_final ((htogether {}).trans hn)
  exact ⟨⟨Turbine.isFresh_node, hspares, hcuts⟩, _, _, hw, hw', (hagree _ _ _ _ hw hw').1⟩

end DualDynamic
