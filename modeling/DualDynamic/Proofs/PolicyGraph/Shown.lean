import DualDynamic.Proofs.PolicyGraph.Contingencies
import DualDynamic.Proofs.PolicyGraph.Replay

/-!
# Cuts that are shown

What counts as installed has its row: in every graph that came of one that was built, each cut that a node
has booked on a rib has its row on the variable of this rib, behind the constraints that settings write
to (`Node.ShowsCuts`). Neither solves nor retries reach these rows, and a node that is rebuilt books what it
gives a row. So a cut that a node takes has a row then, whether it got this one now or an equal cut had
got it before (`Node.HasCutRow`).
-/

namespace DualDynamic

open Step LinearProgram

variable {K : Type}

/-! ## Rows of cuts -/

namespace CostToGo

variable [Numeral K] {v : CostToGo K} {m : Subproblem K} {T : ℕ}

/-- From constraint `T` on, the subproblem has the rows of all cuts that are booked. -/
def ShowsBehind (v : CostToGo K) (T : ℕ) (m : Subproblem K) : Prop :=
  ∀ i x, v.vars[i]? = some x → ∀ c ∈ v.installed.getD i [], cutRow x c m ∈ m.program.rowsFrom T

theorem ShowsBehind.withRow {i x : ℕ} (h : v.ShowsBehind T m) (hT : T ≤ m.program.constraints.size)
    (hx : v.vars[i]? = some x) (cut : Cut K) :
    ShowsBehind { v with installed := v.installed.modify i (· ++ [cut]) } T
      (m.withConstraint (cutRow x cut m)) := by
  intro j y hy c hc
  have hrows : (m.withConstraint (cutRow x cut m)).program.rowsFrom T =
      m.program.rowsFrom T ++ [cutRow x cut m] := rowsFrom_addConstraint hT _
  have hrow : cutRow y c (m.withConstraint (cutRow x cut m)) = cutRow y c m := cutRow_congr y c rfl
  rw [hrows, hrow, List.mem_append, List.mem_singleton]
  rcases Node.mem_getD_modify hc with hc | ⟨rfl, rfl⟩
  · exact Or.inl (h j y hy c hc)
  · obtain rfl := Option.some.inj (hx.symm.trans hy)
    exact Or.inr rfl

/-- Behind its own constraints, the subproblem has the rows of all cuts that are booked. -/
def IsShown (v : CostToGo K) (m : Subproblem K) : Prop :=
  ∃ rows, m.WellFormed rows ∧ v.ShowsBehind (rows + m.links.length) m

theorem isShown_of_getD (hm : ∃ rows, m.WellFormed rows) (h : ∀ i, v.installed.getD i [] = []) :
    v.IsShown m :=
  hm.imp fun _ hwell => ⟨hwell, fun i _ _ _ hc => absurd (h i ▸ hc) List.not_mem_nil⟩

theorem IsShown.installRow (h : v.IsShown m) (i : ℕ) (cut : Cut K) :
    (v.installRow i cut m).1.IsShown (v.installRow i cut m).2 := by
  obtain ⟨rows, hwell, hshows⟩ := h
  rcases installRow_cases v i cut m with ⟨heq, -⟩ | ⟨x, hx, heq⟩ <;> rw [heq]
  · exact ⟨rows, hwell, hshows⟩
  · exact ⟨rows, hwell.mono rfl le_rfl (by simp [Subproblem.withConstraint, addConstraint]),
      hshows.withRow hwell.rows hx cut⟩

theorem isShown_rebuild {o : Option (Retry K) × Sense} (hm : m.IsRegular o) {f : Frame K}
    (hf : v.frame = some f) : (v.rebuild m).1.IsShown (v.rebuild m).2 := by
  simp only [rebuild, hf]
  refine installActive_induction (P := IsShown) ?_ fun v' m' i x cut _ h hx _ _ => ?_
  · refine isShown_of_getD (isRegular_withRibVariables hm f _).wellFormed fun i => ?_
    rw [List.getD_eq_getElem?_getD, List.getElem?_replicate]
    split_ifs <;> rfl
  · obtain ⟨rows, hwell, hshows⟩ := h
    exact ⟨rows, hwell.mono rfl le_rfl (by simp [Subproblem.withConstraint, addConstraint]),
      hshows.withRow hwell.rows hx cut⟩

theorem length_vars_rebuild {f : Frame K} (hf : v.frame = some f) (m : Subproblem K) :
    (v.rebuild m).1.vars.length = v.ribCount := by
  simp only [rebuild, hf]
  exact installActive_induction (P := fun v' _ => v'.vars.length = v.ribCount)
    (by simp [nextVariables, ribCount]) fun _ _ _ _ _ _ h _ _ _ => h

end CostToGo

/-! ## What settings, solves and retries do not reach -/

namespace Node

variable [Numeral K] {n n' : Node K} {rows : ℕ}

omit [Numeral K] in
/-- All that settings and retries write to stands in front of the rows of cuts. -/
theorem isWithin_links (hwell : n.model.WellFormed rows) :
    ∀ d ∈ n.cells ∪ n.model.retryCells, d.IsWithin (rows + n.model.links.length) := by
  have hrhs : ∀ c < rows, (Cell.rhs c).IsWithin (rows + n.model.links.length) :=
    fun c hc => Cell.isWithin_rhs.2 (by omega)
  have hcoefficient : ∀ c i, c < rows → i < n.model.program.vars.size →
      (Cell.coefficient c i).IsWithin (rows + n.model.links.length) :=
    fun c i hc _ => Cell.isWithin_coefficient.2 (by omega)
  rintro d ((⟨c, hc, rfl⟩ | hd | hd | hd) | ⟨r, -, a, -, hd⟩)
  · rw [hwell.links] at hc
    obtain ⟨j, hj, rfl⟩ := List.mem_map.1 hc
    have hj := List.mem_range.1 hj
    exact Cell.isWithin_rhs.2 (by omega)
  · exact hwell.forall_cells (P := fun d => d.IsWithin (rows + n.model.links.length)) hrhs
      (by simp) (by simp) (by simp) hcoefficient d (Or.inl hd)
  · exact hwell.forall_cells (P := fun d => d.IsWithin (rows + n.model.links.length)) hrhs
      (by simp) (by simp) (by simp) hcoefficient d (Or.inr hd)
  · split_ifs at hd
    · exact hd.elim
    · obtain ⟨i, -, rfl⟩ := hd
      exact Cell.isWithin_cost
  · exact hwell.forall_actionCells (P := fun d => d.IsWithin (rows + n.model.links.length)) hrhs
      (by simp) (by simp) (by simp) hcoefficient a d hd

/-- Rows of cuts stay where they are, whatever settings and retries write. -/
theorem isShown_of_touches (h : n.costToGo.IsShown n.model)
    (htouches : Touches (n.cells ∪ n.model.retryCells) n n') : n'.costToGo.IsShown n'.model := by
  obtain ⟨rows, hwell, hshows⟩ := h
  have hrows : n'.model.program.rowsFrom (rows + n.model.links.length) =
      n.model.program.rowsFrom (rows + n.model.links.length) := by
    rcases htouches.program with hsame | ⟨f, d, hd, hf, hwrite⟩
    · exact congrArg (rowsFrom _) hsame
    · exact (congrArg (rowsFrom _) hwrite).trans (rowsFrom_write hf (isWithin_links hwell d hd) _)
  have hext : Extends Set.univ n n' := isBlind_extends (Set.subset_univ _) n n n' htouches (.refl _ n)
  obtain ⟨m, price, houtline, rfl⟩ := exists_of_rest htouches.rest
  have hprogram := hext.program
  refine ⟨rows, hwell.mono houtline hprogram.vars.ge hprogram.rows, fun i x hx c hc => ?_⟩
  obtain ⟨p, r, t, s, rfl⟩ := Subproblem.exists_of_outline houtline
  have hrow := hshows i x hx c hc
  rw [← hrows] at hrow
  exact hrow

end Node

/-! ## Nodes that show their cuts -/

/-- An open node with room for rows that has variables as long as it is not one of the last stage, and the
rows of all cuts that it has booked. -/
structure Node.ShowsCuts [Numeral K] (g : PolicyGraph K) (d t k : ℕ) (n : Node K) : Prop where
  isOpen : n.IsOpen g d t k
  hasRoom : n.HasRoom t k
  idle : n.isTerminal = true → n.costToGo.vars = []
  vars : n.isTerminal = false → n.costToGo.vars.length = n.costToGo.ribCount
  shown : n.costToGo.IsShown n.model

namespace PolicyGraph

variable [Numeral K] {g g₀ unbuilt : PolicyGraph K} {d : ℕ}

theorem unreached_showsCuts (g : PolicyGraph K) (d : ℕ) : Unreached (Node.ShowsCuts g d) where
  placed _ _ _ h := ⟨h.isOpen.stage, h.isOpen.markov⟩
  wellFormed h := h.shown.imp fun _ hs => hs.1
  touches h htouches := by
    have hshown := Node.isShown_of_touches h.shown htouches
    obtain ⟨m, price, houtline, rfl⟩ := Node.exists_of_rest htouches.rest
    exact ⟨h.isOpen.withModel houtline price, { h.hasRoom with }, h.idle, h.vars, hshown⟩

/-- A cut that is installed gets its row behind the others. -/
theorem showsCuts_installCut {t k : ℕ} {n n' : Node K} {cut : Cut K} {rib : Option K}
    {x : Option (Datum K)} {new : Bool} (hn : n.ShowsCuts g d t k)
    (h : n.installCut cut rib x = .ok (new, n')) : n'.ShowsCuts g d t k := by
  have hopen := (accepts_isOpen g d).installCut hn.isOpen trivial h
  have hroom := isLasting_hasRoom.accepts.installCut hn.hasRoom trivial h
  obtain ⟨v, m, -, hinstall, rfl⟩ := Node.installCut_eq_ok.1 h
  obtain ⟨-, i, pool, pool', -, -, -, hrow⟩ := CostToGo.installCut_eq_ok hinstall
  have hbefore : CostToGo.IsShown { n.costToGo with pools := n.costToGo.pools.set i pool' } n.model :=
    hn.shown
  have hshown := hbefore.installRow i cut
  obtain ⟨installed, hfst, -⟩ := CostToGo.exists_installRow
    { n.costToGo with pools := n.costToGo.pools.set i pool' } i cut n.model
  rw [← hrow] at hshown hfst
  obtain rfl : v = _ := hfst
  exact ⟨hopen, hroom, hn.idle, hn.vars, hshown⟩

/-- A node that is built again has a row for each cut that it books. -/
theorem showsCuts_rebuilt {g' : PolicyGraph K} {t k : ℕ} {n n' : Node K} (hn : n.ShowsCuts g d t k)
    (h : g'.rebuilt n = .ok n') : n'.ShowsCuts g d t k := by
  have hopen := isOpen_rebuilt hn.isOpen h
  have hroom := isLasting_hasRoom.rebuilt hn.hasRoom h
  obtain ⟨b, m, -, hm, -, rfl⟩ := rebuilt_eq_ok h
  obtain ⟨rows, hlinked⟩ := isLinked_newModel hm
  by_cases hterminal : n.isTerminal = true
  · rw [if_pos hterminal] at hopen hroom ⊢
    have hidle := hn.idle hterminal
    exact ⟨hopen, hroom, fun _ => hidle, hn.vars, rows, hlinked.wellFormed,
      fun i x hx => by simp [hidle] at hx⟩
  · rw [if_neg hterminal] at hopen hroom ⊢
    obtain ⟨bound, hframe⟩ := hn.isOpen.frame (eq_false_of_ne_true hterminal)
    have hpricing := (isSound_rebuild (v := n.costToGo) hlinked.isRegular).2.1
    have hcount : (n.costToGo.rebuild m).1.ribCount = n.costToGo.ribCount := by
      rw [CostToGo.ribCount, hpricing, CostToGo.ribCount]
    exact ⟨hopen, hroom, fun hlast => absurd hlast hterminal,
      fun _ => (CostToGo.length_vars_rebuild hframe m).trans hcount.symm,
      CostToGo.isShown_rebuild hlinked.isRegular hframe⟩

theorem isLasting_showsCuts (g : PolicyGraph K) (d : ℕ) : IsLasting (Node.ShowsCuts g d) where
  steady _ := (unreached_showsCuts g d).steady
  accepts := {
    placed := (unreached_showsCuts g d).placed
    installCut := fun hn _ h => showsCuts_installCut hn h }
  rebuilt hn h := showsCuts_rebuilt hn h
  retry r hn := {
    isOpen := (isLasting_isOpen g d).retry r hn.isOpen
    hasRoom := isLasting_hasRoom.retry r hn.hasRoom
    idle := hn.idle
    vars := hn.vars
    shown := by
      obtain ⟨rows, hwell, hshows⟩ := hn.shown
      exact ⟨rows, { hwell with }, hshows⟩ }

/-- Nodes are built without cuts. -/
theorem exists_showsCuts_build {b : Builder K} (h : build b unbuilt = .ok () g₀) :
    ∃ d, Holds g₀.frame (Node.ShowsCuts g₀ d) g₀ := by
  obtain ⟨d, hopen⟩ := exists_isOpen_build h
  have hroom := hasRoom_build h
  refine ⟨d, rfl, fun t k n hn => ?_⟩
  have hnopen := hopen.nodes t k n hn
  have hnroom := hroom.nodes t k n hn
  obtain ⟨m, hm, ⟨-, rfl⟩ | ⟨-, f, -, rfl⟩⟩ := newNode_eq_ok (newNode_of_build h hn).2 <;>
  obtain ⟨rows, hlinked⟩ := isLinked_newModel hm
  · exact ⟨hnopen, hnroom, fun _ => rfl, by simp,
      CostToGo.isShown_of_getD ⟨rows, hlinked.wellFormed⟩ fun _ => rfl⟩
  · refine ⟨hnopen, hnroom, by simp, fun _ => CostToGo.length_vars_started .., ?_⟩
    exact CostToGo.isShown_of_getD
      (CostToGo.isRegular_withRibVariables hlinked.isRegular _ _).wellFormed
      (CostToGo.getD_installed_started _ f m)

/-- So all nodes show their cuts, in all graphs that came of one that was built. -/
theorem exists_showsCuts_reached {b : Builder K} (h : build b unbuilt = .ok () g₀) :
    ∃ d, ∀ g, Reaches g₀ g → Holds g.frame (Node.ShowsCuts g₀ d) g := by
  obtain ⟨d, hg₀⟩ := exists_showsCuts_build h
  exact ⟨d, fun g hreach => ((isLasting_showsCuts g₀ d).of_reaches hg₀ hreach).1⟩

end PolicyGraph

/-! ## Cuts that have rows -/

section Exact

variable [ExactNumeral K]

/-- Cuts that are the same have the same row. -/
theorem CostToGo.cutRow_of_same {c d : Cut K} (h : c.same d = true) (x : ℕ) (m : Subproblem K) :
    cutRow x d m = cutRow x c m := by
  obtain ⟨hside, hintercept, hcoefficients⟩ := Cut.same_iff.1 h
  rw [cutRow, cutRow, hside, hintercept, hcoefficients]

namespace Node

variable {g : PolicyGraph K} {d t k : ℕ} {n : Node K} {rib : Option K} {cut : Cut K}

/-- The program of a node has the row of a cut, on the variable of a rib. -/
def HasCutRow (n : Node K) (rib : Option K) (cut : Cut K) : Prop :=
  ∃ i x, n.costToGo.ribIndex rib = .ok i ∧ n.costToGo.vars[i]? = some x ∧
    CostToGo.cutRow x cut n.model ∈ n.model.program.constraints

/-- A cut that was taken has its row. -/
theorem ShowsCuts.hasCutRow (h : n.ShowsCuts g d t k) (hterminal : n.isTerminal = false)
    (hcut : n.costToGo.HasCut rib cut) : n.HasCutRow rib cut := by
  obtain ⟨i, pool, hrib, hpool, -, hinstalled⟩ := hcut.place
  have hlt : i < n.costToGo.vars.length := by
    rw [h.vars hterminal, ← h.isOpen.pools hterminal]
    exact (List.getElem?_eq_some_iff.1 hpool).1
  obtain ⟨x, hx⟩ : ∃ x, n.costToGo.vars[i]? = some x := ⟨_, List.getElem?_eq_getElem hlt⟩
  obtain ⟨c, hc, hsame⟩ := List.any_eq_true.1 (hinstalled.resolve_left (by simp [hx]))
  obtain ⟨rows, -, hshows⟩ := h.shown
  refine ⟨i, x, hrib, hx, ?_⟩
  rw [← CostToGo.cutRow_of_same hsame]
  exact Array.mem_def.2 (List.mem_of_mem_drop (hshows i x hx c hc))

end Node

end Exact

end DualDynamic
