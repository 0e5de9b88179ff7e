import DualDynamic.Proofs.LinearProgram.Embedding
import DualDynamic.Proofs.Subproblem.Setup

/-!
# Decisions

A subproblem as it is stated, without any cost-to-go, asks for a decision: a feasible point of its
program, set up for an incoming state and a realization. With a cost of what comes behind, as a
function of the outgoing state, decisions have costs (`Subproblem.costs`).

The programs that are solved are larger: they have variables that stand for the cost of what comes
behind, and rows of cuts. Set up for the same realization, the stated program is embedded in the
larger one, except that the links may hold another state (`embeds_of_isSetUp`).
-/

namespace DualDynamic

open Step LinearProgram

variable {K : Type} [ExactNumeral K]

namespace Subproblem

/-! ## The cells of a well-formed subproblem -/

/-- All cells that setting a subproblem up writes to. -/
def cells (m : Subproblem K) : Set Cell := m.incomingCells ∪ (m.noiseCells ∪ m.priceCells)

variable {m m' : Subproblem K} {n : ℕ}

section Sources

variable (h : WellFormed n m) {P : Cell → Prop} (hrhs : ∀ c < n, P (.rhs c))
  (hcost : ∀ i < m.program.vars.size, P (.cost i))
  (hlower : ∀ i < m.program.vars.size, P (.lower i))
  (hupper : ∀ i < m.program.vars.size, P (.upper i))
  (hcoefficient : ∀ c i, c < n → i < m.program.vars.size → P (.coefficient c i))
include h hrhs hcost hlower hupper hcoefficient

omit [ExactNumeral K] in
/-- A property of the cells that an action writes to, kind by kind. -/
theorem WellFormed.forall_actionCells (a : Action K) : ∀ d ∈ m.actionCells a, P d := by
  have hrow : ∀ {name c}, m.constraintNamed name = .ok c → c < n := by
    intro name c hc
    obtain ⟨e, he, rfl⟩ := lookup_mem (constraintNamed_eq_ok.1 hc)
    exact h.constraintNames e he
  have hvar : ∀ {name i}, m.variableNamed name = .ok i → i < m.program.vars.size := by
    intro name i hi
    obtain ⟨e, he, rfl⟩ := lookup_mem (variableNamed_eq_ok.1 hi)
    exact h.variableNames e he
  intro d hd
  cases a with
  | rhs c rule =>
    obtain ⟨i, hi, rfl⟩ := hd
    exact hrhs i (hrow hi)
  | cost v rule =>
    obtain ⟨i, hi, rfl⟩ := hd
    exact hcost i (hvar hi)
  | lower v rule =>
    obtain ⟨i, hi, rfl⟩ := hd
    exact hlower i (hvar hi)
  | upper v rule =>
    obtain ⟨i, hi, rfl⟩ := hd
    exact hupper i (hvar hi)
  | coefficient c v rule =>
    obtain ⟨j, i, hj, hi, rfl⟩ := hd
    exact hcoefficient j i (hrow hj) (hvar hi)
  | interruptAt k => exact hd.elim

omit [ExactNumeral K] in
/-- A property of the cells that a setting writes to, source by source. -/
theorem WellFormed.forall_cells : ∀ d ∈ m.noiseCells ∪ m.priceCells, P d := by
  rintro d ((⟨e, he, rfl⟩ | ⟨x, hx, i, hi, rfl⟩ | ⟨x, hx, i, hi, rfl⟩ | ⟨q, -, a, -, hd⟩) |
    ⟨e, he, rfl⟩)
  · exact hcoefficient _ _ (h.coefficientNoise e he).1 (h.coefficientNoise e he).2
  · exact hrhs i ((h.rhsNoise x hx).2 i hi)
  · exact hcost i ((h.costNoise x hx).2 i hi)
  · exact h.forall_actionCells hrhs hcost hlower hupper hcoefficient a d hd
  · exact hcost _ (h.priceObjective e he)

end Sources

omit [ExactNumeral K] in
theorem WellFormed.isAmong (h : WellFormed n m) :
    ∀ d ∈ m.noiseCells ∪ m.priceCells, d.IsAmong m.program.vars.size :=
  h.forall_cells (by simp) (by simp) (by simp) (by simp) (by simp)

omit [ExactNumeral K] in
theorem WellFormed.isWithin (h : WellFormed n m) :
    ∀ d ∈ m.noiseCells ∪ m.priceCells, d.IsWithin m.program.constraints.size := by
  have hn : n ≤ m.program.constraints.size := le_of_add_le_left h.rows
  exact h.forall_cells (by simpa using fun c hc => lt_of_lt_of_le hc hn) (by simp) (by simp)
    (by simp) fun c i hc _ => by simpa using lt_of_lt_of_le hc hn

omit [ExactNumeral K] in
theorem WellFormed.le_of_mem_links (h : WellFormed n m) {c : ℕ} (hc : c ∈ m.links) : n ≤ c := by
  rw [h.links] at hc
  obtain ⟨j, -, rfl⟩ := List.mem_map.1 hc
  omega

omit [ExactNumeral K] in
/-- No noise writes to a link. -/
theorem WellFormed.rhs_notMem (h : WellFormed n m) {c : ℕ} (hc : c ∈ m.links) :
    Cell.rhs c ∉ m.noiseCells ∪ m.priceCells := fun hmem =>
  h.forall_cells (P := fun d => d ≠ .rhs c) (fun _ hlt heq =>
    absurd (h.le_of_mem_links hc) (not_le.2 (Cell.rhs.inj heq ▸ hlt))) (by simp) (by simp) (by simp)
    (by simp) _ hmem rfl

omit [ExactNumeral K] in
/-- No action does. -/
theorem WellFormed.rhs_notMem_actionCells (h : WellFormed n m) {c : ℕ} (hc : c ∈ m.links)
    (a : Action K) : Cell.rhs c ∉ m.actionCells a := fun hmem =>
  h.forall_actionCells (P := fun d => d ≠ .rhs c) (fun _ hlt heq =>
    absurd (h.le_of_mem_links hc) (not_le.2 (Cell.rhs.inj heq ▸ hlt))) (by simp) (by simp) (by simp)
    (by simp) a _ hmem rfl

omit [ExactNumeral K] in
theorem WellFormed.nodup_links (h : WellFormed n m) : m.links.Nodup := by
  rw [h.links]
  exact (List.nodup_range).map fun i j hij => by omega

/-! ## The incoming state -/

/-- The links hold a state. -/
def IsAt (m : Subproblem K) (x : List K) : Prop :=
  ∀ i c : ℕ, m.links[i]? = some c → m.program.read (.rhs c) = x[i]?

theorem read_writeAll_of_notMem {targets : List ℕ} (values : List K) {p : LinearProgram K} {c : ℕ}
    (hc : c ∉ targets) : (writeAll setRhs targets values p).read (.rhs c) = p.read (.rhs c) := by
  induction targets generalizing values p with
  | nil => rfl
  | cons t targets ih =>
    obtain ⟨hct, hctargets⟩ := not_or.1 fun h => hc (List.mem_cons.2 h)
    cases values with
    | nil => rfl
    | cons x values =>
      have hstep : writeAll setRhs (t :: targets) (x :: values) p =
          writeAll setRhs targets values (p.setRhs t x) := rfl
      rw [hstep, ih _ hctargets]
      exact (writesCell_setRhs t x).other p _ fun h => hct (Cell.rhs.inj h)

theorem read_writeAll {targets : List ℕ} (hnodup : targets.Nodup) {values : List K}
    {p : LinearProgram K} (hwithin : ∀ c ∈ targets, c < p.constraints.size) {i c : ℕ} {x : K}
    (hc : targets[i]? = some c) (hx : values[i]? = some x) :
    (writeAll setRhs targets values p).read (.rhs c) = some x := by
  induction targets generalizing values p i with
  | nil => simp at hc
  | cons t targets ih =>
    obtain ⟨ht, hnodup⟩ := List.nodup_cons.1 hnodup
    cases values with
    | nil => simp at hx
    | cons y values =>
      have hstep : writeAll setRhs (t :: targets) (y :: values) p =
          writeAll setRhs targets values (p.setRhs t y) := rfl
      rw [hstep]
      cases i with
      | zero =>
        obtain rfl := Option.some.inj hc
        obtain rfl := Option.some.inj hx
        rw [read_writeAll_of_notMem _ ht]
        exact read_setRhs_self t y p (hwithin t (by simp))
      | succ i =>
        refine ih hnodup (fun c hc => ?_) hc hx
        rw [Extends.size_write (writesCell_setRhs t y)]
        exact hwithin c (by simp [hc])

/-- A state that was written is there. -/
theorem isAt_of_setIncoming (h : WellFormed n m) {x : List K} {w w' : Watched (Subproblem K)}
    (hw : w.part.outline = m.outline) (hrows : m.program.constraints.size ≤
      w.part.program.constraints.size) (hrun : setIncoming x w = .ok () w') : w'.part.IsAt x := by
  obtain ⟨p, r, t, s, hpart⟩ := exists_of_outline hw
  have hlinks : w.part.links = m.links := by rw [hpart]
  rw [setIncoming, Run.part_bind_apply] at hrun
  split_ifs at hrun with hempty hlength
  · cases hrun
    intro i c hc
    rw [List.isEmpty_iff.1 hempty] at hc
    simp at hc
  · cases hrun
  · cases hrun
    have hlength : x.length = w.part.links.length := by simpa using hlength
    intro i c hc
    have hlt : i < x.length := hlength ▸ (List.getElem?_eq_some_iff.1 hc).1
    rw [List.getElem?_eq_getElem hlt]
    refine read_writeAll (hlinks ▸ h.nodup_links) (fun c hc => ?_) hc (List.getElem?_eq_getElem hlt)
    exact (h.lt_of_mem_links (hlinks ▸ hc)).trans_le hrows

omit [ExactNumeral K] in
/-- A state that was written is long enough. -/
theorem length_of_setIncoming [Numeral K] {x : List K} {w w' : Watched (Subproblem K)}
    (hrun : setIncoming x w = .ok () w') : w.part.links.length ≤ x.length := by
  rw [setIncoming, Run.part_bind_apply] at hrun
  split_ifs at hrun with hempty hlength
  · simp [List.isEmpty_iff.1 hempty]
  · cases hrun
  · have hlength : x.length = w.part.links.length := by simpa using hlength
    exact hlength.ge

/-- What does not write to links leaves the state there. -/
theorem isBlind_isAt {C : Set Cell} (hC : ∀ c ∈ m.links, Cell.rhs c ∉ C) (x : List K) :
    IsBlind C fun m' : Subproblem K => m'.outline = m.outline ∧ m'.IsAt x := by
  rintro t t' ⟨hrest, hprogram⟩ ⟨houtline, hat⟩
  have hrest : t'.outline = t.outline := hrest
  refine ⟨hrest.trans houtline, fun i c hc => ?_⟩
  have hlinks : ∀ t : Subproblem K, t.outline = m.outline → t.links = m.links := by
    intro t ht
    obtain ⟨p, r, u, s, rfl⟩ := exists_of_outline ht
    rfl
  rw [hlinks t' (hrest.trans houtline)] at hc
  rw [← hat i c (hlinks t houtline ▸ hc)]
  rcases hprogram with hsame | ⟨f, d, hd, hf, hwrite⟩
  · exact congrArg (fun p => LinearProgram.read p (.rhs c)) hsame
  · have hother := hf.other t.program (.rhs c) fun heq =>
      hC c (List.mem_of_getElem? hc) (heq ▸ hd)
    exact (congrArg (fun p => LinearProgram.read p (.rhs c)) hwrite).trans hother

/-! ## Setting up -/

/-- Sets a subproblem up for an incoming state and a realization. -/
def settings (x : List K) (k : ℕ) : Run K (Subproblem K) Unit :=
  setIncoming x >>= fun _ => setRealization k >>= fun _ => setPrice none

/-- The subproblem has this program when it is set up for an incoming state and a realization. -/
def IsSetUp (m : Subproblem K) (x : List K) (k : ℕ) (p : LinearProgram K) : Prop :=
  ∃ i w, settings x k ⟨i, m⟩ = .ok () w ∧ w.part.program = p

/-- The costs of the decisions for an incoming state and a realization, each with a cost of what
comes behind its outgoing state. -/
def costs (m : Subproblem K) (behind : List K → Set K) (x : List K) (k : ℕ) : Set K :=
  {c | ∃ p y f, m.IsSetUp x k p ∧ p.Feasible y ∧ f ∈ behind (m.states.map y) ∧
    p.objective y + f = c}

/-- The steps of a setting that follow the incoming state. -/
theorem sets_realization (h : WellFormed n m) (k : ℕ) :
    Sets m (m.noiseCells ∪ m.priceCells) (setRealization k >>= fun _ => setPrice none) :=
  (sets_setRealization h k).bind fun _ => sets_setPrice none

/-- A program that is embedded in another one is so while the same is written to both. -/
theorem isSimulation_embeds {C : Set Cell} (hC : ∀ d ∈ C, d.IsAmong m.program.vars.size)
    (D : Set Cell) : IsSimulation m C fun W t t' => Extends Set.univ m t ∧
      t'.outline = m.outline ∧ Embeds (D \ W) t.program t'.program where
  outline h := ⟨h.1.outline, h.2.1⟩
  same {W t t' u u'} h hu hu' := by
    have hleft : u.program = t.program := hu.program
    have hright : u'.program = t'.program := hu'.program
    exact ⟨isBlind_extends (Set.empty_subset _) m t u ⟨hu.rest, Or.inl hu.program⟩ h.1,
      Eq.trans hu'.rest h.2.1, hleft ▸ hright ▸ h.2.2⟩
  write {W t t' u u' f d} h hd hwithin hf hu hu' := by
    have hleft : u.program = f t.program := hu.program
    have hright : u'.program = f t'.program := hu'.program
    refine ⟨isBlind_extends (Set.subset_univ _) m t u
      ⟨hu.rest, Or.inr ⟨f, d, rfl, hf, hu.program⟩⟩ h.1, Eq.trans hu'.rest h.2.1, ?_⟩
    rw [hleft, hright, ← Set.union_singleton, ← Set.sdiff_sdiff]
    have hvars : t.program.vars.size = m.program.vars.size := h.1.program.vars
    exact h.2.2.write_both hf (hwithin.mono h.1.program.rows) (hvars ▸ hC d hd)

/-- A program that was set up has the shape of the one before, and its links hold the state. -/
structure IsSetUp.Like (m : Subproblem K) (x : List K) (p : LinearProgram K) : Prop where
  shape : LinearProgram.Extends Set.univ m.program p
  links : ∀ i c : ℕ, m.links[i]? = some c → p.read (.rhs c) = x[i]?

section SetUp

variable (h : WellFormed n m) {x : List K} {k : ℕ} {p : LinearProgram K} (hp : m.IsSetUp x k p)
include h hp

/-- What a setting comes to, in two parts. -/
theorem IsSetUp.exists_incoming {q : LinearProgram K} (hq : Embeds m.cells m.program q) :
    ∃ v w, Extends Set.univ m v.part ∧ v.part.IsAt x ∧ Embeds m.cells v.part.program q ∧
      (setRealization k >>= fun _ => setPrice none) v = .ok () w ∧ w.part.program = p := by
  obtain ⟨i, w, hrun, rfl⟩ := hp
  obtain ⟨⟨⟩, v, hincoming, hrest⟩ := bind_eq_ok.1 hrun
  have hkeeps := (sets_setIncoming h x).keeps
    (fun t => Extends Set.univ m t ∧ Embeds m.cells t.program q) (fun t t' htouches ht => ?_)
    (fun t ht => ht.1.outline)
  · have hv := hkeeps.of_ok (s := ⟨i, m⟩) ⟨.refl _ m, hq⟩ hincoming
    exact ⟨v, w, hv.1, isAt_of_setIncoming h rfl le_rfl hincoming, hv.2, hrest, rfl⟩
  · refine ⟨isBlind_extends (Set.subset_univ _) m t t' htouches ht.1, ?_⟩
    rcases htouches.program with hsame | ⟨f, d, hd, hf, hwrite⟩
    · exact (show t'.program = t.program from hsame) ▸ ht.2
    · have hprogram : t'.program = f t.program := hwrite
      exact hprogram ▸ ht.2.write_left hf (Set.mem_union_left _ hd)

theorem IsSetUp.like (hterms : ∀ r ∈ m.program.constraints, ∀ t ∈ r.terms,
    t.1 < m.program.vars.size) : IsSetUp.Like m x p := by
  obtain ⟨v, w, hv, hat, -, hrun, rfl⟩ := hp.exists_incoming h (.refl hterms _)
  have hlinks := (sets_realization h k).keeps _ (isBlind_isAt (fun c hc => h.rhs_notMem hc) x)
    (fun t ht => ht.1)
  have hextends := (sets_realization h k).keeps _ (isBlind_extends (Set.subset_univ _) m)
    (fun t ht => ht.outline)
  have hw := hlinks.of_ok ⟨hv.outline, hat⟩ hrun
  have hlike : w.part.links = m.links := by
    obtain ⟨p, r, u, s, heq⟩ := exists_of_outline hw.1
    rw [heq]
  exact ⟨(hextends.of_ok hv hrun).program, fun i c hc => hw.2 i c (hlike ▸ hc)⟩

/-- A larger program that is set up for the same realization agrees but for the links. -/
theorem embeds_of_isSetUp {v w : Watched (Subproblem K)} (hv : v.part.outline = m.outline)
    (hembeds : Embeds m.cells m.program v.part.program)
    (hrun : (setRealization k >>= fun _ => setPrice none) v = .ok () w) :
    Embeds m.incomingCells p w.part.program := by
  obtain ⟨v₀, w₀, hv₀, -, hembeds₀, hrun₀, rfl⟩ := hp.exists_incoming h hembeds
  have hsimulates := (sets_realization h k).simulates _
    (isSimulation_embeds h.isAmong m.cells) ∅ v₀ v
    ⟨hv₀, hv, by rwa [Set.sdiff_empty]⟩ () w₀ hrun₀ () w hrun
  refine hsimulates.2.2.2.mono ?_
  rw [Set.empty_union, cells, Set.union_sdiff_right]
  exact Set.sdiff_subset

end SetUp

end Subproblem

end DualDynamic
