import DualDynamic.Proofs.PolicyGraph.Bound
import DualDynamic.Proofs.PolicyGraph.Dimensions

/-!
# Chains of transition matrices

The check of transition matrices walks along the list with one number, the rows that the next matrix has
to have. What it accepts is a chain (`IsStochastic`): the widths of the matrices are the heights of
the next ones, and each row is a distribution up to the fourth decimal. A row that sums to one
is not empty, so that by induction along the chain no matrix has a width of zero.

A graph takes its Markov states from the widths and looks up its transitions by stage and Markov state
without a further check. In a graph that was built on an accepted chain, and in all that becomes of it,
these lookups find what they should (`transitions_are_followed`).
-/

namespace DualDynamic

open Step

variable {K : Type}

/-! ## Matrices as blocks -/

namespace Block

/-- The number of rows of a block of dimension two. -/
def height (b : Block K) : ℕ := b.shape.getD 0 0

/-- The number of columns. -/
def width (b : Block K) : ℕ := b.shape.getD 1 0

theorem shape_eq {b : Block K} (h : b.shape.length = 2) : b.shape = [b.height, b.width] := by
  obtain ⟨n, w, hshape⟩ := List.length_eq_two.1 h
  simp [height, width, hshape]

theorem mem_of_mem_rowsOf {width n : ℕ} {xs row : List K} (h : row ∈ rowsOf width n xs) {x : K}
    (hx : x ∈ row) : x ∈ xs := by
  induction n generalizing xs with
  | zero => simp [rowsOf] at h
  | succ n ih =>
    rcases List.mem_cons.1 h with rfl | h
    · exact List.mem_of_mem_take hx
    · exact List.mem_of_mem_drop (ih h)

/-- The rows hold entries of the block. -/
theorem mem_of_mem_rows {b : Block K} {row : List K} (h : row ∈ b.rows) {x : K} (hx : x ∈ row) :
    x ∈ b.entries := by
  unfold rows at h
  split at h
  · exact mem_of_mem_rowsOf h hx
  · cases h

end Block

namespace Transitions

variable [ExactNumeral K]

/-- A block is a matrix with so many rows, no negative entry and rows that sum to one, to the fourth
decimal. -/
structure IsStage (rows : ℕ) (b : Block K) : Prop where
  flat : b.shape.length = 2
  height : b.height = rows
  nonneg : ∀ x ∈ b.entries, 0 ≤ x
  total : ∀ row ∈ b.rows, Scalar.roundFour row.sum = 1

/-- Blocks are the matrices of a chain, the first of which has so many rows: each further one has a row for
every column of the one before it. -/
structure IsStochastic (rows : ℕ) (blocks : List (Block K)) : Prop where
  flat : ∀ b ∈ blocks, b.shape.length = 2
  first : ∀ b ∈ blocks.head?, b.height = rows
  next : blocks.IsChain fun a b => b.height = a.width
  nonneg : ∀ b ∈ blocks, ∀ x ∈ b.entries, 0 ≤ x
  total : ∀ b ∈ blocks, ∀ row ∈ b.rows, Scalar.roundFour row.sum = 1

theorem isStochastic_nil (rows : ℕ) : IsStochastic rows ([] : List (Block K)) where
  flat := by simp
  first := by simp
  next := List.isChain_nil
  nonneg := by simp
  total := by simp

theorem isStochastic_cons {rows : ℕ} {b : Block K} {blocks : List (Block K)} :
    IsStochastic rows (b :: blocks) ↔ IsStage rows b ∧ IsStochastic b.width blocks := by
  constructor
  · intro h
    obtain ⟨hnext, hrest⟩ := List.isChain_cons.1 h.next
    have hmem : ∀ c ∈ blocks, c ∈ b :: blocks := fun c hc => List.mem_cons_of_mem b hc
    exact ⟨⟨h.flat b (by simp), h.first b rfl, h.nonneg b (by simp), h.total b (by simp)⟩,
      ⟨fun c hc => h.flat c (hmem c hc), hnext, hrest, fun c hc => h.nonneg c (hmem c hc),
        fun c hc => h.total c (hmem c hc)⟩⟩
  · rintro ⟨hb, h⟩
    exact ⟨List.forall_mem_cons.2 ⟨hb.flat, h.flat⟩, fun c hc => by cases hc; exact hb.height,
      List.isChain_cons.2 ⟨h.first, h.next⟩, List.forall_mem_cons.2 ⟨hb.nonneg, h.nonneg⟩,
      List.forall_mem_cons.2 ⟨hb.total, h.total⟩⟩

/-! ## The check -/

variable {stage rows : ℕ} {d : Datum K} {b : Block K} {items : List (Datum K)} {blocks : List (Block K)}

/-- A block without negative entries has rows that are accepted if they sum to one. -/
theorem all_isDistribution_iff (hnonneg : ∀ x ∈ b.entries, 0 ≤ x) :
    b.rows.all Probability.isDistribution = true ↔ ∀ row ∈ b.rows, Scalar.roundFour row.sum = 1 := by
  rw [List.all_eq_true]
  refine forall₂_congr fun row hrow => ?_
  rw [Probability.isDistribution_iff, Scalar.roundFour_eq_one]
  exact and_iff_right fun x hx => hnonneg x (Block.mem_of_mem_rows hrow hx)

/-- What a block comes to that has two dimensions. -/
theorem checkMatrix_of_shape {n w : ℕ} (hd : d.block = .ok b) (hshape : b.shape = [n, w]) :
    checkMatrix stage rows d =
      if n ≠ rows then .error (.transition (.shape stage))
      else if ∃ x ∈ b.entries, x < 0 then .error (.transition .negative)
      else if b.rows.all Probability.isDistribution then .ok (b.rows, w)
      else .error (.transition .total) := by
  have hany : (b.entries.any fun x => Scalar.lt x Scalar.zero) = true ↔ ∃ x ∈ b.entries, x < 0 := by
    simp
  rw [checkMatrix, hd]
  simp only [Except.mapError, bind, Except.bind, hshape, bne_iff_ne, hany]
  split_ifs <;> rfl

/-- A block passes exactly if it is the next matrix of the chain, and is refused as such otherwise. -/
theorem checkMatrix_block (stage rows : ℕ) (hd : d.block = .ok b) :
    (IsStage rows b → checkMatrix stage rows d = .ok (b.rows, b.width)) ∧
      (¬ IsStage rows b → ∃ why, checkMatrix stage rows d = .error (.transition why)) := by
  by_cases hflat : b.shape.length = 2
  · rw [checkMatrix_of_shape hd (Block.shape_eq hflat)]
    by_cases hheight : b.height = rows
    · by_cases hnonneg : ∀ x ∈ b.entries, 0 ≤ x
      · have hnone : ¬ ∃ x ∈ b.entries, x < 0 := by simpa using hnonneg
        rw [if_neg (not_not.2 hheight), if_neg hnone]
        by_cases htotal : ∀ row ∈ b.rows, Scalar.roundFour row.sum = 1
        · rw [if_pos ((all_isDistribution_iff hnonneg).2 htotal)]
          exact ⟨fun _ => rfl, fun h => absurd ⟨hflat, hheight, hnonneg, htotal⟩ h⟩
        · rw [if_neg (mt (all_isDistribution_iff hnonneg).1 htotal)]
          exact ⟨fun h => absurd h.total htotal, fun _ => ⟨_, rfl⟩⟩
      · have hsome : ∃ x ∈ b.entries, x < 0 := by simpa using hnonneg
        rw [if_neg (not_not.2 hheight), if_pos hsome]
        exact ⟨fun h => absurd h.nonneg hnonneg, fun _ => ⟨_, rfl⟩⟩
    · rw [if_pos hheight]
      exact ⟨fun h => absurd h.height hheight, fun _ => ⟨_, rfl⟩⟩
  · refine ⟨fun h => absurd h.flat hflat, fun _ => ⟨.shape stage, ?_⟩⟩
    have hother : ∀ n w, b.shape ≠ [n, w] := fun n w h => hflat (by rw [h]; rfl)
    simp only [checkMatrix, hd, Except.mapError, bind, Except.bind]
    rfl

/-- The check of the matrices from a stage on, by induction along the list. -/
theorem checkFrom_blocks (stage rows : ℕ)
    (h : List.Forall₂ (fun d b => d.block = .ok b) items blocks) :
    (IsStochastic rows blocks →
        checkFrom stage rows items = .ok ⟨blocks.map Block.rows, blocks.map Block.width⟩) ∧
      (¬ IsStochastic rows blocks → ∃ why, checkFrom stage rows items = .error (.transition why)) := by
  induction h generalizing stage rows with
  | nil => exact ⟨fun _ => rfl, fun h => absurd (isStochastic_nil rows) h⟩
  | @cons d b items blocks hd _ ih =>
    obtain ⟨haccept, hrefuse⟩ := checkMatrix_block stage rows hd
    obtain ⟨hrest, hfault⟩ := ih (stage + 1) b.width
    rw [isStochastic_cons]
    by_cases hstage : IsStage rows b
    · constructor
      · rintro ⟨-, hblocks⟩
        rw [checkFrom, haccept hstage]
        exact exceptBind_eq_ok.2 ⟨_, rfl, exceptBind_eq_ok.2 ⟨_, hrest hblocks, rfl⟩⟩
      · intro hne
        obtain ⟨why, hwhy⟩ := hfault fun hblocks => hne ⟨hstage, hblocks⟩
        refine ⟨why, ?_⟩
        rw [checkFrom, haccept hstage]
        simp only [bind, Except.bind, hwhy]
    · refine ⟨fun ⟨hb, _⟩ => absurd hb hstage, fun _ => ?_⟩
      obtain ⟨why, hwhy⟩ := hrefuse hstage
      refine ⟨why, ?_⟩
      rw [checkFrom, hwhy]
      rfl

/-- The check of a list. -/
theorem check_blocks (h : List.Forall₂ (fun d b => d.block = .ok b) items blocks) (T : ℤ) :
    ((items.length : ℤ) = T ∧ IsStochastic 1 blocks →
        check (.list items) T = .ok ⟨blocks.map Block.rows, blocks.map Block.width⟩) ∧
      (¬ ((items.length : ℤ) = T ∧ IsStochastic 1 blocks) →
        ∃ why, check (.list items) T = .error (.transition why)) := by
  have hrun : check (.list items) T =
      if (items.length : ℤ) = T then checkFrom 0 1 items
      else .error (.transition (.count items.length T)) := by
    simp [check, Datum.items?]
  obtain ⟨haccept, hrefuse⟩ := checkFrom_blocks 0 1 h
  rw [hrun]
  by_cases hcount : (items.length : ℤ) = T
  · rw [if_pos hcount]
    exact ⟨fun hb => haccept hb.2, fun hne => hrefuse fun hb => hne ⟨hcount, hb⟩⟩
  · rw [if_neg hcount]
    exact ⟨fun hb => absurd hb.1 hcount, fun _ => ⟨_, rfl⟩⟩

/-! ## Along the chain -/

/-- No matrix of a chain is without columns: each has a row, as the one before it has a column, and a row
that sums to one is not empty. -/
theorem IsStochastic.width_pos (h : IsStochastic rows blocks) (hrows : 0 < rows)
    (hfull : ∀ b ∈ blocks, b.entries.length = b.shape.prod) : ∀ b ∈ blocks, 0 < b.width := by
  induction blocks generalizing rows with
  | nil => simp
  | cons b blocks ih =>
    obtain ⟨hb, hrest⟩ := isStochastic_cons.1 h
    obtain ⟨hlength, hwidths⟩ := Block.rows_of_shape (Block.shape_eq hb.flat) (hfull b (by simp))
    have hpos : 0 < b.width := by
      have hne : b.rows ≠ [] := by
        intro hnil
        rw [hnil, List.length_nil, hb.height] at hlength
        omega
      obtain ⟨row, hrow⟩ := List.exists_mem_of_ne_nil _ hne
      by_contra hzero
      have hempty : row = [] := by
        have := hwidths row hrow
        exact List.length_eq_zero_iff.1 (by omega)
      have htotal := Scalar.roundFour_eq_one.1 (hb.total row hrow)
      rw [hempty] at htotal
      norm_num at htotal
    exact List.forall_mem_cons.2 ⟨hpos, ih hrest hpos fun c hc => hfull c (List.mem_cons_of_mem b hc)⟩

/-- Each state of a stage has a row in the next matrix. -/
theorem IsStochastic.height_eq {t : ℕ} {b' : Block K} (h : IsStochastic rows blocks)
    (hb : blocks[t]? = some b) (hb' : blocks[t + 1]? = some b') : b'.height = b.width := by
  obtain ⟨hlt, hget⟩ := List.getElem?_eq_some_iff.1 hb
  obtain ⟨hlt', hget'⟩ := List.getElem?_eq_some_iff.1 hb'
  have hnext := List.isChain_iff_getElem.1 h.next t hlt'
  rwa [hget, hget'] at hnext

/-- A row has an entry for every state of its stage, one of them positive. -/
theorem IsStochastic.exists_row {k : ℕ} (h : IsStochastic rows blocks)
    (hfull : ∀ b ∈ blocks, b.entries.length = b.shape.prod) (hb : b ∈ blocks) (hk : k < b.height) :
    ∃ row, b.rows[k]? = some row ∧ row.length = b.width ∧ PolicyGraph.positive row ≠ [] := by
  obtain ⟨hlength, hwidths⟩ := Block.rows_of_shape (Block.shape_eq (h.flat b hb)) (hfull b hb)
  have hlt : k < b.rows.length := by rwa [hlength]
  have hmem : b.rows[k] ∈ b.rows := List.getElem_mem hlt
  refine ⟨b.rows[k], List.getElem?_eq_getElem hlt, hwidths _ hmem, ?_⟩
  have hdistribution := List.all_eq_true.1 ((all_isDistribution_iff (h.nonneg b hb)).2 (h.total b hb))
  exact PolicyGraph.positive_ne_nil ((Probability.isDiscerning 0).exists_pos (hdistribution _ hmem))

end Transitions

/-! ## Graphs -/

namespace PolicyGraph

variable [ExactNumeral K]

variable {g g₀ made unbuilt : PolicyGraph K} {n : Node K} {blocks : List (Block K)} {t : ℕ}

/-- The graph has the matrices of a chain, and a node for each of its states. -/
structure IsOnChain (blocks : List (Block K)) (g : PolicyGraph K) : Prop where
  stochastic : Transitions.IsStochastic 1 blocks
  full : ∀ b ∈ blocks, b.entries.length = b.shape.prod
  count : blocks.length = g.stages
  two_le : 2 ≤ g.stages
  matrices : g.transitions.matrices = blocks.map Block.rows
  lengths : g.nodes.map List.length = blocks.map Block.width
  placed : ∀ t k n, g.nodeAt t k = some n →
    n.stage = t ∧ n.markov = k ∧ n.isTerminal = (t + 1 == g.stages)

/-- What was accepted as a chain and built upon, with all that became of it. -/
theorem isOnChain_reached {stages sense : ℤ} {bound : Option (KnownBound K)} {items : List (Datum K)}
    {template : CostToGo K} {output : Datum K} {b : Builder K}
    (hblocks : List.Forall₂ (fun d b => d.block = .ok b) items blocks)
    (hmade : ofData stages bound sense (.list items) template output = .ok made)
    (hset : Reaches made unbuilt) (hbuild : build b unbuilt = .ok () g₀) (hreach : Reaches g₀ g) :
    g.IsOnChain blocks := by
  obtain ⟨hcheck, -, -, htwo⟩ := ofData_eq_ok hmade
  obtain ⟨haccept, hrefuse⟩ := Transitions.check_blocks hblocks made.stages
  obtain ⟨hcount, hstochastic⟩ : (items.length : ℤ) = made.stages ∧
      Transitions.IsStochastic 1 blocks := by
    by_contra hne
    obtain ⟨why, hwhy⟩ := hrefuse hne
    rw [hwhy] at hcheck
    cases hcheck
  obtain ⟨hstages₀, htransitions₀, -⟩ := eq_made_of_build hmade hset hbuild
  obtain ⟨hlaid, -⟩ := isLaidOut_build hmade hset hbuild
  obtain ⟨d, hopen⟩ := exists_isOpen_reached hbuild
  obtain ⟨hdesign, hnodes⟩ := hopen g hreach
  obtain ⟨hstages, -, htransitions, -⟩ := eq_of_design hdesign
  have hread : g.transitions = ⟨blocks.map Block.rows, blocks.map Block.width⟩ := by
    rw [htransitions, htransitions₀]
    exact Except.ok.inj (hcheck.symm.trans (haccept ⟨hcount, hstochastic⟩))
  have hlength : blocks.length = g.stages := by
    rw [hstages, hstages₀, ← hblocks.length_eq]
    exact_mod_cast hcount
  have hsizes : ((List.range g.stages).map fun t => g.transitions.sizes.getD t 0) =
      blocks.map Block.width := by
    rw [hread, ← hlength]
    refine List.ext_getElem (by simp) fun i hi _ => ?_
    have hi' : i < blocks.length := by simpa using hi
    simp [hi']
  exact {
    stochastic := hstochastic
    full := fun c hc => by
      obtain ⟨d, -, hd⟩ := exists_left_of_forall₂ hblocks hc
      exact Datum.length_block hd
    count := hlength
    two_le := by
      rw [hstages, hstages₀]
      exact htwo
    matrices := by rw [hread]
    lengths := (hlaid.of_design hdesign).lengths.trans hsizes
    placed := fun t k n hn => by
      obtain ⟨hnode, -⟩ := hnodes t k n hn
      exact ⟨hnode.stage, hnode.markov, hnode.terminal⟩ }

/-- Every stage has a Markov state. -/
theorem IsOnChain.exists_row (hg : g.IsOnChain blocks) (ht : t < g.stages) :
    ∃ b row, blocks[t]? = some b ∧ g.nodes[t]? = some row ∧ row.length = b.width ∧
      0 < row.length := by
  have hlt : t < blocks.length := hg.count ▸ ht
  have hlength : (g.nodes.map List.length)[t]? = some blocks[t].width := by
    rw [hg.lengths, List.getElem?_map, List.getElem?_eq_getElem hlt, Option.map_some]
  rw [List.getElem?_map] at hlength
  obtain ⟨row, hrow, hwidth⟩ := Option.map_eq_some_iff.1 hlength
  have hpos := hg.stochastic.width_pos Nat.one_pos hg.full _ (List.getElem_mem hlt)
  exact ⟨blocks[t], row, List.getElem?_eq_getElem hlt, hrow, hwidth, hwidth ▸ hpos⟩

/-- The positive entries of a row with an entry for each node of a stage belong to nodes. -/
theorem isSome_nodeAt_of_positive {row : List K} {nodes : List (Node K)}
    (hnodes : g.nodes[t]? = some nodes) (hlength : row.length = nodes.length) :
    ∀ kp ∈ positive row, 0 < kp.2 ∧ (g.nodeAt t kp.1).isSome := by
  intro kp hkp
  obtain ⟨hentry, hpos⟩ := mem_positive.1 hkp
  have hlt : kp.1 < nodes.length := hlength ▸ (List.getElem?_eq_some_iff.1 hentry).1
  refine ⟨hpos, ?_⟩
  simp [nodeAt, hnodes, hlt]

/-- The transitions of a node are the row of its Markov state in the matrix of the stage behind it. -/
theorem IsOnChain.exists_transition (hg : g.IsOnChain blocks) (hn : n ∈ g.allNodes)
    (hterminal : n.isTerminal = false) :
    ∃ matrix nodes, g.transitions.matrices[n.stage + 1]? = some matrix ∧
      matrix[n.markov]? = some (g.transition n) ∧ g.nodes[n.stage + 1]? = some nodes ∧
      (g.transition n).length = nodes.length ∧ g.successors n ≠ [] := by
  obtain ⟨t, k, hplace⟩ := mem_allNodes.1 hn
  obtain ⟨rfl, rfl, hend⟩ := hg.placed t k n hplace
  obtain ⟨nodes, hnodes, hk⟩ := Option.bind_eq_some_iff.1 hplace
  have ht : n.stage < g.stages := by
    rw [← hg.count, ← List.length_map (f := Block.width), ← hg.lengths, List.length_map]
    exact (List.getElem?_eq_some_iff.1 hnodes).1
  have hlast : n.stage + 1 ≠ g.stages := by simpa [hterminal] using hend
  obtain ⟨b, row, hb, hrow, hwidth, -⟩ := hg.exists_row ht
  obtain rfl : row = nodes := Option.some.inj (hrow.symm.trans hnodes)
  obtain ⟨b', nodes', hb', hnodes', hwidth', -⟩ := hg.exists_row (t := n.stage + 1) (by omega)
  have hlt : n.markov < b'.height := by
    rw [hg.stochastic.height_eq hb hb', ← hwidth]
    exact (List.getElem?_eq_some_iff.1 hk).1
  obtain ⟨weights, hweights, hlength, hpositive⟩ :=
    hg.stochastic.exists_row hg.full (List.mem_of_getElem? hb') hlt
  have hmatrix : g.transitions.matrices[n.stage + 1]? = some b'.rows := by
    rw [hg.matrices, List.getElem?_map, hb', Option.map_some]
  have htransition : g.transition n = weights := by
    simp [transition, hterminal, Transitions.row, hmatrix, hweights]
  rw [successors, htransition]
  exact ⟨b'.rows, nodes', hmatrix, hweights, hnodes', hlength.trans hwidth'.symm, hpositive⟩

/-- The first stage is entered with the only row of its matrix. -/
theorem IsOnChain.exists_first (hg : g.IsOnChain blocks) :
    ∃ nodes, g.nodes[0]? = some nodes ∧ g.firstRow.length = nodes.length ∧ g.first ≠ [] := by
  obtain ⟨b, nodes, hb, hnodes, hwidth, -⟩ := hg.exists_row (Nat.two_pos.trans_le hg.two_le)
  have hheight : b.height = 1 := hg.stochastic.first b (by rw [List.head?_eq_getElem?, hb]; rfl)
  obtain ⟨weights, hweights, hlength, hpositive⟩ :=
    hg.stochastic.exists_row hg.full (List.mem_of_getElem? hb) (k := 0) (by omega)
  have hmatrix : g.transitions.matrices[0]? = some b.rows := by
    rw [hg.matrices, List.getElem?_map, hb, Option.map_some]
  have hrow : g.firstRow = weights := by
    simp [firstRow, Transitions.row, hmatrix, hweights]
  rw [first, hrow]
  exact ⟨nodes, hnodes, hlength.trans hwidth.symm, hpositive⟩

/-- Transition matrices are accepted exactly if they are a chain, and then followed. A list of rectangular
matrices passes the check for `T` stages if and only if there are `T` of them, the first has one row, each
further one has as many rows as the one before has columns, no entry is negative and every row sums to one
at four decimals; any other list is refused as transition matrices. In a graph that was built on matrices
that were accepted, and in all that becomes of it, every stage has a node; the transitions of a node that
is not of the last stage are a row that its matrix has, with an entry for each node of the next stage;
and its successors and the nodes to begin with are not none, are nodes of the graph, and have positive
probabilities. -/
theorem transitions_are_followed {items : List (Datum K)}
    (hblocks : List.Forall₂ (fun d b => d.block = .ok b) items blocks) :
    (∀ T : ℤ,
      ((∃ c, Transitions.check (.list items) T = .ok c) ↔
        (items.length : ℤ) = T ∧ Transitions.IsStochastic 1 blocks) ∧
      ((¬ ∃ c, Transitions.check (.list items) T = .ok c) →
        ∃ why, Transitions.check (.list items) T = .error (.transition why))) ∧
    ∀ {stages sense : ℤ} {bound : Option (KnownBound K)} {template : CostToGo K} {output : Datum K}
      {made unbuilt g₀ g : PolicyGraph K} {b : Builder K},
      ofData stages bound sense (.list items) template output = .ok made → Reaches made unbuilt →
      build b unbuilt = .ok () g₀ → Reaches g₀ g →
      (∀ t < g.stages, ∃ nodes, g.nodes[t]? = some nodes ∧ 0 < nodes.length) ∧
      (∀ n ∈ g.allNodes, n.isTerminal = (n.stage + 1 == g.stages) ∧
        (n.isTerminal = true → g.transition n = [])) ∧
      (∀ n ∈ g.allNodes, n.isTerminal = false → ∃ matrix nodes,
        g.transitions.matrices[n.stage + 1]? = some matrix ∧ matrix[n.markov]? = some (g.transition n) ∧
        g.nodes[n.stage + 1]? = some nodes ∧ (g.transition n).length = nodes.length ∧
        g.successors n ≠ [] ∧
        ∀ kp ∈ g.successors n, 0 < kp.2 ∧ (g.nodeAt (n.stage + 1) kp.1).isSome) ∧
      g.first ≠ [] ∧ ∀ kp ∈ g.first, 0 < kp.2 ∧ (g.nodeAt 0 kp.1).isSome := by
  refine ⟨fun T => ?_, fun hmade hset hbuild hreach => ?_⟩
  · obtain ⟨haccept, hrefuse⟩ := Transitions.check_blocks hblocks T
    refine ⟨⟨fun ⟨c, hc⟩ => ?_, fun h => ⟨_, haccept h⟩⟩, fun hnone => ?_⟩
    · by_contra hne
      obtain ⟨why, hwhy⟩ := hrefuse hne
      rw [hwhy] at hc
      cases hc
    · exact hrefuse fun h => hnone ⟨_, haccept h⟩
  · have hg := isOnChain_reached hblocks hmade hset hbuild hreach
    refine ⟨fun t ht => ?_, fun n hn => ⟨?_, fun hterminal => ?_⟩, fun n hn hterminal => ?_, ?_⟩
    · obtain ⟨b, nodes, -, hnodes, -, hpos⟩ := hg.exists_row ht
      exact ⟨nodes, hnodes, hpos⟩
    · obtain ⟨t, k, hplace⟩ := mem_allNodes.1 hn
      obtain ⟨rfl, -, hend⟩ := hg.placed t k n hplace
      exact hend
    · rw [transition, hterminal, if_pos rfl]
    · obtain ⟨matrix, nodes, hmatrix, hrow, hnodes, hlength, hsuccessors⟩ :=
        hg.exists_transition hn hterminal
      exact ⟨matrix, nodes, hmatrix, hrow, hnodes, hlength, hsuccessors,
        isSome_nodeAt_of_positive hnodes hlength⟩
    · obtain ⟨nodes, hnodes, hlength, hfirst⟩ := hg.exists_first
      exact ⟨hfirst, isSome_nodeAt_of_positive hnodes hlength⟩

end PolicyGraph

namespace Supply

/-- One state, then two, then one. -/
def matrices : List (Datum ℚ) :=
  [.list [.list [.whole 1]], .list [.list [.real (1 / 4), .real (3 / 4)]],
    .list [.list [.whole 1], .list [.whole 1]]]

def blocks : List (Block ℚ) := [⟨[1, 1], [1]⟩, ⟨[1, 2], [1 / 4, 3 / 4]⟩, ⟨[2, 1], [1, 1]⟩]

/-- Making the problem of a supplier with a choice of two states at the second of three stages. -/
def branching : Except (Fault ℚ) (PolicyGraph ℚ) :=
  PolicyGraph.ofData 3 (some (.whole 0)) 1 (.list matrices) (.single .keepAll) (.whole 0)

end Supply

namespace PolicyGraph

/-- The matrices of the supplier are accepted for three stages and for no other number, and the graph
that is built on them has what it looks up. -/
theorem transitions_are_followed_branching :
    List.Forall₂ (fun d b => d.block = .ok b) Supply.matrices Supply.blocks ∧
    (∀ T : ℤ, (∃ c, Transitions.check (.list Supply.matrices) T = .ok c) ↔ T = 3) ∧
    ∃ made g, Supply.branching = .ok made ∧ build Supply.builder made = .ok () g ∧
      g.nodes.map List.length = [1, 2, 1] ∧ g.first ≠ [] ∧
      ∀ n ∈ g.allNodes, n.isTerminal = false → g.successors n ≠ [] := by
  have hblocks : List.Forall₂ (fun d b => d.block = .ok b) Supply.matrices Supply.blocks :=
    .cons rfl (.cons rfl (.cons rfl .nil))
  obtain ⟨made, hmade⟩ : ∃ made, Supply.branching = .ok made := by
    have hsome : Supply.branching.toOption.isSome = true := by decide +kernel
    cases hrun : Supply.branching with
    | ok made => exact ⟨made, rfl⟩
    | error e =>
      rw [hrun] at hsome
      cases hsome
  have hbuilds : Supply.branching.toOption.all (fun made => succeeds (build Supply.builder) made &&
      (final (build Supply.builder) made).nodes.map List.length == [1, 2, 1]) = true := by decide +kernel
  rw [hmade] at hbuilds
  simp only [Except.toOption, Option.all_some, Bool.and_eq_true, beq_iff_eq] at hbuilds
  obtain ⟨hsucceeds, hlengths⟩ := hbuilds
  have hbuild := eq_ok_final hsucceeds
  obtain ⟨hcheck, hgraph⟩ := transitions_are_followed hblocks
  obtain ⟨-, -, hsuccessors, hfirst, -⟩ := hgraph hmade (.refl _) hbuild (.refl _)
  have hstochastic : Transitions.IsStochastic 1 Supply.blocks :=
    ((hcheck made.stages).1.1 ⟨_, (ofData_eq_ok hmade).1⟩).2
  refine ⟨hblocks, fun T => (hcheck T).1.trans ⟨fun h => h.1.symm, fun h => ⟨h.symm, hstochastic⟩⟩,
    made, _, hmade, hbuild, hlengths, hfirst, fun n hn hterminal => ?_⟩
  obtain ⟨-, -, -, -, -, -, hne, -⟩ := hsuccessors n hn hterminal
  exact hne

end PolicyGraph

end DualDynamic
