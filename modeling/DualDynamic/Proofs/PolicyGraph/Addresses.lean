import DualDynamic.Proofs.PolicyGraph.Dimensions
import DualDynamic.Proofs.PolicyGraph.Replay

/-!
# Where cuts go

A cut is handed in for a stage and a Markov state, which are any two integers. Numbers from zero on count
from the front, negative ones from the end (`CountsTo`), and so a pair addresses one node at most that has
a cost-to-go (`Addresses`). A cut that is taken goes to this node and to no other one, a cut that is not
taken changes nothing, and what addresses no node is refused. One step lemma says so for a cut, and by
induction the records of a file reach the nodes that they address.

A pair names a node if it gives the place of the node (`Names`). The two differ for negative numbers only.
-/

namespace DualDynamic

open Step

variable {K A : Type}

/-! ## Counting from both ends -/

/-- A number counts to a position among `n`: from the front, or from the end if it is negative. -/
def CountsTo (n : ℕ) (k : ℤ) (i : ℕ) : Prop := i < n ∧ (k = i ∨ k = (i : ℤ) - n)

theorem itemAt_eq_ok {xs : List A} {k : ℤ} {a : A} : (itemAt xs k : Except (Fault K) A) = .ok a ↔
    ∃ i, CountsTo xs.length k i ∧ xs[i]? = some a := by
  constructor
  · intro h
    simp only [itemAt] at h
    generalize hj : (if k < 0 then k + xs.length else k) = j at h
    split_ifs at h with hout
    cases hx : xs[j.toNat]? with
    | none => simp [hx] at h
    | some b =>
      rw [hx] at h
      obtain rfl := Except.ok.inj h
      have hlt := (List.getElem?_eq_some_iff.1 hx).1
      refine ⟨j.toNat, ⟨hlt, ?_⟩, hx⟩
      split_ifs at hj <;> omega
  · rintro ⟨i, ⟨hlt, hk⟩, ha⟩
    have hindex : (if k < 0 then k + xs.length else k) = i := by
      split_ifs <;> omega
    have hinside : ¬ (i : ℤ) < 0 := by omega
    simp only [itemAt, hindex, hinside, if_false, Int.toNat_natCast, ha]

/-- Numbers from zero on count from the front. -/
theorem CountsTo.eq_of_nonneg {n i : ℕ} {k : ℤ} (h : CountsTo n k i) (hk : 0 ≤ k) : k = i := by
  obtain ⟨hlt, hfront | hend⟩ := h
  · exact hfront
  · omega

theorem CountsTo.unique {n i j : ℕ} {k : ℤ} (hi : CountsTo n k i) (hj : CountsTo n k j) : i = j := by
  obtain ⟨hlt, hi⟩ := hi
  obtain ⟨hlt', hj⟩ := hj
  omega

namespace PolicyGraph

variable {g g' g₀ g₁ unbuilt : PolicyGraph K} {n n' : Node K} {t k : ℕ} {stage markov : ℤ}
  {rib : Option K} {cut : Cut K} {state : Option (Datum K)} {new : Bool} {f : Fault K}

/-- The number of Markov states of a stage. -/
def width (g : PolicyGraph K) (t : ℕ) : ℕ := (g.nodes[t]?.map List.length).getD 0

theorem exists_nodeAt_iff : (∃ n, g.nodeAt t k = some n) ↔ k < g.width t := by
  unfold nodeAt width
  cases g.nodes[t]? with
  | none => simp
  | some row =>
    show (∃ n, row[k]? = some n) ↔ k < row.length
    constructor
    · rintro ⟨n, hn⟩
      exact (List.getElem?_eq_some_iff.1 hn).1
    · intro hk
      exact ⟨row[k], List.getElem?_eq_getElem hk⟩

theorem node_eq_ok : g.node stage markov = .ok n ↔ ∃ t k,
    CountsTo g.nodes.length stage t ∧ CountsTo (g.width t) markov k ∧ g.nodeAt t k = some n := by
  constructor
  · intro h
    obtain ⟨row, hrow, hn⟩ := exceptBind_eq_ok.1 h
    obtain ⟨t, ht, hrow⟩ := itemAt_eq_ok.1 hrow
    obtain ⟨k, hk, hn⟩ := itemAt_eq_ok.1 hn
    refine ⟨t, k, ht, ?_, ?_⟩
    · rwa [width, hrow]
    · rw [nodeAt, hrow, Option.bind_some, hn]
  · rintro ⟨t, k, ht, hk, hn⟩
    obtain ⟨row, hrow, hn⟩ := Option.bind_eq_some_iff.1 hn
    rw [width, hrow] at hk
    exact exceptBind_eq_ok.2 ⟨row, itemAt_eq_ok.2 ⟨t, ht, hrow⟩, itemAt_eq_ok.2 ⟨k, hk, hn⟩⟩

/-! ## Addresses -/

/-- The stage and the Markov state address the node at a place, which has stages behind it. -/
def Addresses (g : PolicyGraph K) (stage markov : ℤ) (t k : ℕ) : Prop :=
  t + 1 < g.stages ∧ CountsTo g.stages stage t ∧ CountsTo (g.width t) markov k

/-- The stage and the Markov state are those of a node that has stages behind it. -/
def Names (g : PolicyGraph K) (stage markov : ℤ) : Prop :=
  (0 ≤ stage ∧ stage < g.stages - 1) ∧ 0 ≤ markov ∧ markov < g.width stage.toNat

/-- Without negative numbers to address a node is to name it. -/
theorem names_iff : g.Names stage markov ↔
    0 ≤ stage ∧ 0 ≤ markov ∧ ∃ t k, g.Addresses stage markov t k := by
  constructor
  · rintro ⟨⟨hstage, hbehind⟩, hmarkov, hwidth⟩
    refine ⟨hstage, hmarkov, stage.toNat, markov.toNat, by omega, ⟨by omega, by omega⟩, ?_, ?_⟩
    · omega
    · omega
  · rintro ⟨hstage, hmarkov, t, k, hbehind, ht, hk⟩
    obtain rfl := ht.eq_of_nonneg hstage
    obtain rfl := hk.eq_of_nonneg hmarkov
    refine ⟨⟨hstage, by omega⟩, hmarkov, ?_⟩
    rw [Int.toNat_natCast]
    exact_mod_cast hk.1

theorem Addresses.unique {t' k' : ℕ} (h : g.Addresses stage markov t k)
    (h' : g.Addresses stage markov t' k') : t' = t ∧ k' = k := by
  obtain rfl := h'.2.1.unique h.2.1
  exact ⟨rfl, h'.2.2.unique h.2.2⟩

/-- Two graphs differ at the given places only. -/
structure SameOutside (P : ℕ → ℕ → Prop) (g g' : PolicyGraph K) : Prop where
  nodes : ∀ t k, ¬ P t k → g'.nodeAt t k = g.nodeAt t k
  rest : { g' with nodes := [] } = { g with nodes := [] }

theorem SameOutside.refl (P : ℕ → ℕ → Prop) (g : PolicyGraph K) : SameOutside P g g :=
  ⟨fun _ _ _ => rfl, rfl⟩

theorem SameOutside.trans {P : ℕ → ℕ → Prop} (h : SameOutside P g g₁) (h' : SameOutside P g₁ g') :
    SameOutside P g g' :=
  ⟨fun t k hnot => (h'.nodes t k hnot).trans (h.nodes t k hnot), h'.rest.trans h.rest⟩

theorem SameOutside.mono {P Q : ℕ → ℕ → Prop} (h : SameOutside P g g') (hPQ : ∀ t k, P t k → Q t k) :
    SameOutside Q g g' :=
  ⟨fun t k hnot => h.nodes t k fun hP => hnot (hPQ t k hP), h.rest⟩

theorem nodeAt_putNode_of_place (hg : g.IsSettled) (hn : g.nodeAt t k = some n)
    (hstage : n'.stage = n.stage) (hmarkov : n'.markov = n.markov) :
    (g.putNode n').nodeAt t k = some n' ∧
      SameOutside (fun t' k' => t' = t ∧ k' = k) g (g.putNode n') := by
  obtain ⟨rfl, rfl⟩ := hg t k n hn
  refine ⟨?_, fun t' k' hnot => ?_, rfl⟩
  · rw [nodeAt_putNode, if_pos ⟨hstage.symm, hmarkov.symm⟩, hn, Option.map_some]
  · rw [nodeAt_putNode, hstage, hmarkov, if_neg hnot]

theorem addresses_of_design [Numeral K] (h : g'.design = g.design) :
    g'.Addresses stage markov t k ↔ g.Addresses stage markov t k := by
  obtain ⟨hstages, -, -, -, hlengths⟩ := eq_of_design h
  have hwidth : g'.width t = g.width t := by
    rw [width, width, ← List.getElem?_map, ← List.getElem?_map, hlengths]
  rw [Addresses, Addresses, hstages, hwidth]

/-! ## Graphs that were built -/

variable [Numeral K]

/-- The nodes stand where they belong, in as many stages as there are, and those of the last stage know
it. -/
structure IsStanding (g : PolicyGraph K) : Prop where
  length : g.nodes.length = g.stages
  settled : g.IsSettled
  terminal : ∀ t k n, g.nodeAt t k = some n → n.isTerminal = (t + 1 == g.stages)

/-- What becomes of a graph that was built stands. -/
theorem isStanding_reached {b : Builder K} (hbuild : build b unbuilt = .ok () g₀)
    (hreaches : Reaches g₀ g) : g.IsStanding ∧ g.design = g₀.design := by
  obtain ⟨d, hreached⟩ := exists_isOpen_reached hbuild
  obtain ⟨hdesign, hnodes⟩ := hreached g hreaches
  obtain ⟨nodes, rfl, hnew, -⟩ := build_eq_ok hbuild
  obtain ⟨hstages, -, -, -, hlengths⟩ := eq_of_design hdesign
  have hrows : g.nodes.length = nodes.length := by simpa using congrArg List.length hlengths
  have hlength : nodes.length = unbuilt.stages := by
    simpa using congrArg List.length (length_of_newNodes hnew)
  refine ⟨⟨?_, fun t k n hn => ?_, fun t k n hn => (hnodes t k n hn).1.terminal⟩, hdesign⟩
  · rw [hstages, hrows]
    exact hlength
  · exact ⟨(hnodes t k n hn).1.stage, (hnodes t k n hn).1.markov⟩

/-! ## One cut -/

/-- A cut goes to the node that it addresses, and is taken or refused there. -/
theorem installCut_of_addresses (hg : g.IsStanding) (h : g.Addresses stage markov t k)
    (rib : Option K) (cut : Cut K) (state : Option (Datum K)) :
    ∃ n, g.nodeAt t k = some n ∧ installCut stage markov rib cut state g =
      match n.costToGo.installCut cut rib state n.model with
      | .ok (new, v, m) => .ok new (g.putNode { n with costToGo := v, model := m })
      | .error f => .error f g := by
  obtain ⟨hbehind, ht, hk⟩ := h
  obtain ⟨n, hn⟩ := exists_nodeAt_iff.2 hk.1
  have hterminal : n.isTerminal = false := by
    rw [hg.terminal t k n hn, beq_eq_false_iff_ne]
    omega
  have hnode : g.node stage markov = .ok n := node_eq_ok.2 ⟨t, k, hg.length.symm ▸ ht, hk, hn⟩
  refine ⟨n, hn, ?_⟩
  rw [installCut_eq, hnode]
  simp only [Node.installCut, hterminal, Bool.false_eq_true, if_false]
  cases n.costToGo.installCut cut rib state n.model <;> rfl

/-- A cut that addresses no node is refused. -/
theorem installCut_of_not_addresses (hg : g.IsStanding)
    (h : ∀ t k, ¬ g.Addresses stage markov t k) (rib : Option K) (cut : Cut K)
    (state : Option (Datum K)) :
    ∃ f, installCut stage markov rib cut state g = .error f g ∧ f.kind = .construction := by
  rw [installCut_eq]
  cases hnode : g.node stage markov with
  | error e => exact ⟨_, rfl, rfl⟩
  | ok n =>
    -- Only the last stage is left, and there is nothing to take cuts.
    obtain ⟨t, k, ht, hk, hn⟩ := node_eq_ok.1 hnode
    rw [hg.length] at ht
    have hlast : t + 1 = g.stages := by
      have hlt := ht.1
      by_contra hne
      exact h t k ⟨by omega, ht, hk⟩
    have hterminal : n.isTerminal = true := by rw [hg.terminal t k n hn, hlast, beq_self_eq_true]
    exact ⟨.terminalCut, by simp only [Node.installCut, hterminal, if_true], rfl⟩

/-- The cut was taken at a place: the cost-to-go there took it, and all else is as before. -/
def TakenAt (g : PolicyGraph K) (t k : ℕ) (rib : Option K) (cut : Cut K) (state : Option (Datum K))
    (new : Bool) (g' : PolicyGraph K) : Prop :=
  ∃ n v m, g.nodeAt t k = some n ∧ n.costToGo.installCut cut rib state n.model = .ok (new, v, m) ∧
    g'.nodeAt t k = some { n with costToGo := v, model := m } ∧
    SameOutside (fun t' k' => t' = t ∧ k' = k) g g'

/-- A cut that is taken addresses a node, and is taken there. -/
theorem takenAt_of_installCut (hg : g.IsStanding)
    (h : installCut stage markov rib cut state g = .ok new g') :
    ∃ t k, g.Addresses stage markov t k ∧ g.TakenAt t k rib cut state new g' := by
  by_cases haddressed : ∃ t k, g.Addresses stage markov t k
  · obtain ⟨t, k, haddress⟩ := haddressed
    obtain ⟨n, hn, hinstall⟩ := installCut_of_addresses hg haddress rib cut state
    rw [hinstall] at h
    cases hv : n.costToGo.installCut cut rib state n.model with
    | error f => simp [hv] at h
    | ok q =>
      obtain ⟨new, v, m⟩ := q
      rw [hv] at h
      cases h
      exact ⟨t, k, haddress, n, v, m, hn, hv, nodeAt_putNode_of_place hg.settled hn rfl rfl⟩
  · push Not at haddressed
    obtain ⟨f, hrefused, -⟩ := installCut_of_not_addresses hg haddressed rib cut state
    rw [hrefused] at h
    cases h

/-- What is wanted of a cut that is handed in: if it is taken, then it names a node, and is taken there. If
it names none, then it is refused as a fault of the construction, and nothing changes. -/
def ReachesItsNode (g : PolicyGraph K) (stage markov : ℤ) (rib : Option K) (cut : Cut K)
    (state : Option (Datum K)) : Prop :=
  (∀ new g', installCut stage markov rib cut state g = .ok new g' →
    g.Names stage markov ∧ g.TakenAt stage.toNat markov.toNat rib cut state new g') ∧
  (¬ g.Names stage markov →
    ∃ f, installCut stage markov rib cut state g = .error f g ∧ f.kind = .construction)

/-- It fails for negative numbers only, by which a node is addressed that takes the cut, or refuses it for
another reason than its shape. -/
theorem reachesItsNode_iff (hg : g.IsStanding) : g.ReachesItsNode stage markov rib cut state ↔
    (0 ≤ stage ∧ 0 ≤ markov) ∨ ∀ t k n, g.Addresses stage markov t k → g.nodeAt t k = some n →
      ∃ f, n.costToGo.installCut cut rib state n.model = .error f ∧ f.kind = .construction := by
  constructor
  · rintro ⟨-, hunnamed⟩
    by_cases hnonneg : 0 ≤ stage ∧ 0 ≤ markov
    · exact Or.inl hnonneg
    · refine Or.inr fun t k n haddress hn => ?_
      obtain ⟨f, hrefused, hkind⟩ := hunnamed fun hnames =>
        hnonneg ⟨(names_iff.1 hnames).1, (names_iff.1 hnames).2.1⟩
      obtain ⟨n', hn', hinstall⟩ := installCut_of_addresses hg haddress rib cut state
      obtain rfl : n = n' := Option.some.inj (hn.symm.trans hn')
      rw [hinstall] at hrefused
      cases hv : n.costToGo.installCut cut rib state n.model with
      | error e =>
        rw [hv] at hrefused
        cases hrefused
        exact ⟨f, rfl, hkind⟩
      | ok q => simp [hv] at hrefused
  · rintro (⟨hstage, hmarkov⟩ | hrefuses)
    · refine ⟨fun new g' h => ?_, fun hunnamed => installCut_of_not_addresses hg (fun t k haddress =>
        hunnamed (names_iff.2 ⟨hstage, hmarkov, t, k, haddress⟩)) rib cut state⟩
      obtain ⟨t, k, haddress, htaken⟩ := takenAt_of_installCut hg h
      refine ⟨names_iff.2 ⟨hstage, hmarkov, t, k, haddress⟩, ?_⟩
      obtain rfl := haddress.2.1.eq_of_nonneg hstage
      obtain rfl := haddress.2.2.eq_of_nonneg hmarkov
      exact htaken
    · have hrefused : ∃ f, installCut stage markov rib cut state g = .error f g ∧
          f.kind = .construction := by
        by_cases haddressed : ∃ t k, g.Addresses stage markov t k
        · obtain ⟨t, k, haddress⟩ := haddressed
          obtain ⟨n, hn, hinstall⟩ := installCut_of_addresses hg haddress rib cut state
          obtain ⟨f, hf, hkind⟩ := hrefuses t k n haddress hn
          exact ⟨f, by rw [hinstall, hf], hkind⟩
        · push Not at haddressed
          exact installCut_of_not_addresses hg haddressed rib cut state
      refine ⟨fun new g' h => ?_, fun _ => hrefused⟩
      obtain ⟨f, hf, -⟩ := hrefused
      rw [hf] at h
      cases h

/-! ## The records of a file -/

variable {b : Builder K} {records done rest : List (CutRecord K)} {r : CutRecord K} {count : ℕ}

/-- A record changes the node that it addresses, if it is taken. -/
theorem keeps_sameOutside_installRecord {P : ℕ → ℕ → Prop} (hbuild : build b unbuilt = .ok () g₀)
    (hP : ∀ t k, g₀.Addresses r.stage r.markov t k → P t k) (g : PolicyGraph K) :
    Keeps (fun g' => Reaches g₀ g' ∧ SameOutside P g g') (installRecord r) := by
  refine keeps_iff_final.2 ?_
  rintro g' ⟨hreaches, hsame⟩
  refine ⟨hreaches.tail (.install r.stage r.markov r.rib r.cut none), hsame.trans ?_⟩
  obtain ⟨hg, hdesign⟩ := isStanding_reached hbuild hreaches
  cases hr : installRecord r g' with
  | error f g₁ =>
    rw [final_of_error hr, installRecord_eq_error hr]
    exact .refl P g'
  | ok new g₁ =>
    obtain ⟨t, k, haddress, -, -, -, -, -, -, htaken⟩ := takenAt_of_installCut hg hr
    rw [final_of_ok hr]
    refine htaken.mono fun t' k' hplace => ?_
    obtain ⟨rfl, rfl⟩ := hplace
    exact hP t' k' ((addresses_of_design hdesign).1 haddress)

/-- Records that are replayed change the nodes that they address, whether all of them are taken or not. -/
theorem keeps_sameOutside_replay {P : ℕ → ℕ → Prop} (hbuild : build b unbuilt = .ok () g₀)
    (hP : ∀ r ∈ records, ∀ t k, g₀.Addresses r.stage r.markov t k → P t k) (g : PolicyGraph K) :
    Keeps (fun g' => Reaches g₀ g' ∧ SameOutside P g g') (replay records) := by
  induction records with
  | nil => exact keeps_pure _
  | cons r records ih =>
    rw [List.forall_mem_cons] at hP
    exact (keeps_sameOutside_installRecord hbuild hP.1 g).bind fun _ =>
      (ih hP.2).bind fun _ => keeps_pure _

/-- All of them address a node if all of them are taken. -/
theorem addresses_of_replay (hbuild : build b unbuilt = .ok () g₀) (hreaches : Reaches g₀ g)
    (h : replay records g = .ok count g') : ∀ r ∈ records, ∃ t k, g₀.Addresses r.stage r.markov t k := by
  induction records generalizing g count with
  | nil => simp
  | cons r records ih =>
    obtain ⟨hg, hdesign⟩ := isStanding_reached hbuild hreaches
    obtain ⟨new, g₁, rest, hr, hrest, -⟩ := replay_cons_eq_ok.1 h
    obtain ⟨t, k, haddress, -⟩ := takenAt_of_installCut hg hr
    refine List.forall_mem_cons.2 ⟨⟨t, k, (addresses_of_design hdesign).1 haddress⟩, ?_⟩
    have hreaches₁ : Reaches g₀ g₁ := final_of_ok hr ▸
      hreaches.tail (.install r.stage r.markov r.rib r.cut none)
    exact ih hreaches₁ hrest

theorem replay_append_of_error {f : Fault K} (hdone : replay done g = .ok count g₁)
    (hr : installRecord r g₁ = .error f g') : replay (done ++ r :: rest) g = .error f g' := by
  induction done generalizing g count with
  | nil =>
    cases hdone
    exact replay_cons_of_error hr
  | cons s done ih =>
    obtain ⟨new, g₂, more, hs, hmore, -⟩ := replay_cons_eq_ok.1 hdone
    have hrun : replay (s :: (done ++ r :: rest)) g = (replay (done ++ r :: rest) >>= fun count =>
        pure (if new then count + 1 else count)) g₂ := bind_of_ok hs
    rw [List.cons_append, hrun]
    exact bind_of_error (ih hmore)

/-- What becomes of a file whose records are replayed in a graph `g` of those that became of `g₀`: if it is
read to its end, then each record addresses a node. Whatever happens, only nodes change that are
addressed. And a record that addresses none, when it is its turn, ends it as a fault of the
construction. -/
structure ReadsAddressed (g : PolicyGraph K) (path text : String) (records : List (CutRecord K)) :
    Prop where
  read : ∀ count g', readCuts path text g = .ok count g' →
    ∀ r ∈ records, ∃ t k, g.Addresses r.stage r.markov t k
  same : SameOutside (fun t k => ∃ r ∈ records, g.Addresses r.stage r.markov t k) g
    (final (readCuts path text) g)
  refused : ∀ done r rest count g', records = done ++ r :: rest → replay done g = .ok count g' →
    (∀ t k, ¬ g.Addresses r.stage r.markov t k) →
      ∃ f, readCuts path text g = .error f g' ∧ f.kind = .construction

theorem readsAddressed (hbuild : build b unbuilt = .ok () g₀) (hreaches : Reaches g₀ g)
    (path text : String) :
    g.ReadsAddressed path text (CutFile.read path text : List (CutRecord K) × Option (Fault K)).1 := by
  obtain ⟨hg, hdesign⟩ := isStanding_reached hbuild hreaches
  have haddresses : ∀ (r : CutRecord K) t k,
      g.Addresses r.stage r.markov t k ↔ g₀.Addresses r.stage r.markov t k :=
    fun _ _ _ => addresses_of_design hdesign
  refine ⟨fun count g' h => ?_, ?_, fun done r rest count g' hsplit hdone hnone => ?_⟩
  · obtain ⟨_, g₁, hreplay, -⟩ := bind_eq_ok.1 h
    simp only [haddresses]
    exact addresses_of_replay hbuild hreaches hreplay
  · have hkept := keeps_sameOutside_replay hbuild (fun r hr t k haddress =>
      (⟨r, hr, (haddresses r t k).2 haddress⟩ : ∃ r ∈ (CutFile.read path text : List (CutRecord K) ×
        Option (Fault K)).1, g.Addresses r.stage r.markov t k)) g
    have hread : Keeps _ (readCuts path text) := hkept.bind fun _ => by
      split
      · exact keeps_throw _
      · exact keeps_pure _
    exact (hread.final ⟨hreaches, .refl _ g⟩).2
  · have hkept : Reaches g₀ g' := final_of_ok hdone ▸ (keeps_reaches_replay done).final hreaches
    obtain ⟨hg', hdesign'⟩ := isStanding_reached hbuild hkept
    have hnone' : ∀ t k, ¬ g'.Addresses r.stage r.markov t k := fun t k haddress =>
      hnone t k ((haddresses r t k).2 ((addresses_of_design hdesign').1 haddress))
    obtain ⟨f, hrefused, hkind⟩ := installCut_of_not_addresses hg' hnone' r.rib r.cut none
    have hreplay : replay (CutFile.read path text).1 g = .error f g' := by
      rw [hsplit]
      exact replay_append_of_error hdone hrefused
    exact ⟨f, bind_of_error hreplay, hkind⟩

/-- Where cuts go, in any graph that comes about and for any two integers: a cut that is taken is taken by
the node that the integers address, and changes nothing else. A cut that is not taken changes nothing at
all. Integers that address no node are refused as a fault of the construction. So a cut reaches the node
that it names, and no other one, if both integers are from zero on. A negative integer counts from the
end: then the cut goes to a node that it does not name, unless this node refuses it for its shape. The
records of a file go where cuts go. -/
theorem cuts_reach_addressed {b : Builder K} (hbuild : build b unbuilt = .ok () g₀)
    (hreaches : Reaches g₀ g) :
    (∀ (stage markov : ℤ) (rib : Option K) (cut : Cut K) (state : Option (Datum K)),
      (∀ new g', installCut stage markov rib cut state g = .ok new g' →
        ∃ t k, g.Addresses stage markov t k ∧ g.TakenAt t k rib cut state new g') ∧
      (∀ f g', installCut stage markov rib cut state g = .error f g' → g' = g) ∧
      ((∀ t k, ¬ g.Addresses stage markov t k) →
        ∃ f, installCut stage markov rib cut state g = .error f g ∧ f.kind = .construction) ∧
      (g.ReachesItsNode stage markov rib cut state ↔ (0 ≤ stage ∧ 0 ≤ markov) ∨
        ∀ t k n, g.Addresses stage markov t k → g.nodeAt t k = some n →
          ∃ f, n.costToGo.installCut cut rib state n.model = .error f ∧ f.kind = .construction)) ∧
    ∀ path text,
      g.ReadsAddressed path text (CutFile.read path text : List (CutRecord K) × Option (Fault K)).1 := by
  obtain ⟨hg, -⟩ := isStanding_reached hbuild hreaches
  refine ⟨fun stage markov rib cut state => ⟨?_, ?_, ?_, reachesItsNode_iff hg⟩,
    readsAddressed hbuild hreaches⟩
  · exact fun new g' h => takenAt_of_installCut hg h
  · exact fun f g' h => eq_of_installCut_eq_error h
  · exact fun h => installCut_of_not_addresses hg h rib cut state

/-- In a pantry of two stages and one Markov state each, in which cuts were taken and retired, the first
stage is addressed from either end, and the last one is not. -/
theorem cuts_reach_addressed_pantry :
    (build Larder.builder Larder.unbuiltPantry = .ok () Larder.pantry ∧
      Reaches Larder.pantry Larder.usedPantry) ∧
    let g := Larder.usedPantry
    let cut := (Larder.offer 12 (-4)).cut
    (∃ new g', installCut 0 0 none cut none g = .ok new g' ∧ g.TakenAt 0 0 none cut none new g') ∧
      g.ReachesItsNode 0 0 none cut none ∧ ¬ g.ReachesItsNode (-2) (-1) none cut none ∧
      ∃ f, installCut 1 0 none cut none g = .error f g ∧ f.kind = .construction := by
  refine ⟨⟨Larder.build_pantry, Larder.reaches_usedPantry⟩, ?_⟩
  intro g cut
  obtain ⟨hcuts, -⟩ := cuts_reach_addressed Larder.build_pantry Larder.reaches_usedPantry
  have hstages : g.stages = 2 := by decide +kernel
  have hwidth : g.width 0 = 1 := by decide +kernel
  have haddresses : g.Addresses 0 0 0 0 ∧ g.Addresses (-2) (-1) 0 0 := by
    simp only [Addresses, CountsTo, hstages, hwidth]
    omega
  have hnone : ∀ t k, ¬ g.Addresses 1 0 t k := by
    rintro t k ⟨hbehind, ⟨-, hstage⟩, -⟩
    rw [hstages] at hbehind hstage
    omega
  have hfront : succeeds (installCut 0 0 none cut none) g = true := by decide +kernel
  have hend : succeeds (installCut (-2) (-1) none cut none) g = true := by decide +kernel
  refine ⟨?_, (hcuts 0 0 none cut none).2.2.2.2 (Or.inl ⟨le_rfl, le_rfl⟩), fun hreaches => ?_,
    (hcuts 1 0 none cut none).2.2.1 hnone⟩
  · obtain ⟨new, hinstall⟩ := exists_eq_ok_final hfront
    obtain ⟨t, k, haddress, htaken⟩ := (hcuts 0 0 none cut none).1 new _ hinstall
    obtain ⟨rfl, rfl⟩ := haddresses.1.unique haddress
    exact ⟨new, _, hinstall, htaken⟩
  · obtain ⟨new, hinstall⟩ := exists_eq_ok_final hend
    obtain ⟨t, k, haddress, n, v, m, hn, hv, -⟩ := (hcuts (-2) (-1) none cut none).1 new _ hinstall
    rcases (hcuts (-2) (-1) none cut none).2.2.2.1 hreaches with ⟨hstage, -⟩ | hrefuses
    · omega
    · obtain ⟨f, hf, -⟩ := hrefuses t k n haddress hn
      rw [hv] at hf
      cases hf

/-- A cut for a negative stage is taken by a node, although it names none. -/
theorem not_reachesItsNode_pantry :
    build Larder.builder Larder.unbuiltPantry = .ok () Larder.pantry ∧
      ¬ Larder.pantry.ReachesItsNode (-2) 0 none (Larder.offer 4 (-1)).cut none := by
  refine ⟨Larder.build_pantry, fun hreaches => ?_⟩
  have hsucceeds : succeeds (installCut (-2) 0 none (Larder.offer 4 (-1)).cut none) Larder.pantry =
    true := by decide +kernel
  obtain ⟨new, hinstall⟩ := exists_eq_ok_final hsucceeds
  obtain ⟨⟨⟨hstage, -⟩, -⟩, -⟩ := hreaches.1 new _ hinstall
  omega

end PolicyGraph

end DualDynamic
