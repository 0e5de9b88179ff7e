import DualDynamic.Proofs.CostToGo.Taken
import DualDynamic.Proofs.PolicyGraph.Changes
import DualDynamic.Proofs.Training.Recording

/-!
# Replaying a cut file twice

A record that a graph has taken (`HasRecord`) is passed over when it comes again, and stays so whatever other
records are taken in between. So the second replay of a cut file passes over all records that the first
one took, and comes to the same refusal or to the same end (`readCuts_idempotent`). What the first one
counted is what the graph stores more.

All that this needs of a graph is that its nodes have lists of rows for their variables (`Node.HasRoom`).
Graphs are built so, and nothing that happens to them ends it.
-/

namespace DualDynamic

open Step

variable {K : Type} [Numeral K]

/-! ## Nodes with room for rows -/

/-- A node that stands where it belongs and has a list of rows for every variable. -/
structure Node.HasRoom (t k : ℕ) (n : Node K) : Prop where
  stage : n.stage = t
  markov : n.markov = k
  room : n.costToGo.vars.length ≤ n.costToGo.installed.length

theorem CostToGo.room_rebuild {v : CostToGo K} (h : v.vars.length ≤ v.installed.length)
    (m : Subproblem K) : (v.rebuild m).1.vars.length ≤ (v.rebuild m).1.installed.length := by
  unfold rebuild
  split
  · exact h
  · refine installActive_induction (P := fun v' _ => v'.vars.length ≤ v'.installed.length)
      (by simp [nextVariables, ribCount]) fun v' _ i _ cut _ hroom _ _ _ => ?_
    exact hroom.trans_eq (List.length_modify ..).symm

namespace PolicyGraph

variable {g g' g₀ unbuilt : PolicyGraph K} {r s : CutRecord K} {records rest : List (CutRecord K)}
  {new : Bool} {f : Fault K} {count : ℕ}

theorem isLasting_hasRoom : IsLasting (Node.HasRoom (K := K)) where
  steady _ := steady_of_ignoring (fun _ _ _ h => ⟨h.stage, h.markov⟩) fun _ _ _ _ _ h _ => { h with }
  accepts := {
    placed := fun _ _ _ h => ⟨h.stage, h.markov⟩
    installCut := fun {t k n cut rib state new n'} hn _ h => by
      obtain ⟨v, m, -, hinstall, rfl⟩ := Node.installCut_eq_ok.1 h
      obtain ⟨-, i, pool, pool', -, -, -, hrow⟩ := CostToGo.installCut_eq_ok hinstall
      obtain ⟨installed, hfst, hlength, -⟩ := CostToGo.exists_installRow
        { n.costToGo with pools := n.costToGo.pools.set i pool' } i cut n.model
      obtain rfl := (congrArg Prod.fst hrow).trans hfst
      exact ⟨hn.stage, hn.markov, hlength ▸ hn.room⟩ }
  rebuilt hn h := by
    obtain ⟨b, m, -, -, -, rfl⟩ := rebuilt_eq_ok h
    split_ifs
    · exact { hn with }
    · exact ⟨hn.stage, hn.markov, CostToGo.room_rebuild hn.room m⟩
  retry _ hn := { hn with }

/-- Nodes are built with room for rows. -/
theorem hasRoom_build {b : Builder K} (h : build b unbuilt = .ok () g₀) :
    Holds g₀.frame Node.HasRoom g₀ := by
  refine ⟨rfl, fun t k n hn => ?_⟩
  obtain ⟨m, -, ⟨-, rfl⟩ | ⟨-, f, -, rfl⟩⟩ := newNode_eq_ok (newNode_of_build h hn).2
  · exact ⟨rfl, rfl, le_rfl⟩
  · exact ⟨rfl, rfl, by simp⟩

/-! ## Records that were taken -/

/-- The node that a record names has taken its cut. -/
def HasRecord (g : PolicyGraph K) (r : CutRecord K) : Prop :=
  ∃ n, g.node r.stage r.markov = .ok n ∧ n.isTerminal = false ∧ n.costToGo.HasCut r.rib r.cut

omit [Numeral K] in
theorem putNode_self {n : Node K} (h : g.nodeAt n.stage n.markov = some n) : g.putNode n = g := by
  obtain ⟨row, hrow, hk⟩ := Option.bind_eq_some_iff.1 h
  have hnodes : g.nodes.modify n.stage (fun row => row.set n.markov n) = g.nodes := by
    refine List.ext_getElem? fun t => ?_
    rw [List.getElem?_modify]
    by_cases ht : n.stage = t
    · subst ht
      obtain ⟨hlt, heq⟩ := List.getElem?_eq_some_iff.1 hk
      have hset : row.set n.markov row[n.markov] = row := List.set_getElem_self hlt
      rw [heq] at hset
      simp only [hrow, if_true, Option.map_eq_map, Option.map_some, hset]
    · simp [ht]
  rw [putNode, hnodes]

/-- To take a record once more changes nothing. -/
theorem HasRecord.installRecord (hg : g.IsSettled) (h : g.HasRecord r) :
    installRecord r g = .ok false g := by
  obtain ⟨n, hn, hterminal, hcut⟩ := h
  obtain ⟨t, k, hplace, -⟩ := exists_of_node hn
  obtain ⟨rfl, rfl⟩ := hg t k n hplace
  refine installCut_eq_ok.2 ⟨n, n, hn, ?_, (putNode_self hplace).symm⟩
  exact Node.installCut_eq_ok.2 ⟨n.costToGo, n.model, hterminal, hcut.installCut n.model, rfl⟩

theorem holds_installRecord (hg : Holds g.frame Node.HasRoom g) (h : installRecord r g = .ok new g') :
    Holds g'.frame Node.HasRoom g' := by
  have hkept : Holds g.frame Node.HasRoom g' :=
    (keeps_installCut isLasting_hasRoom.accepts (fun _ _ _ _ => trivial) r.rib none).of_ok hg h
  exact ⟨rfl, hkept.nodes⟩

omit [Numeral K] in
theorem isSettled_of_hasRoom (hg : Holds g.frame Node.HasRoom g) : g.IsSettled :=
  fun t k n hn => ⟨(hg.nodes t k n hn).stage, (hg.nodes t k n hn).markov⟩

/-- A record that was taken is there. -/
theorem hasRecord_of_installRecord (hg : Holds g.frame Node.HasRoom g)
    (hself : r.cut.same r.cut = true) (h : installRecord r g = .ok new g') : g'.HasRecord r := by
  obtain ⟨n, n', hn, hinstall, rfl⟩ := installCut_eq_ok.1 h
  obtain ⟨v, m, hterminal, hv, rfl⟩ := Node.installCut_eq_ok.1 hinstall
  obtain ⟨t, k, hplace, hfound⟩ := exists_place (frame_putNode g _) hn
  have hroom := hg.nodes t k n hplace
  obtain ⟨rfl, rfl⟩ : n.stage = t ∧ n.markov = k := ⟨hroom.stage, hroom.markov⟩
  refine ⟨{ n with costToGo := v, model := m }, hfound _ ?_, hterminal,
    CostToGo.hasCut_of_installCut hroom.room hself hv⟩
  rw [nodeAt_putNode, if_pos ⟨rfl, rfl⟩, hplace, Option.map_some]

/-- And it stays there when other records are taken. -/
theorem HasRecord.of_installRecord (hg : g.IsSettled) (hs : g.HasRecord s)
    (h : PolicyGraph.installRecord r g = .ok new g') : g'.HasRecord s := by
  obtain ⟨l, hl, hlast, hcut⟩ := hs
  rcases node_of_installRecord hg h hl with hnode | ⟨v, m, hterminal, hv, hnode⟩
  · exact ⟨l, hnode, hlast, hcut⟩
  · exact ⟨_, hnode, hterminal, hcut.of_installCut hv⟩

/-- A record that is refused changes nothing. -/
theorem installRecord_eq_error (h : installRecord r g = .error f g') : g' = g :=
  eq_of_installCut_eq_error h

/-! ## Replays -/

/-- How many records a graph takes in front of the first one that it refuses. -/
def taken : List (CutRecord K) → PolicyGraph K → ℕ
  | [], _ => 0
  | r :: rs, g =>
    match installRecord r g with
    | .ok _ g' => taken rs g' + 1
    | .error _ _ => 0

/-- What a replay leaves behind: a graph that has taken all records, or all up to one that it refuses. -/
inductive Replayed (records : List (CutRecord K)) (g g' : PolicyGraph K) : Except (Fault K) ℕ → Prop
  | all {count : ℕ} : (∀ r ∈ records, g'.HasRecord r) → taken records g = records.length →
      Replayed records g g' (.ok count)
  | refused {f : Fault K} {done rest : List (CutRecord K)} {r : CutRecord K} :
      records = done ++ r :: rest → (∀ s ∈ done, g'.HasRecord s) → taken records g = done.length →
      installRecord r g' = .error f g' → Replayed records g g' (.error f)

theorem replay_cons_of_error (h : installRecord r g = .error f g') :
    replay (r :: records) g = .error f g' := bind_of_error h

theorem replay_cons_of_ok (h : installRecord r g = .ok new g') : attempt (replay (r :: records)) g =
    ((attempt (replay records) g').1.map fun count => if new then count + 1 else count,
      (attempt (replay records) g').2) := by
  have hrun : replay (r :: records) g =
      (replay records >>= fun count => pure (if new then count + 1 else count)) g' := bind_of_ok h
  simp only [attempt, hrun, bind, EStateM.bind]
  cases replay records g' <;> rfl

/-- Records that are there stay there through a replay, whether it is refused or not. -/
theorem HasRecord.of_replay (hg : Holds g.frame Node.HasRoom g) (hs : g.HasRecord s) :
    (attempt (replay records) g).2.HasRecord s := by
  induction records generalizing g with
  | nil => exact hs
  | cons r records ih =>
    cases hr : PolicyGraph.installRecord r g with
    | error e g₁ =>
      rw [attempt, replay_cons_of_error hr, installRecord_eq_error hr]
      exact hs
    | ok new g₁ =>
      rw [replay_cons_of_ok hr]
      exact ih (holds_installRecord hg hr) (hs.of_installRecord (isSettled_of_hasRoom hg) hr)

/-- What a replay comes to. -/
theorem replayed (hg : Holds g.frame Node.HasRoom g)
    (hself : ∀ r ∈ records, r.cut.same r.cut = true) :
    Replayed records g (attempt (replay records) g).2 (attempt (replay records) g).1 := by
  induction records generalizing g with
  | nil => exact .all (by simp) rfl
  | cons r records ih =>
    rw [List.forall_mem_cons] at hself
    cases hr : PolicyGraph.installRecord r g with
    | error e g₁ =>
      obtain rfl := installRecord_eq_error hr
      rw [attempt, replay_cons_of_error hr]
      exact .refused (List.nil_append _).symm (by simp) (by simp [taken, hr]) hr
    | ok new g₁ =>
      have hg₁ := holds_installRecord hg hr
      have hhead : (attempt (replay records) g₁).2.HasRecord r :=
        (hasRecord_of_installRecord hg hself.1 hr).of_replay hg₁
      have htaken : taken (r :: records) g = taken records g₁ + 1 := by simp only [taken, hr]
      rw [replay_cons_of_ok hr]
      have hrest := ih hg₁ hself.2
      generalize attempt (replay records) g₁ = q at hhead hrest
      obtain ⟨result, g'⟩ := q
      cases hrest with
      | all hrecords hcount =>
        exact .all (List.forall_mem_cons.2 ⟨hhead, hrecords⟩) (by rw [htaken, hcount, List.length_cons])
      | refused hsplit hdone hcount herror =>
        exact .refused (by rw [hsplit, List.cons_append]) (List.forall_mem_cons.2 ⟨hhead, hdone⟩)
          (by rw [htaken, hcount, List.length_cons]) herror

/-- Records that are there are passed over. -/
theorem replay_append_of_hasRecord (hg : g.IsSettled) (h : ∀ r ∈ records, g.HasRecord r)
    (rest : List (CutRecord K)) : replay (records ++ rest) g = replay rest g ∧
      taken (records ++ rest) g = records.length + taken rest g := by
  induction records with
  | nil => exact ⟨rfl, by simp⟩
  | cons r records ih =>
    rw [List.forall_mem_cons] at h
    have hr := h.1.installRecord hg
    obtain ⟨hreplay, htaken⟩ := ih h.2
    constructor
    · have hrun : replay (r :: (records ++ rest)) g =
          (replay (records ++ rest) >>= fun count => pure (if false then count + 1 else count)) g :=
        bind_of_ok hr
      rw [List.cons_append, hrun, ← hreplay]
      simp only [bind, EStateM.bind]
      cases replay (records ++ rest) g <;> rfl
    · simp only [List.cons_append, taken, hr, htaken, List.length_cons]
      omega

/-- A replay of what was replayed changes nothing: it comes to the same record that is refused, or to the
end, where it has counted nothing. -/
theorem attempt_replay_again (hg : Holds g.frame Node.HasRoom g)
    (hself : ∀ r ∈ records, r.cut.same r.cut = true) :
    let first := attempt (replay records) g
    attempt (replay records) first.2 = (first.1.map fun _ => 0, first.2) ∧
      taken records first.2 = taken records g := by
  intro first
  have hsettled : first.2.IsSettled := by
    have hkept : Keeps (Holds g.frame Node.HasRoom) (replay records) :=
      keeps_replay isLasting_hasRoom.accepts fun _ _ _ _ _ _ => trivial
    have hend := keeps_iff_final.1 hkept g hg
    have hfinal : final (replay records) g = first.2 := by
      simp only [first, attempt, final]
      cases replay records g <;> rfl
    rw [hfinal] at hend
    exact isSettled_of_holds (fun _ _ _ h => ⟨h.stage, h.markov⟩) hend
  have hreplayed : Replayed records g first.2 first.1 := replayed hg hself
  generalize first = q at hsettled hreplayed ⊢
  obtain ⟨result, g'⟩ := q
  cases hreplayed with
  | all hrecords hcount =>
    obtain ⟨hreplay, htaken⟩ := replay_append_of_hasRecord hsettled hrecords []
    rw [List.append_nil] at hreplay htaken
    refine ⟨?_, by rw [htaken, hcount]; rfl⟩
    rw [attempt, hreplay]
    rfl
  | refused hsplit hdone hcount herror =>
    obtain ⟨hreplay, htaken⟩ := replay_append_of_hasRecord hsettled hdone _
    rw [hsplit] at hcount ⊢
    refine ⟨?_, ?_⟩
    · rw [attempt, hreplay, replay_cons_of_error herror]
      rfl
    · rw [hcount, htaken]
      simp only [taken, herror, add_zero]

/-! ## Counting -/

/-- What a node counts for. -/
def weight (n : Node K) : ℕ := if n.isTerminal then 0 else n.costToGo.cutCount

omit [Numeral K] in
theorem cutCount_eq_sum (g : PolicyGraph K) :
    g.cutCount = (g.nodes.map fun row => (row.map weight).sum).sum := by
  have hfilter : ∀ ns : List (Node K), ((ns.filter fun n => !n.isTerminal).map
      fun n => n.costToGo.cutCount).sum = (ns.map weight).sum := by
    intro ns
    induction ns with
    | nil => rfl
    | cons n ns ih => cases hn : n.isTerminal <;> simp [hn, weight, ih]
  rw [cutCount, allNodes, ← List.foldl_map (f := fun n : Node K => n.costToGo.cutCount) (g := (· + ·)),
    ← List.sum_eq_foldl, hfilter, List.map_flatten, List.sum_flatten, List.map_map]
  rfl

theorem cutCount_installRecord (hg : g.IsSettled) (h : installRecord r g = .ok new g') :
    g'.cutCount = g.cutCount + new.toNat := by
  obtain ⟨n, n', hn, hinstall, rfl⟩ := installCut_eq_ok.1 h
  obtain ⟨v, m, hterminal, hv, rfl⟩ := Node.installCut_eq_ok.1 hinstall
  obtain ⟨t, k, hplace, -⟩ := exists_of_node hn
  obtain ⟨rfl, rfl⟩ := hg t k n hplace
  obtain ⟨row, hrow, hk⟩ := Option.bind_eq_some_iff.1 hplace
  have hcount := CostToGo.cutCount_installCut hv
  have hnode : weight { n with costToGo := v, model := m } = weight n + new.toNat := by
    simp only [weight, hterminal, Bool.false_eq_true, if_false, hcount]
  have hinner := CostToGo.sum_map_modify weight (fun _ => { n with costToGo := v, model := m }) hk
  rw [← List.set_eq_modify] at hinner
  have houter := CostToGo.sum_map_modify (fun row => (row.map weight).sum)
    (fun row => row.set n.markov { n with costToGo := v, model := m }) hrow
  rw [cutCount_eq_sum, cutCount_eq_sum, putNode]
  dsimp only at houter hinner ⊢
  omega

/-- A replay that is not refused counts what the graph stores more. -/
theorem cutCount_replay (hg : Holds g.frame Node.HasRoom g) (h : replay records g = .ok count g') :
    g'.cutCount = g.cutCount + count := by
  induction records generalizing g count with
  | nil =>
    cases h
    rfl
  | cons r records ih =>
    obtain ⟨new, g₁, rest, hr, hrest, rfl⟩ := replay_cons_eq_ok.1 h
    have hhead := cutCount_installRecord (isSettled_of_hasRoom hg) hr
    have htail := ih (holds_installRecord hg hr) hrest
    cases new <;> simp at hhead ⊢ <;> omega

/-- Reading a cut file twice. In any graph that comes about, a file without NaNs that is read to its end
counts what the graph stores more; read again it counts nothing. A file with a row that is no record or
that is refused is refused at the same record again, with the same fault. Either way the graph is what
it was after the first time, with all of its pools and programs. -/
theorem readCuts_idempotent {b : Builder K} (hbuild : build b unbuilt = .ok () g₀)
    (hreaches : Reaches g₀ g) (path text : String)
    (hnumbers : ∀ r ∈ (CutFile.read path text : List (CutRecord K) × Option (Fault K)).1,
      ∀ x ∈ r.cut.intercept :: r.cut.coefficients, Scalar.eq x x = true) :
    let records := (CutFile.read path text : List (CutRecord K) × Option (Fault K)).1
    let first := attempt (readCuts path text) g
    let second := attempt (readCuts path text) first.2
    (∀ count, first.1 = .ok count → first.2.cutCount = g.cutCount + count) ∧
      second = (first.1.map fun _ => 0, first.2) ∧ taken records first.2 = taken records g := by
  have hg := (isLasting_hasRoom.of_reaches (hasRoom_build hbuild) hreaches).1
  intro records first second
  obtain ⟨hagain, htaken⟩ := attempt_replay_again hg fun r hr => Cut.same_self (hnumbers r hr)
  have hattempt : ∀ g : PolicyGraph K, attempt (readCuts path text) g =
      ((attempt (replay records) g).1.bind fun count =>
        (CutFile.read (K := K) path text).2.elim (.ok count) .error,
        (attempt (replay records) g).2) := by
    intro g
    simp only [attempt, readCuts, bind, EStateM.bind]
    cases replay records g with
    | ok count g' => cases (CutFile.read (K := K) path text).2 <;> rfl
    | error e g' => rfl
  have hfirst : first = _ := hattempt g
  have hsecond : second = _ := hattempt first.2
  have hgraph : first.2 = (attempt (replay records) g).2 := by rw [hfirst]
  refine ⟨fun count hcount => ?_, ?_, hgraph ▸ htaken⟩
  · rw [hfirst] at hcount ⊢
    cases hreplay : replay records g with
    | error e g' => simp [attempt, hreplay, Except.bind] at hcount
    | ok count' g' =>
      simp only [attempt, hreplay, Except.bind] at hcount ⊢
      cases hfault : (CutFile.read (K := K) path text).2 with
      | some f => simp [hfault] at hcount
      | none =>
        obtain rfl : count' = count := by simpa [hfault] using hcount
        exact cutCount_replay hg hreplay
  · rw [hsecond, hgraph, hagain, hfirst]
    cases (attempt (replay records) g).1 with
    | error e => rfl
    | ok count => cases (CutFile.read (K := K) path text).2 <;> rfl

end PolicyGraph

/-! ## A larder whose cuts may be retired -/

namespace Larder

def unbuiltPantry : PolicyGraph ℤ := { unbuilt with template := .single .levelOneDefault }

def pantry : PolicyGraph ℤ := final (PolicyGraph.build builder) unbuiltPantry

/-- The record of a bound on the cost of the second stage. -/
def offer (intercept coefficient : ℤ) : CutRecord ℤ :=
  ⟨0, 0, none, { intercept, coefficients := [coefficient], side := .atLeast }⟩

/-- The pantry with a cut that is best at the state zero, and a lower one that has lost its row. -/
def usedPantry : PolicyGraph ℤ :=
  final PolicyGraph.clean (final (PolicyGraph.replay [offer 4 (-1)])
    (final (PolicyGraph.installCut 0 0 none (offer 9 (-3)).cut (some (.list [.real 0]))) pantry))

/-- Two records, one of them repeated. -/
def offers : List (CutRecord ℤ) := [offer 4 (-1), offer 5 (-2), offer 5 (-2)]

theorem build_pantry : PolicyGraph.build builder unbuiltPantry = .ok () pantry := by
  have hsucceeds : succeeds (PolicyGraph.build builder) unbuiltPantry = true := by decide +kernel
  exact eq_ok_final hsucceeds

theorem reaches_usedPantry : PolicyGraph.Reaches pantry usedPantry :=
  (PolicyGraph.keeps_reaches_replay _).final (PolicyGraph.Reaches.tail (.refl pantry)
    (.install 0 0 none (offer 9 (-3)).cut (some (.list [.real 0])))) |>.tail .clean

end Larder

/-- A file that brings back a cut that was retired, and a new one twice. -/
theorem PolicyGraph.readCuts_idempotent_pantry :
    let text := CutFile.textOf Larder.offers
    let records := (CutFile.read "cuts.csv" text : List (CutRecord ℤ) × Option (Fault ℤ)).1
    let first := attempt (readCuts "cuts.csv" text) Larder.usedPantry
    let second := attempt (readCuts "cuts.csv" text) first.2
    (build Larder.builder Larder.unbuiltPantry = .ok () Larder.pantry ∧
      Reaches Larder.pantry Larder.usedPantry ∧
      (∀ r ∈ records, ∀ x ∈ r.cut.intercept :: r.cut.coefficients, Scalar.eq x x = true) ∧
      succeeds (readCuts "cuts.csv" text) Larder.usedPantry = true) ∧
    (∀ count, first.1 = .ok count → first.2.cutCount = Larder.usedPantry.cutCount + count) ∧
      second = (first.1.map fun _ => 0, first.2) ∧
      taken records first.2 = taken records Larder.usedPantry := by
  intro text records first second
  have hnumbers : ∀ r ∈ records, ∀ x ∈ r.cut.intercept :: r.cut.coefficients, Scalar.eq x x = true :=
    fun _ _ _ _ => decide_eq_true rfl
  have hread : readCuts "cuts.csv" text = replay (Larder.offers.map CutFile.restamped) := by
    rw [readCuts, CutFile.read_textOf Numeral.isLegible_int]
    exact bind_pure _
  have hsucceeds : succeeds (readCuts "cuts.csv" text) Larder.usedPantry = true := by
    rw [hread]
    decide +kernel
  exact ⟨⟨Larder.build_pantry, Larder.reaches_usedPantry, hnumbers, hsucceeds⟩,
    readCuts_idempotent Larder.build_pantry Larder.reaches_usedPantry "cuts.csv" text hnumbers⟩

end DualDynamic
