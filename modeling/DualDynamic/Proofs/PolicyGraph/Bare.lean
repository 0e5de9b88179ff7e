import DualDynamic.Proofs.CutGeneration
import DualDynamic.Proofs.CutPool
import DualDynamic.Proofs.CutRecord
import DualDynamic.Proofs.PolicyGraph.Sound

/-!
# Bare graphs

A bare graph is what a graph stores: its places, and at each rib the numbers of the cuts, in order of
arrival. The programs are left out, and so is all that tells active cuts from retired ones and says
where cuts come from.

Cuts that are installed in a graph are installed in the bare graph (`installCut_bare`), and nothing else
that happens to a graph shows there. So what a graph stores is known from the records that it took in:
it is what the bare graph comes to that they are replayed into (`HasTaken`).
-/

namespace DualDynamic

open Step

variable {K A : Type}

variable [Numeral K]

/-! ## Pools -/

namespace CutPool

/-- What a pool stores. -/
def bare (p : CutPool K) : CutPool K :=
  { selection := .keepAll, dimension := p.dimension, cuts := p.cuts.map Cut.bare }

variable {p p' : CutPool K} {c : Cut K} {new : Bool} {state : Option (List K)}

omit [Numeral K] in
theorem checkCut_bare (p : CutPool K) (c : Cut K) :
    p.bare.checkCut c.bare = (p.checkCut c).map bare := by
  have hdimension : c.bare.dimension = c.dimension := rfl
  have hbare : p.bare.dimension = p.dimension := rfl
  rw [checkCut, checkCut, hdimension, hbare]
  split_ifs <;> rfl

/-- A pool stores the same cuts at whatever state. -/
theorem storeAt_bare (p : CutPool K) (c : Cut K) (state : Option (List K)) :
    p.bare.storeAt c.bare none = (p.storeAt c state).map (Prod.map id bare) := by
  rw [storeAt, storeAt, checkCut_bare]
  cases hcheck : p.checkCut c with
  | error e => rfl
  | ok q =>
    have hcontains : q.bare.contains c.bare = q.contains c := Cut.any_same_map_bare c.bare q.cuts
    have hadd : ∀ tolerance, (q.addCompeting tolerance c).bare =
        { q.bare with cuts := q.bare.cuts ++ [c.bare] } := by
      intro tolerance
      simp [bare, addCompeting]
    have htrack : ∀ tolerance x (q : CutPool K), (q.track tolerance x).bare = q.bare := by
      intro tolerance x q
      simp only [track]
      split <;> rfl
    have hselection : q.bare.selection = .keepAll := rfl
    simp only [Except.map, bind, Except.bind, hcontains, hselection, pure, Except.pure]
    cases q.selection with
    | keepAll =>
      cases q.contains c
      · simp [bare]
      · rfl
    | levelOne tolerance =>
      cases state <;> cases q.contains c <;> simp [hadd, htrack, hselection]

theorem store_none_bare (p : CutPool K) (c : Cut K) :
    p.bare.store c.bare none = (p.store c none).map (Prod.map id bare) := storeAt_bare p c none

theorem store_bare_of_eq_ok {state : Option (Datum K)} (h : p.store c state = .ok (new, p')) :
    p.bare.store c.bare none = .ok (new, p'.bare) := by
  have hbare : p.bare.store c.bare none = p.bare.storeAt c.bare none := rfl
  obtain ⟨x, hstore⟩ : ∃ x, p.storeAt c x = .ok (new, p') := by
    cases state with
    | none => exact ⟨none, h⟩
    | some d =>
      obtain ⟨x, -, h⟩ := exceptBind_eq_ok.1 h
      exact ⟨x, h⟩
  rw [hbare, storeAt_bare p c x, hstore]
  rfl

end CutPool

/-! ## Nodes -/

namespace CostToGo

/-- What a cost-to-go stores. -/
def bare (v : CostToGo K) : CostToGo K :=
  { selection := .keepAll, pricing := v.pricing, frame := v.frame, pools := v.pools.map CutPool.bare }

variable {v : CostToGo K} {m m₀ : Subproblem K}

theorem installRow_bare (v : CostToGo K) (i : ℕ) (cut : Cut K) (m : Subproblem K) :
    (v.installRow i cut m).1.bare = v.bare := by
  obtain ⟨installed, heq, -⟩ := exists_installRow v i cut m
  rw [heq]
  rfl

/-- A pool with one more cut, and its row. -/
theorem put_bare (v : CostToGo K) (i : ℕ) (pool : CutPool K) (cut : Cut K) (m m₀ : Subproblem K) :
    ({ v.bare with pools := v.bare.pools.set i pool.bare } : CostToGo K).installRow i cut.bare m₀ =
      (((({ v with pools := v.pools.set i pool } : CostToGo K).installRow i cut m).1).bare, m₀) := by
  rw [installRow_bare]
  simp [installRow, bare, List.map_set]

/-- The bare cost-to-go takes the cuts that the cost-to-go takes without a state. -/
theorem installCut_bare (v : CostToGo K) (cut : Cut K) (rib : Option K) (m m₀ : Subproblem K) :
    v.bare.installCut cut.bare rib none m₀ =
      (v.installCut cut rib none m).map fun (new, v', _) => (new, v'.bare, m₀) := by
  have hcheck : v.bare.checkCut cut.bare = v.checkCut cut := rfl
  have hrib : v.bare.ribIndex rib = v.ribIndex rib := rfl
  have hpools : ∀ i : ℕ, v.bare.pools[i]? = v.pools[i]?.map CutPool.bare :=
    fun i => List.getElem?_map
  rw [installCut, installCut, hcheck, hrib]
  cases v.checkCut cut with
  | error e => rfl
  | ok =>
    cases v.ribIndex rib with
    | error e => rfl
    | ok i =>
      simp only [bind, Except.bind, hpools]
      cases hpool : v.pools[i]? with
      | none => rfl
      | some pool =>
        simp only [Option.map_some, CutPool.store_none_bare]
        cases pool.store cut none with
        | error e => rfl
        | ok q => simp only [Except.map, Prod.map, id_eq, pure, Except.pure, put_bare v i q.2 cut m m₀]

/-- It takes the cuts that the cost-to-go takes at a state. -/
theorem installCut_bare_of_eq_ok {v' : CostToGo K} {m' : Subproblem K} {cut : Cut K} {rib : Option K}
    {state : Option (Datum K)} {new : Bool} (h : v.installCut cut rib state m = .ok (new, v', m'))
    (m₀ : Subproblem K) : v.bare.installCut cut.bare rib none m₀ = .ok (new, v'.bare, m₀) := by
  obtain ⟨hcheck, i, pool, pool', hrib, hpool, hstore, hrow⟩ := installCut_eq_ok h
  have hcheck' : v.bare.checkCut cut.bare = .ok () := hcheck
  have hrib' : v.bare.ribIndex rib = .ok i := hrib
  have hpool' : v.bare.pools[i]? = some pool.bare := by
    have hmap : v.bare.pools[i]? = v.pools[i]?.map CutPool.bare := List.getElem?_map
    rw [hmap, hpool, Option.map_some]
  rw [installCut, hcheck', hrib']
  simp only [bind, Except.bind, hpool', CutPool.store_bare_of_eq_ok hstore, pure, Except.pure,
    put_bare v i pool' cut m m₀]
  rw [← hrow]

theorem rebuild_bare (v : CostToGo K) (m : Subproblem K) : (v.rebuild m).1.bare = v.bare := by
  unfold rebuild
  split
  · rfl
  · exact installActive_induction (P := fun v' _ => v'.bare = v.bare) rfl
      fun _ _ _ _ _ _ h _ _ _ => h

end CostToGo

namespace Node

/-- What a node stores. -/
def bare (n : Node K) : Node K :=
  { n with costToGo := n.costToGo.bare, model := .empty "" .minimize, price := none }

/-- The bare node takes the cuts that the node takes without a state. -/
theorem installCut_bare (n : Node K) (cut : Cut K) (rib : Option K) :
    n.bare.installCut cut.bare rib none =
      (n.installCut cut rib none).map (Prod.map id Node.bare) := by
  have hterminal : n.bare.isTerminal = n.isTerminal := rfl
  have hcostToGo : n.bare.costToGo = n.costToGo.bare := rfl
  rw [installCut, installCut, hterminal, hcostToGo]
  split_ifs
  · rfl
  · rw [CostToGo.installCut_bare _ _ _ n.model]
    cases n.costToGo.installCut cut rib none n.model <;> rfl

/-- It takes the cuts that the node takes at a state. -/
theorem installCut_bare_of_eq_ok {n n' : Node K} {cut : Cut K} {rib : Option K}
    {state : Option (Datum K)} {new : Bool} (h : n.installCut cut rib state = .ok (new, n')) :
    n.bare.installCut cut.bare rib none = .ok (new, n'.bare) := by
  obtain ⟨v, m, hterminal, hinstall, rfl⟩ := installCut_eq_ok.1 h
  exact installCut_eq_ok.2 ⟨v.bare, _, hterminal, CostToGo.installCut_bare_of_eq_ok hinstall _, rfl⟩

/-! ## Setting up and solving

What is said of a node without its program, its price and its last solution stays while the node is set
up and solved. -/

variable {engine : Engine K} {I : Node K → Prop}

theorem outline_of_setLocation {v : CostToGo K} {price : Option K} {m m' : Subproblem K}
    (h : v.setLocation price m = .ok m') : m'.outline = m.outline := by
  obtain ⟨weights, -, h⟩ := exceptBind_eq_ok.1 h
  obtain rfl := Except.ok.inj h
  rfl

section Ignoring

variable (hI : ∀ n m x, I n → m.outline = n.model.outline → I { n with model := m, price := x })
include hI

omit [Numeral K] in
theorem keeps_onModel_of_ignoring {x : Run K (Subproblem K) A}
    (hx : ∀ o, Keeps (fun w => w.part.outline = o) x) : Keeps (fun w => I w.part) (onModel x) :=
  Run.keeps_within fun w hw => ⟨fun v => v.part.outline = w.part.model.outline, rfl, hx _,
    fun v hv => hI w.part v.part w.part.price hw hv⟩

theorem keeps_setPrice_of_ignoring (price : Option K) : Keeps (fun w => I w.part) (setPrice price) := by
  refine (keeps_onModel_of_ignoring hI fun _ => Subproblem.keeps_outline_setPrice price).bind
    fun _ => Run.ensures_part_bind fun w hw => ?_
  have hhere : ∀ v, v = w → I v.part := fun v hv => hv ▸ hw
  split_ifs
  · exact ensures_modify fun v hv => hI v.part v.part.model price (hhere v hv) rfl
  · refine Ensures.bind (Q := fun m v => m.outline = w.part.model.outline ∧ v = w)
      (ensures_ofExcept (fun m hm v hv => ⟨outline_of_setLocation hm, hv⟩) hhere) fun m => ?_
    rintro v ⟨hm, rfl⟩
    exact hI v.part m price hw hm

theorem keeps_solve_of_ignoring (stage markov : Option ℤ) :
    Keeps (fun w => I w.part) (onModel (Subproblem.solve engine stage markov)) :=
  keeps_onModel_of_ignoring hI fun _ => Subproblem.keeps_outline_solve stage markov

theorem keeps_setRealization_of_ignoring (k : ℤ) :
    Keeps (fun w => I w.part) (onModel (Subproblem.setRealization k)) :=
  keeps_onModel_of_ignoring hI fun _ => Subproblem.keeps_outline_setRealization k

omit [Numeral K] in
theorem keeps_setIncoming_of_ignoring (state : List K) :
    Keeps (fun w => I w.part) (onModel (Subproblem.setIncoming state)) :=
  keeps_onModel_of_ignoring hI fun _ => Subproblem.keeps_outline_setIncoming state

theorem keeps_solveRealization_of_ignoring (price : Option K) (k : ℕ) :
    Keeps (fun w => I w.part) (solveRealization engine price k) :=
  (keeps_setRealization_of_ignoring hI k).bind fun _ => (keeps_setPrice_of_ignoring hI _).bind
    fun _ => Run.keeps_part_bind fun _ _ => (keeps_solve_of_ignoring hI _ _).bind fun _ =>
      Run.keeps_part_bind fun _ _ => (keeps_ofExcept _).bind fun _ => keeps_pure _

theorem keeps_solveAll_of_ignoring (state : Option (List K)) (price : Option K) (weight : K) :
    Keeps (fun w => I w.part) (solveAll engine state price weight) :=
  Run.keeps_part_bind fun _ _ => (keeps_setIncoming_of_ignoring hI _).bind fun _ =>
    (Keeps.mapM fun _ _ => Run.keeps_part_bind fun _ _ => (keeps_ofExcept _).bind fun _ =>
      (keeps_ofExcept _).bind fun _ => Keeps.mapM fun _ _ =>
        (keeps_solveRealization_of_ignoring hI _ _).bind fun _ => keeps_pure _).bind fun _ =>
          keeps_pure _

theorem keeps_decide_of_ignoring (price : Option K) (k : ℕ) :
    Keeps (fun w => I w.part) (Simulated.decide engine price k) :=
  (keeps_setRealization_of_ignoring hI k).bind fun _ => (keeps_setPrice_of_ignoring hI _).bind
    fun _ => Run.keeps_part_bind fun _ _ => (keeps_solve_of_ignoring hI _ _).bind fun _ =>
      keeps_pure _

end Ignoring

end Node

/-! ## Graphs -/

namespace PolicyGraph

/-- What a graph stores. -/
def bare (g : PolicyGraph K) : PolicyGraph K :=
  { g with nodes := g.nodes.map fun row => row.map Node.bare, bound := none }

/-- The cuts that are stored at a rib of a node. -/
def storedAt (g : PolicyGraph K) (t k i : ℕ) : List (Cut K) :=
  (((g.nodeAt t k).bind fun n => n.costToGo.pools[i]?).map CutPool.cuts).getD []

/-- The nodes stand where they belong. -/
def IsSettled (g : PolicyGraph K) : Prop :=
  ∀ t k n, g.nodeAt t k = some n → n.stage = t ∧ n.markov = k

variable {g g' g₀ : PolicyGraph K} {n n' : Node K} {cut : Cut K} {rib : Option K}
  {state : Option (Datum K)} {stage markov : ℤ} {new : Bool}

omit [Numeral K] in
theorem itemAt_map {B : Type} (f : A → B) (xs : List A) (k : ℤ) :
    (itemAt (xs.map f) k : Except (Fault K) B) = (itemAt xs k).map f := by
  simp only [itemAt, List.length_map, List.getElem?_map]
  generalize (if k < 0 then k + xs.length else k) = i
  split_ifs
  · rfl
  · cases xs[i.toNat]? <;> rfl

omit [Numeral K] in
theorem node_bare (g : PolicyGraph K) (stage markov : ℤ) :
    g.bare.node stage markov = (g.node stage markov).map Node.bare := by
  simp only [node, bare, itemAt_map]
  cases itemAt g.nodes stage with
  | error e => rfl
  | ok row => exact itemAt_map _ _ _

omit [Numeral K] in
theorem nodeAt_bare (g : PolicyGraph K) (t k : ℕ) :
    g.bare.nodeAt t k = (g.nodeAt t k).map Node.bare := by
  simp only [nodeAt, bare, List.getElem?_map]
  cases g.nodes[t]? <;> simp

omit [Numeral K] in
theorem storedAt_bare (g : PolicyGraph K) (t k i : ℕ) :
    g.bare.storedAt t k i = (g.storedAt t k i).map Cut.bare := by
  simp only [storedAt, nodeAt_bare]
  cases g.nodeAt t k with
  | none => rfl
  | some n =>
    have hpools : n.bare.costToGo.pools[i]? = n.costToGo.pools[i]?.map CutPool.bare :=
      List.getElem?_map
    simp only [Option.map_some, Option.bind_some, hpools]
    cases n.costToGo.pools[i]? <;> rfl

omit [Numeral K] in
theorem bare_putNode (g : PolicyGraph K) (n : Node K) : (g.putNode n).bare = g.bare.putNode n.bare := by
  have hnodes : (g.putNode n).bare.nodes = (g.bare.putNode n.bare).nodes := by
    refine List.ext_getElem? fun t => ?_
    have hstage : n.bare.stage = n.stage := rfl
    have hmarkov : n.bare.markov = n.markov := rfl
    simp only [bare, putNode, List.getElem?_map, List.getElem?_modify, hstage, hmarkov]
    by_cases ht : n.stage = t <;> cases g.nodes[t]? <;> simp [ht, List.map_set]
  simp only [bare, putNode] at hnodes ⊢
  rw [hnodes]

/-- What is done with a cut that is handed in. -/
theorem installCut_eq (g : PolicyGraph K) (stage markov : ℤ) (rib : Option K) (cut : Cut K)
    (state : Option (Datum K)) : installCut stage markov rib cut state g =
      match g.node stage markov with
      | .error _ => .error (.noNode stage markov) g
      | .ok n =>
        match n.installCut cut rib state with
        | .error e => .error e g
        | .ok (new, n') => .ok new (g.putNode n') := by
  have hget : installCut stage markov rib cut state g =
      (Step.ofExcept ((g.node stage markov).mapError fun _ => .noNode stage markov) >>= fun n =>
        Step.ofExcept (n.installCut cut rib state) >>= fun q =>
          modify (fun g => g.putNode q.2) >>= fun _ => pure q.1 : Step K (PolicyGraph K) Bool) g := rfl
  rw [hget]
  cases g.node stage markov with
  | error e => rfl
  | ok n =>
    simp only [Except.mapError, Step.ofExcept, bind, EStateM.bind, pure, EStateM.pure]
    cases n.installCut cut rib state <;> rfl

theorem installCut_eq_ok : installCut stage markov rib cut state g = .ok new g' ↔
    ∃ n n', g.node stage markov = .ok n ∧ n.installCut cut rib state = .ok (new, n') ∧
      g' = g.putNode n' := by
  rw [installCut_eq]
  constructor
  · intro h
    cases hn : g.node stage markov with
    | error e => simp [hn] at h
    | ok n =>
      cases hq : n.installCut cut rib state with
      | error e => simp [hn, hq] at h
      | ok q =>
        simp only [hn, hq] at h
        cases h
        exact ⟨n, q.2, rfl, hq, rfl⟩
  · rintro ⟨n, n', hn, hinstall, rfl⟩
    simp only [hn, hinstall]

/-- A cut that is refused leaves the graph as it is. -/
theorem eq_of_installCut_eq_error {e : Fault K}
    (h : installCut stage markov rib cut state g = .error e g') : g' = g := by
  rw [installCut_eq] at h
  cases hn : g.node stage markov with
  | error e =>
    simp only [hn] at h
    cases h
    rfl
  | ok n =>
    cases hq : n.installCut cut rib state with
    | error e =>
      simp only [hn, hq] at h
      cases h
      rfl
    | ok q => simp [hn, hq] at h

/-- A bare graph takes the cuts that the graph takes at a state. -/
theorem installCut_bare_of_eq_ok (h : installCut stage markov rib cut state g = .ok new g') :
    installCut stage markov rib cut.bare none g.bare = .ok new g'.bare := by
  obtain ⟨n, n', hn, hinstall, rfl⟩ := installCut_eq_ok.1 h
  refine installCut_eq_ok.2 ⟨n.bare, n'.bare, ?_, Node.installCut_bare_of_eq_ok hinstall,
    bare_putNode g n'⟩
  rw [node_bare, hn]
  rfl

/-- A graph takes the cuts that the bare graph takes. -/
theorem exists_of_installCut_bare {b : PolicyGraph K}
    (h : installCut stage markov rib cut.bare none g.bare = .ok new b) :
    ∃ g', installCut stage markov rib cut none g = .ok new g' ∧ g'.bare = b := by
  obtain ⟨m, m', hm, hinstall, rfl⟩ := installCut_eq_ok.1 h
  rw [node_bare] at hm
  cases hn : g.node stage markov with
  | error e => simp [hn, Except.map] at hm
  | ok n =>
    rw [hn] at hm
    obtain rfl := Except.ok.inj hm
    rw [Node.installCut_bare] at hinstall
    cases hq : n.installCut cut rib none with
    | error e => simp [hq, Except.map] at hinstall
    | ok q =>
      rw [hq] at hinstall
      obtain ⟨rfl, rfl⟩ := Prod.mk.inj (Except.ok.inj hinstall)
      exact ⟨g.putNode q.2, installCut_eq_ok.2 ⟨n, q.2, hn, hq, rfl⟩, bare_putNode g q.2⟩

/-! ## Replaying -/

theorem replay_cons_eq_ok {r : CutRecord K} {records : List (CutRecord K)} {count : ℕ} :
    replay (r :: records) g = .ok count g' ↔ ∃ new g₁ rest, installRecord r g = .ok new g₁ ∧
      replay records g₁ = .ok rest g' ∧ count = if new then rest + 1 else rest := by
  constructor
  · intro h
    obtain ⟨new, g₁, hr, h⟩ := bind_eq_ok.1 h
    obtain ⟨rest, g₂, hrest, h⟩ := bind_eq_ok.1 h
    cases h
    exact ⟨new, g₁, rest, hr, hrest, rfl⟩
  · rintro ⟨new, g₁, rest, hr, hrest, rfl⟩
    exact bind_eq_ok.2 ⟨new, g₁, hr, bind_eq_ok.2 ⟨rest, g', hrest, rfl⟩⟩

theorem exists_replay_append {records more : List (CutRecord K)} {g₁ : PolicyGraph K} {count count' : ℕ}
    (h : replay records g = .ok count g₁) (hmore : replay more g₁ = .ok count' g') :
    ∃ total, replay (records ++ more) g = .ok total g' := by
  induction records generalizing g count with
  | nil =>
    cases h
    exact ⟨count', hmore⟩
  | cons r records ih =>
    obtain ⟨new, g₂, rest, hr, hrest, -⟩ := replay_cons_eq_ok.1 h
    obtain ⟨total, htotal⟩ := ih hrest
    exact ⟨_, replay_cons_eq_ok.2 ⟨new, g₂, total, hr, htotal, rfl⟩⟩

/-- A graph takes the records that the bare graph takes. -/
theorem exists_of_replay_bare {records : List (CutRecord K)} {count : ℕ} {b : PolicyGraph K}
    (h : replay (records.map CutRecord.bare) g.bare = .ok count b) :
    ∃ g', replay records g = .ok count g' ∧ g'.bare = b := by
  induction records generalizing g count with
  | nil =>
    cases h
    exact ⟨g, rfl, rfl⟩
  | cons r records ih =>
    obtain ⟨new, b₁, rest, hr, hrest, rfl⟩ := replay_cons_eq_ok.1 h
    obtain ⟨g₁, hinstall, rfl⟩ := exists_of_installCut_bare hr
    obtain ⟨g', hreplay, hbare⟩ := ih hrest
    exact ⟨g', replay_cons_eq_ok.2 ⟨new, g₁, rest, hinstall, hreplay, rfl⟩, hbare⟩

/-- The graph `g` stores what the graph `g₀` comes to store that takes in the records. -/
def HasTaken (g₀ : PolicyGraph K) (records : List (CutRecord K)) (g : PolicyGraph K) : Prop :=
  ∃ count, replay (records.map CutRecord.bare) g₀.bare = .ok count g.bare

theorem HasTaken.refl (g : PolicyGraph K) : HasTaken g [] g := ⟨0, rfl⟩

theorem HasTaken.of_bare {records : List (CutRecord K)} (h : HasTaken g₀ records g)
    (hbare : g'.bare = g.bare) : HasTaken g₀ records g' := by
  obtain ⟨count, hreplay⟩ := h
  exact ⟨count, hbare ▸ hreplay⟩

theorem HasTaken.trans {records more : List (CutRecord K)} (h : HasTaken g₀ records g)
    (hmore : HasTaken g more g') : HasTaken g₀ (records ++ more) g' := by
  obtain ⟨count, hreplay⟩ := h
  obtain ⟨count', hreplay'⟩ := hmore
  obtain ⟨total, htotal⟩ := exists_replay_append hreplay hreplay'
  exact ⟨total, by rwa [List.map_append]⟩

theorem HasTaken.of_installCut (r : CutRecord K)
    (h : installCut r.stage r.markov r.rib r.cut state g = .ok new g') : HasTaken g [r] g' :=
  ⟨_, replay_cons_eq_ok.2 ⟨new, g'.bare, 0, installCut_bare_of_eq_ok h, rfl, rfl⟩⟩

/-- Records with the same numbers are taken alike. -/
theorem HasTaken.exists_replay {records more : List (CutRecord K)} (h : HasTaken g₀ records g)
    (hmore : more.map CutRecord.bare = records.map CutRecord.bare) :
    ∃ count g', replay more g₀ = .ok count g' ∧ g'.bare = g.bare := by
  obtain ⟨count, hreplay⟩ := h
  exact ⟨count, exists_of_replay_bare (hmore ▸ hreplay)⟩

/-! ## What does not show -/

variable {engine : Engine K}

/-- What is said of nodes without their programs, their prices and their last solutions is steady. -/
theorem steady_of_ignoring {J : ℕ → ℕ → Node K → Prop} (hJ : IsPlaced J)
    (hI : ∀ t k n m x, J t k n → m.outline = n.model.outline →
      J t k { n with model := m, price := x }) : Steady engine J where
  placed := hJ
  keeps_setIncoming t k state := Node.keeps_setIncoming_of_ignoring (hI t k) state
  keeps_solveAll t k state price weight := Node.keeps_solveAll_of_ignoring (hI t k) state price weight
  keeps_decide t k price realization := Node.keeps_decide_of_ignoring (hI t k) price realization

/-- The step does nothing to a graph but set up and solve nodes. -/
def IsSolving (engine : Engine K) (x : Run K (PolicyGraph K) A) : Prop :=
  ∀ F J, Steady engine J → Keeps (fun w => Holds F J w.part) x

theorem isSolving_computeBound : IsSolving engine (computeBound engine) :=
  fun _ _ hJ => keeps_computeBound hJ

theorem isSolving_generateCut (n : Node K) (state : List K) (rib : Option K) (iteration : Option ℤ) :
    IsSolving engine (generateCut engine n state rib iteration) :=
  fun _ _ hJ => keeps_generateCut hJ n state rib iteration

theorem isSolving_simulation (stream : MersenneTwister) (query : List String) :
    IsSolving engine (Simulated.onGraph stream (Simulated.forward engine query)) :=
  fun _ _ hJ => Simulated.keeps_onGraph stream (Simulated.keeps_forward hJ query)

theorem isSolving_evaluation (plan : EvaluationPlan K) :
    IsSolving engine (Evaluation.run engine plan) := fun _ _ hJ => Evaluation.keeps_run hJ plan

/-- The node stands where it belongs and stores what the node of the graph at this place stores. -/
structure BareAt (g : PolicyGraph K) (t k : ℕ) (n : Node K) : Prop where
  stage : n.stage = t
  markov : n.markov = k
  bare : (g.nodeAt t k).map Node.bare = some n.bare

omit [Numeral K] in
theorem isPlaced_bareAt (g : PolicyGraph K) : IsPlaced g.BareAt := fun _ _ _ h => ⟨h.stage, h.markov⟩

omit [Numeral K] in
theorem IsSettled.holds (h : g.IsSettled) : Holds g.frame g.BareAt g where
  frame := rfl
  nodes t k n hn := ⟨(h t k n hn).1, (h t k n hn).2, by rw [hn]; rfl⟩

omit [Numeral K] in
theorem isSettled_of_holds {F : PolicyGraph K × List ℕ} {J : ℕ → ℕ → Node K → Prop} (hJ : IsPlaced J)
    (h : Holds F J g) : g.IsSettled := fun t k n hn => hJ t k n (h.nodes t k n hn)

omit [Numeral K] in
theorem bare_eq_of_holds (h : Holds g.frame g.BareAt g') : g'.bare = g.bare := by
  have hdata : { g' with nodes := [], bound := none } = { g with nodes := [], bound := none } :=
    congrArg Prod.fst h.frame
  have hlengths : g'.nodes.map List.length = g.nodes.map List.length := congrArg Prod.snd h.frame
  have hnodes : g'.nodes.map (fun row => row.map Node.bare) =
      g.nodes.map fun row => row.map Node.bare := by
    refine List.ext_getElem? fun t => ?_
    have hrow : g'.nodes[t]?.map List.length = g.nodes[t]?.map List.length := by
      rw [← List.getElem?_map, hlengths, List.getElem?_map]
    rw [List.getElem?_map, List.getElem?_map]
    cases hrow' : g'.nodes[t]? with
    | none =>
      rw [hrow'] at hrow
      cases hg : g.nodes[t]? with
      | none => rfl
      | some row => simp [hg] at hrow
    | some row' =>
      rw [hrow'] at hrow
      cases hg : g.nodes[t]? with
      | none => simp [hg] at hrow
      | some row =>
        have hlength : row'.length = row.length := by simpa [hg] using hrow
        refine congrArg some (List.ext_getElem? fun k => ?_)
        rw [List.getElem?_map, List.getElem?_map]
        cases hk : row'[k]? with
        | none =>
          rw [List.getElem?_eq_none_iff, hlength] at hk
          rw [List.getElem?_eq_none hk]
        | some n =>
          have hbare := (h.nodes t k n (by rw [nodeAt, hrow', Option.bind_some, hk])).bare
          rw [nodeAt, hg, Option.bind_some] at hbare
          exact hbare.symm
  have hbare : ∀ g : PolicyGraph K, g.bare =
      { { g with nodes := [], bound := none } with
        nodes := g.nodes.map fun row => row.map Node.bare } := fun _ => rfl
  rw [hbare, hbare g, hdata, hnodes]

omit [Numeral K] in
/-- What stays at every place stays in the bare graph. -/
theorem keeps_bare_of_holds {S : Type} (graph : S → PolicyGraph K) {x : Step K S A}
    (h : ∀ g : PolicyGraph K, Keeps (fun s => Holds g.frame g.BareAt (graph s)) x)
    (b : PolicyGraph K) : Keeps (fun s => (graph s).IsSettled ∧ (graph s).bare = b) x := by
  refine keeps_iff_final.2 ?_
  rintro s ⟨hsettled, rfl⟩
  have hend : Holds (graph s).frame (graph s).BareAt (graph (final x s)) :=
    (h (graph s)).final hsettled.holds
  exact ⟨isSettled_of_holds (isPlaced_bareAt _) hend, bare_eq_of_holds hend⟩

theorem steady_bareAt (g : PolicyGraph K) : Steady engine g.BareAt :=
  steady_of_ignoring (isPlaced_bareAt g) fun _ _ _ _ _ hn _ => ⟨hn.stage, hn.markov, hn.bare⟩

/-- Setting nodes up and solving them does not show in the bare graph. -/
theorem IsSolving.keeps_bare {x : Run K (PolicyGraph K) A} (hx : IsSolving engine x)
    (b : PolicyGraph K) : Keeps (fun w => w.part.IsSettled ∧ w.part.bare = b) x :=
  keeps_bare_of_holds Watched.part (fun g => hx g.frame g.BareAt (steady_bareAt g)) b

theorem bare_rebuilt (h : g.rebuilt n = .ok n') : n'.bare = n.bare := by
  obtain ⟨b, m, -, -, -, rfl⟩ := rebuilt_eq_ok h
  split_ifs
  · rfl
  · simp only [Node.bare, CostToGo.rebuild_bare]

/-- Nor does the removal of retired cuts. -/
theorem keeps_bare_clean (b : PolicyGraph K) : Keeps (fun g => g.IsSettled ∧ g.bare = b) clean := by
  refine keeps_bare_of_holds id (fun g => ?_) b
  refine keeps_clean_of_rebuilt (isPlaced_bareAt g) fun t k n g' n' hn _ hn' => ?_
  have hplace : n'.stage = n.stage ∧ n'.markov = n.markov := by
    obtain ⟨b, m, -, -, -, rfl⟩ := rebuilt_eq_ok hn'
    split_ifs <;> exact ⟨rfl, rfl⟩
  exact ⟨hplace.1.trans hn.stage, hplace.2.trans hn.markov, by rw [bare_rebuilt hn', hn.bare]⟩

end PolicyGraph

end DualDynamic
