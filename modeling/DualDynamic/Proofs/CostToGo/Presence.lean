import DualDynamic.Proofs.CostToGo
import DualDynamic.Proofs.Cut
import DualDynamic.Proofs.CutPool

/-!
# Which active cuts have a row

A pool changes its mind about a cut when a state is tracked, the subproblem gets a row when a cut is
handed in or when the cost-to-go is rebuilt. The two do not go together: a cut that was retired when
the cost-to-go was rebuilt, and becomes active again at a state that comes with another cut, has no
row.

A ledger follows a cost-to-go through a history and books for each rib the cuts that had a cause to
get a row: those that were active at the last rebuild, and those handed in since. The rows are those
of the booked cuts. So an active cut has its row right after a rebuild, and as long as nothing has
been rebuilt.
-/

namespace DualDynamic

open Step

variable {K : Type} [Numeral K]

namespace CostToGo

/-! ## Ledgers -/

/-- What happens to a cost-to-go. -/
inductive Event (K : Type) where
  /-- A cut is handed in, perhaps with the state at which it was generated. -/
  | install (cut : Cut K) (rib : Option K) (state : Option (Datum K))
  /-- It is carried over to a new subproblem. -/
  | rebuild (model : Subproblem K)

/-- Whether the event is a rebuild. -/
def Event.isRebuild : Event K → Bool
  | install _ _ _ => false
  | rebuild _ => true

/-- A cost-to-go in its subproblem, and for each rib the cuts that had a cause to get a row. -/
structure Ledger (K : Type) where
  costToGo : CostToGo K
  model : Subproblem K
  due : ℕ → List (Cut K)

namespace Ledger

/-- A cost-to-go that has been started on a subproblem. -/
def start (template : CostToGo K) (sense : Int) (bound : K) (m : Subproblem K) :
    Except (Fault K) (Ledger K) := do
  let (v, m) ← template.start sense bound m
  return ⟨v, m, fun _ => []⟩

/-- The ledger after an event. -/
def apply (l : Ledger K) : Event K → Except (Fault K) (Ledger K)
  | .install cut rib state => do
    let i ← l.costToGo.ribIndex rib
    let (_, v, m) ← l.costToGo.installCut cut rib state l.model
    return ⟨v, m, fun j => if j = i then l.due j ++ [cut] else l.due j⟩
  | .rebuild m =>
    .ok ⟨(l.costToGo.rebuild m).1, (l.costToGo.rebuild m).2,
      fun i => (l.costToGo.pools[i]?.map CutPool.active).getD []⟩

/-- The ledger after events that all succeed. -/
def applyAll (l : Ledger K) (events : List (Event K)) : Except (Fault K) (Ledger K) :=
  events.foldlM apply l

end Ledger

/-! ## Rows -/

/-- A cut has a row on the variable of a rib. -/
def HasRow (v : CostToGo K) (m : Subproblem K) (i : ℕ) (c : Cut K) : Prop :=
  ∃ x d, v.vars[i]? = some x ∧ d ∈ v.installed.getD i [] ∧ c.same d = true ∧
    cutRow x d m ∈ m.program.constraints

/-- Whether every active cut is among the cuts that have a row. -/
def isComplete (v : CostToGo K) : Bool :=
  v.pools.zipIdx.all fun (pool, i) => pool.active.all fun c => (v.installed.getD i []).any c.same

/-- The rows of a cost-to-go are those of the cuts in `due`, each once. -/
structure IsBalanced (v : CostToGo K) (m : Subproblem K) (due : ℕ → List (Cut K)) : Prop where
  isStarted : v.frame.isSome = true
  vars : v.vars.length = v.ribCount
  pools : v.pools.length = v.ribCount
  installed : v.installed.length = v.ribCount
  booked : ∀ i, v.installed.getD i [] = (due i).foldl Cut.insertNew []
  rows : ∀ i x, v.vars[i]? = some x → ∀ d ∈ v.installed.getD i [],
    cutRow x d m ∈ m.program.constraints

variable {v : CostToGo K} {m : Subproblem K} {due : ℕ → List (Cut K)} {i : ℕ}

theorem getD_modify {A : Type} (xs : List (List A)) (f : List A → List A) {i : ℕ}
    (hi : i < xs.length) (j : ℕ) :
    (xs.modify i f).getD j [] = if j = i then f (xs.getD j []) else xs.getD j [] := by
  rw [List.getD_eq_getElem?_getD, List.getD_eq_getElem?_getD, List.getElem?_modify]
  by_cases hj : j = i
  · subst hj
    simp [List.getElem?_eq_getElem hi]
  · simp [hj, Ne.symm hj]

/-- A row that is added, or there already, is booked. -/
theorem IsBalanced.installRow (h : IsBalanced v m due) (hi : i < v.ribCount) (cut : Cut K) :
    IsBalanced (v.installRow i cut m).1 (v.installRow i cut m).2
      fun j => if j = i then due j ++ [cut] else due j := by
  have hlength : i < v.installed.length := by rw [h.installed]; exact hi
  have hbooked : ∀ j, (if j = i then due j ++ [cut] else due j).foldl Cut.insertNew [] =
      if j = i then Cut.insertNew (v.installed.getD i []) cut else v.installed.getD j [] := by
    intro j
    split_ifs with hj
    · rw [List.foldl_append, ← h.booked j, hj]
      rfl
    · exact (h.booked j).symm
  obtain ⟨x, hx⟩ : ∃ x, v.vars[i]? = some x :=
    ⟨_, List.getElem?_eq_getElem (by rw [h.vars]; exact hi)⟩
  by_cases hsame : (v.installed.getD i []).any cut.same = true
  · simp only [CostToGo.installRow, hx, if_pos hsame]
    refine ⟨h.isStarted, h.vars, h.pools, h.installed, fun j => ?_, h.rows⟩
    rw [hbooked j, Cut.insertNew, if_pos hsame]
    split_ifs with hj
    · rw [hj]
    · rfl
  · simp only [CostToGo.installRow, hx, if_neg hsame]
    have hinstalled : ∀ j, (v.installed.modify i (· ++ [cut])).getD j [] =
        if j = i then v.installed.getD i [] ++ [cut] else v.installed.getD j [] := by
      intro j
      rw [getD_modify _ _ hlength]
      split_ifs with hj
      · rw [hj]
      · rfl
    refine ⟨h.isStarted, h.vars, h.pools, (List.length_modify ..).trans h.installed,
      fun j => ?_, fun j y hy d hd => ?_⟩
    · rw [hbooked j, Cut.insertNew, if_neg hsame]
      exact hinstalled j
    · have hold : ∀ e ∈ v.installed.getD j [],
          cutRow y e m ∈ (m.program.constraints.push (cutRow x cut m)) :=
        fun e he => Array.mem_push.2 (Or.inl (h.rows j y hy e he))
      rw [hinstalled j] at hd
      split_ifs at hd with hj
      · rcases List.mem_append.1 hd with hd | hd
        · exact hold d (hj ▸ hd)
        · obtain rfl := List.mem_singleton.1 hd
          obtain rfl : x = y := Option.some.inj (by rw [← hx, ← hy, hj])
          exact Array.mem_push.2 (Or.inr rfl)
      · exact hold d hd

/-- The cuts of a rib among cuts of several ribs. -/
def cutsOf (i : ℕ) (cuts : List (ℕ × Cut K)) : List (Cut K) :=
  cuts.filterMap fun c => if c.1 = i then some c.2 else none

theorem IsBalanced.installRows (h : IsBalanced v m due) (cuts : List (ℕ × Cut K))
    (hcuts : ∀ c ∈ cuts, c.1 < v.ribCount) :
    IsBalanced (cuts.foldl (fun (v, m) (i, c) => v.installRow i c m) (v, m)).1
      (cuts.foldl (fun (v, m) (i, c) => v.installRow i c m) (v, m)).2
      fun j => due j ++ cutsOf j cuts := by
  induction cuts generalizing v m due with
  | nil => simpa [cutsOf] using h
  | cons c cuts ih =>
    rw [List.forall_mem_cons] at hcuts
    have hrow := h.installRow hcuts.1 c.2
    have hcount : (v.installRow c.1 c.2 m).1.ribCount = v.ribCount := by
      obtain ⟨installed, heq, -⟩ := exists_installRow v c.1 c.2 m
      rw [heq]
      rfl
    have hrest := ih hrow fun d hd => hcount ▸ hcuts.2 d hd
    rw [List.foldl_cons]
    convert hrest using 2 with j
    by_cases hj : j = c.1
    · simp [hj, cutsOf]
    · simp [hj, Ne.symm hj, cutsOf]

omit [Numeral K] in
/-- Pools side by side, seen from one rib. -/
theorem cutsOf_pools (f : CutPool K → List (Cut K)) (pools : List (CutPool K)) (i : ℕ) :
    cutsOf i (pools.zipIdx.flatMap fun (pool, j) => (f pool).map fun c => (j, c)) =
      (pools[i]?.map f).getD [] := by
  have hone : ∀ (cs : List (Cut K)) (j : ℕ),
      cutsOf i (cs.map fun c => (j, c)) = if j = i then cs else [] := by
    intro cs j
    by_cases hj : j = i <;> simp [cutsOf, List.filterMap_map, hj]
  have hfrom : ∀ (ps : List (CutPool K)) (start : ℕ),
      cutsOf i ((ps.zipIdx start).flatMap fun (pool, j) => (f pool).map fun c => (j, c)) =
        if start ≤ i then (ps[i - start]?.map f).getD [] else [] := by
    intro ps
    induction ps with
    | nil => simp [cutsOf]
    | cons p ps ih =>
      intro start
      rw [List.zipIdx_cons, List.flatMap_cons, cutsOf, List.filterMap_append, ← cutsOf, ← cutsOf,
        hone, ih]
      rcases lt_trichotomy start i with hlt | rfl | hgt
      · have hsucc : i - start = (i - (start + 1)) + 1 := by omega
        rw [if_neg (by omega), if_pos (by omega), if_pos (by omega), hsucc, List.getElem?_cons_succ,
          List.nil_append]
      · simp
      · rw [if_neg (by omega), if_neg (by omega), if_neg (by omega)]
        rfl
  simpa using hfrom pools 0

/-! ## Histories -/

theorem IsBalanced.installCut {v' : CostToGo K} {m' : Subproblem K} {cut : Cut K} {rib : Option K}
    {state : Option (Datum K)} {new : Bool} (h : IsBalanced v m due)
    (hrib : v.ribIndex rib = .ok i) (hcut : v.installCut cut rib state m = .ok (new, v', m')) :
    IsBalanced v' m' fun j => if j = i then due j ++ [cut] else due j := by
  obtain ⟨-, k, pool, pool', hk, hpool, -, heq⟩ := installCut_eq_ok hcut
  obtain rfl : i = k := Except.ok.inj (hrib.symm.trans hk)
  have hi : i < v.ribCount := h.pools ▸ (List.getElem?_eq_some_iff.1 hpool).1
  have hstored : IsBalanced { v with pools := v.pools.set i pool' } m due :=
    ⟨h.isStarted, h.vars, (List.length_set ..).trans h.pools, h.installed, h.booked, h.rows⟩
  have hrow := hstored.installRow hi cut
  rw [← heq] at hrow
  exact hrow

/-- A cost-to-go that is carried over has the rows of its active cuts. -/
theorem IsBalanced.rebuild (h : IsBalanced v m due) (m' : Subproblem K) :
    IsBalanced (v.rebuild m').1 (v.rebuild m').2
      fun j => (v.pools[j]?.map CutPool.active).getD [] := by
  obtain ⟨f, hf⟩ := Option.isSome_iff_exists.1 h.isStarted
  have hfresh : IsBalanced
      { v with vars := nextVariables v.ribCount m', installed := List.replicate v.ribCount [] }
      (withRibVariables f v.ribCount m') fun _ => [] := by
    have hnone := v.getD_installed_started f m'
    refine ⟨h.isStarted, by simp [nextVariables, ribCount], h.pools, by simp [ribCount],
      hnone, fun j x _ d hd => ?_⟩
    exact absurd ((hnone j) ▸ hd) List.not_mem_nil
  have hrows := hfresh.installRows (v.pools.zipIdx.flatMap fun (pool, i) =>
    pool.active.map fun c => (i, c)) ?_
  · simp only [List.nil_append, cutsOf_pools] at hrows
    simpa only [CostToGo.rebuild, hf, installActive] using hrows
  · intro c hc
    obtain ⟨⟨pool, j⟩, hpool, hc⟩ := List.mem_flatMap.1 hc
    obtain ⟨cut, -, rfl⟩ := List.mem_map.1 hc
    have hj : j < v.pools.length :=
      (List.getElem?_eq_some_iff.1 (List.mk_mem_zipIdx_iff_getElem?.1 hpool)).1
    rw [h.pools] at hj
    exact hj

namespace Ledger

variable {l l' l₀ : Ledger K} {template : CostToGo K} {sense : Int} {bound : K}
  {events : List (Event K)}

/-- What the rows of the cost-to-go in a ledger are. -/
abbrev IsBalanced (l : Ledger K) : Prop := CostToGo.IsBalanced l.costToGo l.model l.due

theorem isBalanced_start (h : start template sense bound m = .ok l) : l.IsBalanced := by
  obtain ⟨⟨v, m'⟩, hv, h⟩ := exceptBind_eq_ok.1 h
  obtain rfl := Except.ok.inj h
  obtain ⟨s, -, rfl, rfl⟩ := start_eq_ok hv
  have hnone := template.getD_installed_started ⟨s, bound, m.stateCount⟩ m
  refine ⟨rfl, length_vars_started .., length_pools_started .., length_installed_started ..,
    hnone, fun j x _ d hd => ?_⟩
  simp only [hnone j, List.not_mem_nil] at hd

theorem isBalanced_apply {e : Event K} (hl : l.IsBalanced) (h : l.apply e = .ok l') :
    l'.IsBalanced := by
  cases e with
  | install cut rib state =>
    obtain ⟨i, hi, h⟩ := exceptBind_eq_ok.1 h
    obtain ⟨⟨new, v, m⟩, hcut, h⟩ := exceptBind_eq_ok.1 h
    obtain rfl := Except.ok.inj h
    exact hl.installCut hi hcut
  | rebuild m =>
    obtain rfl := Except.ok.inj h
    exact hl.rebuild m

theorem isBalanced_applyAll (hl : l.IsBalanced) (h : l.applyAll events = .ok l') :
    l'.IsBalanced := by
  induction events generalizing l with
  | nil =>
    obtain rfl := Except.ok.inj h
    exact hl
  | cons e events ih =>
    obtain ⟨l₁, he, hrest⟩ := exceptBind_eq_ok.1 h
    exact ih (isBalanced_apply hl he) hrest

end Ledger

/-- A cut has a row exactly if it is booked. -/
theorem IsBalanced.hasRow_iff (h : IsBalanced v m due) (htrans : Scalar.EqTransitive K)
    (hi : i < v.ribCount) (c : Cut K) : HasRow v m i c ↔ (due i).any c.same = true := by
  have hany := Cut.any_foldl_insertNew htrans [] (due i) c
  rw [← h.booked i, List.nil_append] at hany
  rw [← hany, List.any_eq_true]
  constructor
  · rintro ⟨x, d, -, hd, hsame, -⟩
    exact ⟨d, hd, hsame⟩
  · rintro ⟨d, hd, hsame⟩
    have hx := List.getElem?_eq_getElem (l := v.vars) (i := i) (by rw [h.vars]; exact hi)
    exact ⟨_, d, hx, hd, hsame, h.rows i _ hx d hd⟩

theorem pools_rebuild (v : CostToGo K) (m : Subproblem K) : (v.rebuild m).1.pools = v.pools := by
  cases hf : v.frame with
  | none => simp only [rebuild, hf]
  | some f =>
    simp only [rebuild, hf]
    exact installActive_induction (P := fun v' _ => v'.pools = v.pools) rfl fun _ _ _ _ _ _ h _ _ _ => h

namespace Ledger

variable {l l' l₀ : Ledger K} {template : CostToGo K} {sense : Int} {bound : K}
  {events : List (Event K)}

/-- As long as nothing is rebuilt, a pool stores the cuts that are booked on its rib. -/
theorem cuts_applyAll (hinstalls : ∀ e ∈ events, e.isRebuild = false)
    (hl : ∀ i pool, l.costToGo.pools[i]? = some pool → pool.cuts = (l.due i).foldl Cut.insertNew [])
    (h : l.applyAll events = .ok l') {i : ℕ} {pool : CutPool K}
    (hpool : l'.costToGo.pools[i]? = some pool) :
    pool.cuts = (l'.due i).foldl Cut.insertNew [] := by
  induction events generalizing l with
  | nil =>
    obtain rfl := Except.ok.inj h
    exact hl i pool hpool
  | cons e events ih =>
    rw [List.forall_mem_cons] at hinstalls
    obtain ⟨l₁, he, hrest⟩ := exceptBind_eq_ok.1 h
    refine ih hinstalls.2 (fun j p hp => ?_) hrest
    cases e with
    | rebuild m => cases hinstalls.1
    | install cut rib state =>
      obtain ⟨k, hk, he⟩ := exceptBind_eq_ok.1 he
      obtain ⟨⟨new, v, m⟩, hcut, he⟩ := exceptBind_eq_ok.1 he
      obtain rfl := Except.ok.inj he
      obtain ⟨-, k', old, stored, hk', hold, hstore, heq⟩ := installCut_eq_ok hcut
      obtain rfl : k = k' := Except.ok.inj (hk.symm.trans hk')
      obtain ⟨installed, hfst, -⟩ :=
        exists_installRow { l.costToGo with pools := l.costToGo.pools.set k stored } k cut l.model
      obtain rfl := (congrArg Prod.fst heq).trans hfst
      dsimp only
      rcases eq_or_of_getElem?_set hp with ⟨rfl, rfl⟩ | ⟨hj, hp⟩
      · rw [if_pos rfl, List.foldl_append, ← hl j old hold, (CutPool.store_eq_ok hstore).2]
        rfl
      · rw [if_neg hj]
        exact hl j p hp

end Ledger

/-- Which active cuts are in the subproblem: after any history of cuts handed in and rebuilds, an active
cut has its row exactly if it was active at the last rebuild or was handed in for its rib since. So all
active cuts have their rows after a history that ends with a rebuild, and after one without any. -/
theorem hasRow_iff_due (htrans : Scalar.EqTransitive K) {template : CostToGo K} {sense : Int}
    {bound : K} {m : Subproblem K} {l₀ l : Ledger K} {events : List (Event K)}
    (hstart : Ledger.start template sense bound m = .ok l₀) (h : l₀.applyAll events = .ok l) {i : ℕ}
    {pool : CutPool K} (hpool : l.costToGo.pools[i]? = some pool) :
    (∀ c ∈ pool.active, HasRow l.costToGo l.model i c ↔ (l.due i).any c.same = true) ∧
    (events.getLast?.any Event.isRebuild = true ∨ events.all (fun e => !e.isRebuild) = true →
      ∀ c ∈ pool.active, c.same c = true → HasRow l.costToGo l.model i c) := by
  have hbalanced := Ledger.isBalanced_applyAll (Ledger.isBalanced_start hstart) h
  have hi : i < l.costToGo.ribCount := hbalanced.pools ▸ (List.getElem?_eq_some_iff.1 hpool).1
  refine ⟨fun c _ => hbalanced.hasRow_iff htrans hi c, fun hcases c hc hsame => ?_⟩
  rw [hbalanced.hasRow_iff htrans hi, List.any_eq_true]
  refine ⟨c, ?_, hsame⟩
  rcases hcases with hlast | hinstalls
  · -- The last event books the active cuts of the pool.
    obtain ⟨before, e, rfl⟩ : ∃ before e, events = before ++ [e] :=
      ⟨events.dropLast, _, (List.dropLast_append_getLast (by rintro rfl; simp at hlast)).symm⟩
    rw [List.getLast?_concat] at hlast
    unfold Ledger.applyAll at h
    rw [List.foldlM_append] at h
    obtain ⟨l₁, -, he⟩ := exceptBind_eq_ok.1 h
    obtain ⟨l₂, he, hend⟩ := exceptBind_eq_ok.1 he
    obtain rfl := Except.ok.inj hend
    cases e with
    | install cut rib state => cases hlast
    | rebuild m' =>
      obtain rfl := Except.ok.inj he
      simp only [pools_rebuild] at hpool
      simpa [hpool] using hc
  · have hnone : ∀ e ∈ events, e.isRebuild = false := by simpa using hinstalls
    have hstored := Ledger.cuts_applyAll hnone (fun j p hp => ?_) h hpool
    · have hmem := CutPool.mem_of_active hc
      rw [hstored] at hmem
      simpa using Cut.mem_of_mem_foldl_insertNew hmem
    · obtain ⟨⟨v, m'⟩, hv, hstart⟩ := exceptBind_eq_ok.1 hstart
      obtain rfl := Except.ok.inj hstart
      unfold CostToGo.start at hv
      split at hv
      · cases hv
      · obtain ⟨rfl, rfl⟩ := Prod.mk.inj (Except.ok.inj hv)
        rw [List.getElem?_replicate] at hp
        split_ifs at hp
        obtain rfl := Option.some.inj hp
        rfl

theorem isComplete_of_hasRow {v : CostToGo K} {m : Subproblem K}
    (h : ∀ i pool, v.pools[i]? = some pool → ∀ c ∈ pool.active, HasRow v m i c) :
    v.isComplete = true := by
  simp only [isComplete, List.all_eq_true, Prod.forall, List.mk_mem_zipIdx_iff_getElem?]
  intro pool i hpool c hc
  obtain ⟨x, d, -, hd, hsame, -⟩ := h i pool hpool c hc
  exact List.any_eq_true.2 ⟨d, hd, hsame⟩

/-! ## A cut that is forgotten -/

namespace Forgotten

/-- A subproblem with one state. -/
def model : Subproblem ℚ :=
  { title := "m"
    program := { sense := .minimize, vars := #[⟨"x", some 0, some 10, 0, false⟩, ⟨"x_in", none, none, 0, false⟩] }
    states := [0]
    localCopies := [1]
    stateCount := 1 }

/-- Lower bounds of one state. -/
def bound (intercept coefficient : ℚ) : Cut ℚ := { intercept, coefficients := [coefficient], side := .atLeast }

/-- The second cut retires the first one at the state they share; the third one comes with a state at
which the first one is best. -/
def events : List (Event ℚ) :=
  [.install (bound 0 1) none (some (.list [.real 0])),
    .install (bound 1 0) none (some (.list [.real 0])),
    .rebuild model,
    .install (bound 0 0) none (some (.list [.real 5]))]

/-- The ledger of a cost-to-go that may retire cuts. -/
def start : Except (Fault ℚ) (Ledger ℚ) := Ledger.start (.single .levelOneDefault) 1 0 model

/-- The history succeeds, and in the end an active cut has no row. -/
theorem exists_ledger : ∃ l₀ l, start = .ok l₀ ∧ l₀.applyAll events = .ok l ∧
    l.costToGo.pools.length = 1 ∧ l.costToGo.isComplete = false := by
  have hrun : ((start >>= fun l₀ => l₀.applyAll events).toOption.any fun l =>
      l.costToGo.pools.length == 1 && !l.costToGo.isComplete) = true := by
    decide +kernel
  obtain ⟨l, hl, htest⟩ := (Option.any_eq_true _ _).1 hrun
  have hok : (start >>= fun l₀ => l₀.applyAll events) = .ok l := by
    cases hx : start >>= fun l₀ => l₀.applyAll events <;> rw [hx] at hl <;> cases hl
    rfl
  obtain ⟨l₀, hstart, happly⟩ := exceptBind_eq_ok.1 hok
  simp only [Bool.and_eq_true, beq_iff_eq, Bool.not_eq_true'] at htest
  exact ⟨l₀, l, hstart, happly, htest⟩

end Forgotten

/-- Activity and rows come apart: the forgotten cut is active again and has no row. -/
theorem not_hasRow_forgotten :
    ∃ l₀ l, Forgotten.start = .ok l₀ ∧ l₀.applyAll Forgotten.events = .ok l ∧
      ¬ ∀ i pool, l.costToGo.pools[i]? = some pool →
        ∀ c ∈ pool.active, HasRow l.costToGo l.model i c := by
  obtain ⟨l₀, l, hstart, hrun, -, hincomplete⟩ := Forgotten.exists_ledger
  refine ⟨l₀, l, hstart, hrun, fun hall => ?_⟩
  rw [isComplete_of_hasRow hall] at hincomplete
  cases hincomplete

/-- In the forgetful history too, active cuts have a row if they are booked. -/
theorem hasRow_iff_due_forgotten :
    ∃ l₀ l, Forgotten.start = .ok l₀ ∧ l₀.applyAll Forgotten.events = .ok l ∧
      ∃ pool, l.costToGo.pools[0]? = some pool ∧
        ∀ c ∈ pool.active, HasRow l.costToGo l.model 0 c ↔ (l.due 0).any c.same = true := by
  obtain ⟨l₀, l, hstart, hrun, hpools, -⟩ := Forgotten.exists_ledger
  have hpool := List.getElem?_eq_getElem (l := l.costToGo.pools) (i := 0) (by omega)
  exact ⟨l₀, l, hstart, hrun, _, hpool, (hasRow_iff_due Scalar.eqTransitive hstart hrun hpool).1⟩

end CostToGo

end DualDynamic
