import DualDynamic.Proofs.CostToGo.Presence
import DualDynamic.Proofs.Subproblem.Statement

/-!
# What the subproblem holds of a cost-to-go

The cuts of a cost-to-go are kept in three places: in the pools, in the lists of installed cuts, and as
rows of the subproblem. Whatever cuts are handed in, refused ones included, and however often the
cost-to-go is carried over to another subproblem, the three stay in step (`HasContents`): the rows on
the variable of a rib are those of its installed cuts, in order and each once, and every installed cut
is stored in the pool of its rib. One step lemma for a cut and one for a rebuild carry this.
-/

namespace DualDynamic

open Step

variable {K : Type}

namespace Subproblem

/-- Rows and states are about variables that there are. -/
structure IsClosed (m : Subproblem K) : Prop where
  rows : ∀ r ∈ m.program.constraints, ∀ t ∈ r.terms, t.1 < m.program.vars.size
  states : ∀ x ∈ m.states, x < m.program.vars.size

/-- The subproblem of a new node is closed. -/
theorem isClosed_newModel [Numeral K] {g : PolicyGraph K} {recipe : Recipe K} {stage markov : ℕ}
    {m : Subproblem K} (h : g.newModel recipe stage markov = .ok m) : m.IsClosed := by
  obtain ⟨n, hlinked⟩ := PolicyGraph.isLinked_newModel h
  exact ⟨hlinked.terms, hlinked.wellFormed.states⟩

/-- The rows in which a variable occurs. -/
def rowsOn (x : ℕ) (m : Subproblem K) : List (Constraint K) :=
  m.program.constraints.toList.filter fun r => r.terms.any fun t => t.1 == x

theorem rowsOn_withConstraint (x : ℕ) (r : Constraint K) (m : Subproblem K) :
    (m.withConstraint r).rowsOn x =
      m.rowsOn x ++ if r.terms.any (fun t => t.1 == x) then [r] else [] := by
  simp only [rowsOn, withConstraint, LinearProgram.addConstraint, Array.toList_push,
    List.filter_append]
  congr 1
  split_ifs with hmentions <;> simp [hmentions]

/-- A variable that is still to come occurs nowhere. -/
theorem IsClosed.rowsOn_eq_nil {m : Subproblem K} (h : m.IsClosed) {x : ℕ}
    (hx : m.program.vars.size ≤ x) : m.rowsOn x = [] := by
  refine List.filter_eq_nil_iff.2 fun r hr => ?_
  simp only [List.any_eq_true, beq_iff_eq, not_exists, not_and]
  intro t ht htx
  have := h.rows r (Array.mem_def.2 hr) t ht
  omega

end Subproblem

namespace CostToGo

variable [Numeral K] {v v' : CostToGo K} {m m' : Subproblem K} {cut : Cut K} {i : ℕ}

/-! ## Rows of cuts -/

omit [Numeral K] in
/-- The row of a cut depends on the states of the subproblem only. -/
theorem cutRow_congr [Numeral K] (x : ℕ) (cut : Cut K) (h : m'.states = m.states) :
    cutRow x cut m' = cutRow x cut m := by
  rw [cutRow, cutRow, h]

/-- A variable that is no state occurs in the rows on it and in no other ones. -/
theorem occurs_cutRow {x y : ℕ} (hy : y ∉ m.states) (cut : Cut K) :
    ((cutRow x cut m).terms.any fun t => t.1 == y) = true ↔ y = x := by
  have hcoefficients : ∀ t ∈ List.zipWith (fun i c => (i, -c)) m.states cut.coefficients,
      t.1 ≠ y := by
    intro t ht hty
    obtain ⟨n, hn⟩ := List.mem_iff_getElem?.1 ht
    obtain ⟨s, c, hs, -, rfl⟩ := List.getElem?_zipWith_eq_some.1 hn
    obtain rfl : s = y := hty
    exact hy (List.mem_of_getElem? hs)
  rw [cutRow, List.any_cons, Bool.or_eq_true, beq_iff_eq, List.any_eq_true]
  constructor
  · rintro (hx | ⟨t, ht, hty⟩)
    · exact hx.symm
    · exact absurd (beq_iff_eq.1 hty) (hcoefficients t ht)
  · exact fun h => Or.inl h.symm

/-- On the variable of every rib the subproblem has the rows of the installed cuts, in order. -/
structure Shows (v : CostToGo K) (m : Subproblem K) : Prop where
  vars : v.vars.Nodup
  beyond : ∀ x ∈ v.vars, x ∉ m.states
  installed : v.installed.length = v.vars.length
  rows : ∀ i x, v.vars[i]? = some x →
    m.rowsOn x = (v.installed.getD i []).map fun c => cutRow x c m

theorem Shows.withRow {x : ℕ} (h : Shows v m) (hx : v.vars[i]? = some x) (cut : Cut K) :
    Shows { v with installed := v.installed.modify i (· ++ [cut]) }
      (m.withConstraint (cutRow x cut m)) := by
  have hi : i < v.installed.length := by
    rw [h.installed]
    exact (List.getElem?_eq_some_iff.1 hx).1
  refine ⟨h.vars, h.beyond, (List.length_modify ..).trans h.installed, fun j y hy => ?_⟩
  have hold : (m.withConstraint (cutRow x cut m)).rowsOn y =
      m.rowsOn y ++ if y = x then [cutRow x cut m] else [] := by
    rw [Subproblem.rowsOn_withConstraint]
    congr 1
    simp only [occurs_cutRow (h.beyond y (List.mem_of_getElem? hy)) cut]
  have hinstalled := getD_modify v.installed (· ++ [cut]) hi j
  dsimp only at hinstalled ⊢
  rw [hold, h.rows j y hy, hinstalled]
  by_cases hj : j = i
  · subst hj
    obtain rfl : x = y := Option.some.inj (hx.symm.trans hy)
    rw [if_pos rfl, if_pos rfl, List.map_append]
    rfl
  · have hxy : y ≠ x := by
      rintro rfl
      have hlt := (List.getElem?_eq_some_iff.1 hy).1
      exact hj ((List.getElem?_inj hlt h.vars).1 (hy.trans hx.symm))
    rw [if_neg hxy, if_neg hj, List.append_nil]
    rfl

theorem Shows.installRow (h : Shows v m) (i : ℕ) (cut : Cut K) :
    Shows (v.installRow i cut m).1 (v.installRow i cut m).2 := by
  rcases installRow_cases v i cut m with ⟨heq, -⟩ | ⟨x, hx, heq⟩
  · rw [heq]
    exact h
  · rw [heq]
    exact h.withRow hx cut

/-- New variables, and no rows on them. -/
theorem shows_fresh {n : ℕ} (hvars : v.vars = nextVariables n m)
    (hinstalled : v.installed = List.replicate n []) (f : Frame K) (hm : m.IsClosed) :
    Shows v (withRibVariables f n m) := by
  have hfold : ∀ (xs : List (Variable K)) (m : Subproblem K),
      (xs.foldl Subproblem.withVariable m).states = m.states ∧
      (xs.foldl Subproblem.withVariable m).program.constraints = m.program.constraints := by
    intro xs
    induction xs with
    | nil => exact fun _ => ⟨rfl, rfl⟩
    | cons x xs ih => exact fun m => ih (m.withVariable x)
  obtain ⟨hstates, hrows⟩ := hfold ((List.range n).map (ribVariable f)) m
  have hnew : ∀ x ∈ v.vars, m.program.vars.size ≤ x := by
    rw [hvars]
    intro x hx
    obtain ⟨k, -, rfl⟩ := List.mem_map.1 hx
    omega
  refine ⟨?_, fun x hx hstate => ?_, by simp [hvars, hinstalled, nextVariables], fun i x hx => ?_⟩
  · rw [hvars]
    exact List.nodup_range.map fun a b hab => Nat.add_left_cancel hab
  · have hlt := hm.states x (hstates ▸ hstate)
    have hge := hnew x hx
    omega
  · have hnil := hm.rowsOn_eq_nil (hnew x (List.mem_of_getElem? hx))
    rw [hinstalled, List.getD_eq_getElem?_getD, List.getElem?_getD_replicate_default_eq,
      List.map_nil, ← hnil]
    exact congrArg (fun rows => (rows.toList.filter fun r => r.terms.any fun t => t.1 == x)) hrows

/-! ## Contents -/

/-- Pools, installed cuts and rows are in step. -/
structure HasContents (v : CostToGo K) (m : Subproblem K) : Prop where
  balanced : IsBalanced v m fun i => v.installed.getD i []
  shows : Shows v m
  selection : ∀ (i : ℕ) (pool : CutPool K), v.pools[i]? = some pool → pool.selection = v.selection
  distinct : ∀ (i : ℕ) (pool : CutPool K), v.pools[i]? = some pool → Cut.Distinct pool.cuts
  stored : ∀ (i : ℕ) (pool : CutPool K), v.pools[i]? = some pool →
    ∀ c ∈ v.installed.getD i [], c ∈ pool.cuts ∨ pool.contains c = true
  keepAll : v.selection = .keepAll → ∀ (i : ℕ) (pool : CutPool K), v.pools[i]? = some pool →
    v.installed.getD i [] = pool.cuts

/-- The installed cuts have their rows booked. -/
theorem IsBalanced.distinct {due : ℕ → List (Cut K)} (h : IsBalanced v m due) (i : ℕ) :
    Cut.Distinct (v.installed.getD i []) := by
  rw [h.booked i]
  exact Cut.Distinct.foldl_insertNew List.Pairwise.nil _

theorem IsBalanced.self {due : ℕ → List (Cut K)} (h : IsBalanced v m due) :
    IsBalanced v m fun i => v.installed.getD i [] :=
  { h with booked := fun i => (h.distinct i).foldl_insertNew_nil.symm }

theorem hasContents_start {template : CostToGo K} {sense : Int} {bound : K} (hm : m.IsClosed)
    (h : template.start sense bound m = .ok (v, m')) : HasContents v m' := by
  have hbalanced := Ledger.isBalanced_start (l := ⟨v, m', fun _ => []⟩)
    (exceptBind_eq_ok.2 ⟨_, h, rfl⟩)
  obtain ⟨s, -, rfl, rfl⟩ := start_eq_ok h
  have hpool : ∀ (i : ℕ) (pool : CutPool K),
      (template.started ⟨s, bound, m.stateCount⟩ m).pools[i]? = some pool →
      pool = .empty template.selection (some m.stateCount) :=
    fun i pool h => eq_empty_of_mem_started _ _ _ (List.mem_of_getElem? h)
  refine ⟨hbalanced.self, shows_fresh rfl rfl _ hm, fun i pool h => ?_, fun i pool h => ?_,
    fun i pool h c hc => ?_, fun _ i pool h => ?_⟩
  · rw [hpool i pool h]
    rfl
  · rw [hpool i pool h]
    exact List.Pairwise.nil
  · simp only [getD_installed_started, List.not_mem_nil] at hc
  · rw [getD_installed_started, hpool i pool h]
    rfl

theorem selection_start {template : CostToGo K} {sense : Int} {bound : K}
    (h : template.start sense bound m = .ok (v, m')) : v.selection = template.selection := by
  obtain ⟨s, -, rfl, -⟩ := start_eq_ok h
  rfl

/-- What an accepted cut changes. -/
theorem HasContents.installCut_eq {rib : Option K} {state : Option (Datum K)} {new : Bool}
    (h : HasContents v m) (hcut : v.installCut cut rib state m = .ok (new, v', m')) :
    ∃ i x pool pool', v.ribIndex rib = .ok i ∧ v.vars[i]? = some x ∧ v.pools[i]? = some pool ∧
      pool'.selection = pool.selection ∧ pool'.cuts = Cut.insertNew pool.cuts cut ∧
      v'.selection = v.selection ∧ v'.vars = v.vars ∧ v'.pools = v.pools.set i pool' ∧
      m'.states = m.states ∧ ∀ j, v'.installed.getD j [] =
        if j = i then Cut.insertNew (v.installed.getD i []) cut else v.installed.getD j [] := by
  obtain ⟨-, i, pool, pool', hi, hpool, hstore, heq⟩ := installCut_eq_ok hcut
  have hlt : i < v.ribCount := h.balanced.pools ▸ (List.getElem?_eq_some_iff.1 hpool).1
  have hx := List.getElem?_eq_getElem (l := v.vars) (i := i) (by rw [h.balanced.vars]; exact hlt)
  have hinstalled : ∀ j, v'.installed.getD j [] =
      if j = i then Cut.insertNew (v.installed.getD i []) cut else v.installed.getD j [] := by
    intro j
    rw [(h.balanced.installCut hi hcut).booked j]
    split_ifs with hj
    · subst hj
      rw [List.foldl_append, ← h.balanced.booked j]
      rfl
    · exact (h.balanced.booked j).symm
  obtain ⟨installed, hfst, -, hstates⟩ :=
    exists_installRow { v with pools := v.pools.set i pool' } i cut m
  obtain rfl := (congrArg Prod.fst heq).trans hfst
  exact ⟨i, _, pool, pool', hi, hx, hpool, CutPool.selection_store hstore,
    (CutPool.store_eq_ok hstore).2, rfl, rfl, rfl,
    (congrArg (fun s => s.2.states) heq).trans hstates, hinstalled⟩

/-- A cut that is accepted keeps the contents in step. -/
theorem HasContents.installCut {rib : Option K} {state : Option (Datum K)} {new : Bool}
    (h : HasContents v m) (hcut : v.installCut cut rib state m = .ok (new, v', m')) :
    HasContents v' m' := by
  obtain ⟨i, x, pool, pool', hi, hx, hpool, hsel, hcuts, hselection, hvars, hpools, hstates,
    hinstalled⟩ := h.installCut_eq hcut
  have hbalanced := (h.balanced.installCut hi hcut).self
  have hshows : Shows v' m' := by
    obtain ⟨-, k, -, stored, -, -, -, heq⟩ := installCut_eq_ok hcut
    have hstored : Shows { v with pools := v.pools.set k stored } m :=
      ⟨h.shows.vars, h.shows.beyond, h.shows.installed, h.shows.rows⟩
    have hrow := hstored.installRow k cut
    rw [← heq] at hrow
    exact hrow
  -- A pool of the new cost-to-go is the one that took the cut, or an old one.
  have hcases : ∀ j p, v'.pools[j]? = some p → j = i ∧ p = pool' ∨ j ≠ i ∧ v.pools[j]? = some p :=
    fun j p hp => eq_or_of_getElem?_set (hpools ▸ hp)
  refine ⟨hbalanced, hshows, fun j p hp => ?_, fun j p hp => ?_, fun j p hp c hc => ?_,
    fun hkeep j p hp => ?_⟩
  · rw [hselection]
    rcases hcases j p hp with ⟨-, rfl⟩ | ⟨-, hp⟩
    · rw [hsel]
      exact h.selection i pool hpool
    · exact h.selection j p hp
  · rcases hcases j p hp with ⟨-, rfl⟩ | ⟨-, hp⟩
    · rw [hcuts]
      exact (h.distinct i pool hpool).insertNew cut
    · exact h.distinct j p hp
  · rw [hinstalled j] at hc
    rcases hcases j p hp with ⟨rfl, rfl⟩ | ⟨hj, hp⟩
    · rw [if_pos rfl] at hc
      have hsub : pool.cuts ⊆ p.cuts := hcuts ▸ Cut.subset_insertNew pool.cuts cut
      rcases Cut.mem_of_mem_insertNew hc with hc | rfl
      · refine (h.stored j pool hpool c hc).imp (fun hmem => hsub hmem) fun hany => ?_
        obtain ⟨d, hd, hsame⟩ := List.any_eq_true.1 hany
        exact List.any_eq_true.2 ⟨d, hsub hd, hsame⟩
      · -- The cut itself may be there under another stage or iteration.
        obtain ⟨d, hd, rfl | hsame⟩ := Cut.exists_mem_insertNew pool.cuts c
        · exact Or.inl (hcuts ▸ hd)
        · exact Or.inr (List.any_eq_true.2 ⟨d, hcuts ▸ hd, hsame⟩)
    · rw [if_neg hj] at hc
      exact h.stored j p hp c hc
  · rw [hselection] at hkeep
    rw [hinstalled j]
    rcases hcases j p hp with ⟨rfl, rfl⟩ | ⟨hj, hp⟩
    · rw [if_pos rfl, hcuts, h.keepAll hkeep j pool hpool]
    · rw [if_neg hj]
      exact h.keepAll hkeep j p hp

/-- A cut that is accepted is in the subproblem then, or one that is the same, on the variable of the
rib that it was handed in for; the rows on the other variables are left as they are. -/
theorem HasContents.accepted (h : HasContents v m) {cut : Cut K} {rib : Option K}
    {state : Option (Datum K)} {new : Bool}
    (hcut : v.installCut cut rib state m = .ok (new, v', m')) :
    ∃ i x, v.ribIndex rib = .ok i ∧ v.vars[i]? = some x ∧ v'.vars = v.vars ∧
      (∃ c ∈ v'.installed.getD i [], (c = cut ∨ cut.same c = true) ∧ cutRow x c m' ∈ m'.rowsOn x) ∧
      ∀ y ∈ v.vars, y ≠ x → m'.rowsOn y = m.rowsOn y := by
  have h' := h.installCut hcut
  obtain ⟨i, x, pool, pool', hi, hx, -, -, -, -, hvars, -, hstates, hinstalled⟩ :=
    h.installCut_eq hcut
  have hx' : v'.vars[i]? = some x := by rw [hvars, hx]
  refine ⟨i, x, hi, hx, hvars, ?_, fun y hy hyx => ?_⟩
  · obtain ⟨c, hc, hcut⟩ : ∃ c ∈ v'.installed.getD i [], c = cut ∨ cut.same c = true := by
      rw [hinstalled i, if_pos rfl]
      exact Cut.exists_mem_insertNew _ cut
    refine ⟨c, hc, hcut, ?_⟩
    rw [h'.shows.rows i x hx']
    exact List.mem_map_of_mem hc
  · obtain ⟨j, hj⟩ := List.mem_iff_getElem?.1 hy
    have hji : j ≠ i := by
      rintro rfl
      exact hyx (Option.some.inj (hj.symm.trans hx))
    rw [h'.shows.rows j y (by rw [hvars, hj]), h.shows.rows j y hj, hinstalled j, if_neg hji]
    exact List.map_congr_left fun c _ => cutRow_congr y c hstates

theorem selection_rebuild (v : CostToGo K) (m : Subproblem K) :
    (v.rebuild m).1.selection = v.selection := by
  cases hf : v.frame with
  | none => simp only [CostToGo.rebuild, hf]
  | some f =>
    simp only [CostToGo.rebuild, hf]
    exact installActive_induction (P := fun w _ => w.selection = v.selection) rfl
      fun _ _ _ _ _ _ h _ _ _ => h

theorem shows_rebuild {f : Frame K} (hf : v.frame = some f) (hm : m'.IsClosed) :
    Shows (v.rebuild m').1 (v.rebuild m').2 := by
  simp only [CostToGo.rebuild, hf]
  exact installActive_induction (P := Shows) (shows_fresh rfl rfl f hm)
    fun _ _ _ _ c _ hw hx _ _ => hw.withRow hx c

/-- A cost-to-go that is carried over shows the active cuts. -/
theorem HasContents.rebuild (h : HasContents v m) (hm : m'.IsClosed) :
    HasContents (v.rebuild m').1 (v.rebuild m').2 ∧
      ∀ (i : ℕ) (pool : CutPool K), v.pools[i]? = some pool →
        (v.rebuild m').1.installed.getD i [] = pool.active := by
  have hbalanced := h.balanced.rebuild m'
  have hpools := pools_rebuild v m'
  obtain ⟨f, hf⟩ := Option.isSome_iff_exists.1 h.balanced.isStarted
  have hshows := shows_rebuild hf hm
  have hinstalled : ∀ (i : ℕ) (pool : CutPool K), v.pools[i]? = some pool →
      (v.rebuild m').1.installed.getD i [] = pool.active := by
    intro i pool hpool
    have hactive : Cut.Distinct pool.active := (h.distinct i pool hpool).sublist pool.active_sublist
    rw [hbalanced.booked i, hpool]
    exact hactive.foldl_insertNew_nil
  refine ⟨⟨hbalanced.self, hshows, ?_, ?_, ?_, ?_⟩, hinstalled⟩
  · rw [hpools, selection_rebuild]
    exact h.selection
  · rw [hpools]
    exact h.distinct
  · rw [hpools]
    intro i pool hpool c hc
    rw [hinstalled i pool hpool] at hc
    exact Or.inl (CutPool.mem_of_active hc)
  · rw [hpools, selection_rebuild]
    intro hkeep i pool hpool
    rw [hinstalled i pool hpool]
    exact CutPool.active_keepAll ((h.selection i pool hpool).trans hkeep)

/-! ## Histories -/

/-- A cost-to-go and its subproblem after an event. A cut that is refused changes nothing. -/
def after (s : CostToGo K × Subproblem K) : Event K → CostToGo K × Subproblem K
  | .install cut rib state =>
    match s.1.installCut cut rib state s.2 with
    | .ok (_, s') => s'
    | .error _ => s
  | .rebuild m => s.1.rebuild m

/-- A cost-to-go and its subproblem after a sequence of events. -/
def afterAll (s : CostToGo K × Subproblem K) (events : List (Event K)) :
    CostToGo K × Subproblem K := events.foldl after s

theorem HasContents.after {s : CostToGo K × Subproblem K} {e : Event K} (h : HasContents s.1 s.2)
    (he : ∀ m, e = .rebuild m → m.IsClosed) :
    HasContents (CostToGo.after s e).1 (CostToGo.after s e).2 ∧
      (CostToGo.after s e).1.selection = s.1.selection := by
  cases e with
  | install cut rib state =>
    simp only [CostToGo.after]
    cases hcut : s.1.installCut cut rib state s.2 with
    | error e => exact ⟨h, rfl⟩
    | ok answer =>
      obtain ⟨i, x, pool, pool', -, -, -, -, -, hselection, -⟩ := h.installCut_eq hcut
      exact ⟨h.installCut hcut, hselection⟩
  | rebuild m => exact ⟨(h.rebuild (he m rfl)).1, selection_rebuild _ _⟩

theorem HasContents.afterAll {s : CostToGo K × Subproblem K} {events : List (Event K)}
    (h : HasContents s.1 s.2) (he : ∀ m, .rebuild m ∈ events → m.IsClosed) :
    HasContents (CostToGo.afterAll s events).1 (CostToGo.afterAll s events).2 ∧
      (CostToGo.afterAll s events).1.selection = s.1.selection := by
  induction events generalizing s with
  | nil => exact ⟨h, rfl⟩
  | cons e events ih =>
    obtain ⟨hfirst, hselection⟩ := h.after (e := e) fun m hm => he m (by simp [hm])
    obtain ⟨hrest, hkept⟩ := ih hfirst fun m hm => he m (List.mem_cons_of_mem e hm)
    exact ⟨hrest, hkept.trans hselection⟩

/-- Cuts in pools, installed cuts and rows of the subproblem stay in step. A cost-to-go of either kind
is started on a subproblem, takes cuts or refuses them, and is carried over to other subproblems. Then
every rib has its variable, and the rows that this variable occurs in are those of the cuts
installed on the rib, in order; no cut is installed twice; every installed cut is stored in the pool of
the rib; and if the pools keep all cuts active, exactly the stored cuts are installed. A cut that is
accepted next is in the subproblem then, on the variable of the rib that it was handed in for, and the
rows on the other variables are left as they are. A rebuild next leaves exactly the active cuts of each
pool installed. -/
theorem contents_stay_in_step {template v₀ : CostToGo K} {sense : Int} {bound : K}
    {m m₀ : Subproblem K} (hm : m.IsClosed) (hstart : template.start sense bound m = .ok (v₀, m₀))
    (events : List (Event K)) (hevents : ∀ m', .rebuild m' ∈ events → m'.IsClosed) :
    let s := afterAll (v₀, m₀) events
    (∀ i < s.1.ribCount, ∃ x pool, s.1.vars[i]? = some x ∧ s.1.pools[i]? = some pool ∧
      s.2.rowsOn x = (s.1.installed.getD i []).map (fun c => cutRow x c s.2) ∧
      Cut.Distinct (s.1.installed.getD i []) ∧
      (∀ c ∈ s.1.installed.getD i [], c ∈ pool.cuts ∨ pool.contains c = true) ∧
      (template.selection = .keepAll → s.1.installed.getD i [] = pool.cuts)) ∧
    (∀ cut rib state new v' m', s.1.installCut cut rib state s.2 = .ok (new, v', m') →
      ∃ i x, s.1.ribIndex rib = .ok i ∧ s.1.vars[i]? = some x ∧ v'.vars = s.1.vars ∧
        (∃ c ∈ v'.installed.getD i [], (c = cut ∨ cut.same c = true) ∧ cutRow x c m' ∈ m'.rowsOn x) ∧
        ∀ y ∈ s.1.vars, y ≠ x → m'.rowsOn y = s.2.rowsOn y) ∧
    (∀ m', m'.IsClosed → ∀ (i : ℕ) (pool : CutPool K), (s.1.rebuild m').1.pools[i]? = some pool →
      (s.1.rebuild m').1.installed.getD i [] = pool.active) := by
  intro s
  have hstarted : HasContents v₀ m₀ := hasContents_start hm hstart
  obtain ⟨h, hselection⟩ : HasContents s.1 s.2 ∧ s.1.selection = v₀.selection :=
    HasContents.afterAll (s := (v₀, m₀)) hstarted hevents
  refine ⟨fun i hi => ?_, fun cut rib state new v' m' hcut => ?_, fun m' hm' i pool hpool => ?_⟩
  · have hx := List.getElem?_eq_getElem (l := s.1.vars) (i := i) (by rw [h.balanced.vars]; exact hi)
    have hpool := List.getElem?_eq_getElem (l := s.1.pools) (i := i)
      (by rw [h.balanced.pools]; exact hi)
    refine ⟨_, _, hx, hpool, h.shows.rows i _ hx, h.balanced.distinct i, h.stored i _ hpool,
      fun hkeep => h.keepAll ?_ i _ hpool⟩
    rw [hselection, selection_start hstart, hkeep]
  · exact h.accepted hcut
  · rw [pools_rebuild] at hpool
    exact (h.rebuild hm').2 i pool hpool

/-- The history with the forgotten cut, and a cut about too many states behind it: the rows on the only
variable are those of the installed cuts. -/
theorem contents_stay_in_step_forgotten :
    let events := Forgotten.events ++ [.install ⟨0, [1, 1], .atLeast, none, none, none⟩ none none]
    (Forgotten.model.IsClosed ∧ ∀ m, .rebuild m ∈ events → m.IsClosed) ∧
    ∃ v₀ m₀, (single .levelOneDefault).start 1 0 Forgotten.model = .ok (v₀, m₀) ∧
      let s := afterAll (v₀, m₀) events
      ∀ i < s.1.ribCount, ∃ x, s.1.vars[i]? = some x ∧
        s.2.rowsOn x = (s.1.installed.getD i []).map fun c => cutRow x c s.2 := by
  intro events
  have hmodel : Forgotten.model.IsClosed :=
    ⟨fun r hr => by simp [Forgotten.model] at hr, by simp [Forgotten.model]⟩
  have hevents : ∀ m, .rebuild m ∈ events → m.IsClosed := by
    intro m hm
    simp only [events, Forgotten.events, List.cons_append, List.nil_append, List.mem_cons,
      List.not_mem_nil, or_false, reduceCtorEq, false_or, Event.rebuild.injEq] at hm
    rw [hm]
    exact hmodel
  obtain ⟨v₀, m₀, hstart⟩ : ∃ v₀ m₀, (single .levelOneDefault).start 1 0 Forgotten.model =
      .ok (v₀, m₀) := ⟨_, _, rfl⟩
  refine ⟨⟨hmodel, hevents⟩, v₀, m₀, hstart, fun i hi => ?_⟩
  obtain ⟨x, pool, hx, -, hrows, -⟩ := (contents_stay_in_step hmodel hstart events hevents).1 i hi
  exact ⟨x, hx, hrows⟩

end CostToGo

end DualDynamic
