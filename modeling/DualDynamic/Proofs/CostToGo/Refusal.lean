import DualDynamic.Proofs.CostToGo.Contents
import DualDynamic.Proofs.CutPool.Bookkeeping

/-!
# Refused cuts

Storing and installing are defined without a state that a fault could leave half changed. Here they are
written down change by change, in the order in which the changes are made: a pool fixes its dimension
before it compares it with the cut, puts the cut behind the others, counts it, lets it compete and
tracks the state; a cost-to-go puts its pool back before the cut gets a row. Run in this way from any
state, the only change that may come before a fault is the one of the dimension, and then the cut is what
gave the pool its dimension, so that there is no fault. What fails has changed nothing (`storing_eq`,
`installing_eq`), whatever else is wrong with the cut, its rib or its state.
-/

namespace DualDynamic

open Step

variable {K : Type}

/-- A step that changes the state only if it succeeds. -/
def Step.atomic {S A : Type} (f : S → Except (Fault K) (A × S)) : Step K S A := fun s =>
  match f s with
  | .ok (a, t) => .ok a t
  | .error e => .error e s

theorem Step.atomic_eq_ok {S A : Type} {f : S → Except (Fault K) (A × S)} {s t : S} {a : A} :
    atomic f s = .ok a t ↔ f s = .ok (a, t) := by
  unfold atomic
  cases f s <;> simp [Prod.ext_iff]

theorem Step.atomic_eq_error {S A : Type} {f : S → Except (Fault K) (A × S)} {s t : S} {e : Fault K} :
    atomic f s = .error e t ↔ f s = .error e ∧ t = s := by
  unfold atomic
  cases f s <;> simp [eq_comm]

@[simp] theorem Step.pure_apply {S A : Type} (a : A) (s : S) : (pure a : Step K S A) s = .ok a s := rfl

@[simp] theorem Step.throw_apply {S A : Type} (e : Fault K) (s : S) :
    (throw e : Step K S A) s = .error e s := rfl

@[simp] theorem Step.get_bind_apply {S A : Type} (f : S → Step K S A) (s : S) :
    (get >>= f) s = f s s := rfl

@[simp] theorem Step.modify_bind_apply {S A : Type} (f : S → S) (x : Unit → Step K S A) (s : S) :
    (modify f >>= x) s = x () (f s) := rfl

@[simp] theorem Step.map_modify_apply {S A : Type} (f : S → S) (g : Unit → A) (s : S) :
    (g <$> modify f : Step K S A) s = .ok (g ()) (f s) := rfl

/-! ## Pools -/

namespace CutPool

/-- The dimension is fixed if it is still open, and then compared with the one of a cut. -/
def fixDimension (c : Cut K) : Step K (CutPool K) Unit := do
  modify fun p => { p with dimension := some (p.dimension.getD c.dimension) }
  let p ← get
  if some c.dimension != p.dimension then throw (.cutDimension c.dimension p.dimension)

/-- A pool that has no dimension yet takes the one of the cut, and then does not refuse it. -/
theorem fixDimension_eq (c : Cut K) :
    fixDimension c = atomic fun p : CutPool K => (p.checkCut c).map ((), ·) := by
  funext p
  rw [fixDimension, modify_bind_apply, get_bind_apply, atomic, checkCut]
  cases hknown : p.dimension with
  | none => simp [Except.map]
  | some d =>
    have hsame : { p with dimension := some d } = p := by rw [← hknown]
    by_cases h : c.dimension = d
    · simp [h, Except.map]
    · simp [h, hsame, Except.map]

variable [Numeral K]

/-- A cut that is not stored yet is put behind the others. The answer says whether that happened. -/
def append (c : Cut K) : Step K (CutPool K) Bool := do
  let p ← get
  if p.contains c then return false
  modify fun p => { p with cuts := p.cuts ++ [c] }
  return true

/-- The last cut is counted and competes at the tracked states. -/
def enter (tolerance : K) (c : Cut K) (p : CutPool K) : CutPool K :=
  let (counts, tracked) := competeAt tolerance (p.size - 1) c (p.counts ++ [0]) p.tracked
  { p with counts, tracked }

theorem enter_append (tolerance : K) (c : Cut K) (p : CutPool K) :
    enter tolerance c { p with cuts := p.cuts ++ [c] } = p.addCompeting tolerance c := by
  simp [enter, addCompeting, size]

/-- The state that came with a cut, if one did. -/
def readGiven (p : CutPool K) (c : Cut K) : Option (Datum K) → Except (Fault K) (Option (List K))
  | none => .ok none
  | some d => p.readState c d

theorem store_eq_bind (p : CutPool K) (c : Cut K) (state : Option (Datum K)) :
    p.store c state = p.readGiven c state >>= p.storeAt c := by
  cases state <;> rfl

/-- What becomes of a cut and a state in a pool that has their dimension. -/
def placing (c : Cut K) (read : Option (List K)) : Step K (CutPool K) Bool := do
  let new ← append c
  match (← get).selection with
  | .keepAll => return new
  | .levelOne tolerance =>
    if new then modify (enter tolerance c)
    match read with
    | none => return new
    | some x =>
      modify (track tolerance x)
      return new

/-- Stores a cut, change by change. -/
def storing (c : Cut K) (state : Option (Datum K)) : Step K (CutPool K) Bool := do
  let read ← Step.ofExcept ((← get).readGiven c state)
  fixDimension c
  placing c read

/-- Once the dimension is right, nothing fails any more. -/
theorem placing_eq (c : Cut K) (read : Option (List K)) {p q : CutPool K}
    (hcheck : p.checkCut c = .ok q) :
    ∃ new r, placing c read q = .ok new r ∧ p.storeAt c read = .ok (new, r) := by
  have hstored : p.storeAt c read = .ok (!q.contains c, match q.selection, read with
      | .keepAll, _ => if !q.contains c then { q with cuts := q.cuts ++ [c] } else q
      | .levelOne tolerance, none => if !q.contains c then q.addCompeting tolerance c else q
      | .levelOne tolerance, some x =>
        (if !q.contains c then q.addCompeting tolerance c else q).track tolerance x) := by
    simp only [storeAt, hcheck, bind, Except.bind]
    cases q.selection <;> cases read <;> rfl
  refine ⟨_, _, ?_, hstored⟩
  have happend : append c q =
      .ok (!q.contains c) (if !q.contains c then { q with cuts := q.cuts ++ [c] } else q) := by
    rw [append, get_bind_apply]
    cases q.contains c <;> rfl
  rw [placing, bind_of_ok happend, get_bind_apply]
  cases q.contains c with
  | true => cases hselection : q.selection <;> cases read <;> simp [hselection]
  | false =>
    cases hselection : q.selection <;> cases read <;> simp [hselection, ← enter_append]

theorem storing_eq (c : Cut K) (state : Option (Datum K)) :
    storing c state = atomic fun p : CutPool K => p.store c state := by
  funext p
  have hrun : storing c state p =
      (Step.ofExcept (p.readGiven c state) >>= fun read => fixDimension c >>= fun _ => placing c read) p :=
    rfl
  rw [hrun, atomic, store_eq_bind, fixDimension_eq]
  cases hread : p.readGiven c state with
  | error e => rfl
  | ok read =>
    rw [bind_of_ok (ofExcept_eq_ok.2 ⟨rfl, rfl⟩)]
    cases hcheck : p.checkCut c with
    | error e =>
      have hfixed : atomic (fun p : CutPool K => (p.checkCut c).map ((), ·)) p = .error e p := by
        rw [atomic, hcheck]
        rfl
      rw [bind_of_error hfixed]
      simp [bind, Except.bind, storeAt, hcheck]
    | ok q =>
      have hfixed : atomic (fun p : CutPool K => (p.checkCut c).map ((), ·)) p = .ok () q := by
        rw [atomic, hcheck]
        rfl
      obtain ⟨new, r, hplaced, hstored⟩ := placing_eq c read hcheck
      rw [bind_of_ok hfixed, hplaced, exceptBind_eq_ok.2 ⟨read, rfl, hstored⟩]

end CutPool

/-! ## Costs to go -/

namespace CostToGo

variable [Numeral K]

/-- The pool of a rib is put in its place. -/
def putPool (i : ℕ) (p : CutPool K) (s : CostToGo K × Subproblem K) : CostToGo K × Subproblem K :=
  ({ s.1 with pools := s.1.pools.set i p }, s.2)

/-- Installs a cut, change by change. -/
def installing (cut : Cut K) (rib : Option K) (state : Option (Datum K)) :
    Step K (CostToGo K × Subproblem K) Bool := do
  let v := (← get).1
  Step.ofExcept (v.checkCut cut)
  let i ← Step.ofExcept (v.ribIndex rib)
  match v.pools[i]? with
  | none => throw .outOfRange
  | some pool =>
    let new ← within (fun _ => pool) (putPool i) (CutPool.storing cut state)
    modify fun s => s.1.installRow i cut s.2
    return new

theorem installing_eq (cut : Cut K) (rib : Option K) (state : Option (Datum K)) :
    installing cut rib state = atomic fun s : CostToGo K × Subproblem K =>
      s.1.installCut cut rib state s.2 := by
  funext ⟨v, m⟩
  rw [installing, get_bind_apply, atomic, installCut]
  dsimp only
  cases v.checkCut cut with
  | error e => rw [ofExcept_error_bind_apply, exceptBind_error]
  | ok =>
    rw [ofExcept_ok_bind_apply, exceptBind_ok]
    cases v.ribIndex rib with
    | error e => rw [ofExcept_error_bind_apply, exceptBind_error]
    | ok i =>
      rw [ofExcept_ok_bind_apply, exceptBind_ok]
      cases hpool : v.pools[i]? with
      | none => rfl
      | some pool =>
        dsimp only
        cases hstore : pool.store cut state with
        | error e =>
          -- The pool that is put back is the one that was taken out.
          have hsame : v.pools.set i pool = v.pools := by
            obtain ⟨hlt, rfl⟩ := List.getElem?_eq_some_iff.1 hpool
            exact List.set_getElem_self hlt
          have hrun : within (fun _ => pool) (putPool i) (CutPool.storing cut state) (v, m) =
              .error e (v, m) := by
            rw [within, CutPool.storing_eq, atomic, hstore]
            simp only [putPool, hsame]
          rw [bind_of_error hrun, exceptBind_error]
        | ok answer =>
          have hrun : within (fun _ => pool) (putPool i) (CutPool.storing cut state) (v, m) =
              .ok answer.1 (putPool i answer.2 (v, m)) := by
            rw [within, CutPool.storing_eq, atomic, hstore]
          rw [bind_of_ok hrun, exceptBind_ok]
          rfl

/-- A refused cut changes nothing. Put through change by change, a cut that a cost-to-go of either kind
refuses, for whatever reasons, leaves the cost-to-go as it was: its pools with their cuts, dimensions,
counts, tracked states and best sets, and its installed cuts. It leaves the subproblem as it was, too. A
cut that a pool of either kind refuses leaves the pool as it was, whether the dimension of the pool is
known or not. What is refused, and with which fault, is what `installCut` and `store` say, and so is what
an accepted cut leaves behind. -/
theorem refused_cuts_change_nothing :
    (∀ (v : CostToGo K) (m : Subproblem K) (cut : Cut K) (rib : Option K) (state : Option (Datum K)),
      (∀ fault after, installing cut rib state (v, m) = .error fault after ↔
        v.installCut cut rib state m = .error fault ∧ after = (v, m)) ∧
      ∀ new after, installing cut rib state (v, m) = .ok new after ↔
        v.installCut cut rib state m = .ok (new, after)) ∧
    (∀ (p : CutPool K) (cut : Cut K) (state : Option (Datum K)),
      (∀ fault after, CutPool.storing cut state p = .error fault after ↔
        p.store cut state = .error fault ∧ after = p) ∧
      ∀ new after, CutPool.storing cut state p = .ok new after ↔
        p.store cut state = .ok (new, after)) := by
  refine ⟨fun v m cut rib state => ?_, fun p cut state => ?_⟩
  · rw [installing_eq]
    exact ⟨fun _ _ => atomic_eq_error, fun _ _ => atomic_eq_ok⟩
  · rw [CutPool.storing_eq]
    exact ⟨fun _ _ => atomic_eq_error, fun _ _ => atomic_eq_ok⟩

/-- A cut with two coefficients too many, of the wrong side, for a rib where there is none and with a state
of the wrong dimension is refused by a cost-to-go that was started, and one with such a state by a pool
that has no dimension yet; all is as before. -/
theorem refused_cuts_change_nothing_misfit :
    ∃ v₀ m₀, (single .levelOneDefault).start 1 0 Forgotten.model = .ok (v₀, m₀) ∧
      (∃ fault : Fault ℚ, fault.kind.isConstruction = true ∧
        installing ⟨0, [1, 1, 1], .atMost, none, none, none⟩ (some 7) (some (.list [])) (v₀, m₀) =
          .error fault (v₀, m₀)) ∧
      ∃ fault : Fault ℚ, fault.kind.isConstruction = true ∧
        CutPool.storing (Forgotten.bound 0 1) (some (.list [])) (.empty .levelOneDefault none) =
          .error fault (.empty .levelOneDefault none) := by
  refine ⟨_, _, rfl, ⟨_, ?_, (refused_cuts_change_nothing.1 _ _ _ _ _).1 _ _ |>.2 ⟨rfl, rfl⟩⟩,
    ⟨_, ?_, (refused_cuts_change_nothing.2 _ _ _).1 _ _ |>.2 ⟨rfl, rfl⟩⟩⟩
  · rfl
  · rfl

/-! ## Histories -/

/-- What a history says of an offer is what the attempt to install the cut leaves behind. -/
theorem after_install (s : CostToGo K × Subproblem K) (cut : Cut K) (rib : Option K)
    (state : Option (Datum K)) :
    after s (.install cut rib state) = (attempt (installing cut rib state) s).2 := by
  rw [installing_eq]
  simp only [after, attempt, atomic]
  cases s.1.installCut cut rib state s.2 <;> rfl

end CostToGo

/-- The same for a pool. -/
theorem CutPool.offer_eq_attempt [Numeral K] (p : CutPool K) (item : Cut K × Option (Datum K)) :
    p.offer item = (attempt (storing item.1 item.2) p).2 := by
  rw [storing_eq]
  simp only [offer, attempt, atomic]
  cases p.store item.1 item.2 <;> rfl

end DualDynamic
