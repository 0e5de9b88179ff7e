import DualDynamic.CutPool.Cursor
import DualDynamic.Proofs.CutPool.Bookkeeping
import DualDynamic.Proofs.Exact

/-!
# Walks through a pool that grows

Any number of cursors walk through a pool while cuts are offered to it, in any order of events. A walk
keeps what its cursor has answered so far, each answer with the pool at that moment (`Turn`). The law
is about one turn after others (`Turn.IsLawful`): what it yields is ahead of what was yielded, what lies
between was retired at that moment, and behind the end nothing is yielded. What a walk yields, passes
over and has passed at its end follows from the law alone.

Every event keeps the law (`Scene.IsSafe.step`). An offer does not disturb a walk because a pool keeps
its cuts at their positions and never forgets that it tracks states, so that a cursor that skips goes
on skipping the right cuts.
-/

namespace DualDynamic

namespace CutPool

variable {K : Type}

/-! ## One turn of a cursor -/

/-- The answer of a cursor, with the pool that it looked at. -/
structure Turn (K : Type) where
  pool : CutPool K
  answer : Option (ℕ × Cut K)

/-- The position at which a turn stops: that of the cut that it yields, or the end. -/
def Turn.stop (turn : Turn K) : ℕ :=
  match turn.answer with
  | some (i, _) => i
  | none => turn.pool.size

/-- The positions that were yielded. -/
def positions (turns : List (Turn K)) : List ℕ := turns.filterMap fun turn => turn.answer.map Prod.fst

/-- The position behind the cut that was yielded last. -/
def reached (turns : List (Turn K)) : ℕ := ((positions turns).getLast?.map (· + 1)).getD 0

/-- No turn has reported the end. -/
def IsOpen (turns : List (Turn K)) : Prop := ∀ turn ∈ turns, turn.answer ≠ none

/-- A turn after others passes over a position: it comes to it and does not yield it. -/
def Turn.PassesOver (before : List (Turn K)) (turn : Turn K) (j : ℕ) : Prop :=
  IsOpen before ∧ reached before ≤ j ∧ j < turn.stop

/-- A turn after others is as it should be: what it yields is ahead, stored there and, for a cursor
that skips, active; what it passes over is skipped because it is retired; after the end there is only
the end. -/
structure Turn.IsLawful (skips : Bool) (before : List (Turn K)) (turn : Turn K) : Prop where
  yields : ∀ i c, turn.answer = some (i, c) → IsOpen before ∧ reached before ≤ i ∧
    turn.pool.cuts[i]? = some c ∧ (skips = true → i ∈ turn.pool.activePositions)
  passes : ∀ j, turn.PassesOver before j → skips = true ∧ j ∉ turn.pool.activePositions

@[simp] theorem positions_concat (turns : List (Turn K)) (turn : Turn K) :
    positions (turns ++ [turn]) = positions turns ++ (turn.answer.map Prod.fst).toList := by
  unfold positions
  rw [List.filterMap_append]
  cases hanswer : turn.answer <;> simp [hanswer]

theorem isOpen_concat {turns : List (Turn K)} {turn : Turn K} :
    IsOpen (turns ++ [turn]) ↔ IsOpen turns ∧ turn.answer ≠ none := by
  unfold IsOpen
  rw [List.forall_mem_append, List.forall_mem_singleton]

theorem reached_concat (turns : List (Turn K)) (turn : Turn K) :
    reached (turns ++ [turn]) = (turn.answer.map fun y => y.1 + 1).getD (reached turns) := by
  unfold reached
  rw [positions_concat]
  cases turn.answer <;> simp

/-- What a cursor does next: it stops at the first position ahead that is not to be skipped. -/
theorem Cursor.next_cases (p : CutPool K) {c : Cursor} (hopen : c.ended = false) :
    (∃ i cut, c.next p = (some (i, cut), { c with position := i + 1 }) ∧ c.position ≤ i ∧
        p.cuts[i]? = some cut ∧ (c.skips = true → p.isBest i = true) ∧
        ∀ j, c.position ≤ j → j < i → c.skips = true ∧ p.isBest j = false) ∨
      (c.next p = (none, { c with position := p.size, ended := true }) ∧
        ∀ j, c.position ≤ j → j < p.size → c.skips = true ∧ p.isBest j = false) := by
  unfold Cursor.next Cursor.stops
  rw [hopen, List.head?_filter]
  cases hfound : (List.range p.size).find? fun i =>
      decide (c.position ≤ i) && (!c.skips || p.isBest i) with
  | none =>
    refine Or.inr ⟨rfl, fun j hahead hj => ?_⟩
    have hskipped := List.find?_eq_none.1 hfound j (List.mem_range.2 hj)
    simpa [hahead] using hskipped
  | some i =>
    obtain ⟨hi, hrange, hbefore⟩ := List.find?_range_eq_some.1 hfound
    have hsize : i < p.cuts.length := List.mem_range.1 hrange
    have hcut : p.cuts[i]? = some p.cuts[i] := List.getElem?_eq_getElem hsize
    simp only [Bool.and_eq_true, decide_eq_true_eq, Bool.or_eq_true] at hi
    refine Or.inl ⟨i, p.cuts[i], by simp [hcut], hi.1, hcut, fun hskips => ?_, fun j hahead hj => ?_⟩
    · simpa [hskips] using hi.2
    · simpa [hahead] using hbefore j hj

/-! ## Turns one after the other -/

variable {skips : Bool} {turns : List (Turn K)} {turn : Turn K}

/-- Turns that are lawful one after the other. -/
def AreLawful (skips : Bool) (turns : List (Turn K)) : Prop :=
  ∀ before turn after, turns = before ++ turn :: after → turn.IsLawful skips before

/-- A list that ends in `last` is cut in front of `last` or earlier. -/
theorem concat_eq_append_cons {A : Type} {xs before after : List A} {last x : A}
    (h : xs ++ [last] = before ++ x :: after) :
    (xs = before ∧ last = x) ∨ ∃ rest, xs = before ++ x :: rest := by
  rcases List.eq_nil_or_concat' after with hafter | ⟨rest, y, hafter⟩ <;> subst hafter
  · obtain ⟨hxs, hx⟩ := List.append_inj' h rfl
    exact Or.inl ⟨hxs, (List.cons.inj hx).1⟩
  · rw [← List.cons_append, ← List.append_assoc] at h
    exact Or.inr ⟨rest, (List.append_inj' h rfl).1⟩

theorem areLawful_concat :
    AreLawful skips (turns ++ [turn]) ↔ AreLawful skips turns ∧ turn.IsLawful skips turns := by
  constructor
  · intro h
    refine ⟨fun before other after hsplit => ?_, h turns turn [] rfl⟩
    exact h before other (after ++ [turn]) (by rw [hsplit]; simp)
  · intro h before other after hsplit
    rcases concat_eq_append_cons hsplit with ⟨rfl, rfl⟩ | ⟨rest, hrest⟩
    · exact h.2
    · exact h.1 before other rest hrest

theorem lt_reached_of_pairwise {i : ℕ} (h : (positions turns).Pairwise (· < ·))
    (hi : i ∈ positions turns) : i < reached turns := by
  obtain ⟨front, last, hlast⟩ := (List.eq_nil_or_concat' (positions turns)).resolve_left
    (List.ne_nil_of_mem hi)
  unfold reached
  rw [hlast] at h hi ⊢
  rw [List.getLast?_concat, Option.map_some, Option.getD_some]
  rcases List.mem_append.1 hi with hi | hi
  · have := (List.pairwise_append.1 h).2.2 i hi last (List.mem_singleton_self _)
    omega
  · obtain rfl := List.mem_singleton.1 hi
    omega

/-- The positions that are yielded increase. -/
theorem AreLawful.pairwise (h : AreLawful skips turns) : (positions turns).Pairwise (· < ·) := by
  induction turns using List.reverseRecOn with
  | nil => exact List.Pairwise.nil
  | append_singleton turns turn ih =>
    obtain ⟨hturns, hturn⟩ := areLawful_concat.1 h
    have hold := ih hturns
    rw [positions_concat]
    cases hanswer : turn.answer with
    | none => simpa using hold
    | some y =>
      have hahead := (hturn.yields y.1 y.2 hanswer).2.1
      refine List.pairwise_append.2 ⟨hold, List.pairwise_singleton _ _, fun i hi j hj => ?_⟩
      have hbehind := lt_reached_of_pairwise hold hi
      obtain rfl : j = y.1 := by simpa using hj
      omega

/-- Every position behind the last one that was yielded was yielded or passed over. -/
theorem exists_passesOver_of_lt (hopen : IsOpen turns) {j : ℕ} (hj : j < reached turns) :
    j ∈ positions turns ∨ ∃ before turn after, turns = before ++ turn :: after ∧
      turn.PassesOver before j := by
  induction turns using List.reverseRecOn with
  | nil => exact absurd hj (Nat.not_lt_zero j)
  | append_singleton turns turn ih =>
    obtain ⟨hbefore, hanswer⟩ := isOpen_concat.1 hopen
    obtain ⟨⟨i, c⟩, hi⟩ := Option.ne_none_iff_exists'.1 hanswer
    rw [reached_concat, hi] at hj
    have hj : j < i + 1 := hj
    rcases Nat.lt_or_ge j (reached turns) with hold | hahead
    · rcases ih hbefore hold with hyielded | ⟨before, other, after, rfl, hpassed⟩
      · exact Or.inl (by simp [hyielded])
      · exact Or.inr ⟨before, other, after ++ [turn], by simp, hpassed⟩
    · rcases Nat.lt_or_ge j i with hpassed | hyielded
      · have hstop : turn.stop = i := by simp [Turn.stop, hi]
        exact Or.inr ⟨turns, turn, [], rfl, hbefore, hahead, hstop ▸ hpassed⟩
      · obtain rfl : j = i := by omega
        exact Or.inl (by simp [hi])

/-! ## Walks -/

/-- A cursor, the pool on which it was opened, and its turns so far. -/
structure Walk (K : Type) where
  opened : CutPool K
  cursor : Cursor
  turns : List (Turn K)

/-- A walk at its beginning. -/
def Walk.start (p : CutPool K) : Walk K := ⟨p, Cursor.onto p, []⟩

/-- The walk after one more turn. -/
def Walk.advance (p : CutPool K) (w : Walk K) : Walk K :=
  { w with cursor := (w.cursor.next p).2, turns := w.turns ++ [⟨p, (w.cursor.next p).1⟩] }

/-- A walk is safe on a pool: its turns are lawful, the pools that they saw have grown into this one,
and the cursor stands behind what it has yielded, or at the end. -/
structure Walk.IsSafe (p : CutPool K) (w : Walk K) : Prop where
  skips : w.cursor.skips = w.opened.isSelective
  selective : w.opened.isSelective = true → p.isSelective = true
  grown : ∀ turn ∈ w.turns, turn.pool.cuts <+: p.cuts
  lawful : AreLawful w.opened.isSelective w.turns
  ended : w.cursor.ended = false ↔ IsOpen w.turns
  position : w.cursor.ended = false → w.cursor.position = reached w.turns

theorem Walk.isSafe_start (p : CutPool K) : (Walk.start p).IsSafe p := by
  refine ⟨rfl, id, ?_, ?_, ?_, fun _ => rfl⟩
  · intro turn hturn
    cases hturn
  · intro before turn after hsplit
    simp [Walk.start] at hsplit
  · simp [Walk.start, Cursor.onto, IsOpen]

theorem Walk.IsSafe.grow {p q : CutPool K} {w : Walk K} (h : w.IsSafe p) (hcuts : p.cuts <+: q.cuts)
    (hselective : p.isSelective = true → q.isSelective = true) : w.IsSafe q :=
  { h with
    selective := fun hw => hselective (h.selective hw)
    grown := fun turn hturn => (h.grown turn hturn).trans hcuts }

/-- For a cursor that skips, being best is being active. -/
theorem Walk.IsSafe.mem_activePositions {p : CutPool K} {w : Walk K} (h : w.IsSafe p)
    (hskips : w.cursor.skips = true) {i : ℕ} :
    i ∈ p.activePositions ↔ i < p.size ∧ p.isBest i = true := by
  have hselective : p.isSelective = true := h.selective (h.skips ▸ hskips)
  simp [activePositions, hselective]

/-- What the cursor has skipped on its way to where it stops is retired. -/
theorem Walk.IsSafe.retired {p : CutPool K} {w : Walk K} (h : w.IsSafe p) {stop : ℕ}
    (hskipped : ∀ j, w.cursor.position ≤ j → j < stop → w.cursor.skips = true ∧ p.isBest j = false)
    (hopen : w.cursor.ended = false) {j : ℕ} (hahead : reached w.turns ≤ j) (hj : j < stop) :
    w.cursor.skips = true ∧ j ∉ p.activePositions := by
  obtain ⟨hskips, hbest⟩ := hskipped j (h.position hopen ▸ hahead) hj
  refine ⟨hskips, fun hactive => ?_⟩
  rw [((h.mem_activePositions hskips).1 hactive).2] at hbest
  cases hbest

/-- The next turn of a safe walk is lawful. -/
theorem Walk.IsSafe.isLawful_next {p : CutPool K} {w : Walk K} (h : w.IsSafe p) :
    (⟨p, (w.cursor.next p).1⟩ : Turn K).IsLawful w.opened.isSelective w.turns := by
  rw [← h.skips]
  cases hended : w.cursor.ended with
  | true =>
    -- Behind the end there is nothing to yield and nothing to pass over.
    have hclosed : ¬ IsOpen w.turns := by
      rw [← h.ended, hended]
      decide
    have hnext : (w.cursor.next p).1 = none := by simp [Cursor.next, hended]
    rw [hnext]
    refine ⟨fun i c hanswer => ?_, fun j hj => absurd hj.1 hclosed⟩
    cases hanswer
  | false =>
    rcases Cursor.next_cases p hended with
      ⟨i, cut, hnext, hahead, hcut, hbest, hskipped⟩ | ⟨hnext, hskipped⟩
    · rw [hnext]
      refine ⟨fun i' c hanswer => ?_, fun j hj => h.retired hskipped hended hj.2.1 hj.2.2⟩
      obtain ⟨rfl, rfl⟩ := Prod.mk.inj (Option.some.inj hanswer)
      have hsize : i < p.size := (List.getElem?_eq_some_iff.1 hcut).1
      refine ⟨h.ended.1 hended, h.position hended ▸ hahead, hcut, fun hskips => ?_⟩
      exact (h.mem_activePositions hskips).2 ⟨hsize, hbest hskips⟩
    · rw [hnext]
      refine ⟨fun i c hanswer => ?_, fun j hj => h.retired hskipped hended hj.2.1 hj.2.2⟩
      cases hanswer

theorem Walk.IsSafe.advance {p : CutPool K} {w : Walk K} (h : w.IsSafe p) :
    (w.advance p).IsSafe p := by
  have hcursor : (w.cursor.next p).2.skips = w.cursor.skips ∧
      ((w.cursor.next p).2.ended = false ↔
        w.cursor.ended = false ∧ (w.cursor.next p).1 ≠ none) ∧
      ((w.cursor.next p).2.ended = false → (w.cursor.next p).2.position =
        ((w.cursor.next p).1.map fun y => y.1 + 1).getD (reached w.turns)) := by
    cases hended : w.cursor.ended with
    | true => simp [Cursor.next, hended]
    | false =>
      rcases Cursor.next_cases p hended with ⟨i, cut, hnext, -⟩ | ⟨hnext, -⟩ <;> simp [hnext, hended]
  obtain ⟨hskips, hended, hposition⟩ := hcursor
  refine ⟨hskips.trans h.skips, h.selective, ?_, ?_, ?_, fun hopen => ?_⟩
  · unfold Walk.advance
    rw [List.forall_mem_append, List.forall_mem_singleton]
    exact ⟨h.grown, List.prefix_refl _⟩
  · exact areLawful_concat.2 ⟨h.lawful, h.isLawful_next⟩
  · unfold Walk.advance
    rw [isOpen_concat, ← h.ended]
    exact hended
  · unfold Walk.advance
    rw [reached_concat]
    exact hposition hopen

/-! ## Pools that grow -/

theorem isSelective_iff {p : CutPool K} :
    p.isSelective = true ↔ p.selection.prunes = true ∧ p.tracked ≠ [] := by
  simp [isSelective]

variable [Numeral K]

/-- A pool keeps its cuts, each at its position. -/
theorem cuts_offer (p : CutPool K) (item : Cut K × Option (Datum K)) :
    p.cuts <+: (p.offer item).cuts := by
  unfold offer
  cases hstore : p.store item.1 item.2 with
  | error e => exact List.prefix_refl _
  | ok answer =>
    show p.cuts <+: answer.2.cuts
    rw [(store_eq_ok hstore).2, Cut.insertNew]
    split_ifs
    · exact List.prefix_refl _
    · exact List.prefix_append _ _

theorem tracked_track_ne_nil (tolerance : K) (state : List K) {p : CutPool K}
    (h : p.tracked ≠ []) : (p.track tolerance state).tracked ≠ [] := by
  unfold track
  dsimp only
  split
  · exact h
  · simp

/-- A pool that tells active cuts from retired ones goes on doing so. -/
theorem isSelective_offer {p : CutPool K} (h : p.isSelective = true)
    (item : Cut K × Option (Datum K)) : (p.offer item).isSelective = true := by
  obtain ⟨hprunes, htracked⟩ := isSelective_iff.1 h
  unfold offer
  cases hstore : p.store item.1 item.2 with
  | error e => exact h
  | ok answer =>
    show answer.2.isSelective = true
    obtain ⟨new, q⟩ := answer
    rw [isSelective_iff, selection_store hstore]
    refine ⟨hprunes, ?_⟩
    obtain ⟨state, hstore⟩ := exists_storeAt hstore
    cases hselection : p.selection with
    | keepAll => simp [hselection, Selection.prunes] at hprunes
    | levelOne tolerance =>
      obtain ⟨r, grown, hcheck, hgrown, hq⟩ := storeAt_levelOne hselection hstore
      have hr : r.tracked ≠ [] := by
        unfold checkCut at hcheck
        dsimp only at hcheck
        split_ifs at hcheck
        obtain rfl := Except.ok.inj hcheck
        exact htracked
      have hgrown : grown.tracked ≠ [] := by
        rw [hgrown]
        split_ifs
        · exact hr
        · rw [tracked_addCompeting]
          simpa using hr
      cases state with
      | none => rwa [show q = grown from hq]
      | some x =>
        rw [show q = grown.track tolerance x from hq]
        exact tracked_track_ne_nil tolerance x hgrown

/-! ## Any order of events -/

/-- What may happen next: a cut is offered, with or without a state; a cursor is opened; a cursor is
asked for the next cut. Cursors are numbered as they are opened. -/
inductive Event (K : Type) where
  | offer (item : Cut K × Option (Datum K))
  | start
  | advance (number : ℕ)

/-- A pool and the walks on it. -/
structure Scene (K : Type) where
  pool : CutPool K
  walks : List (Walk K) := []

namespace Scene

/-- The scene after one more event. -/
def step (s : Scene K) : Event K → Scene K
  | .offer item => { s with pool := s.pool.offer item }
  | .start => { s with walks := s.walks ++ [Walk.start s.pool] }
  | .advance number => { s with walks := s.walks.modify number (Walk.advance s.pool) }

/-- The scene after a sequence of events on a pool. -/
def run (p : CutPool K) (events : List (Event K)) : Scene K := events.foldl step { pool := p }

/-- All walks are safe. -/
def IsSafe (s : Scene K) : Prop := ∀ w ∈ s.walks, w.IsSafe s.pool

theorem IsSafe.step {s : Scene K} (h : s.IsSafe) (event : Event K) : (s.step event).IsSafe := by
  intro w hw
  cases event with
  | offer item => exact (h w hw).grow (cuts_offer _ item) fun hp => isSelective_offer hp item
  | start =>
    unfold Scene.step at hw
    rcases List.mem_append.1 hw with hw | hw
    · exact h w hw
    · obtain rfl := List.mem_singleton.1 hw
      exact Walk.isSafe_start s.pool
  | advance number =>
    unfold Scene.step at hw
    obtain ⟨j, hj⟩ := List.mem_iff_getElem?.1 hw
    rw [List.getElem?_modify] at hj
    obtain ⟨v, hv, hvw⟩ := Option.map_eq_some_iff.1 hj
    have hsafe : v.IsSafe s.pool := h v (List.mem_of_getElem? hv)
    split_ifs at hvw <;> subst hvw
    · exact hsafe.advance
    · exact hsafe

theorem IsSafe.foldl {events : List (Event K)} {s : Scene K} (h : s.IsSafe) :
    (events.foldl Scene.step s).IsSafe := by
  induction events generalizing s with
  | nil => exact h
  | cons event events ih => exact ih (h.step event)

theorem isSafe_run (p : CutPool K) (events : List (Event K)) : (run p events).IsSafe :=
  IsSafe.foldl fun w hw => by cases hw

end Scene

/-- Walking while cuts are stored is safe, for both selections, any number of cursors and any order of
events, offers that are refused included. The positions that a cursor yields increase. A cut that it
yields is stored there for good and, if the cursor was opened on a pool that told active cuts from
retired ones, is active at that moment. A cut that it passes over is retired at that moment, and a
cursor that was opened while all cuts were active passes over none. When it reports the end it has
yielded or passed over every cut that is stored by then, and it reports nothing else any more. -/
theorem walks_are_safe (selection : Selection K) (dimension : Option ℕ) (events : List (Event K)) :
    let scene := Scene.run (empty selection dimension) events
    ∀ w ∈ scene.walks,
      (positions w.turns).Pairwise (· < ·) ∧
      ∀ before turn after, w.turns = before ++ turn :: after →
        turn.pool.cuts <+: scene.pool.cuts ∧
        (∀ i c, turn.answer = some (i, c) → turn.pool.cuts[i]? = some c ∧
          (w.opened.isSelective = true → i ∈ turn.pool.activePositions)) ∧
        (∀ j, turn.PassesOver before j →
          w.opened.isSelective = true ∧ j ∉ turn.pool.activePositions) ∧
        (turn.answer = none →
          (∀ later ∈ after, later.answer = none) ∧
          (IsOpen before → ∀ j < turn.pool.size, j ∈ positions before ∨
            ∃ early other late, before ++ [turn] = early ++ other :: late ∧
              other.PassesOver early j)) := by
  intro scene w hw
  have hsafe : w.IsSafe scene.pool := Scene.isSafe_run _ events w hw
  refine ⟨hsafe.lawful.pairwise, fun before turn after hsplit => ?_⟩
  have hturn := hsafe.lawful before turn after hsplit
  refine ⟨hsafe.grown turn (by simp [hsplit]), fun i c hanswer => (hturn.yields i c hanswer).2.2,
    hturn.passes, fun hend => ⟨fun later hlater => ?_, fun hopen j hj => ?_⟩⟩
  · obtain ⟨between, rest, rfl⟩ := List.append_of_mem hlater
    have hlawful := hsafe.lawful (before ++ turn :: between) later rest (by simp [hsplit])
    -- A turn that yields has no end before it.
    by_contra hanswer
    obtain ⟨⟨i, c⟩, hi⟩ := Option.ne_none_iff_exists'.1 hanswer
    exact (hlawful.yields i c hi).1 turn (by simp) hend
  · rcases Nat.lt_or_ge j (reached before) with hbehind | hahead
    · rcases exists_passesOver_of_lt hopen hbehind with hyielded | ⟨early, other, late, rfl, hpassed⟩
      · exact Or.inl hyielded
      · exact Or.inr ⟨early, other, late ++ [turn], by simp, hpassed⟩
    · have hstop : turn.stop = turn.pool.size := by simp [Turn.stop, hend]
      exact Or.inr ⟨before, turn, [], rfl, hopen, hahead, hstop ▸ hj⟩

/-- Two cursors, the first one opened before a state is tracked. A better bound retires the first cut:
the second cursor passes over it, the first one does not, and both see a cut that came later. -/
example : ((Scene.run (empty (.levelOne (0 : ℚ)) (some 1))
    [.start, .offer (⟨1, [0], .atLeast, none, none, none⟩, some (.list [.real 0])), .start,
      .offer (⟨2, [0], .atLeast, none, none, none⟩, none), .advance 0, .advance 1, .advance 1,
      .offer (⟨0, [0, 0], .atLeast, none, none, none⟩, none),
      .offer (⟨3, [0], .atLeast, none, none, none⟩, none), .advance 1, .advance 0, .advance 0]).walks.map
    fun w => w.turns.map fun turn => turn.answer.map Prod.fst) =
      [[some 0, some 1, some 2], [some 1, none, none]] := by
  decide +kernel

end CutPool

end DualDynamic
