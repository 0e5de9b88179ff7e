import DualDynamic.Proofs.LinearProgram.Cells
import DualDynamic.Proofs.Step

/-!
# Footprints

Subproblems and nodes hold a program next to data that no setting changes, their outline. `Sets s C
x` says that the step `x`, on things with the outline of `s`, writes to cells in `C` only, and that
two successful runs of it write the same: a relation that lasts while the same is written to both
sides (`IsSimulation`) lasts through both runs. In particular all cells of `C` hold the same numbers
in the end, whatever they held before (`Sets.couples`).

So a thing that was set up for something else in between, and has got more constraints since, agrees
with its former self once both are set up for the same.
-/

namespace DualDynamic

open Step LinearProgram

/-- Something that holds a linear program. -/
class Programmed (K : outParam Type) (S : Type) where
  program : S → LinearProgram K
  Rest : Type
  /-- All else that settings and solving leave as it is. -/
  rest : S → Rest
  Outline : Type
  /-- What never changes, except that a thing is built anew. -/
  outline : S → Outline
  outline_eq : ∀ {s s'}, rest s' = rest s → outline s' = outline s

open Programmed

variable {K S A B : Type} [Numeral K] [Programmed K S]

/-- The outline of `s'` is the one of `s`, and its program extends the one of `s`. -/
structure Extends (D : Set Cell) (s s' : S) : Prop where
  outline : outline s' = outline s
  program : LinearProgram.Extends D (program s) (program s')

namespace Extends

variable {D D' : Set Cell} {s s' s'' : S}

theorem refl (D : Set Cell) (s : S) : Extends D s s := ⟨rfl, .refl D _⟩

theorem trans (h : Extends D s s') (h' : Extends D s' s'') : Extends D s s'' :=
  ⟨h'.outline.trans h.outline, h.program.trans h'.program⟩

theorem mono (h : Extends D s s') (hD : D ⊆ D') : Extends D' s s' := ⟨h.outline, h.program.mono hD⟩

end Extends

/-- `s'` is like `s`, except that something may have been written to a cell of `C`. -/
structure Touches (C : Set Cell) (s s' : S) : Prop where
  rest : rest s' = rest s
  program : program s' = program s ∨
    ∃ f, ∃ d ∈ C, WritesCell f d ∧ program s' = f (program s)

/-- A property that does not look at the cells of `C`, nor at what settings and solving leave
behind. -/
def IsBlind (C : Set Cell) (I : S → Prop) : Prop := ∀ s s', Touches C s s' → I s → I s'

theorem Touches.mono {C C' : Set Cell} {s s' : S} (h : Touches C s s') (hC : C ⊆ C') :
    Touches C' s s' :=
  ⟨h.rest, h.program.imp_right fun ⟨f, d, hd, hf⟩ => ⟨f, d, hC hd, hf⟩⟩

theorem IsBlind.mono {C C' : Set Cell} {I : S → Prop} (h : IsBlind C' I) (hC : C ⊆ C') :
    IsBlind C I := fun s s' hs => h s s' (hs.mono hC)

theorem isBlind_extends {C D : Set Cell} (hC : C ⊆ D) (s : S) : IsBlind C (Extends D s) := by
  rintro t t' ⟨hrest, hsame | ⟨f, d, hd, hf, hwrite⟩⟩ h
  · exact ⟨(outline_eq hrest).trans h.outline, hsame ▸ h.program⟩
  · exact ⟨(outline_eq hrest).trans h.outline, hwrite ▸ h.program.write_right hf (hC hd)⟩

/-- `s'` is `s` with a change made to its program. -/
structure Changes (f : LinearProgram K → LinearProgram K) (s s' : S) : Prop where
  rest : rest s' = rest s
  program : program s' = f (program s)

/-- A relation between things with the outline of `s`, given the cells that were overwritten so far,
that lasts while the same is written to cells of `C` in both. -/
structure IsSimulation (s : S) (C : Set Cell) (R : Set Cell → S → S → Prop) : Prop where
  outline : ∀ {W t t'}, R W t t' → outline t = outline s ∧ outline t' = outline s
  same : ∀ {W t t' u u'}, R W t t' → Changes id t u → Changes id t' u' → R W u u'
  write : ∀ {W t t' u u' f d}, R W t t' → d ∈ C → d.IsWithin (program s).constraints.size →
    WritesCell f d → Changes f t u → Changes f t' u' → R (insert d W) u u'

theorem IsSimulation.mono {s : S} {C C' : Set Cell} {R : Set Cell → S → S → Prop}
    (h : IsSimulation s C' R) (hC : C ⊆ C') : IsSimulation s C R :=
  { h with write := fun hR hd => h.write hR (hC hd) }

/-- On things like `s`, the step writes to cells of `C` only and overwrites all of them, by what does
not depend on the program; nor does it depend on the program whether the step fails. -/
structure Sets (s : S) (C : Set Cell) (x : Run K S A) : Prop where
  keeps : ∀ I : S → Prop, IsBlind C I → (∀ t, I t → outline t = outline s) →
    Keeps (fun w => I w.part) x
  simulates : ∀ R, IsSimulation s C R → ∀ W, Couples (fun w w' => R W w.part w'.part) x x
    fun a a' w w' => a = a' ∧ R (W ∪ C) w.part w'.part
  decides : ∀ w w', outline w.part = outline s → outline w'.part = outline s →
    w'.monitor = w.monitor → Run.outcome x w' = Run.outcome x w

theorem isBlind_outline (s : S) (C : Set Cell) : IsBlind C fun t => outline t = outline s :=
  fun _ _ h hs => (outline_eq h.rest).trans hs

namespace Sets

variable {s : S} {C C' : Set Cell} {R : Set Cell → S → S → Prop}

theorem congr {x : Run K S A} (h : Sets s C x) (hC : C = C') : Sets s C' x := hC ▸ h

theorem bind {x : Run K S A} {f : A → Run K S B} (hx : Sets s C x)
    (hf : ∀ a, Sets s C' (f a)) : Sets s (C ∪ C') (x >>= f) where
  keeps I hI hs := (hx.keeps I (hI.mono Set.subset_union_left) hs).bind fun a =>
    (hf a).keeps I (hI.mono Set.subset_union_right) hs
  simulates R hR W := by
    refine (hx.simulates R (hR.mono Set.subset_union_left) W).bind fun a a' => ?_
    rintro w w' ⟨rfl, hw⟩
    rw [← Set.union_assoc]
    exact (hf a).simulates R (hR.mono Set.subset_union_right) (W ∪ C) w w' hw
  decides w w' hw hw' hmonitor := by
    have hkeeps := hx.keeps _ (isBlind_outline s C) fun _ => id
    have hfirst := hx.decides w w' hw hw' hmonitor
    cases hok : x w with
    | ok a t =>
      rw [Run.outcome_of_ok hok] at hfirst
      cases hok' : x w' with
      | ok a' t' =>
        rw [Run.outcome_of_ok hok'] at hfirst
        obtain ⟨ha, ht⟩ := Prod.mk.inj hfirst
        obtain rfl := Except.ok.inj ha
        have hrest := (hf a').decides t t' (hkeeps.of_ok hw hok) (hkeeps.of_ok hw' hok') ht
        rwa [Run.outcome, Run.outcome, attempt, attempt, bind_of_ok hok, bind_of_ok hok']
      | error e t' =>
        rw [Run.outcome_of_error hok'] at hfirst
        cases (Prod.mk.inj hfirst).1
    | error e t =>
      rw [Run.outcome_of_error hok] at hfirst
      cases hok' : x w' with
      | ok a' t' =>
        rw [Run.outcome_of_ok hok'] at hfirst
        cases (Prod.mk.inj hfirst).1
      | error e' t' =>
        rw [Run.outcome_of_error hok'] at hfirst
        obtain ⟨he, ht⟩ := Prod.mk.inj hfirst
        obtain rfl := Except.error.inj he
        rw [Run.outcome_of_error (bind_of_error hok), Run.outcome_of_error (bind_of_error hok'), ht]

theorem pure (a : A) : Sets s ∅ (Pure.pure a : Run K S A) where
  keeps _ _ _ := keeps_pure a
  simulates R _ W := couples_pure fun w w' hw => ⟨rfl, by rwa [Set.union_empty]⟩
  decides _ _ _ _ hmonitor := congrArg (Prod.mk (Except.ok a)) hmonitor

theorem throw (e : Fault K) : Sets s C (MonadExcept.throw e : Run K S A) where
  keeps _ _ _ := keeps_throw e
  simulates _ _ _ := couples_throw_left
  decides _ _ _ _ hmonitor := congrArg (Prod.mk (Except.error e)) hmonitor

/-- A result that does not depend on the program. -/
theorem ofExcept_bind {r : Except (Fault K) A} {f : A → Run K S B}
    (h : ∀ a, r = .ok a → Sets s C (f a)) : Sets s C (Step.ofExcept r >>= f) := by
  cases r with
  | ok a => exact h a rfl
  | error e => exact throw e

theorem of_eq {x y : Run K S A} (hxy : ∀ w, outline w.part = outline s → x w = y w)
    (h : Sets s C y) : Sets s C x where
  keeps I hI hs w hw := by
    rw [hxy w (hs _ hw)]
    exact h.keeps I hI hs w hw
  simulates R hR W w w' hw := by
    rw [hxy w (hR.outline hw).1, hxy w' (hR.outline hw).2]
    exact h.simulates R hR W w w' hw
  decides w w' hw hw' hmonitor := by
    have hdecides := h.decides w w' hw hw' hmonitor
    rwa [Run.outcome, Run.outcome, attempt, attempt, ← hxy w hw, ← hxy w' hw'] at hdecides

/-- A step that looks at nothing but the outline. -/
theorem part_bind {f : S → Run K S A} (hf : ∀ t, outline t = outline s → f t = f s)
    (h : Sets s C (f s)) : Sets s C (Run.part >>= f) :=
  of_eq (fun w hw => by rw [Run.part_bind_apply, hf _ hw]) h

/-- A change of what settings and solving leave behind. -/
theorem change_rest {g : S → S} (hg : ∀ t, Changes id t (g t)) : Sets s ∅ (Run.change g) where
  keeps _ hI _ := Run.keeps_change fun w hw => hI w.part _ ⟨(hg _).rest, Or.inl (hg _).program⟩ hw
  simulates R hR W := couples_modify fun w w' hw => by
    rw [Set.union_empty]
    exact ⟨rfl, hR.same hw (hg _) (hg _)⟩
  decides _ _ _ _ hmonitor := congrArg (Prod.mk (Except.ok ())) hmonitor

/-- A change that writes to a cell. -/
theorem change {g : S → S} {f : LinearProgram K → LinearProgram K} {d : Cell}
    (hf : WritesCell f d) (hg : ∀ t, Changes f t (g t))
    (hd : d.IsWithin (program s).constraints.size) : Sets s {d} (Run.change g) where
  keeps I hI _ := Run.keeps_change fun w hw =>
    hI w.part _ ⟨(hg _).rest, Or.inr ⟨f, d, rfl, hf, (hg _).program⟩⟩ hw
  simulates R hR W := couples_modify fun w w' hw => by
    rw [Set.union_singleton]
    exact ⟨rfl, hR.write hw rfl hd hf (hg _) (hg _)⟩
  decides _ _ _ _ hmonitor := congrArg (Prod.mk (Except.ok ())) hmonitor

theorem each {items : List B} {step : B → Run K S Unit} {cells : B → Set Cell}
    (h : ∀ b ∈ items, Sets s (cells b) (step b)) :
    Sets s {d | ∃ b ∈ items, d ∈ cells b} (Step.each items step) := by
  induction items with
  | nil => exact (pure ()).congr (by simp)
  | cons b items ih =>
    refine ((h b (by simp)).bind fun _ => ih fun c hc => h c (by simp [hc])).congr ?_
    ext d
    simp

/-- Things that are both `s` with other numbers in some cells and with more constraints, given the cells
in which they agree. -/
theorem isSimulation_agree {D : Set Cell} (hC : C ⊆ D) : IsSimulation s C fun W t t' =>
    Extends D s t ∧ Extends D s t' ∧ ∀ d ∈ W, d.IsWithin (program s).constraints.size →
      (program t').read d = (program t).read d where
  outline h := ⟨h.1.outline, h.2.1.outline⟩
  same {W t t' u u'} h hu hu' := by
    refine ⟨isBlind_extends (Set.empty_subset _) s t u ⟨hu.rest, Or.inl hu.program⟩ h.1,
      isBlind_extends (Set.empty_subset _) s t' u' ⟨hu'.rest, Or.inl hu'.program⟩ h.2.1, ?_⟩
    rw [hu.program, hu'.program]
    exact h.2.2
  write {W t t' u u' f d} h hd _ hf hu hu' := by
    refine ⟨isBlind_extends hC s t u ⟨hu.rest, Or.inr ⟨f, d, hd, hf, hu.program⟩⟩ h.1,
      isBlind_extends hC s t' u' ⟨hu'.rest, Or.inr ⟨f, d, hd, hf, hu'.program⟩⟩ h.2.1, ?_⟩
    intro d' hd' hwithin'
    rw [hu.program, hu'.program]
    by_cases hsame : d' = d
    · subst hsame
      exact hf.same _ _ (fun i _ => by rw [h.2.1.program.vars, h.1.program.vars])
        (hwithin'.mono h.2.1.program.rows) (hwithin'.mono h.1.program.rows)
    · rw [hf.other _ _ hsame, hf.other _ _ hsame]
      exact h.2.2 d' (Set.mem_of_mem_insert_of_ne hd' hsame) hwithin'

/-- After two runs of the step all cells of `s` hold the same, if no others than those that it
overwrites were different. -/
theorem agree {x : Run K S A} (h : Sets s C x) :
    Couples (fun w w' => Extends C s w.part ∧ Extends C s w'.part) x x fun a a' w w' =>
      a = a' ∧ Extends C s w.part ∧ Extends C s w'.part ∧
        ∀ d : Cell, d.IsWithin (program s).constraints.size →
          (program w'.part).read d = (program w.part).read d := by
  refine (h.simulates _ (isSimulation_agree subset_rfl) ∅).weaken (fun w w' hw => ?_)
    fun a a' w w' hw => ⟨hw.1, hw.2.1, hw.2.2.1, fun d hwithin => ?_⟩
  · exact ⟨hw.1, hw.2, by simp⟩
  · by_cases hd : d ∈ C
    · exact hw.2.2.2 d (Or.inr hd) hwithin
    · rw [hw.2.1.program.read d hd hwithin, hw.2.2.1.program.read d hd hwithin]

end Sets

/-! ## What was written last -/

/-- In the cells of `C` the program holds what the step writes to them when it is run on `s`. -/
def Receives (s : S) (C : Set Cell) (x : Run K S A) (p : LinearProgram K) : Prop :=
  ∃ u a w, x ⟨u, s⟩ = .ok a w ∧ ∀ d ∈ C, p.read d = (program w.part).read d

/-- Writing elsewhere does not change it. -/
theorem isBlind_receives {s : S} {C C' : Set Cell} (hdisjoint : Disjoint C C') (x : Run K S A) :
    IsBlind C' fun t : S => Receives s C x (program t) := by
  rintro t t' ⟨-, hsame | ⟨f, d, hd, hf, hwrite⟩⟩ ⟨u, a, w, hx, hread⟩
  · exact ⟨u, a, w, hx, hsame ▸ hread⟩
  · refine ⟨u, a, w, hx, fun d' hd' => ?_⟩
    have hne : d' ≠ d := fun heq => Set.disjoint_left.1 hdisjoint hd' (heq ▸ hd)
    rw [hwrite, hf.other _ _ hne]
    exact hread d' hd'

section Receives

variable {s : S} {C : Set Cell} {x : Run K S A} (h : Sets s C x)
  (hC : ∀ d ∈ C, d.IsWithin (program s).constraints.size)
include h hC

/-- A step that sets something up writes the same as on the original. -/
theorem Sets.receives {w v : Watched S} {a : A} (hw : Extends Set.univ s w.part)
    (hx : x w = .ok a v) : Receives s C x (program v.part) := by
  have houtcome := h.decides ⟨w.monitor, s⟩ w rfl hw.outline rfl
  have hsucceeds : succeeds x ⟨w.monitor, s⟩ = true := by
    rw [← Run.succeeds_congr houtcome]
    unfold Step.succeeds
    rw [hx]
  obtain ⟨b, hb⟩ := exists_eq_ok_final hsucceeds
  obtain ⟨-, -, -, hread⟩ := h.simulates _ (isSimulation_agree (Set.subset_univ C)) ∅
    ⟨w.monitor, s⟩ w ⟨.refl _ s, hw, by simp⟩ b _ hb a v hx
  exact ⟨w.monitor, b, _, hb, fun d hd => hread d (Or.inr hd) (hC d hd)⟩

/-- What it writes is determined. -/
theorem Sets.read_eq_of_receives {p q : LinearProgram K} (hp : Receives s C x p)
    (hq : Receives s C x q) : ∀ d ∈ C, q.read d = p.read d := by
  obtain ⟨u, a, w, hw, hp⟩ := hp
  obtain ⟨u', a', w', hw', hq⟩ := hq
  obtain ⟨-, -, -, hread⟩ := h.agree ⟨u, s⟩ ⟨u', s⟩ ⟨.refl _ s, .refl _ s⟩ a w hw a' w' hw'
  exact fun d hd => by rw [hp d hd, hq d hd, hread d (hC d hd)]

end Receives

end DualDynamic
