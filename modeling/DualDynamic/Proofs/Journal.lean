import DualDynamic.Proofs.Step

/-!
# What steps leave behind

What a run has done on its way need not show in the state that it ends in. `Leaves R x left` says that the
step `x` leaves a list of things behind, `left s` if it is started in `s`, whether it fails or not; the
relation `R` says what these mean for the states at both ends, and is put together step by step
(`IsTrail`). Behind a fault nothing more is left (`onward`, `along`).
-/

namespace DualDynamic

namespace Step

variable {K S A B C : Type}

/-- What is left behind from the result of a step on, if it has one. -/
def onward (x : Step K S A) (rest : A → S → List C) (s : S) : List C :=
  match x s with
  | .ok a t => rest a t
  | .error _ _ => []

/-- What the steps for some items leave behind, up to the first one that fails. -/
def along (left : A → S → List C) (f : A → Step K S B) : List A → S → List C
  | [], _ => []
  | a :: as, s => left a s ++ onward (f a) (fun _ => along left f as) s

/-- What some acts leave behind, one after the other. -/
def throughout (left : A → S → List C) (act : A → S → S) : List A → S → List C
  | [], _ => []
  | a :: as, s => left a s ++ throughout left act as (act a s)

theorem onward_of_ok {x : Step K S A} {rest : A → S → List C} {s t : S} {a : A} (h : x s = .ok a t) :
    onward x rest s = rest a t := by
  rw [onward, h]

theorem onward_of_error {x : Step K S A} {rest : A → S → List C} {s t : S} {e : Fault K}
    (h : x s = .error e t) : onward x rest s = [] := by
  rw [onward, h]

theorem onward_bind (x : Step K S A) (f : A → Step K S B) (rest : B → S → List C) :
    onward (x >>= f) rest = onward x fun a => onward (f a) rest := by
  funext s
  cases h : x s with
  | ok a t =>
    rw [onward_of_ok h, onward, bind_of_ok h]
    rfl
  | error e t => rw [onward_of_error h, onward_of_error (bind_of_error h)]

theorem along_of_ok {left : A → S → List C} {f : A → Step K S B} {result : B → List C}
    (h : ∀ a s b t, f a s = .ok b t → left a s = result b) {items : List A} {s t : S} {bs : List B}
    (hrun : items.mapM f s = .ok bs t) : along left f items s = bs.flatMap result := by
  induction items generalizing s bs with
  | nil =>
    cases hrun
    rfl
  | cons a items ih =>
    rw [mapM_cons] at hrun
    obtain ⟨b, u, hb, hrun⟩ := bind_eq_ok.1 hrun
    obtain ⟨cs, v, hcs, hrun⟩ := bind_eq_ok.1 hrun
    cases hrun
    rw [along, onward_of_ok hb, h a s b u hb, ih hcs, List.flatMap_cons]

/-- A relation of states and what is left behind on the way from one to the other. -/
structure IsTrail (R : S → List C → S → Prop) : Prop where
  refl : ∀ s, R s [] s
  trans : ∀ {s t u cs ds}, R s cs t → R t ds u → R s (cs ++ ds) u

/-- Wherever the step is started, and whether it fails or not, it leaves this behind. -/
def Leaves (R : S → List C → S → Prop) (x : Step K S A) (left : S → List C) : Prop :=
  ∀ s, R s (left s) (final x s)

section Rules

variable {R : S → List C → S → Prop} (hR : IsTrail R)
include hR

theorem Leaves.bind {x : Step K S A} {f : A → Step K S B} {left : S → List C}
    {rest : A → S → List C} (hx : Leaves R x left) (hf : ∀ a, Leaves R (f a) (rest a)) :
    Leaves R (x >>= f) fun s => left s ++ onward x rest s := by
  intro s
  have hfirst := hx s
  show R s (left s ++ onward x rest s) (final (x >>= f) s)
  cases h : x s with
  | ok a t =>
    rw [final_of_ok h] at hfirst
    rw [onward_of_ok h, final, bind_of_ok h]
    exact hR.trans hfirst (hf a t)
  | error e t =>
    rw [final_of_error h] at hfirst
    rw [onward_of_error h, List.append_nil, final_of_error (bind_of_error h)]
    exact hfirst

/-- A step that leaves nothing behind, before another one. -/
theorem Leaves.after {x : Step K S A} {f : A → Step K S B} {rest : A → S → List C}
    (hx : Leaves R x fun _ => []) (hf : ∀ a, Leaves R (f a) (rest a)) :
    Leaves R (x >>= f) (onward x rest) := hx.bind hR hf

/-- A step that leaves nothing behind, after another one. -/
theorem Leaves.before {x : Step K S A} {f : A → Step K S B} {left : S → List C}
    (hx : Leaves R x left) (hf : ∀ a, Leaves R (f a) fun _ => []) : Leaves R (x >>= f) left := by
  have hnothing : ∀ s, onward x (fun _ _ => ([] : List C)) s = [] := by
    intro s
    unfold onward
    cases x s <;> rfl
  intro s
  have hboth : R s (left s ++ onward x (fun _ _ => []) s) (final (x >>= f) s) := hx.bind hR hf s
  rwa [hnothing, List.append_nil] at hboth

theorem leaves_pure (a : A) : Leaves R (pure a : Step K S A) fun _ => [] := hR.refl

theorem leaves_ofExcept (r : Except (Fault K) A) : Leaves R (ofExcept r : Step K S A) fun _ => [] := by
  intro s
  cases r <;> exact hR.refl s

theorem Leaves.mapM {items : List A} {f : A → Step K S B} {left : A → S → List C}
    (h : ∀ a, Leaves R (f a) (left a)) : Leaves R (items.mapM f) (along left f items) := by
  induction items with
  | nil => exact leaves_pure hR []
  | cons a items ih =>
    rw [mapM_cons]
    exact (h a).bind hR fun _ => ih.before hR fun _ => leaves_pure hR _

theorem Leaves.each {items : List A} {step : A → Step K S Unit} {left : A → S → List C}
    (h : ∀ a, Leaves R (step a) (left a)) : Leaves R (each items step) (along left step items) := by
  induction items with
  | nil => exact leaves_pure hR ()
  | cons a items ih => exact (h a).bind hR fun _ => ih

theorem leaves_throughout {act : A → S → S} {left : A → S → List C}
    (h : ∀ a s, R s (left a s) (act a s)) (items : List A) (s : S) :
    R s (throughout left act items s) (items.foldl (fun s a => act a s) s) := by
  induction items generalizing s with
  | nil => exact hR.refl s
  | cons a items ih => exact hR.trans (h a s) (ih (act a s))

end Rules

end Step

end DualDynamic
