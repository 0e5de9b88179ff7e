import Mathlib
import DualDynamic.Monitor

/-!
# Reasoning about steps

Three judgements about steps, each with one rule for every way in which steps are put together.

`Ensures P x Q E`: started where `P` holds, `x` ends where `Q` holds of its result, or fails where
`E` holds. `Keeps I x` is the special case of an invariant, which survives failures too.
`Couples P x y Q`: started in states that are related by `P`, two steps that both succeed end with
results and states that are related by `Q`. `Respects P x` is the special case of one step that has equal
results and preserves the relation. Besides, `Raises F x` says what faults a step can have.
-/

namespace DualDynamic

namespace Step

variable {K S S' T T' A A' B B' : Type}

/-! ## Runs of compound steps -/

theorem bind_of_ok {x : Step K S A} {f : A → Step K S B} {s t : S} {a : A} (h : x s = .ok a t) :
    (x >>= f) s = f a t := by
  simp only [bind, EStateM.bind, h]

theorem bind_of_error {x : Step K S A} {f : A → Step K S B} {s t : S} {e : Fault K}
    (h : x s = .error e t) : (x >>= f) s = .error e t := by
  simp only [bind, EStateM.bind, h]

/-- A sequence succeeds if its first part does and then the rest does. -/
theorem bind_eq_ok {x : Step K S A} {f : A → Step K S B} {s u : S} {b : B} :
    (x >>= f) s = .ok b u ↔ ∃ a t, x s = .ok a t ∧ f a t = .ok b u := by
  cases h : x s with
  | ok a t =>
    rw [bind_of_ok h]
    exact ⟨fun hf => ⟨a, t, rfl, hf⟩, fun ⟨_, _, hx, hf⟩ => by cases hx; exact hf⟩
  | error e t =>
    rw [bind_of_error h]
    refine ⟨fun hf => ?_, fun ⟨_, _, hx, _⟩ => ?_⟩
    · cases hf
    · cases hx

/-- The same without a state. -/
theorem exceptBind_eq_ok {E : Type} {r : Except E A} {f : A → Except E B} {b : B} :
    (r >>= f) = .ok b ↔ ∃ a, r = .ok a ∧ f a = .ok b := by
  cases r with
  | ok a => exact ⟨fun h => ⟨a, rfl, h⟩, fun ⟨_, hr, h⟩ => by cases hr; exact h⟩
  | error e => exact ⟨fun h => (by cases h), fun ⟨_, hr, _⟩ => by cases hr⟩

theorem exceptBind_ok {E : Type} (a : A) (f : A → Except E B) : (.ok a >>= f) = f a := rfl

theorem exceptBind_error {E : Type} (e : E) (f : A → Except E B) : (.error e >>= f) = .error e := rfl

/-- What comes behind a test is reached if the test is passed. -/
theorem guard_eq_ok {E : Type} {c : Prop} [Decidable c] {e : E} {f : A → Except E B} {r : Except E B}
    {b : B} (h : (if c then throw e >>= f else r) = .ok b) : ¬ c ∧ r = .ok b := by
  split_ifs at h with hc
  · obtain ⟨a, hthrow, -⟩ := exceptBind_eq_ok.1 h
    cases hthrow
  · exact ⟨hc, h⟩

theorem mapError_eq_ok {E E' : Type} {r : Except E A} {f : E → E'} {a : A} :
    r.mapError f = .ok a ↔ r = .ok a := by
  cases r <;> simp [Except.mapError]

/-- Results of a computation without a state, item by item. -/
theorem forall₂_of_mapM {E : Type} {f : A → Except E B} {as : List A} {bs : List B}
    (h : as.mapM f = .ok bs) : List.Forall₂ (fun a b => f a = .ok b) as bs := by
  induction as generalizing bs with
  | nil =>
    obtain rfl := Except.ok.inj h
    exact .nil
  | cons a as ih =>
    rw [List.mapM_cons] at h
    obtain ⟨b, hb, h⟩ := exceptBind_eq_ok.1 h
    obtain ⟨cs, hcs, h⟩ := exceptBind_eq_ok.1 h
    obtain rfl := Except.ok.inj h
    exact .cons hb (ih hcs)

theorem mapM_range_succ {E : Type} (f : ℕ → Except E B) (n : ℕ) : (List.range (n + 1)).mapM f =
    (List.range n).mapM f >>= fun bs => f n >>= fun b => pure (bs ++ [b]) := by
  rw [List.range_succ, List.mapM_append]
  simp only [List.mapM_cons, List.mapM_nil, bind_assoc, pure_bind]

theorem exists_mapM_range {E : Type} {f : ℕ → Except E B} {n : ℕ} :
    (∃ bs, (List.range n).mapM f = .ok bs) ↔ ∀ i < n, ∃ b, f i = .ok b := by
  induction n with
  | zero => exact iff_of_true ⟨[], rfl⟩ fun _ hi => absurd hi (Nat.not_lt_zero _)
  | succ n ih =>
    rw [Nat.forall_lt_succ_right, ← ih, mapM_range_succ]
    constructor
    · rintro ⟨bs, h⟩
      obtain ⟨bs, hbs, h⟩ := exceptBind_eq_ok.1 h
      obtain ⟨b, hb, -⟩ := exceptBind_eq_ok.1 h
      exact ⟨⟨bs, hbs⟩, b, hb⟩
    · rintro ⟨⟨bs, hbs⟩, b, hb⟩
      rw [hbs, hb]
      exact ⟨bs ++ [b], rfl⟩

/-- Item by item, the fault is that of the first item that has one. -/
theorem mapM_range_eq_error {E : Type} {f : ℕ → Except E B} {n : ℕ} {e : E} :
    (List.range n).mapM f = .error e ↔ ∃ i < n, f i = .error e ∧ ∀ j < i, ∃ b, f j = .ok b := by
  induction n with
  | zero => exact iff_of_false nofun fun ⟨_, hi, _⟩ => absurd hi (Nat.not_lt_zero _)
  | succ n ih =>
    rw [Nat.exists_lt_succ_right, ← ih, ← exists_mapM_range, mapM_range_succ]
    cases (List.range n).mapM f with
    | error e' => simp [exceptBind_error]
    | ok bs =>
      rw [exceptBind_ok]
      cases f n <;> simp [exceptBind_ok, exceptBind_error, pure, Except.pure]

theorem getElem?_of_forall₂ {R : A → B → Prop} {as : List A} {bs : List B}
    (h : List.Forall₂ R as bs) {i : ℕ} {b : B} (hb : bs[i]? = some b) :
    ∃ a, as[i]? = some a ∧ R a b := by
  induction h generalizing i with
  | nil => simp at hb
  | cons hab _ ih =>
    cases i with
    | zero =>
      obtain rfl := Option.some.inj hb
      exact ⟨_, rfl, hab⟩
    | succ i => exact ih hb

theorem exists_left_of_forall₂ {R : A → B → Prop} {as : List A} {bs : List B}
    (h : List.Forall₂ R as bs) {b : B} (hb : b ∈ bs) : ∃ a ∈ as, R a b := by
  obtain ⟨i, hi⟩ := List.mem_iff_getElem?.1 hb
  obtain ⟨a, ha, hR⟩ := getElem?_of_forall₂ h hi
  exact ⟨a, List.mem_of_getElem? ha, hR⟩

/-- An item of a list that was written to is the one that was written, or an old one. -/
theorem eq_or_of_getElem?_set {as : List A} {i j : ℕ} {a b : A} (h : (as.set i a)[j]? = some b) :
    j = i ∧ b = a ∨ j ≠ i ∧ as[j]? = some b := by
  rw [List.getElem?_set] at h
  split_ifs at h with hij hlt
  · exact Or.inl ⟨hij.symm, (Option.some.inj h).symm⟩
  · exact Or.inr ⟨Ne.symm hij, h⟩

theorem ofExcept_eq_ok {r : Except (Fault K) A} {s t : S} {a : A} :
    (ofExcept r : Step K S A) s = .ok a t ↔ r = .ok a ∧ s = t := by
  cases r with
  | ok b => simp [ofExcept, pure, EStateM.pure]
  | error e => simp [ofExcept, throw, throwThe, MonadExceptOf.throw, EStateM.throw]

theorem ofExcept_ok_bind_apply (a : A) (f : A → Step K S B) (s : S) :
    (ofExcept (.ok a) >>= f) s = f a s := rfl

theorem ofExcept_error_bind_apply (e : Fault K) (f : A → Step K S B) (s : S) :
    (ofExcept (.error e) >>= f) s = .error e s := rfl

theorem attempt_eq_ok {x : Step K S A} {s : S} {a : A} (h : (attempt x s).1 = .ok a) :
    x s = .ok a (attempt x s).2 := by
  unfold attempt at h ⊢
  cases hx : x s with
  | ok b t =>
    rw [hx] at h
    rw [Except.ok.inj h]
  | error e t =>
    rw [hx] at h
    cases h

theorem itemAt_natCast {xs : List A} {n : ℕ} {a : A} :
    (itemAt xs n : Except (Fault K) A) = .ok a ↔ xs[n]? = some a := by
  have hn : ¬ (n : ℤ) < 0 := by omega
  simp only [itemAt, hn, if_false, Int.toNat_natCast]
  cases xs[n]? <;> simp

theorem exists_of_itemAt {xs : List A} {k : ℤ} {a : A}
    (h : (itemAt xs k : Except (Fault K) A) = .ok a) :
    ∃ i, xs[i]? = some a ∧ ∀ n : ℕ, k = n → i = n := by
  simp only [itemAt] at h
  generalize hi : (if k < 0 then k + xs.length else k) = i at h
  split_ifs at h
  cases hx : xs[i.toNat]? with
  | none => simp [hx] at h
  | some b =>
    rw [hx] at h
    cases h
    refine ⟨i.toNat, hx, fun n hn => ?_⟩
    rw [if_neg (by omega)] at hi
    omega

theorem mem_of_itemAt {xs : List A} {k : ℤ} {a : A}
    (h : (itemAt xs k : Except (Fault K) A) = .ok a) : a ∈ xs := by
  obtain ⟨i, hi, -⟩ := exists_of_itemAt h
  exact List.mem_of_getElem? hi

theorem mapM_cons (a : A) (as : List A) (f : A → Step K S B) :
    (a :: as).mapM f = f a >>= fun b => as.mapM f >>= fun bs => pure (b :: bs) := by
  rw [List.mapM_cons]

theorem map_mapM (g : B → B') (items : List A) (f : A → Step K S B) :
    List.map g <$> items.mapM f = items.mapM fun a => g <$> f a := by
  induction items with
  | nil => rfl
  | cons a items ih =>
    simp only [List.mapM_cons, ← ih, map_bind, bind_map_left, map_pure, List.map_cons]

theorem map_eq_ok {x : Step K S A} {f : A → B} {s t : S} {b : B} :
    (f <$> x) s = .ok b t ↔ ∃ a, x s = .ok a t ∧ f a = b := by
  have hmap : (f <$> x) s = EStateM.map f x s := rfl
  rw [hmap, EStateM.map]
  cases x s with
  | ok a u =>
    simp only [EStateM.Result.ok.injEq]
    exact ⟨fun ⟨hf, hu⟩ => ⟨a, ⟨rfl, hu⟩, hf⟩, fun ⟨_, ⟨ha, hu⟩, hf⟩ => ⟨ha ▸ hf, hu⟩⟩
  | error e u => simp

theorem map_within (f : A → B) (get : S → T) (put : T → S → S) (x : Step K T A) :
    f <$> within get put x = within get put (f <$> x) := by
  funext s
  have hmap : ∀ {S : Type} (x : Step K S A), f <$> x = EStateM.map f x := fun _ => rfl
  rw [hmap, hmap]
  unfold within EStateM.map
  dsimp only
  cases x (get s) <;> rfl

/-! ## What a step ensures -/

/-- Started where `P` holds, the step ends where `Q` holds of its result, or fails where `E`
holds. -/
def Ensures (P : S → Prop) (x : Step K S A) (Q : A → S → Prop) (E : S → Prop) : Prop :=
  ∀ s, P s → match x s with
    | .ok a t => Q a t
    | .error _ t => E t

/-- The step keeps an invariant, whether it fails or not. -/
def Keeps (I : S → Prop) (x : Step K S A) : Prop := Ensures I x (fun _ => I) I

variable {P P' : S → Prop} {Q Q' : A → S → Prop} {E E' : S → Prop} {I : S → Prop}

theorem Ensures.of_ok {x : Step K S A} (h : Ensures P x Q E) {s t : S} {a : A} (hs : P s)
    (hx : x s = .ok a t) : Q a t := by
  have := h s hs
  rwa [hx] at this

theorem Ensures.of_error {x : Step K S A} (h : Ensures P x Q E) {s t : S} {e : Fault K}
    (hs : P s) (hx : x s = .error e t) : E t := by
  have := h s hs
  rwa [hx] at this

theorem ensures_iff {x : Step K S A} :
    Ensures P x Q E ↔ ∀ s, P s →
      (∀ a t, x s = .ok a t → Q a t) ∧ ∀ e t, x s = .error e t → E t := by
  refine forall₂_congr fun s _ => ?_
  cases x s with
  | ok a t => simp
  | error e t => simp

theorem Ensures.weaken {x : Step K S A} (h : Ensures P x Q E) (hP : ∀ s, P' s → P s)
    (hQ : ∀ a s, Q a s → Q' a s) (hE : ∀ s, E s → E' s) : Ensures P' x Q' E' := by
  rw [ensures_iff] at *
  exact fun s hs => ⟨fun a t hx => hQ a t ((h s (hP s hs)).1 a t hx),
    fun e t hx => hE t ((h s (hP s hs)).2 e t hx)⟩

theorem Ensures.and {x : Step K S A} (h : Ensures P x Q E) (h' : Ensures P x Q' E') :
    Ensures P x (fun a s => Q a s ∧ Q' a s) fun s => E s ∧ E' s := by
  rw [ensures_iff] at *
  exact fun s hs => ⟨fun a t hx => ⟨(h s hs).1 a t hx, (h' s hs).1 a t hx⟩,
    fun e t hx => ⟨(h s hs).2 e t hx, (h' s hs).2 e t hx⟩⟩

theorem Ensures.bind {x : Step K S A} {f : A → Step K S B} {R : B → S → Prop}
    (hx : Ensures P x Q E) (hf : ∀ a, Ensures (Q a) (f a) R E) : Ensures P (x >>= f) R E := by
  intro s hs
  cases h : x s with
  | ok a t =>
    rw [bind_of_ok h]
    exact hf a t (hx.of_ok hs h)
  | error e t =>
    rw [bind_of_error h]
    exact hx.of_error hs h

/-- What a step comes to apart from what is forgotten of its result. -/
theorem ensures_map {x : Step K S A} {f : A → B} {R : B → S → Prop} :
    Ensures P (f <$> x) R E ↔ Ensures P x (fun a => R (f a)) E := by
  refine forall₂_congr fun s _ => ?_
  have hmap : (f <$> x) s = EStateM.map f x s := rfl
  rw [hmap, EStateM.map]
  cases x s <;> rfl

theorem ensures_pure {a : A} (h : ∀ s, P s → Q a s) : Ensures P (pure a : Step K S A) Q E := h

theorem ensures_throw {e : Fault K} (h : ∀ s, P s → E s) :
    Ensures P (throw e : Step K S A) Q E := h

theorem ensures_ofExcept {r : Except (Fault K) A} (hok : ∀ a, r = .ok a → ∀ s, P s → Q a s)
    (herror : ∀ s, P s → E s) : Ensures P (ofExcept r : Step K S A) Q E := by
  cases r with
  | ok a => exact ensures_pure (hok a rfl)
  | error e => exact ensures_throw herror

theorem ensures_modify {f : S → S} {Q : Unit → S → Prop} (h : ∀ s, P s → Q () (f s)) :
    Ensures P (modify f : Step K S Unit) Q E := h

/-- A step that looks at the state may be judged state by state. -/
theorem ensures_get_bind {f : S → Step K S A}
    (h : ∀ s, P s → Ensures (fun t => t = s) (f s) Q E) : Ensures P (get >>= f) Q E :=
  fun s hs => h s hs s rfl

/-- Results item by item, and an invariant on the way. -/
theorem Ensures.mapM {R : A → B → Prop} {items : List A} {f : A → Step K S B}
    (h : ∀ a ∈ items, Ensures I (f a) (fun b s => R a b ∧ I s) E) :
    Ensures I (items.mapM f) (fun bs s => List.Forall₂ R items bs ∧ I s) E := by
  induction items with
  | nil => exact ensures_pure fun s hs => ⟨.nil, hs⟩
  | cons a items ih =>
    rw [mapM_cons]
    refine (h a (by simp)).bind fun b s hs => ?_
    refine ((ih fun c hc => h c (by simp [hc])).bind (R := fun bs s =>
      List.Forall₂ R (a :: items) bs ∧ I s) fun bs t ht => ?_) s hs.2
    exact ⟨.cons hs.1 ht.1, ht.2⟩

/-- Results item by item, each of which stays what it is while the later items have their turns, and what
was known before stays known. -/
theorem Ensures.mapM_lasting_and {R : A → B → S → Prop} {Z : S → Prop} {items : List A}
    {f : A → Step K S B} (h : ∀ a ∈ items, Ensures I (f a) (fun b s => R a b s ∧ I s) E)
    (hknown : ∀ a ∈ items, Ensures (fun s => Z s ∧ I s) (f a) (fun _ => Z) E)
    (hlater : items.Pairwise fun a c => ∀ b,
      Ensures (fun s => R a b s ∧ I s) (f c) (fun _ s => R a b s) E) :
    Ensures (fun s => Z s ∧ I s) (items.mapM f)
      (fun bs s => List.Forall₂ (fun a b => R a b s) items bs ∧ Z s ∧ I s) E := by
  -- the result for the first item is known while the others have their turns
  induction items generalizing Z with
  | nil => exact ensures_pure fun s hs => ⟨.nil, hs⟩
  | cons a items ih =>
    obtain ⟨hfirst, hrest⟩ := List.pairwise_cons.1 hlater
    have hhead : Ensures (fun s => Z s ∧ I s) (f a) (fun b s => (R a b s ∧ Z s) ∧ I s) E :=
      (((h a (by simp)).weaken (fun _ hs => hs.2) (fun _ _ => id) fun _ => id).and
        (hknown a (by simp))).weaken (fun _ => id) (fun _ _ hs => ⟨⟨hs.1.1, hs.2⟩, hs.1.2⟩)
          fun _ hs => hs.1
    rw [mapM_cons]
    refine hhead.bind fun b => ?_
    refine (ih (Z := fun s => R a b s ∧ Z s) (fun c hc => h c (by simp [hc])) (fun c hc => ?_)
      hrest).bind fun bs => ensures_pure fun s hs => ⟨.cons hs.2.1.1 hs.1, hs.2.1.2, hs.2.2⟩
    have hresult : Ensures (fun s => (R a b s ∧ Z s) ∧ I s) (f c) (fun _ s => R a b s) E :=
      (hfirst c hc b).weaken (fun _ hs => ⟨hs.1.1, hs.2⟩) (fun _ _ => id) fun _ => id
    have hbefore : Ensures (fun s => (R a b s ∧ Z s) ∧ I s) (f c) (fun _ => Z) E :=
      (hknown c (by simp [hc])).weaken (fun _ hs => ⟨hs.1.2, hs.2⟩) (fun _ _ => id) fun _ => id
    exact (hresult.and hbefore).weaken (fun _ => id) (fun _ _ => id) fun _ hs => hs.1

/-- Results item by item, each of which stays what it is while the later items have their turns. -/
theorem Ensures.mapM_lasting {R : A → B → S → Prop} {items : List A} {f : A → Step K S B}
    (h : ∀ a ∈ items, Ensures I (f a) (fun b s => R a b s ∧ I s) E)
    (hlater : items.Pairwise fun a c => ∀ b,
      Ensures (fun s => R a b s ∧ I s) (f c) (fun _ s => R a b s) E) :
    Ensures I (items.mapM f) (fun bs s => List.Forall₂ (fun a b => R a b s) items bs ∧ I s) E :=
  (Ensures.mapM_lasting_and (Z := fun _ => True) h (fun a ha => (h a ha).weaken (fun _ hs => hs.2)
    (fun _ _ _ => trivial) fun _ => id) hlater).weaken (fun _ hs => ⟨trivial, hs⟩)
      (fun _ _ hs => ⟨hs.1, hs.2.2⟩) fun _ => id

/-- Results item by item, of which each leaves things behind in a list. -/
theorem Ensures.mapM_append {C : Type} {J : List C → S → Prop} {R : B → Prop} (left : B → List C)
    {items : List A} {f : A → Step K S B}
    (h : ∀ a ∈ items, ∀ cs, Ensures (J cs) (f a) (fun b s => R b ∧ J (cs ++ left b) s) E)
    (cs : List C) : Ensures (J cs) (items.mapM f)
      (fun bs s => (∀ b ∈ bs, R b) ∧ J (cs ++ bs.flatMap left) s) E := by
  induction items generalizing cs with
  | nil => exact ensures_pure fun s hs => ⟨by simp, by simpa using hs⟩
  | cons a items ih =>
    rw [mapM_cons]
    refine (h a (by simp) cs).bind fun b s hs => ?_
    refine ((ih (fun c hc => h c (by simp [hc])) (cs ++ left b)).bind
      (R := fun (bs : List B) s => (∀ b ∈ bs, R b) ∧ J (cs ++ bs.flatMap left) s)
      fun bs t ht => ?_) s hs.2
    refine ⟨List.forall_mem_cons.2 ⟨hs.1, ht.1⟩, ?_⟩
    rw [List.flatMap_cons, ← List.append_assoc]
    exact ht.2

/-- A step for each item, of which each leaves the item behind in a list. -/
theorem Ensures.each_append {J : List A → S → Prop} {items : List A} {step : A → Step K S Unit}
    (h : ∀ a ∈ items, ∀ cs, Ensures (J cs) (step a) (fun _ => J (cs ++ [a])) E) (cs : List A) :
    Ensures (J cs) (each items step) (fun _ => J (cs ++ items)) E := by
  induction items generalizing cs with
  | nil => exact ensures_pure fun s hs => by simpa using hs
  | cons a items ih =>
    refine (h a (by simp) cs).bind fun _ => ?_
    have hrest := ih (fun c hc => h c (by simp [hc])) (cs ++ [a])
    rwa [List.append_assoc, List.singleton_append] at hrest

theorem Ensures.within {get : S → T} {put : T → S → S} {step : Step K T A}
    (h : ∀ s, P s → Ensures (fun t => t = get s) step (fun a t => Q a (put t s))
      fun t => E (put t s)) : Ensures P (within get put step) Q E := by
  intro s hs
  have hstep := h s hs (get s) rfl
  unfold Step.within
  cases hx : step (get s) with
  | ok a t => rwa [hx] at hstep
  | error e t => rwa [hx] at hstep

/-! ## Invariants -/

theorem Keeps.bind {x : Step K S A} {f : A → Step K S B} (hx : Keeps I x)
    (hf : ∀ a, Keeps I (f a)) : Keeps I (x >>= f) := Ensures.bind hx hf

theorem keeps_pure (a : A) : Keeps I (pure a : Step K S A) := fun _ hs => hs

theorem keeps_throw (e : Fault K) : Keeps I (throw e : Step K S A) := fun _ hs => hs

theorem keeps_ofExcept (r : Except (Fault K) A) : Keeps I (ofExcept r : Step K S A) :=
  ensures_ofExcept (fun _ _ _ hs => hs) fun _ hs => hs

theorem keeps_get : Keeps I (get : Step K S S) := fun _ hs => hs

theorem Keeps.and {J : S → Prop} {x : Step K S A} (hI : Keeps I x) (hJ : Keeps J x) :
    Keeps (fun s => I s ∧ J s) x :=
  Ensures.and (hI.weaken (fun _ hs => hs.1) (fun _ _ => id) fun _ => id)
    (hJ.weaken (fun _ hs => hs.2) (fun _ _ => id) fun _ => id)

theorem Keeps.ite {c : Prop} [Decidable c] {x y : Step K S A} (hx : Keeps I x) (hy : Keeps I y) :
    Keeps I (if c then x else y) := by
  split_ifs
  · exact hx
  · exact hy

theorem Keeps.map {x : Step K S A} (f : A → B) (h : Keeps I x) : Keeps I (EStateM.map f x) := by
  intro s hs
  have := h s hs
  unfold EStateM.map
  cases hx : x s <;> rwa [hx] at this

theorem Keeps.mapM {items : List A} {f : A → Step K S B} (h : ∀ a ∈ items, Keeps I (f a)) :
    Keeps I (items.mapM f) :=
  Ensures.weaken (Ensures.mapM (R := fun _ _ => True) fun a ha => (h a ha).weaken (fun _ => id)
    (fun _ _ hs => ⟨trivial, hs⟩) fun _ => id) (fun _ => id) (fun _ _ hs => hs.2) fun _ => id

theorem Keeps.each {items : List A} {step : A → Step K S Unit}
    (h : ∀ a ∈ items, Keeps I (step a)) : Keeps I (each items step) := by
  induction items with
  | nil => exact keeps_pure ()
  | cons a items ih => exact (h a (by simp)).bind fun _ => ih fun b hb => h b (by simp [hb])

/-- A step on a part that the invariant does not look at. -/
theorem keeps_within {get : S → T} {put : T → S → S} (h : ∀ s t, I s → I (put t s))
    (step : Step K T A) : Keeps I (within get put step) := by
  intro s hs
  unfold within
  cases step (get s) with
  | ok a t => exact h s t hs
  | error e t => exact h s t hs

/-- The state that a step ends in, whether it fails or not. -/
def final (x : Step K S A) (s : S) : S :=
  match x s with
  | .ok _ t => t
  | .error _ t => t

theorem final_of_ok {x : Step K S A} {s t : S} {a : A} (h : x s = .ok a t) : final x s = t := by
  rw [final, h]

theorem final_of_error {x : Step K S A} {s t : S} {e : Fault K} (h : x s = .error e t) :
    final x s = t := by
  rw [final, h]

theorem Ensures.final {x : Step K S A} (h : Ensures P x (fun _ => E) E) {s : S} (hs : P s) :
    E (final x s) := by
  have := h s hs
  unfold Step.final
  cases hx : x s <;> rwa [hx] at this

theorem Keeps.final {x : Step K S A} (h : Keeps I x) {s : S} (hs : I s) : I (final x s) :=
  Ensures.final h hs

theorem ensures_of_final {x : Step K S A} {s : S} (h : E (Step.final x s)) :
    Ensures (fun t => t = s) x (fun _ => E) E := by
  rintro t rfl
  unfold Step.final at h
  cases hx : x t <;> rwa [hx] at h

theorem keeps_iff_final {x : Step K S A} : Keeps I x ↔ ∀ s, I s → I (Step.final x s) :=
  ⟨fun h _ hs => h.final hs, fun h s hs => ensures_of_final (h s hs) s rfl⟩

/-- Whether a step succeeds. -/
def succeeds (x : Step K S A) (s : S) : Bool :=
  match x s with
  | .ok _ _ => true
  | .error _ _ => false

theorem exists_eq_ok_final {x : Step K S A} {s : S} (h : succeeds x s = true) :
    ∃ a, x s = .ok a (final x s) := by
  unfold succeeds at h
  unfold final
  cases hx : x s with
  | ok a t => exact ⟨a, rfl⟩
  | error e t => simp [hx] at h

theorem eq_ok_final {x : Step K S Unit} {s : S} (h : succeeds x s = true) :
    x s = .ok () (final x s) := (exists_eq_ok_final h).choose_spec

/-- A result that passes a test. -/
theorem exists_eq_ok_of_any {x : Step K S A} {s : S} {p : A → Bool}
    (h : (attempt x s).1.toOption.any p = true) : ∃ a, x s = .ok a (final x s) ∧ p a = true := by
  unfold attempt at h
  unfold final
  cases hx : x s with
  | ok a t => exact ⟨a, rfl, by simpa [hx, Except.toOption] using h⟩
  | error e t => simp [hx, Except.toOption] at h

theorem exists_eq_error_final {x : Step K S A} {s : S} (h : succeeds x s = false) :
    ∃ e, x s = .error e (final x s) := by
  unfold succeeds at h
  unfold final
  cases hx : x s with
  | ok a t => simp [hx] at h
  | error e t => exact ⟨e, rfl⟩

/-! ## Faults -/

/-- All faults of the step, wherever it is started. -/
def Raises (F : Fault K → Prop) (x : Step K S A) : Prop := ∀ s e t, x s = .error e t → F e

variable {F : Fault K → Prop}

theorem Raises.bind {x : Step K S A} {f : A → Step K S B} (hx : Raises F x)
    (hf : ∀ a, Raises F (f a)) : Raises F (x >>= f) := by
  intro s e u h
  cases hrun : x s with
  | ok a t => exact hf a t e u ((bind_of_ok hrun).symm.trans h)
  | error e' t =>
    rw [bind_of_error hrun] at h
    cases h
    exact hx s _ _ hrun

theorem raises_pure (a : A) : Raises F (pure a : Step K S A) := fun _ _ _ h => by cases h

theorem raises_ofExcept {r : Except (Fault K) A} (h : ∀ e, r = .error e → F e) :
    Raises F (ofExcept r : Step K S A) := by
  intro s e t hrun
  cases r with
  | ok a => cases hrun
  | error e' =>
    cases hrun
    exact h e rfl

theorem raises_modify (f : S → S) : Raises F (modify f : Step K S Unit) := fun _ _ _ h => by cases h

theorem Raises.each {items : List A} {step : A → Step K S Unit}
    (h : ∀ a ∈ items, Raises F (step a)) : Raises F (each items step) := by
  induction items with
  | nil => exact raises_pure ()
  | cons a items ih => exact (h a (by simp)).bind fun _ => ih fun b hb => h b (by simp [hb])

/-! ## Two runs -/

/-- Two steps that both succeed, started in related states, end with related results and states. -/
def Couples (P : S → S' → Prop) (x : Step K S A) (y : Step K S' A')
    (Q : A → A' → S → S' → Prop) : Prop :=
  ∀ s s', P s s' → ∀ a t, x s = .ok a t → ∀ a' t', y s' = .ok a' t' → Q a a' t t'

variable {C C' : S → S' → Prop} {D D' : A → A' → S → S' → Prop}

theorem Couples.weaken {x : Step K S A} {y : Step K S' A'} (h : Couples C x y D)
    (hC : ∀ s s', C' s s' → C s s') (hD : ∀ a a' s s', D a a' s s' → D' a a' s s') :
    Couples C' x y D' :=
  fun s s' hs a t hx a' t' hy => hD _ _ _ _ (h s s' (hC s s' hs) a t hx a' t' hy)

theorem Couples.bind {x : Step K S A} {y : Step K S' A'} {f : A → Step K S B}
    {f' : A' → Step K S' B'} {R : B → B' → S → S' → Prop} (hx : Couples C x y D)
    (hf : ∀ a a', Couples (D a a') (f a) (f' a') R) : Couples C (x >>= f) (y >>= f') R := by
  intro s s' hs b u hb b' u' hb'
  obtain ⟨a, t, hxa, hfa⟩ := bind_eq_ok.1 hb
  obtain ⟨a', t', hya, hfa'⟩ := bind_eq_ok.1 hb'
  exact hf a a' t t' (hx s s' hs a t hxa a' t' hya) b u hfa b' u' hfa'

theorem couples_pure {a : A} {a' : A'} (h : ∀ s s', C s s' → D a a' s s') :
    Couples C (pure a : Step K S A) (pure a' : Step K S' A') D := by
  intro s s' hs b t hb b' t' hb'
  cases hb
  cases hb'
  exact h s s' hs

theorem couples_throw_left {e : Fault K} {y : Step K S' A'} :
    Couples C (throw e : Step K S A) y D := by
  intro s s' hs b t hb
  cases hb

theorem couples_ofExcept {r : Except (Fault K) A} {r' : Except (Fault K) A'}
    (h : ∀ a a', r = .ok a → r' = .ok a' → ∀ s s', C s s' → D a a' s s') :
    Couples C (ofExcept r : Step K S A) (ofExcept r' : Step K S' A') D := by
  intro s s' hs a t ht a' t' ht'
  obtain ⟨hr, rfl⟩ := ofExcept_eq_ok.1 ht
  obtain ⟨hr', rfl⟩ := ofExcept_eq_ok.1 ht'
  exact h a a' hr hr' s s' hs

/-- Steps that begin with computations without state. -/
theorem Couples.ofExcept_bind_of {r : Except (Fault K) B} {r' : Except (Fault K) B'}
    {f : B → Step K S A} {f' : B' → Step K S' A'}
    (h : ∀ b b', r = .ok b → r' = .ok b' → Couples C (f b) (f' b') D) :
    Couples C (ofExcept r >>= f) (ofExcept r' >>= f') D := by
  intro s s' hs a u hu a' u' hu'
  obtain ⟨b, t, hb, hu⟩ := bind_eq_ok.1 hu
  obtain ⟨b', t', hb', hu'⟩ := bind_eq_ok.1 hu'
  obtain ⟨hr, rfl⟩ := ofExcept_eq_ok.1 hb
  obtain ⟨hr', rfl⟩ := ofExcept_eq_ok.1 hb'
  exact h b b' hr hr' _ _ hs a u hu a' u' hu'

/-- Steps that begin with the same result of a computation without state. -/
theorem Couples.ofExcept_bind {r : Except (Fault K) B} {f : B → Step K S A}
    {f' : B → Step K S' A'} (h : ∀ b, r = .ok b → Couples C (f b) (f' b) D) :
    Couples C (ofExcept r >>= f) (ofExcept r >>= f') D :=
  Couples.ofExcept_bind_of fun b b' hb hb' => by
    obtain rfl : b = b' := Except.ok.inj (hb.symm.trans hb')
    exact h b hb

/-- A step beside one that does nothing. -/
theorem Keeps.couples_pure {x : Step K S A} {a' : A'} (h : ∀ s', Keeps (C · s') x) :
    Couples C x (pure a' : Step K S' A') fun _ _ => C := by
  intro s s' hs a t ht b t' hb
  cases hb
  exact (h s').of_ok hs ht

/-- What each of the two steps ensures by itself. -/
theorem Couples.and_ensures {x : Step K S A} {y : Step K S' A'} {P : S → Prop} {P' : S' → Prop}
    {Q : A → S → Prop} {Q' : A' → S' → Prop} {E : S → Prop} {E' : S' → Prop} (h : Couples C x y D)
    (hx : Ensures P x Q E) (hy : Ensures P' y Q' E') :
    Couples (fun s s' => C s s' ∧ P s ∧ P' s') x y
      fun a a' s s' => D a a' s s' ∧ Q a s ∧ Q' a' s' :=
  fun s s' hs a t ht a' t' ht' => ⟨h s s' hs.1 a t ht a' t' ht', hx.of_ok hs.2.1 ht,
    hy.of_ok hs.2.2 ht'⟩

theorem couples_modify {f : S → S} {g : S' → S'} {D : Unit → Unit → S → S' → Prop}
    (h : ∀ s s', C s s' → D () () (f s) (g s')) :
    Couples C (modify f : Step K S Unit) (modify g : Step K S' Unit) D := by
  intro s s' hs b t hb b' t' hb'
  cases hb
  cases hb'
  exact h s s' hs

/-- The same step for the same items, side by side. -/
theorem Couples.mapM {R : B → B' → Prop} {items : List A} {f : A → Step K S B}
    {f' : A → Step K S' B'}
    (h : ∀ a ∈ items, Couples C (f a) (f' a) fun b b' s s' => R b b' ∧ C s s') :
    Couples C (items.mapM f) (items.mapM f') fun bs bs' s s' => List.Forall₂ R bs bs' ∧ C s s' := by
  induction items with
  | nil => exact couples_pure fun s s' hs => ⟨.nil, hs⟩
  | cons a items ih =>
    rw [mapM_cons, mapM_cons]
    refine (h a (by simp)).bind fun b b' => ?_
    intro s s' hs
    refine ((ih fun c hc => h c (by simp [hc])).bind (R := fun bs bs' s s' =>
      List.Forall₂ R bs bs' ∧ C s s') fun bs bs' => couples_pure fun t t' ht => ?_) s s' hs.2
    exact ⟨.cons hs.1 ht.1, ht.2⟩

/-- Run from related states, the step has equal results and ends in related states. -/
def Respects (C : S → S → Prop) (x : Step K S A) : Prop :=
  Couples C x x fun a a' s s' => a = a' ∧ C s s'

section Respects

variable {C : S → S → Prop}

/-- A step that is followed by different ones. -/
theorem Respects.couples_bind {x : Step K S A} {f f' : A → Step K S B}
    {R : B → B → S → S → Prop} (hx : Respects C x) (hf : ∀ a, Couples C (f a) (f' a) R) :
    Couples C (x >>= f) (x >>= f') R := by
  refine Couples.bind hx fun a a' => ?_
  rintro s s' ⟨rfl, hs⟩
  exact hf a s s' hs

theorem Respects.bind {x : Step K S A} {f : A → Step K S B} (hx : Respects C x)
    (hf : ∀ a, Respects C (f a)) : Respects C (x >>= f) := hx.couples_bind hf

theorem respects_pure (a : A) : Respects C (pure a : Step K S A) := couples_pure fun _ _ hs => ⟨rfl, hs⟩

theorem respects_throw (e : Fault K) : Respects C (throw e : Step K S A) := couples_throw_left

theorem respects_ofExcept (r : Except (Fault K) A) : Respects C (ofExcept r : Step K S A) :=
  couples_ofExcept fun _ _ ha ha' _ _ hs => ⟨Except.ok.inj (ha.symm.trans ha'), hs⟩

theorem Respects.ite {c : Prop} [Decidable c] {x y : Step K S A} (hx : Respects C x)
    (hy : Respects C y) : Respects C (if c then x else y) := by
  split_ifs
  · exact hx
  · exact hy

/-- A step whose result is changed. -/
theorem Respects.map {x : Step K S A} (hx : Respects C x) (f : A → B) :
    Respects C (EStateM.map f x) := by
  intro s s' hs b t hb b' t' hb'
  obtain ⟨a, ha, rfl⟩ := map_eq_ok.1 hb
  obtain ⟨a', ha', rfl⟩ := map_eq_ok.1 hb'
  obtain ⟨rfl, ht⟩ := hx s s' hs a t ha a' t' ha'
  exact ⟨rfl, ht⟩

theorem Respects.mapM {items : List A} {f : A → Step K S B} (h : ∀ a ∈ items, Respects C (f a)) :
    Respects C (items.mapM f) :=
  (Couples.mapM (R := Eq) h).weaken (fun _ _ => id)
    fun _ _ _ _ hs => ⟨List.forall₂_eq_eq_eq ▸ hs.1, hs.2⟩

theorem Respects.each {items : List A} {step : A → Step K S Unit}
    (h : ∀ a ∈ items, Respects C (step a)) : Respects C (each items step) := by
  induction items with
  | nil => exact respects_pure ()
  | cons a items ih => exact (h a (by simp)).bind fun _ => ih fun b hb => h b (by simp [hb])

end Respects

end Step

/-! ## Watched steps -/

namespace Run

open Step

variable {K S T A B : Type} {I : Watched S → Prop}

@[simp] theorem part_bind_apply (f : S → Run K S A) (w : Watched S) :
    (part >>= f) w = f w.part w := rfl

theorem final_part_bind (f : S → Run K S A) (w : Watched S) :
    Step.final (part >>= f) w = Step.final (f w.part) w := rfl

/-- A step that looks at the part may be judged part by part. -/
theorem ensures_part_bind {P : Watched S → Prop} {Q : A → Watched S → Prop}
    {E : Watched S → Prop} {f : S → Run K S A}
    (h : ∀ w, P w → Ensures (fun v => v = w) (f w.part) Q E) : Ensures P (part >>= f) Q E :=
  fun w hw => h w hw w rfl

theorem keeps_part_bind {f : S → Run K S A} (h : ∀ w, I w → Keeps I (f w.part)) :
    Keeps I (part >>= f) := fun w hw => h w hw w hw

theorem keeps_change {f : S → S} (h : ∀ w, I w → I { w with part := f w.part }) :
    Keeps I (change f : Run K S Unit) := h

theorem keeps_within {read : S → T} {put : T → S → S} {step : Run K T A}
    (h : ∀ w, I w → ∃ J : Watched T → Prop, J ⟨w.monitor, read w.part⟩ ∧ Keeps J step ∧
      ∀ v, J v → I ⟨v.monitor, put v.part w.part⟩) : Keeps I (within read put step) := by
  intro w hw
  obtain ⟨J, hJ, hstep, hput⟩ := h w hw
  have := hstep _ hJ
  unfold within Step.within
  cases hx : step ⟨w.monitor, read w.part⟩ with
  | ok a v =>
    rw [hx] at this
    exact hput v this
  | error e v =>
    rw [hx] at this
    exact hput v this

/-- What a step comes to apart from the part: its result or its fault, and the counts. -/
def outcome (step : Run K S A) (w : Watched S) : Except (Fault K) A × Monitor :=
  ((attempt step w).1, (attempt step w).2.monitor)

theorem outcome_of_ok {step : Run K S A} {w v : Watched S} {a : A} (h : step w = .ok a v) :
    outcome step w = (.ok a, v.monitor) := by simp only [outcome, attempt, h]

theorem outcome_of_error {step : Run K S A} {w v : Watched S} {e : Fault K}
    (h : step w = .error e v) : outcome step w = (.error e, v.monitor) := by
  simp only [outcome, attempt, h]

theorem outcome_within {read : S → T} {put : T → S → S} {step : Run K T A} (w : Watched S) :
    outcome (within read put step) w = outcome step ⟨w.monitor, read w.part⟩ := by
  unfold outcome attempt within Step.within
  cases step ⟨w.monitor, read w.part⟩ <;> rfl

/-- Steps with one outcome succeed together. -/
theorem succeeds_congr {step : Run K S A} {w w' : Watched S} (h : outcome step w' = outcome step w) :
    Step.succeeds step w' = Step.succeeds step w := by
  have hresult := congrArg Prod.fst h
  unfold outcome attempt at hresult
  unfold Step.succeeds
  cases hw : step w <;> cases hw' : step w' <;> simp_all

/-- A step on a part of the part succeeds if the step does. -/
theorem within_eq_ok {read : S → T} {put : T → S → S} {step : Run K T A} {w v : Watched S}
    {a : A} : within read put step w = .ok a v ↔
      ∃ u, step ⟨w.monitor, read w.part⟩ = .ok a u ∧ v = ⟨u.monitor, put u.part w.part⟩ := by
  unfold within Step.within
  cases step ⟨w.monitor, read w.part⟩ with
  | ok b u =>
    simp only [EStateM.Result.ok.injEq]
    exact ⟨fun ⟨h, h'⟩ => ⟨u, ⟨h, rfl⟩, h'.symm⟩, fun ⟨_, ⟨h, h'⟩, h''⟩ => ⟨h, h' ▸ h''.symm⟩⟩
  | error e u => simp

theorem within_of_error {read : S → T} {put : T → S → S} {step : Run K T A} {w : Watched S}
    {u : Watched T} {e : Fault K} (h : step ⟨w.monitor, read w.part⟩ = .error e u) :
    within read put step w = .error e ⟨u.monitor, put u.part w.part⟩ := by
  unfold within Step.within
  simp only [h]

/-- A step on a part of the part ends where the step ends, whether it fails or not. -/
theorem final_within {read : S → T} {put : T → S → S} (step : Run K T A) (w : Watched S) :
    Step.final (within read put step) w =
      ⟨(Step.final step ⟨w.monitor, read w.part⟩).monitor,
        put (Step.final step ⟨w.monitor, read w.part⟩).part w.part⟩ := by
  unfold Step.final within Step.within
  cases step ⟨w.monitor, read w.part⟩ <;> rfl

/-- Steps that look at their parts and go on from there. -/
theorem couples_part_bind_of {S' A' : Type} {C : Watched S → Watched S' → Prop}
    {D : A → A' → Watched S → Watched S' → Prop} {f : S → Run K S A} {f' : S' → Run K S' A'}
    (h : ∀ w w', C w w' → Couples C (f w.part) (f' w'.part) D) :
    Couples C (part >>= f) (part >>= f') D :=
  fun w w' hw a t ht a' t' ht' => h w w' hw w w' hw a t ht a' t' ht'

/-- Steps on parts of two parts. -/
theorem couples_within {S' T' A' : Type} {C : Watched S → Watched S' → Prop}
    {P : Watched T → Watched T' → Prop} {Q : A → A' → Watched T → Watched T' → Prop}
    {D : A → A' → Watched S → Watched S' → Prop} {read : S → T} {put : T → S → S} {read' : S' → T'}
    {put' : T' → S' → S'} {x : Run K T A} {y : Run K T' A'} (hstep : Couples P x y Q)
    (hread : ∀ w w', C w w' → P ⟨w.monitor, read w.part⟩ ⟨w'.monitor, read' w'.part⟩)
    (hput : ∀ w w', C w w' → ∀ a a' v v', Q a a' v v' →
      D a a' ⟨v.monitor, put v.part w.part⟩ ⟨v'.monitor, put' v'.part w'.part⟩) :
    Couples C (within read put x) (within read' put' y) D := by
  intro w w' hw a t ht a' t' ht'
  obtain ⟨v, hv, rfl⟩ := within_eq_ok.1 ht
  obtain ⟨v', hv', rfl⟩ := within_eq_ok.1 ht'
  exact hput w w' hw a a' v v' (hstep _ _ (hread w w' hw) a v hv a' v' hv')

theorem ofStep_eq_ok {step : Step K S A} {w v : Watched S} {a : A} :
    ofStep step w = .ok a v ↔ ∃ t, step w.part = .ok a t ∧ v = { w with part := t } := by
  unfold ofStep Step.within
  cases step w.part with
  | ok b t =>
    simp only [EStateM.Result.ok.injEq]
    exact ⟨fun ⟨h, h'⟩ => ⟨t, ⟨h, rfl⟩, h'.symm⟩, fun ⟨_, ⟨h, h'⟩, h''⟩ => ⟨h, h' ▸ h''.symm⟩⟩
  | error e t => simp

theorem ofStep_of_error {step : Step K S A} {w : Watched S} {s : S} {e : Fault K}
    (h : step w.part = .error e s) : ofStep step w = .error e { w with part := s } := by
  unfold ofStep Step.within
  simp only [h]

theorem keeps_ofStep {step : Step K S A}
    (h : ∀ w, I w → Keeps (fun s => I { w with part := s }) step) : Keeps I (ofStep step) := by
  intro w hw
  have := h w hw w.part hw
  unfold ofStep Step.within
  cases hx : step w.part <;> rwa [hx] at this

/-! ### Two runs -/

/-- Run from related parts, the step has equal results and ends in related parts. -/
abbrev Respects (C : S → S → Prop) (x : Run K S A) : Prop :=
  Step.Respects (fun w w' => C w.part w'.part) x

variable {C : S → S → Prop}

/-- What a step looks up may not depend on what the relation leaves open. -/
theorem respects_part_bind {f : S → Run K S A} (hf : ∀ s s', C s s' → f s' = f s)
    (h : ∀ s, Respects C (f s)) : Respects C (part >>= f) := by
  refine couples_part_bind_of fun w w' hw => ?_
  rw [hf _ _ hw]
  exact h w.part

theorem respects_change {f : S → S} (h : ∀ s s', C s s' → C (f s) (f s')) :
    Respects C (change f : Run K S Unit) := couples_modify fun _ _ hw => ⟨rfl, h _ _ hw⟩

theorem respects_within {P : T → T → Prop} {read : S → T} {put : T → S → S} {x : Run K T A}
    (hx : Respects P x) (hread : ∀ s s', C s s' → P (read s) (read s'))
    (hput : ∀ s s' t t', C s s' → P t t' → C (put t s) (put t' s')) :
    Respects C (within read put x) :=
  couples_within hx (fun _ _ hw => hread _ _ hw) fun _ _ hw _ _ _ _ hv => ⟨hv.1, hput _ _ _ _ hw hv.2⟩

theorem respects_ofStep {x : Step K S A} (hx : Step.Respects C x) : Respects C (ofStep x) := by
  intro w w' hw a v hv a' v' hv'
  obtain ⟨s, hs, rfl⟩ := ofStep_eq_ok.1 hv
  obtain ⟨s', hs', rfl⟩ := ofStep_eq_ok.1 hv'
  exact hx w.part w'.part hw a s hs a' s' hs'

end Run

end DualDynamic
