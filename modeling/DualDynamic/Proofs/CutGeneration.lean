import DualDynamic.Proofs.PolicyGraph
import DualDynamic.CutGeneration

/-!
# Installing and generating cuts

What a graph keeps of its nodes while cuts are generated and installed: a property of nodes that no
solve disturbs, and that a node does not lose by a cut of some kind, holds on through backward
passes that generate cuts of this kind, and through the installation of records of such cuts.
-/

namespace DualDynamic

open Step

variable {K : Type} [Numeral K]

namespace PolicyGraph

/-- Cuts of the kind `V` may be installed in the nodes with the property `J`. -/
structure Accepts (V : ℕ → ℕ → Cut K → Prop) (J : ℕ → ℕ → Node K → Prop) : Prop where
  placed : IsPlaced J
  installCut : ∀ {t k n cut rib state new n'}, J t k n → V t k cut →
    n.installCut cut rib state = .ok (new, n') → J t k n'

/-- The cut is of the kind at the node with these indices. -/
def IsFor (V : ℕ → ℕ → Cut K → Prop) (stage markov : ℤ) (cut : Cut K) : Prop :=
  ∀ t k : ℕ, (∀ i : ℕ, stage = i → t = i) → (∀ i : ℕ, markov = i → k = i) → V t k cut

/-- Generated cuts are of the kind `V`. -/
def Generates (engine : Engine K) (F : PolicyGraph K × List ℕ) (J : ℕ → ℕ → Node K → Prop)
    (V : ℕ → ℕ → Cut K → Prop) : Prop :=
  ∀ t k n state rib iteration, J t k n →
    Ensures (fun w => Holds F J w.part) (generateCut engine n state rib iteration)
      (fun cut w => V t k cut ∧ Holds F J w.part) fun w => Holds F J w.part

variable {engine : Engine K} {F : PolicyGraph K × List ℕ} {J : ℕ → ℕ → Node K → Prop}
  {V : ℕ → ℕ → Cut K → Prop}

omit [Numeral K] in
theorem isFor_natCast {t k : ℕ} {cut : Cut K} (h : V t k cut) : IsFor V t k cut :=
  fun _ _ ht hk => ht t rfl ▸ hk k rfl ▸ h

theorem keeps_installCut (hJ : Accepts V J) {stage markov : ℤ} {cut : Cut K}
    (hcut : IsFor V stage markov cut) (rib : Option K) (state : Option (Datum K)) :
    Keeps (Holds F J) (installCut stage markov rib cut state) := by
  refine ensures_get_bind fun g hg => ?_
  refine Ensures.bind (Q := fun n s => s = g ∧ g.node stage markov = .ok n)
    (ensures_ofExcept (fun n hn s hs => ⟨hs, mapError_eq_ok.1 hn⟩) fun s hs => hs ▸ hg) fun n => ?_
  refine Ensures.bind (Q := fun q s => s = g ∧ g.node stage markov = .ok n ∧
    n.installCut cut rib state = .ok q)
    (ensures_ofExcept (fun q hq s hs => ⟨hs.1, hs.2, hq⟩) fun s hs => hs.1 ▸ hg) fun q => ?_
  rintro s ⟨rfl, hnode, hq⟩
  obtain ⟨t, k, hplace, ht, hk⟩ := exists_of_node hnode
  exact hg.putNode_of_placed hJ.placed (hJ.installCut (hg.nodes t k n hplace) (hcut t k ht hk) hq)

theorem keeps_replay (hJ : Accepts V J) {records : List (CutRecord K)}
    (hcuts : ∀ r ∈ records, IsFor V r.stage r.markov r.cut) :
    Keeps (Holds F J) (replay records) := by
  induction records with
  | nil => exact keeps_pure _
  | cons r rs ih =>
    refine Keeps.bind (keeps_installCut hJ (hcuts r (by simp)) _ _) fun new => ?_
    exact (ih fun r hr => hcuts r (by simp [hr])).bind fun count => keeps_pure _

/-- Accepting cuts of a narrower kind, together with something that no cut of this kind changes. -/
theorem Accepts.and {J' : ℕ → ℕ → Node K → Prop} {V' : ℕ → ℕ → Cut K → Prop} (hJ : Accepts V J)
    (hV : ∀ {t k cut}, V' t k cut → V t k cut)
    (h : ∀ {t k n cut rib state new n'}, J t k n → J' t k n → V' t k cut →
      n.installCut cut rib state = .ok (new, n') → J' t k n') :
    Accepts V' fun t k n => J t k n ∧ J' t k n where
  placed t k n hn := hJ.placed t k n hn.1
  installCut hn hcut hinstall := ⟨hJ.installCut hn.1 (hV hcut) hinstall, h hn.1 hn.2 hcut hinstall⟩

end PolicyGraph

namespace Recorded

open PolicyGraph

variable {engine : Engine K} {F : PolicyGraph K × List ℕ} {J : ℕ → ℕ → Node K → Prop}
  {V : ℕ → ℕ → Cut K → Prop} {A : Type}

omit [Numeral K] in
theorem ensures_onGraph {step : Run K (PolicyGraph K) A} {Q : A → Prop}
    (h : Ensures (fun w => Holds F J w.part) step (fun a w => Q a ∧ Holds F J w.part)
      fun w => Holds F J w.part) :
    Ensures (fun w => Holds F J w.part.graph) (onGraph step)
      (fun a w => Q a ∧ Holds F J w.part.graph) fun w => Holds F J w.part.graph :=
  Ensures.within fun _ hw => h.weaken (fun _ hv => hv ▸ hw) (fun _ _ => id) fun _ => id

/-- The record of a cut of the kind. -/
def IsOf (V : ℕ → ℕ → Cut K → Prop) (r : CutRecord K) : Prop := IsFor V r.stage r.markov r.cut

omit [Numeral K] in
theorem keeps_onGraph {x : Run K (PolicyGraph K) A} (h : Keeps (fun w => Holds F J w.part) x) :
    Keeps (fun w => Holds F J w.part.graph) (onGraph x) :=
  Run.keeps_within fun _ hw => ⟨fun v => Holds F J v.part, hw, h, fun _ hv => hv⟩

/-- A record of an accepted cut is written and its cut installed. -/
theorem ensures_enter (hJ : Accepts V J) {r : CutRecord K} (hr : IsOf V r) (x : Option (Datum K)) :
    Ensures (fun w => Holds F J w.part.graph)
      (write r >>= fun _ => onGraph (Run.ofStep (installCut r.stage r.markov r.rib r.cut x)) >>=
        fun _ => pure r)
      (fun r' w => r' = r ∧ Holds F J w.part.graph) fun w => Holds F J w.part.graph := by
  have hwrite : Keeps (fun w : Watched (Recorded K) => Holds F J w.part.graph) (write r) :=
    Run.keeps_change fun _ hw => hw
  have hinstall : Keeps (fun w => Holds F J w.part.graph)
      (onGraph (Run.ofStep (installCut r.stage r.markov r.rib r.cut x))) :=
    keeps_onGraph (Run.keeps_ofStep fun _ _ => keeps_installCut hJ hr _ _)
  exact Ensures.bind hwrite fun _ => Ensures.bind hinstall fun _ => ensures_pure fun _ hw => ⟨rfl, hw⟩

section Generated

variable (hJ : Accepts V J) (hV : Generates engine F J V)
include hJ hV

theorem ensures_updateRib {t k : ℕ} {n : Node K} (hn : J t k n) (state : List K)
    (iteration : Option ℤ) (rib : Option K) :
    Ensures (fun w => Holds F J w.part.graph) (updateRib engine n state iteration rib)
      (fun r w => IsOf V r ∧ Holds F J w.part.graph) fun w => Holds F J w.part.graph := by
  refine (ensures_onGraph (hV t k n state rib iteration hn)).bind fun cut => ?_
  rintro w ⟨hcut, hw⟩
  obtain ⟨hstage, hmarkov⟩ := hJ.placed t k n hn
  have hr : IsOf V ⟨n.stage, n.markov, rib, cut⟩ := hstage ▸ hmarkov ▸ isFor_natCast hcut
  exact (ensures_enter hJ hr _).weaken (fun _ => id) (fun _ _ h => ⟨h.1 ▸ hr, h.2⟩) (fun _ => id) w hw

theorem ensures_update {t k : ℕ} {n : Node K} (hn : J t k n) (state : List K)
    (iteration : Option ℤ) :
    Ensures (fun w => Holds F J w.part.graph) (update engine n state iteration)
      (fun rs w => (∀ r ∈ rs, IsOf V r) ∧ Holds F J w.part.graph)
      fun w => Holds F J w.part.graph := by
  refine Ensures.weaken (Ensures.mapM (R := fun _ r => IsOf V r) fun rib _ =>
    ensures_updateRib hJ hV hn state iteration rib) (fun _ => id) (fun rs w hw => ⟨fun r hr => ?_,
      hw.2⟩) fun _ => id
  obtain ⟨-, -, h⟩ := exists_left_of_forall₂ hw.1 hr
  exact h

theorem ensures_updateStage (path : List ℤ) (states : List (List K)) (iteration : Option ℤ)
    (stage : ℕ) :
    Ensures (fun w => Holds F J w.part.graph) (updateStage engine path states iteration stage)
      (fun rs w => (∀ r ∈ rs, IsOf V r) ∧ Holds F J w.part.graph)
      fun w => Holds F J w.part.graph := by
  refine Run.ensures_part_bind fun w hw => ?_
  have hstart : ∀ v, v = w → Holds F J v.part.graph := fun v hv => hv ▸ hw
  refine Ensures.bind (Q := fun n v => (∃ t k, J t k n) ∧ v = w)
    (ensures_ofExcept (fun n hn v hv => ⟨?_, hv⟩) hstart) fun n => ?_
  · obtain ⟨markov, -, hnode⟩ := exceptBind_eq_ok.1 hn
    obtain ⟨t, k, hplace, -⟩ := exists_of_node hnode
    exact ⟨t, k, hw.nodes t k n hplace⟩
  · refine Ensures.bind (Q := fun _ v => (∃ t k, J t k n) ∧ v = w)
      (ensures_ofExcept (fun _ _ _ hv => hv) fun v hv => hstart v hv.2) fun state => ?_
    rintro v ⟨⟨t, k, hn⟩, hv⟩
    exact ensures_update hJ hV hn state iteration v (hstart v hv)

/-- A backward pass keeps the property, and all of its records are of the kind. -/
theorem ensures_backward (path : List ℤ) (states : List (List K)) (iteration : Option ℤ) :
    Ensures (fun w => Holds F J w.part.graph) (backward engine path states iteration)
      (fun rs w => (∀ r ∈ rs, IsOf V r) ∧ Holds F J w.part.graph)
      fun w => Holds F J w.part.graph := by
  refine Run.ensures_part_bind fun w hw => ?_
  generalize (List.range (w.part.graph.stages - 1)).reverse = stages
  have hstages : Ensures (fun w => Holds F J w.part.graph)
      (stages.mapM (updateStage engine path states iteration))
      (fun parts w => List.Forall₂ (fun _ rs => ∀ r ∈ rs, IsOf V r) stages parts ∧
        Holds F J w.part.graph) fun w => Holds F J w.part.graph :=
    Ensures.mapM (R := fun _ rs => ∀ r ∈ rs, IsOf V r) fun stage _ =>
      ensures_updateStage hJ hV path states iteration stage
  refine (hstages.bind fun parts => ensures_pure fun v hv => ⟨fun r hr => ?_, hv.2⟩).weaken
    (fun v hv => hv ▸ hw) (fun _ _ => id) fun _ => id
  obtain ⟨rs, hrs, hr⟩ := List.mem_flatten.1 hr
  obtain ⟨-, -, h⟩ := exists_left_of_forall₂ hv.1 hrs
  exact h r hr

end Generated

/-- Nodes keep what no solve disturbs and no cut at the place of a node while this node gets cuts. -/
theorem keeps_updateRib {n : Node K} (hJ : Steady engine J) (haccepts : Accepts V J)
    (hn : ∀ cut, V n.stage n.markov cut) (state : List K) (iteration : Option ℤ) (rib : Option K) :
    Keeps (fun w => Holds F J w.part.graph) (updateRib engine n state iteration rib) :=
  Keeps.bind (keeps_onGraph (keeps_generateCut hJ _ _ _ _)) fun cut =>
    (ensures_enter haccepts (r := ⟨n.stage, n.markov, rib, cut⟩) (isFor_natCast (hn cut)) _).weaken
      (fun _ => id) (fun _ _ h => h.2) fun _ => id

theorem keeps_updateStage (hJ : Steady engine J) (haccepts : Accepts V J) {t : ℕ}
    (hV : ∀ k cut, V t k cut) (path : List ℤ) (states : List (List K)) (iteration : Option ℤ) :
    Keeps (fun w => Holds F J w.part.graph) (updateStage engine path states iteration t) := by
  refine Run.keeps_part_bind fun w hw => ?_
  refine Ensures.bind (Q := fun n w => n.stage = t ∧ Holds F J w.part.graph)
    (ensures_ofExcept (fun n hn _ hv => ⟨?_, hv⟩) fun _ => id) fun n v hv => ?_
  · obtain ⟨m, -, hnode⟩ := exceptBind_eq_ok.1 hn
    obtain ⟨t', k, hplace, ht, -⟩ := exists_of_node hnode
    obtain rfl := ht t rfl
    exact (hJ.placed t' k n (hw.nodes t' k n hplace)).1
  · obtain ⟨rfl, hv⟩ := hv
    exact ((keeps_ofExcept _).bind fun state => Keeps.mapM fun rib _ =>
      keeps_updateRib hJ haccepts (hV n.markov) state iteration rib) v hv

end Recorded

end DualDynamic
