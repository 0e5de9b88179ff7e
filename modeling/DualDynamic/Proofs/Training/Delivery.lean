import DualDynamic.Proofs.PolicyGraph.Rows
import DualDynamic.Proofs.Training.Exchange

/-!
# Deliveries of records

Records may come in any batches, in any order, and more than once. A trainer takes in what is fresh to
it and remembers it, so nothing is taken in twice, and everything that came has been taken in by the end
(`Trainer.Delivered`). Hence what a trainer knows and stores and which rows its programs have depends on
which records were delivered, and on nothing else (`deliveries_agree`).

Nothing is assumed of the trainer before: it may know records that its graph does not store, and its
pools may have retired cuts that are delivered again.
-/

namespace DualDynamic

open Step PolicyGraph

variable {K : Type} [Numeral K]

namespace CutRecord

omit [Numeral K] in
/-- A record that came is known, or was seen, or is like a fresh one. -/
theorem among_freshAfter_of_mem [Scalar K] {known seen records : List (CutRecord K)} {r : CutRecord K}
    (h : r ∈ records) :
    r.isIn known = true ∨ r.isIn seen = true ∨ r.Among (freshAfter known seen records) := by
  induction records generalizing seen with
  | nil => simp at h
  | cons s records ih =>
    rw [freshAfter]
    split_ifs with hold
    · rcases List.mem_cons.1 h with rfl | h
      · exact (Bool.or_eq_true_iff.1 hold).imp_right Or.inl
      · exact ih h
    · rcases List.mem_cons.1 h with rfl | h
      · exact Or.inr (Or.inr ⟨r, by simp, .refl r⟩)
      · have hrest : r.isIn known = true ∨ r.isIn (s :: seen) = true ∨
            r.Among (freshAfter known (s :: seen) records) := ih h
        rcases hrest with hknown | hseen | ⟨s', hs', halike⟩
        · exact Or.inl hknown
        · rw [isIn, List.any_cons, Bool.or_eq_true_iff] at hseen
          rcases hseen with hsame | hseen
          · exact Or.inr (Or.inr ⟨s, by simp, Or.inr hsame⟩)
          · exact Or.inr (Or.inl hseen)
        · exact Or.inr (Or.inr ⟨s', by simp [hs'], halike⟩)

omit [Numeral K] in
theorem among_fresh_of_mem [Scalar K] {known records : List (CutRecord K)} {r : CutRecord K}
    (h : r ∈ records) : r.isIn known = true ∨ r.Among (fresh records known) := by
  have hparts : r.isIn known = true ∨ r.isIn [] = true ∨ r.Among (freshAfter known [] records) :=
    among_freshAfter_of_mem h
  exact hparts.imp_right fun hrest => hrest.elim (fun hnone => by simp [isIn] at hnone) id

end CutRecord

namespace Trainer

variable {t u v : Trainer K} {records fresh more : List (CutRecord K)}

/-- The trainer has come from `t` by the delivery of records, of which those `fresh` to it were taken in:
each is new to `t` and to the ones before it, and all other ones are known or like one of them. -/
structure Delivered (t : Trainer K) (records fresh : List (CutRecord K)) (u : Trainer K) : Prop where
  replayed : ∃ count, replay fresh t.graph = .ok count u.graph
  known : u.known = t.known ++ fresh
  found : ∀ r ∈ fresh, r ∈ records ∧ r.isIn t.known = false
  taken : ∀ r ∈ records, r.isIn t.known = true ∨ r.Among fresh
  once : fresh.Pairwise fun r s => s.same r = false

theorem Delivered.refl (t : Trainer K) : t.Delivered [] [] t where
  replayed := ⟨0, rfl⟩
  known := by simp
  found := by simp
  taken := by simp
  once := .nil

/-- A batch of which all fresh records are put into the graph and made known. -/
theorem Delivered.batch (h : t.Delivered records fresh u) {batch : List (CutRecord K)} {count : ℕ}
    (hreplay : replay (CutRecord.fresh batch u.known) u.graph = .ok count v.graph)
    (hknown : v.known = CutRecord.learnAll u.known (CutRecord.fresh batch u.known)) :
    t.Delivered (records ++ batch) (fresh ++ CutRecord.fresh batch u.known) v := by
  obtain ⟨before, hbefore⟩ := h.replayed
  refine ⟨exists_replay_append hbefore hreplay, ?_, fun r hr => ?_, fun r hr => ?_, ?_⟩
  · rw [hknown, CutRecord.learnAll_fresh, h.known, List.append_assoc]
  · rcases List.mem_append.1 hr with hr | hr
    · exact ⟨List.mem_append_left _ (h.found r hr).1, (h.found r hr).2⟩
    · obtain ⟨hmem, hnew⟩ := CutRecord.mem_of_mem_fresh hr
      rw [h.known, CutRecord.isIn, List.any_append, Bool.or_eq_false_iff] at hnew
      exact ⟨List.mem_append_right _ hmem, hnew.1⟩
  · rw [CutRecord.among_append]
    rcases List.mem_append.1 hr with hr | hr
    · exact (h.taken r hr).imp_right Or.inl
    · have hparts : r.isIn u.known = true ∨ r.Among (CutRecord.fresh batch u.known) :=
        CutRecord.among_fresh_of_mem hr
      rcases hparts with hold | hfresh
      · rw [h.known, CutRecord.isIn, List.any_append, Bool.or_eq_true_iff] at hold
        exact hold.imp_right fun hold => Or.inl (CutRecord.among_of_isIn hold)
      · exact Or.inr (Or.inr hfresh)
  · refine List.pairwise_append.2 ⟨h.once, CutRecord.pairwise_fresh, fun r hr s hs => ?_⟩
    have hmem : r ∈ u.known := h.known ▸ List.mem_append_right _ hr
    exact CutRecord.same_eq_false_of_mem_fresh hs hmem

/-! ## Deliveries succeed -/

/-- Records that the graph takes are all installed. -/
theorem exists_each_installRecord {w : Watched (Trainer K)} (hsettled : w.part.graph.IsSettled)
    (htakes : ∀ r ∈ records, w.part.graph.Takes r) : ∃ count v,
      Step.each records installRecord w = .ok () v ∧
      replay records w.part.graph = .ok count v.part.graph ∧
      v.part.known = CutRecord.learnAll w.part.known records := by
  induction records generalizing w with
  | nil => exact ⟨0, w, rfl, rfl, rfl⟩
  | cons r records ih =>
    obtain ⟨new, g, hg⟩ := htakes r (by simp)
    let w₁ : Watched (Trainer K) := { w with part := { w.part with
      graph := g, log := w.part.log.write r, known := CutRecord.learn w.part.known r } }
    have hr : installRecord r w = .ok () w₁ := by
      have hput : onGraph (Run.ofStep (PolicyGraph.installRecord r))
          { w with part := { w.part with log := w.part.log.write r } } = .ok new
            { w with part := { w.part with log := w.part.log.write r, graph := g } } :=
        Run.within_eq_ok.2 ⟨⟨w.monitor, g⟩, Run.ofStep_eq_ok.2 ⟨g, hg, rfl⟩, rfl⟩
      exact bind_eq_ok.2 ⟨(), _, rfl, bind_eq_ok.2 ⟨new, _, hput, rfl⟩⟩
    have hsettled₁ := (storedAt_installCut hsettled hg).1
    obtain ⟨count, v, heach, hreplay, hknown⟩ := ih (w := w₁) hsettled₁ fun s hs =>
      (htakes s (by simp [hs])).of_installRecord hsettled hg
    exact ⟨_, v, bind_eq_ok.2 ⟨(), w₁, hr, heach⟩,
      replay_cons_eq_ok.2 ⟨new, g, count, hg, hreplay, rfl⟩, hknown⟩

/-- A batch of records that the graph takes is taken in. -/
theorem Delivered.exists_installRecords {w : Watched (Trainer K)} (hsettled : t.graph.IsSettled)
    (h : t.Delivered records fresh w.part) {batch : List (CutRecord K)}
    (htakes : ∀ r ∈ batch, t.graph.Takes r) : ∃ out v, installRecords batch w = .ok out v ∧
      t.Delivered (records ++ batch) (fresh ++ out) v.part := by
  obtain ⟨before, hbefore⟩ := h.replayed
  have hstill : ∀ r ∈ CutRecord.fresh batch w.part.known, w.part.graph.Takes r :=
    fun r hr => (htakes r (CutRecord.mem_of_mem_fresh hr).1).of_replay hsettled hbefore
  obtain ⟨count, v, heach, hreplay, hknown⟩ :=
    exists_each_installRecord (storedAt_replay hsettled hbefore).1 hstill
  refine ⟨CutRecord.fresh batch w.part.known, v, ?_, h.batch hreplay hknown⟩
  rw [installRecords, Run.part_bind_apply]
  exact bind_eq_ok.2 ⟨(), v, heach, rfl⟩

/-- So are batches of such records, one after the other. -/
theorem Delivered.exists_mapM {w : Watched (Trainer K)} (hsettled : t.graph.IsSettled)
    (h : t.Delivered records fresh w.part) {batches : List (List (CutRecord K))}
    (htakes : ∀ r ∈ batches.flatten, t.graph.Takes r) : ∃ out v,
      batches.mapM installRecords w = .ok out v ∧
      t.Delivered (records ++ batches.flatten) (fresh ++ out.flatten) v.part := by
  induction batches generalizing w records fresh with
  | nil => exact ⟨[], w, rfl, by simpa using h⟩
  | cons batch batches ih =>
    rw [List.flatten_cons, List.forall_mem_append] at htakes
    obtain ⟨first, w₁, hfirst, h₁⟩ := h.exists_installRecords hsettled htakes.1
    obtain ⟨rest, v, hrest, hv⟩ := ih h₁ htakes.2
    refine ⟨first :: rest, v, ?_, ?_⟩
    · rw [mapM_cons]
      exact bind_eq_ok.2 ⟨first, w₁, hfirst, bind_eq_ok.2 ⟨rest, v, hrest, rfl⟩⟩
    · simpa only [List.flatten_cons, List.append_assoc] using hv

/-! ## What deliveries come to -/

/-- What one trainer knows and stores, and the rows on the ribs of its programs, the other one has too. -/
structure IsCovered (u v : Trainer K) : Prop where
  known : ∀ r ∈ u.known, r.Among v.known
  stored : ∀ n k i, ∀ c ∈ u.graph.storedAt n k i, c.Among (v.graph.storedAt n k i)
  rows : ∀ n k i, ∀ r ∈ u.graph.cutRowsAt n k i, ∃ s ∈ v.graph.cutRowsAt n k i, r.IsAlike s

/-- A trainer that the same records were delivered to, and perhaps more, has what the other one has. -/
theorem Delivered.isCovered (hsymm : Scalar.EqSymmetric K) (htrans : Scalar.EqTransitive K)
    (hsettled : t.graph.IsSettled) {records' fresh' : List (CutRecord K)}
    (hu : t.Delivered records fresh u) (hv : t.Delivered records' fresh' v)
    (hrecords : ∀ r ∈ records, r ∈ records') : u.IsCovered v := by
  have hfresh : ∀ r ∈ fresh, r.Among fresh' := fun r hr => by
    obtain ⟨hmem, hnew⟩ := hu.found r hr
    exact (hv.taken r (hrecords r hmem)).resolve_left (by simp [hnew])
  -- a record like one of the other trainer belongs to the same place
  have hplaced : ∀ r ∈ fresh, ∀ place, t.graph.placeOf r = some place →
      ∃ s ∈ fresh', t.graph.placeOf s = some place ∧ r.cut.Alike s.cut := fun r hr place hplace => by
    obtain ⟨s, hs, halike⟩ := hfresh r hr
    exact ⟨s, hs, (placeOf_of_alike hsymm htrans halike).symm.trans hplace, halike.cut⟩
  obtain ⟨count, hreplay⟩ := hu.replayed
  obtain ⟨count', hreplay'⟩ := hv.replayed
  constructor
  · intro r hr
    rw [hu.known] at hr
    rw [hv.known, CutRecord.among_append]
    exact (List.mem_append.1 hr).imp CutRecord.among_of_mem (hfresh r)
  · intro n k i c hc
    rw [(storedAt_replay hsettled hreplay).2.2] at hc
    rw [(storedAt_replay hsettled hreplay').2.2, Cut.among_foldl_insertNew htrans]
    rcases Cut.mem_of_mem_foldl_insertNew hc with hc | hc
    · exact Or.inl ⟨c, hc, .refl c⟩
    · obtain ⟨r, hr, rfl⟩ := List.mem_map.1 hc
      obtain ⟨hr, hplace⟩ := List.mem_filter.1 hr
      obtain ⟨s, hs, hplace', halike⟩ := hplaced r hr _ (of_decide_eq_true hplace)
      exact Or.inr ⟨s.cut, List.mem_map_of_mem (List.mem_filter.2 ⟨hs, decide_eq_true hplace'⟩), halike⟩
  · exact fun n k i r hr => exists_cutRowsAt_of_replay htrans hsettled hreplay hreplay' hplaced hr

end Trainer

/-- Deliveries of records agree. However the same records are delivered to a trainer, in whatever batches,
in whatever order and however often, all deliveries succeed, no two records that are found fresh are the
same, and in the end the trainer knows the same records, stores the same cuts at each rib of each node, and
its programs have the same rows there. -/
theorem deliveries_agree (hsymm : Scalar.EqSymmetric K) (htrans : Scalar.EqTransitive K) {t : Trainer K}
    (hsettled : t.graph.IsSettled) {records : Set (CutRecord K)}
    (hvalid : ∀ r ∈ records, t.graph.Takes r) {first second : List (List (CutRecord K))}
    (hfirst : ∀ r, r ∈ first.flatten ↔ r ∈ records) (hsecond : ∀ r, r ∈ second.flatten ↔ r ∈ records)
    (k k' : Monitor) : ∃ out u out' v,
      first.mapM Trainer.installRecords ⟨k, t⟩ = .ok out u ∧
      second.mapM Trainer.installRecords ⟨k', t⟩ = .ok out' v ∧
      (out.flatten.Pairwise fun r s => s.same r = false) ∧
      (out'.flatten.Pairwise fun r s => s.same r = false) ∧
      u.part.IsCovered v.part ∧ v.part.IsCovered u.part := by
  obtain ⟨out, u, hrun, hu⟩ := (Trainer.Delivered.refl t).exists_mapM (w := ⟨k, t⟩) hsettled
    fun r hr => hvalid r ((hfirst r).1 hr)
  obtain ⟨out', v, hrun', hv⟩ := (Trainer.Delivered.refl t).exists_mapM (w := ⟨k', t⟩) hsettled
    fun r hr => hvalid r ((hsecond r).1 hr)
  rw [List.nil_append, List.nil_append] at hu hv
  exact ⟨out, u, out', v, hrun, hrun', hu.once, hv.once,
    hu.isCovered hsymm htrans hsettled hv fun r hr => (hsecond r).2 ((hfirst r).1 hr),
    hv.isCovered hsymm htrans hsettled hu fun r hr => (hfirst r).2 ((hsecond r).1 hr)⟩

namespace Larder

/-- The cut of a lower demand. -/
def leftover : CutRecord ℤ := ⟨0, 0, none, { intercept := 6, coefficients := [-2], side := .atLeast }⟩

theorem takes_graph : ∀ r ∈ [shortage, leftover], graph.Takes r := by
  have hsucceeds : ∀ r ∈ [shortage, leftover],
      succeeds (PolicyGraph.installRecord r) graph = true := by decide +kernel
  exact fun r hr => (exists_eq_ok_final (hsucceeds r hr)).imp fun new h => ⟨_, h⟩

theorem isSettled_graph : graph.IsSettled := by
  obtain ⟨d, hopen⟩ := exists_isOpen_build build_graph
  exact isSettled_of_holds (Node.isPlaced_isOpen _ d) hopen

end Larder

/-- Two cuts delivered one by one, or twice and together. -/
theorem deliveries_agree_larder :
    let t : Trainer ℤ := .start Larder.graph
    let records : Set (CutRecord ℤ) := {Larder.shortage, Larder.leftover}
    let first := [[Larder.shortage], [Larder.leftover]]
    let second := [[Larder.leftover], [], [Larder.leftover, Larder.shortage, Larder.leftover]]
    (Scalar.EqSymmetric ℤ ∧ Scalar.EqTransitive ℤ ∧ t.graph.IsSettled ∧
      (∀ r ∈ records, t.graph.Takes r) ∧ (∀ r, r ∈ first.flatten ↔ r ∈ records) ∧
      ∀ r, r ∈ second.flatten ↔ r ∈ records) ∧
    ∃ out u out' v,
      first.mapM Trainer.installRecords ⟨{}, t⟩ = .ok out u ∧
      second.mapM Trainer.installRecords ⟨{}, t⟩ = .ok out' v ∧
      (out.flatten.Pairwise fun r s => s.same r = false) ∧
      (out'.flatten.Pairwise fun r s => s.same r = false) ∧
      u.part.IsCovered v.part ∧ v.part.IsCovered u.part := by
  intro t records first second
  have htakes : ∀ r ∈ records, t.graph.Takes r :=
    fun r hr => Larder.takes_graph r (by simpa [records] using hr)
  have hfirst : ∀ r, r ∈ first.flatten ↔ r ∈ records := fun r => by simp [first, records]
  have hsecond : ∀ r, r ∈ second.flatten ↔ r ∈ records := fun r => by
    simp [second, records]
    tauto
  exact ⟨⟨Scalar.eqSymmetric_int, Scalar.eqTransitive_int, Larder.isSettled_graph, htakes, hfirst,
    hsecond⟩, deliveries_agree Scalar.eqSymmetric_int Scalar.eqTransitive_int Larder.isSettled_graph
      htakes hfirst hsecond {} {}⟩

end DualDynamic
