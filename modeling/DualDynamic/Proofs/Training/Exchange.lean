import DualDynamic.Proofs.PolicyGraph.Stored
import DualDynamic.Proofs.Training.Recording

/-!
# The exchange of cuts in a team

The members of a team send each other records and never a graph. Still no cut is lost on the way: what
the coordinator knows, every worker knows or finds in its mailbox, and what a worker knows, the
coordinator knows or will take from a result of this worker. Nor is any record sent twice to the same
worker, or back to the worker that found it (`exchange_loses_nothing`). So when nothing is on the way
any more, all members store the same cuts.

This holds whatever the workers find, and in whichever order they merge messages, go through iterations
and are heard. The invariant speaks of one worker at a time (`Exchange.Serves`).
-/

namespace DualDynamic

open Step PolicyGraph

variable {K A : Type} [Numeral K] {engine : Engine K} {plan : TrainingPlan K}

/-! ## Learning -/

namespace Trainer

variable {t t' t'' : Trainer K} {records more : List (CutRecord K)}

/-- The trainer has come from `t` by taking in the records and nothing else, and knows them now. -/
structure Learns (t : Trainer K) (records : List (CutRecord K)) (t' : Trainer K) : Prop where
  taken : HasTaken t.graph records t'.graph
  known : t'.known = CutRecord.learnAll t.known records

theorem Learns.refl (t : Trainer K) : t.Learns [] t := ⟨.refl t.graph, rfl⟩

theorem Learns.trans (h : t.Learns records t') (h' : t'.Learns more t'') :
    t.Learns (records ++ more) t'' where
  taken := h.taken.trans h'.taken
  known := by rw [h'.known, h.known, CutRecord.learnAll, CutRecord.learnAll, CutRecord.learnAll,
    List.foldl_append]

theorem Learns.of_bare (h : t.Learns records t') (hbare : t''.graph.bare = t'.graph.bare)
    (hknown : t''.known = t'.known) : t.Learns records t'' :=
  ⟨h.taken.of_bare hbare, hknown.trans h.known⟩

theorem Learns.among_known (htrans : Scalar.EqTransitive K) (h : t.Learns records t')
    {r : CutRecord K} : r.Among t'.known ↔ r.Among t.known ∨ r.Among records := by
  rw [h.known, CutRecord.among_learnAll htrans]

theorem ensures_learns_installRecord (r : CutRecord K) :
    Ensures (fun w => t.Learns records w.part) (installRecord r)
      (fun _ w => t.Learns (records ++ [r]) w.part) fun _ => True := by
  refine ensures_iff.2 fun w hw => ⟨fun _ v hv => ?_, fun _ _ _ => trivial⟩
  obtain ⟨⟨⟩, w₁, hwrite, hv⟩ := bind_eq_ok.1 hv
  cases hwrite
  obtain ⟨new, w₂, hput, hv⟩ := bind_eq_ok.1 hv
  obtain ⟨u, hu, rfl⟩ := Run.within_eq_ok.1 hput
  obtain ⟨g, hinstall, rfl⟩ := Run.ofStep_eq_ok.1 hu
  cases hv
  exact hw.trans ⟨.of_installCut r hinstall, rfl⟩

/-- A receiver learns what is fresh to it. -/
theorem learns_installRecords {w v : Watched (Trainer K)} {fresh : List (CutRecord K)}
    (h : installRecords records w = .ok fresh v) :
    fresh = CutRecord.fresh records w.part.known ∧ w.part.Learns fresh v.part := by
  rw [installRecords, Run.part_bind_apply] at h
  obtain ⟨⟨⟩, u, heach, h⟩ := bind_eq_ok.1 h
  cases h
  have hall := Ensures.each_append
    (J := fun records (v : Watched (Trainer K)) => w.part.Learns records v.part)
    (fun r (_ : r ∈ CutRecord.fresh records w.part.known) cs => ensures_learns_installRecord r) []
  exact ⟨rfl, hall.of_ok (.refl w.part) heach⟩

theorem overlooks_bare (b : PolicyGraph K) (known : List (CutRecord K)) : Overlooks engine
    fun t => (t.graph.IsSettled ∧ t.graph.bare = b) ∧ t.known = known where
  solving hx := Run.keeps_within fun _ hw => ⟨fun v => v.part.IsSettled ∧ v.part.bare = b, hw.1,
    hx.keeps_bare b, fun _ hv => ⟨hv, hw.2⟩⟩
  change hf := Run.keeps_change fun w hw => by
    obtain ⟨hgraph, -, hknown⟩ := hf w.part
    have hbare := congrArg PolicyGraph.bare hgraph
    refine ⟨⟨isSettled_bare.1 ?_, Eq.trans hbare hw.1.2⟩, hknown.trans hw.2⟩
    exact (Eq.symm hbare) ▸ isSettled_bare.2 hw.1.1

omit [Numeral K] in
theorem keeps_known_onGraph (x : Run K (PolicyGraph K) A) (known : List (CutRecord K)) :
    Keeps (fun w => w.part.known = known) (onGraph x) :=
  Step.keeps_within (by exact fun _ _ hw => hw) x

/-- The records of an iteration are known when its passes are over. -/
theorem known_passes {w v : Watched (Trainer K)} {stream : MersenneTwister} {iteration : ℤ} {value : K}
    (h : passes engine stream iteration w = .ok (value, records) v) :
    v.part.known = CutRecord.learnAll w.part.known records := by
  obtain ⟨pass, w₁, hpass, h⟩ := bind_eq_ok.1 h
  obtain ⟨rs, w₂, hbackward, h⟩ := bind_eq_ok.1 h
  cases h
  obtain ⟨rs, w₃, hrecorded, hbackward⟩ := bind_eq_ok.1 hbackward
  obtain ⟨⟨⟩, w₄, hchange, hbackward⟩ := bind_eq_ok.1 hbackward
  cases hbackward
  cases hchange
  obtain ⟨u, -, rfl⟩ := Run.within_eq_ok.1 hrecorded
  have hknown : w₁.part.known = w.part.known := (keeps_known_onGraph _ _).of_ok rfl hpass
  show CutRecord.learnAll w₁.part.known records = _
  rw [hknown]

/-- The iteration of a worker: it learns what it finds. -/
theorem learns_iterate {d : ℕ} {w v : Watched (Trainer K)} {p : ℤ} {cleanEvery : Option ℤ} {i : ℕ}
    {value : K} (hopen : Holds w.part.graph.frame (Node.IsOpen w.part.graph d) w.part.graph)
    (hribs : w.part.graph.HasRibs) (h : Worker.iterate engine p cleanEvery i w = .ok (value, records) v) :
    w.part.Learns records v.part := by
  obtain ⟨seed, w₁, hseed, h⟩ := bind_eq_ok.1 h
  obtain ⟨-, rfl⟩ := ofExcept_eq_ok.1 hseed
  rw [Run.part_bind_apply] at h
  obtain ⟨result, w₂, hpasses, h⟩ := bind_eq_ok.1 h
  obtain ⟨⟨⟩, w₃, hclean, h⟩ := bind_eq_ok.1 h
  cases h
  have hstart : IsTrace w.part.graph d False w.part.known [] w.part :=
    ⟨⟨.refl w.part.graph, hopen, False.elim⟩, fun r hr => Or.inl hr⟩
  have htrace := ((ensures_isTrace_passes hribs seed.stream _).of_ok hstart hpasses).2
  rw [List.nil_append] at htrace
  have hend : v.part.IsTrace w.part.graph d False w.part.known records :=
    (keeps_cleanIfDue (keeps_isTrace_onGraph isQuiet_clean) _ _).of_ok htrace hclean
  have hknown : v.part.known = w₂.part.known :=
    (keeps_cleanIfDue (J := fun t => t.known = w₂.part.known) (keeps_known_onGraph _ _) _ _).of_ok rfl
      hclean
  exact ⟨hend.recorded.taken, hknown.trans (known_passes hpasses)⟩

end Trainer

namespace Team

/-- What a result of a worker comes to: the coordinator learns what is fresh to it, and passes it on. -/
theorem learns_collect {w v : Watched (Team K)} (hsettled : w.part.coordinator.graph.IsSettled) {p : ℤ}
    {value : K} {records : List (CutRecord K)} {isOver : Bool}
    (h : collect engine plan (.result p value records) w = .ok isOver v) :
    w.part.coordinator.Learns (CutRecord.fresh records w.part.coordinator.known) v.part.coordinator ∧
      v.part.results = w.part.results ∧
      v.part.workers = if (CutRecord.fresh records w.part.coordinator.known).isEmpty then w.part.workers
        else passOn p (CutRecord.fresh records w.part.coordinator.known) w.part.workers := by
  obtain ⟨⟨⟩, u, hshare, hfinish⟩ := bind_eq_ok.1 h
  obtain ⟨fresh, w₁, hcoordinator, hshare⟩ := bind_eq_ok.1 hshare
  obtain ⟨w₂, hinstall, rfl⟩ := Run.within_eq_ok.1 hcoordinator
  obtain ⟨rfl, hlearns⟩ := Trainer.learns_installRecords hinstall
  dsimp only at hlearns hshare
  generalize CutRecord.fresh records w.part.coordinator.known = fresh at *
  obtain ⟨hu, hresults, hworkers⟩ : u.part.coordinator = w₂.part ∧
      u.part.results = w.part.results ∧ u.part.workers =
        if fresh.isEmpty then w.part.workers else passOn p fresh w.part.workers := by
    by_cases hempty : fresh.isEmpty = true
    · rw [if_neg (by simp [hempty])] at hshare
      cases hshare
      exact ⟨rfl, rfl, (if_pos hempty).symm⟩
    · rw [if_pos (by simp [hempty])] at hshare
      cases hshare
      exact ⟨rfl, rfl, (if_neg hempty).symm⟩
  obtain ⟨w₃, hrun, rfl⟩ := Run.within_eq_ok.1 hfinish
  have hoverlooks : Trainer.Overlooks engine fun t => (t.graph.IsSettled ∧
      t.graph.bare = w₂.part.graph.bare) ∧ t.known = w₂.part.known := Trainer.overlooks_bare _ _
  have hstart : (u.part.coordinator.graph.IsSettled ∧
      u.part.coordinator.graph.bare = w₂.part.graph.bare) ∧
        u.part.coordinator.known = w₂.part.known := by
    rw [hu]
    exact ⟨⟨hlearns.taken.isSettled hsettled, rfl⟩, rfl⟩
  obtain ⟨⟨-, hbare⟩, hknown⟩ := (hoverlooks.keeps_finishIteration value).of_ok hstart hrun
  exact ⟨hlearns.of_bare hbare hknown, hresults, hworkers⟩

omit [Numeral K] in
/-- What is passed on goes to everybody else. -/
theorem exists_of_passedOn {fresh : List (CutRecord K)} {p q : ℕ} {workers : List (Worker K)} {w : Worker K}
    (h : (if fresh.isEmpty then workers else passOn p fresh workers)[q]? = some w) :
    ∃ w₀ more, workers[q]? = some w₀ ∧ w = { w₀ with mailbox := w₀.mailbox ++ more } ∧
      (q = p → more = []) ∧ (q ≠ p → more.flatten = fresh) := by
  by_cases hempty : fresh.isEmpty = true
  · rw [if_pos hempty] at h
    exact ⟨w, [], h, by simp, fun _ => rfl, fun _ => by simpa using hempty.symm⟩
  · rw [if_neg hempty, passOn, List.getElem?_mapIdx, Option.map_eq_some_iff] at h
    obtain ⟨w₀, hw₀, rfl⟩ := h
    by_cases hq : q = p
    · refine ⟨w₀, [], hw₀, ?_, fun _ => rfl, fun hne => absurd hq hne⟩
      simp [hq]
    · refine ⟨w₀, [fresh], hw₀, ?_, fun heq => absurd heq hq, fun _ => by simp⟩
      rw [if_neg (by simpa using hq)]

end Team

/-! ## Exchanges -/

/-- A team and what has gone through it: the messages that each worker has merged, and the records of each
worker that the coordinator found fresh. -/
structure Exchange (K : Type) where
  team : Watched (Team K)
  merged : ℕ → List (List (CutRecord K)) := fun _ => []
  found : ℕ → List (CutRecord K) := fun _ => []

namespace Exchange

omit [Numeral K] in
/-- The worker with a number. -/
def worker? (s : Exchange K) (q : ℕ) : Option (Worker K) := s.team.part.workers[q]?

omit [Numeral K] in
/-- What the coordinator knows. -/
def known (s : Exchange K) : List (CutRecord K) := s.team.part.coordinator.known

omit [Numeral K] in
/-- The results that wait for the coordinator. -/
def results (s : Exchange K) : List (Posted K) := s.team.part.results

omit [Numeral K] in
/-- All records that have been put into the mailbox of a worker, whether it has merged them or not. -/
def put (s : Exchange K) (q : ℕ) (w : Worker K) : List (CutRecord K) :=
  (s.merged q ++ w.mailbox).flatten

omit [Numeral K] in
/-- The worker with a number is another one now, and more results wait. -/
def replace (s : Exchange K) (p : ℕ) (w : Worker K) (posts : List (Posted K)) : Exchange K :=
  { s with team := { s.team with part := { s.team.part with
      workers := s.team.part.workers.set p w, results := s.team.part.results ++ posts } } }

/-- A worker merges the message that waits longest, a worker finds records and posts them, or the
coordinator takes the result that waits longest. -/
inductive Steps (engine : Engine K) (plan : TrainingPlan K) : Exchange K → Exchange K → Prop
  | merge {s : Exchange K} {p : ℕ} {worker : Worker K} {message fresh : List (CutRecord K)}
      {rest : List (List (CutRecord K))} {trainer : Watched (Trainer K)} :
      s.worker? p = some worker → worker.mailbox = message :: rest →
      Trainer.installRecords message worker.trainer = .ok fresh trainer →
      Steps engine plan s { s.replace p { worker with trainer, mailbox := rest } [] with
        merged := Function.update s.merged p (s.merged p ++ [message]) }
  | iterate {s : Exchange K} {p : ℕ} {worker : Worker K} {trainer : Watched (Trainer K)} {value : K}
      {records : List (CutRecord K)} :
      s.worker? p = some worker → worker.trainer.part.Learns records trainer.part →
      Steps engine plan s (s.replace p { worker with trainer } [.result p value records])
  | collect {s : Exchange K} {p : ℕ} {value : K} {records : List (CutRecord K)}
      {rest : List (Posted K)} {isOver : Bool} {team : Watched (Team K)} :
      s.results = .result p value records :: rest →
      Team.collect engine plan (.result p value records)
        { s.team with part := { s.team.part with results := rest } } = .ok isOver team →
      Steps engine plan s { s with
        team
        found := Function.update s.found p (s.found p ++ CutRecord.fresh records s.known) }

/-! ### One worker -/

/-- What a worker is sent, and what it sends. -/
structure Serves (known : List (CutRecord K)) (results : List (Posted K)) (q : ℕ)
    (put found : List (CutRecord K)) (w : Worker K) : Prop where
  reaches : ∀ r ∈ known, r.Among w.trainer.part.known ∨ r.Among w.mailbox.flatten
  returns : ∀ r ∈ w.trainer.part.known,
    r.Among known ∨ ∃ value records, .result q value records ∈ results ∧ r.Among records
  posted : ∀ value records, .result q value records ∈ results →
    ∀ r ∈ records, r.Among w.trainer.part.known
  put_known : ∀ r ∈ put, r ∈ known
  once : put.Pairwise fun r s => r.same s = false
  notBack : ∀ r ∈ found, ∀ s ∈ put, r.same s = false

section Workers

variable (htrans : Scalar.EqTransitive K) {known records : List (CutRecord K)}
  {results : List (Posted K)} {p q : ℕ}
  {put found : List (CutRecord K)} {w : Worker K} {trainer : Watched (Trainer K)}

section Learning

include htrans

/-- A worker that merges a message. -/
theorem Serves.merge (h : Serves known results q put found w) {message fresh : List (CutRecord K)}
    {rest : List (List (CutRecord K))} (hmailbox : w.mailbox = message :: rest)
    (hmessage : ∀ r ∈ message, r ∈ known) (hfresh : fresh = CutRecord.fresh message w.trainer.part.known)
    (hlearns : w.trainer.part.Learns fresh trainer.part) :
    Serves known results q put found { w with trainer, mailbox := rest } := by
  have hgrows : ∀ r : CutRecord K, r.Among w.trainer.part.known → r.Among trainer.part.known :=
    fun r hr => (hlearns.among_known htrans).2 (Or.inl hr)
  exact { h with
    reaches := fun r hr => by
      rcases h.reaches r hr with hknown | hwaits
      · exact Or.inl (hgrows r hknown)
      · rw [hmailbox, List.flatten_cons, CutRecord.among_append] at hwaits
        refine hwaits.imp_left fun hr => (hlearns.among_known htrans).2 ?_
        exact hfresh ▸ CutRecord.among_fresh htrans hr
    returns := fun r hr => by
      rw [hlearns.known] at hr
      rcases CutRecord.mem_of_mem_learnAll hr with hr | hr
      · exact h.returns r hr
      · rw [hfresh] at hr
        exact Or.inl (CutRecord.among_of_mem (hmessage r (CutRecord.mem_of_mem_fresh hr).1))
    posted := fun value records hpost r hr => hgrows r (h.posted value records hpost r hr) }

/-- A worker that finds records and posts them. -/
theorem Serves.iterate (h : Serves known results q put found w) (value : K)
    (hlearns : w.trainer.part.Learns records trainer.part) :
    Serves known (results ++ [.result q value records]) q put found { w with trainer } := by
  have hgrows : ∀ r : CutRecord K, r.Among w.trainer.part.known → r.Among trainer.part.known :=
    fun r hr => (hlearns.among_known htrans).2 (Or.inl hr)
  exact { h with
    reaches := fun r hr => (h.reaches r hr).imp_left (hgrows r)
    returns := fun r hr => by
      rw [hlearns.known] at hr
      rcases CutRecord.mem_of_mem_learnAll hr with hr | hr
      · refine (h.returns r hr).imp_right ?_
        rintro ⟨value, records, hpost, hr⟩
        exact ⟨value, records, List.mem_append_left _ hpost, hr⟩
      · exact Or.inr ⟨value, records, by simp, CutRecord.among_of_mem hr⟩
    posted := fun value' records' hpost r hr => by
      rcases List.mem_append.1 hpost with hpost | hpost
      · exact hgrows r (h.posted value' records' hpost r hr)
      · obtain ⟨-, -, rfl⟩ := Posted.result.inj (List.mem_singleton.1 hpost)
        exact (hlearns.among_known htrans).2 (Or.inr (CutRecord.among_of_mem hr)) }

end Learning

/-- A worker while another one posts. -/
theorem Serves.post (h : Serves known results q put found w) (hne : p ≠ q) (value : K)
    (records : List (CutRecord K)) :
    Serves known (results ++ [.result p value records]) q put found w :=
  { h with
    returns := fun r hr => (h.returns r hr).imp_right fun ⟨value, records, hpost, hr⟩ =>
      ⟨value, records, List.mem_append_left _ hpost, hr⟩
    posted := fun value' records' hpost => by
      rcases List.mem_append.1 hpost with hpost | hpost
      · exact h.posted value' records' hpost
      · obtain ⟨heq, -⟩ := Posted.result.inj (List.mem_singleton.1 hpost)
        exact absurd (by exact_mod_cast heq.symm) hne }

variable {rest : List (Posted K)} {value : K}

/-- A worker while the coordinator hears another one: the fresh records go into its mailbox. -/
theorem Serves.hear (hsymm : Scalar.EqSymmetric K)
    (h : Serves known (.result p value records :: rest) q put found w) (hne : p ≠ q)
    (hfound : ∀ r ∈ found, r ∈ known) {more : List (List (CutRecord K))}
    (hmore : more.flatten = CutRecord.fresh records known) :
    Serves (known ++ CutRecord.fresh records known) rest q (put ++ CutRecord.fresh records known) found
      { w with mailbox := w.mailbox ++ more } where
  reaches r hr := by
    rw [List.flatten_append, hmore, CutRecord.among_append, ← or_assoc]
    rcases List.mem_append.1 hr with hr | hr
    · exact Or.inl (h.reaches r hr)
    · exact Or.inr (CutRecord.among_of_mem hr)
  returns r hr := by
    rcases h.returns r hr with hknown | ⟨value', records', hpost, hr⟩
    · exact Or.inl (CutRecord.among_append.2 (Or.inl hknown))
    · rcases List.mem_cons.1 hpost with heq | hpost
      · obtain ⟨heq, -⟩ := Posted.result.inj heq
        exact absurd (by exact_mod_cast heq.symm) hne
      · exact Or.inr ⟨value', records', hpost, hr⟩
  posted value' records' hpost := h.posted value' records' (List.mem_cons_of_mem _ hpost)
  put_known r hr := by
    rcases List.mem_append.1 hr with hr | hr
    · exact List.mem_append_left _ (h.put_known r hr)
    · exact List.mem_append_right _ hr
  once := by
    refine List.pairwise_append.2 ⟨h.once, ?_, fun r hr s hs => ?_⟩
    · exact CutRecord.pairwise_fresh.imp fun hsame => (CutRecord.same_comm hsymm _ _).trans hsame
    · rw [CutRecord.same_comm hsymm]
      exact CutRecord.same_eq_false_of_mem_fresh hs (h.put_known r hr)
  notBack r hr s hs := by
    rcases List.mem_append.1 hs with hs | hs
    · exact h.notBack r hr s hs
    · rw [CutRecord.same_comm hsymm]
      exact CutRecord.same_eq_false_of_mem_fresh hs (hfound r hr)

include htrans

/-- A worker whom the coordinator hears. -/
theorem Serves.heard (h : Serves known (.result q value records :: rest) q put found w) :
    Serves (known ++ CutRecord.fresh records known) rest q put
      (found ++ CutRecord.fresh records known) w where
  reaches r hr := by
    rcases List.mem_append.1 hr with hr | hr
    · exact h.reaches r hr
    · exact Or.inl (h.posted value records (by simp) r (CutRecord.mem_of_mem_fresh hr).1)
  returns r hr := by
    rw [CutRecord.among_append]
    rcases h.returns r hr with hknown | ⟨value', records', hpost, hr⟩
    · exact Or.inl (Or.inl hknown)
    · rcases List.mem_cons.1 hpost with heq | hpost
      · obtain ⟨-, -, rfl⟩ := Posted.result.inj heq
        exact Or.inl (CutRecord.among_fresh htrans hr)
      · exact Or.inr ⟨value', records', hpost, hr⟩
  posted value' records' hpost := h.posted value' records' (List.mem_cons_of_mem _ hpost)
  put_known r hr := List.mem_append_left _ (h.put_known r hr)
  once := h.once
  notBack r hr s hs := by
    rcases List.mem_append.1 hr with hr | hr
    · exact h.notBack r hr s hs
    · exact CutRecord.same_eq_false_of_mem_fresh hr (h.put_known s hs)

end Workers

/-! ### All of them -/

/-- The members have learned since they were copies of the trainer `t`, and every worker is served. -/
structure IsSound (t : Trainer K) (s : Exchange K) : Prop where
  coordinator : ∃ records, t.Learns records s.team.part.coordinator
  found_known : ∀ p, ∀ r ∈ s.found p, r ∈ s.known
  workers : ∀ q w, s.worker? q = some w → (∃ records, t.Learns records w.trainer.part) ∧
    Serves s.known s.results q (s.put q w) (s.found q) w

omit [Numeral K] in
theorem worker?_replace {s : Exchange K} {p q : ℕ} {v w : Worker K} {posts : List (Posted K)}
    (h : (s.replace p v posts).worker? q = some w) :
    q = p ∧ w = v ∨ q ≠ p ∧ s.worker? q = some w := by
  have hset : (s.team.part.workers.set p v)[q]? = some w := h
  exact eq_or_of_getElem?_set hset

variable {t : Trainer K} {s s' : Exchange K}

section Steps

variable {p : ℕ} {worker : Worker K} {trainer : Watched (Trainer K)}

/-- A worker has merged a message. -/
theorem IsSound.merge (htrans : Scalar.EqTransitive K) (h : s.IsSound t)
    {message fresh : List (CutRecord K)} {rest : List (List (CutRecord K))}
    (hworker : s.worker? p = some worker) (hmailbox : worker.mailbox = message :: rest)
    (hinstall : Trainer.installRecords message worker.trainer = .ok fresh trainer) :
    IsSound t { s.replace p { worker with trainer, mailbox := rest } [] with
      merged := Function.update s.merged p (s.merged p ++ [message]) } := by
  obtain ⟨⟨records, hrecords⟩, hserves⟩ := h.workers p worker hworker
  obtain ⟨hfresh, hlearns⟩ := Trainer.learns_installRecords hinstall
  refine ⟨h.coordinator, h.found_known, fun q w hw => ?_⟩
  have hresults : s.results ++ [] = s.results := List.append_nil _
  rcases worker?_replace hw with ⟨rfl, rfl⟩ | ⟨hne, hw⟩
  · have hput : ((Function.update s.merged q (s.merged q ++ [message])) q ++ rest).flatten =
        s.put q worker := by
      rw [Function.update_self, put, hmailbox, List.append_assoc, List.singleton_append]
    have hmessage : ∀ r ∈ message, r ∈ s.known := fun r hr => hserves.put_known r <|
      List.mem_flatten.2 ⟨message, by simp [hmailbox], hr⟩
    refine ⟨⟨records ++ fresh, hrecords.trans hlearns⟩, ?_⟩
    have hmerge := hserves.merge htrans hmailbox hmessage hfresh hlearns
    rw [← hput, ← hresults] at hmerge
    exact hmerge
  · obtain ⟨hlearned, hother⟩ := h.workers q w hw
    have hmerged : Function.update s.merged p (s.merged p ++ [message]) q = s.merged q :=
      Function.update_of_ne hne _ _
    refine ⟨hlearned, ?_⟩
    rw [put, ← hmerged, ← hresults] at hother
    exact hother

/-- A worker has found records and posted them. -/
theorem IsSound.iterate (htrans : Scalar.EqTransitive K) (h : s.IsSound t) {value : K}
    {records : List (CutRecord K)} (hworker : s.worker? p = some worker)
    (hlearns : worker.trainer.part.Learns records trainer.part) :
    IsSound t (s.replace p { worker with trainer } [.result p value records]) := by
  obtain ⟨⟨old, hold⟩, hserves⟩ := h.workers p worker hworker
  refine ⟨h.coordinator, h.found_known, fun q w hw => ?_⟩
  rcases worker?_replace hw with ⟨rfl, rfl⟩ | ⟨hne, hw⟩
  · exact ⟨⟨old ++ records, hold.trans hlearns⟩, hserves.iterate htrans value hlearns⟩
  · obtain ⟨hlearned, hother⟩ := h.workers q w hw
    exact ⟨hlearned, hother.post (Ne.symm hne) value records⟩

/-- The coordinator has taken a result: it hears the worker that posted it, and the others are sent the
fresh records. -/
theorem IsSound.collect (hsymm : Scalar.EqSymmetric K) (htrans : Scalar.EqTransitive K)
    (hsettled : t.graph.IsSettled) (h : s.IsSound t) {value : K} {records : List (CutRecord K)}
    {rest : List (Posted K)} {isOver : Bool} {team : Watched (Team K)}
    (hresults : s.results = .result p value records :: rest)
    (hcollect : Team.collect engine plan (.result p value records)
      { s.team with part := { s.team.part with results := rest } } = .ok isOver team) :
    IsSound t { s with
      team
      found := Function.update s.found p (s.found p ++ CutRecord.fresh records s.known) } := by
  obtain ⟨old, hold⟩ := h.coordinator
  have hgraph := hold.taken.isSettled hsettled
  obtain ⟨hlearns, hrest, hworkers⟩ := Team.learns_collect (by exact hgraph) hcollect
  have hknown : team.part.coordinator.known = s.known ++ CutRecord.fresh records s.known :=
    hlearns.known.trans (CutRecord.learnAll_fresh records s.known)
  refine ⟨⟨_, hold.trans hlearns⟩, fun q r hr => ?_, fun q w hw => ?_⟩
  · have hr : r ∈ Function.update s.found p (s.found p ++ CutRecord.fresh records s.known) q := hr
    show r ∈ team.part.coordinator.known
    rw [hknown]
    rcases eq_or_ne q p with rfl | hne
    · rw [Function.update_self] at hr
      exact List.mem_append.2 ((List.mem_append.1 hr).imp_left (h.found_known q r))
    · rw [Function.update_of_ne hne] at hr
      exact List.mem_append_left _ (h.found_known q r hr)
  · have hw : team.part.workers[q]? = some w := hw
    rw [hworkers] at hw
    obtain ⟨w₀, more, hw₀, rfl, hsame, hother⟩ := Team.exists_of_passedOn hw
    obtain ⟨hlearned, hserves⟩ := h.workers q w₀ hw₀
    rw [hresults] at hserves
    refine ⟨hlearned, ?_⟩
    show Serves team.part.coordinator.known team.part.results q _
      (Function.update s.found p (s.found p ++ CutRecord.fresh records s.known) q) _
    have hput : (s.merged q ++ (w₀.mailbox ++ more)).flatten = s.put q w₀ ++ more.flatten := by
      rw [put, ← List.append_assoc, List.flatten_append]
    rw [hknown, hrest, put]
    dsimp only
    rw [hput]
    rcases eq_or_ne q p with rfl | hne
    · rw [Function.update_self, hsame rfl, List.flatten_nil, List.append_nil, List.append_nil]
      exact hserves.heard htrans
    · rw [Function.update_of_ne hne, hother hne]
      exact hserves.hear hsymm (Ne.symm hne) (h.found_known q) (hother hne)

end Steps

theorem IsSound.steps (hsymm : Scalar.EqSymmetric K) (htrans : Scalar.EqTransitive K)
    (hsettled : t.graph.IsSettled) (h : s.IsSound t) (hstep : Steps engine plan s s') :
    s'.IsSound t := by
  cases hstep with
  | merge hworker hmailbox hinstall => exact h.merge htrans hworker hmailbox hinstall
  | iterate hworker hlearns => exact h.iterate htrans hworker hlearns
  | collect hresults hcollect => exact h.collect hsymm htrans hsettled hresults hcollect

omit [Numeral K] in
/-- A team that sets out: its workers are at the same point as the coordinator, and nothing is on the
way. -/
def start (k : Monitor) (t : Trainer K) (workers : List (Watched (Trainer K))) : Exchange K :=
  { team := ⟨k, ⟨t, workers.map fun v => { trainer := v }, []⟩⟩ }

theorem isSound_start (k : Monitor) {workers : List (Watched (Trainer K))} (h : t.AreCopies workers) :
    (start k t workers).IsSound t where
  coordinator := ⟨[], .refl t⟩
  found_known := by simp [start]
  workers q w hw := by
    have hw : (workers.map fun v => ({ trainer := v } : Worker K))[q]? = some w := hw
    rw [List.getElem?_map] at hw
    obtain ⟨v, hv, rfl⟩ := Option.map_eq_some_iff.1 hw
    obtain ⟨hgraph, hknown⟩ := h v (List.mem_of_getElem? hv)
    have hput : (start k t workers).put q { trainer := v } = [] := rfl
    have hstart : (start k t workers).known = t.known := rfl
    refine ⟨⟨[], (Trainer.Learns.refl t).of_bare (by rw [hgraph]) hknown⟩, ?_⟩
    rw [hput, hstart, ← hknown]
    exact {
      reaches := fun r hr => Or.inl (CutRecord.among_of_mem hr)
      returns := fun r hr => Or.inl (CutRecord.among_of_mem hr)
      posted := by simp [start, results]
      put_known := by simp
      once := .nil
      notBack := by simp }

theorem isSound_of_runs (hsymm : Scalar.EqSymmetric K) (htrans : Scalar.EqTransitive K)
    (hsettled : t.graph.IsSettled) (h : s.IsSound t)
    (hruns : Relation.ReflTransGen (Steps engine plan) s s') : s'.IsSound t := by
  induction hruns with
  | refl => exact h
  | tail _ hstep ih => exact ih.steps hsymm htrans hsettled hstep

end Exchange

/-! ## What is stored -/

namespace Trainer

/-- What the trainer knows is stored in its graph. -/
structure IsConsistent (t : Trainer K) : Prop where
  settled : t.graph.IsSettled
  stored : ∀ r ∈ t.known, ∀ n k i, t.graph.placeOf r = some (n, k, i) →
    r.cut.Among (t.graph.storedAt n k i)

/-- A trainer is consistent after any trainings since its graph was built. -/
theorem isConsistent_of_trains (htrans : Scalar.EqTransitive K) {b : Builder K}
    {unbuilt g : PolicyGraph K} (hbuilt : build b unbuilt = .ok () g) (hribs : g.HasRibs)
    {P : TrainingPlan K → Prop} {k : Monitor} {w : Watched (Trainer K)}
    (hruns : Relation.ReflTransGen (Trains P) ⟨k, start g⟩ w) : w.part.IsConsistent := by
  obtain ⟨d, hopen⟩ := exists_isOpen_build hbuilt
  obtain ⟨records, htrace, -⟩ := IsRecord.of_trains (W := False) hribs (fun _ _ => False.elim)
    (isRecord_start hopen) hruns
  have hsettled : g.IsSettled := isSettled_of_holds (Node.isPlaced_isOpen g d) hopen
  have htaken := htrace.recorded.taken
  refine ⟨htaken.isSettled hsettled, fun r hr n k i hplace => ?_⟩
  rw [placeOf_congr (htaken.layout hsettled)] at hplace
  have hmem : r ∈ records := (htrace.known r hr).elim (fun h => absurd h (by simp)) id
  exact (htaken.among_storedAt htrans hsettled).2 (Or.inr ⟨r, hmem, hplace, .refl r.cut⟩)

/-- What one of two trainers knows, the other one stores. -/
theorem Learns.among_storedAt (hsymm : Scalar.EqSymmetric K) (htrans : Scalar.EqTransitive K)
    {t u v : Trainer K} {records more : List (CutRecord K)} (ht : t.IsConsistent)
    (hu : t.Learns records u) (hv : t.Learns more v)
    (hknown : ∀ r ∈ u.known, r.Among v.known) {n k i : ℕ} {c : Cut K}
    (hc : c ∈ u.graph.storedAt n k i) : c.Among (v.graph.storedAt n k i) := by
  have hmem : c.Among (u.graph.storedAt n k i) := ⟨c, hc, .refl c⟩
  rw [hu.taken.among_storedAt htrans ht.settled] at hmem
  rw [hv.taken.among_storedAt htrans ht.settled]
  rcases hmem with hmem | ⟨r, hr, hplace, hcr⟩
  · exact Or.inl hmem
  · have hlearned : r.Among u.known :=
      (hu.among_known htrans).2 (Or.inr (CutRecord.among_of_mem hr))
    rcases (hv.among_known htrans).1 (hlearned.trans htrans hknown) with hold | hnew
    · obtain ⟨r', hr', halike⟩ := hold
      left
      refine Cut.Among.of_alike htrans (hcr.trans htrans halike.cut) (ht.stored r' hr' n k i ?_)
      rw [← placeOf_of_alike hsymm htrans halike, hplace]
    · obtain ⟨r', hr', halike⟩ := hnew
      right
      refine ⟨r', hr', ?_, hcr.trans htrans halike.cut⟩
      rw [← placeOf_of_alike hsymm htrans halike, hplace]

end Trainer

/-- The exchange of cuts loses nothing and repeats nothing. Whatever the workers find and in whichever order
the members of a team act, at any time: what the coordinator knows is known to each worker or waits in
its mailbox; what a worker knows is known to the coordinator or waits in a result of this worker; no record
is put twice into a mailbox, nor into the mailbox of the worker that it was fresh from. And whenever
nothing waits, each worker stores at every rib of every node the cuts that the coordinator stores there. -/
theorem exchange_loses_nothing (hsymm : Scalar.EqSymmetric K) (htrans : Scalar.EqTransitive K)
    {t : Trainer K} (ht : t.IsConsistent) {workers : List (Watched (Trainer K))}
    (hcopies : t.AreCopies workers) {k : Monitor} {s : Exchange K}
    (hruns : Relation.ReflTransGen (Exchange.Steps engine plan) (.start k t workers) s) :
    (∀ q w, s.worker? q = some w →
      (∀ r ∈ s.known, r.Among w.trainer.part.known ∨ r.Among w.mailbox.flatten) ∧
      (∀ r ∈ w.trainer.part.known, r.Among s.known ∨
        ∃ value records, .result q value records ∈ s.results ∧ r.Among records) ∧
      ((s.put q w).Pairwise fun r r' => r.same r' = false) ∧
      ∀ r ∈ s.found q, ∀ r' ∈ s.put q w, r.same r' = false) ∧
    (s.results = [] → (∀ q w, s.worker? q = some w → w.mailbox = []) →
      ∀ q w, s.worker? q = some w → ∀ n k i,
        (∀ c ∈ w.trainer.part.graph.storedAt n k i,
          c.Among (s.team.part.coordinator.graph.storedAt n k i)) ∧
        ∀ c ∈ s.team.part.coordinator.graph.storedAt n k i,
          c.Among (w.trainer.part.graph.storedAt n k i)) := by
  have hsound := Exchange.isSound_of_runs hsymm htrans ht.settled (Exchange.isSound_start k hcopies) hruns
  refine ⟨fun q w hw => ?_, fun hresults hmailboxes q w hw n k i => ?_⟩
  · have hserves := (hsound.workers q w hw).2
    exact ⟨hserves.reaches, hserves.returns, hserves.once, hserves.notBack⟩
  · obtain ⟨⟨more, hworker⟩, hserves⟩ := hsound.workers q w hw
    obtain ⟨records, hcoordinator⟩ := hsound.coordinator
    refine ⟨fun c hc => hworker.among_storedAt hsymm htrans ht hcoordinator (fun r hr => ?_) hc,
      fun c hc => hcoordinator.among_storedAt hsymm htrans ht hworker (fun r hr => ?_) hc⟩
    · rcases hserves.returns r hr with hknown | ⟨value, posted, hpost, -⟩
      · exact hknown
      · simp [hresults] at hpost
    · rcases hserves.reaches r hr with hknown | ⟨r', hr', -⟩
      · exact hknown
      · simp [hmailboxes q w hw] at hr'

theorem Scalar.eqSymmetric_int : Scalar.EqSymmetric ℤ :=
  fun _ _ hab => decide_eq_true (of_decide_eq_true hab).symm

theorem Scalar.eqTransitive_int : Scalar.EqTransitive ℤ :=
  fun _ _ _ hab hbc => decide_eq_true ((of_decide_eq_true hab).trans (of_decide_eq_true hbc))

namespace Larder

/-- The cut that a larder without stock leads to. -/
def shortage : CutRecord ℤ := ⟨0, 0, none, { intercept := 9, coefficients := [-3], side := .atLeast }⟩

end Larder

/-- Two workers of whom one finds a cut and the other one merges it in the end. -/
theorem exchange_loses_nothing_larder :
    let t : Trainer ℤ := .start Larder.graph
    let workers : List (Watched (Trainer ℤ)) := [⟨{}, t⟩, ⟨{}, t⟩]
    ∃ s : Exchange ℤ,
      (Scalar.EqSymmetric ℤ ∧ Scalar.EqTransitive ℤ ∧ t.IsConsistent ∧ t.AreCopies workers ∧
        Relation.ReflTransGen (Exchange.Steps Larder.buyer Larder.plan) (.start {} t workers) s) ∧
      s.known = [Larder.shortage] ∧ s.results = [] ∧
      ∀ q w, s.worker? q = some w → w.mailbox = [] ∧ ∀ n k i,
        (∀ c ∈ w.trainer.part.graph.storedAt n k i,
          c.Among (s.team.part.coordinator.graph.storedAt n k i)) ∧
        ∀ c ∈ s.team.part.coordinator.graph.storedAt n k i,
          c.Among (w.trainer.part.graph.storedAt n k i) := by
  intro t workers
  have hsymm : Scalar.EqSymmetric ℤ := Scalar.eqSymmetric_int
  have htrans : Scalar.EqTransitive ℤ := Scalar.eqTransitive_int
  have hconsistent : t.IsConsistent :=
    Trainer.isConsistent_of_trains htrans Larder.build_graph (.of_isLegible Numeral.isLegible_int _)
      (P := fun _ => True) (k := {}) .refl
  have hcopies : t.AreCopies workers := by
    intro v hv
    obtain rfl : v = ⟨{}, t⟩ := by simpa [workers] using hv
    exact ⟨rfl, rfl⟩
  -- the first worker comes to know the cut, as the second one will
  let v : Watched (Trainer ℤ) := final (Trainer.installRecords [Larder.shortage]) ⟨{}, t⟩
  obtain ⟨fresh, hinstall⟩ : ∃ fresh, Trainer.installRecords [Larder.shortage] ⟨{}, t⟩ = .ok fresh v :=
    exists_eq_ok_final (by decide +kernel)
  obtain ⟨rfl, hlearns⟩ := Trainer.learns_installRecords hinstall
  let s₁ : Exchange ℤ := (Exchange.start {} t workers).replace 0 { trainer := v }
    [.result 0 3 [Larder.shortage]]
  have hfirst : (Exchange.start {} t workers).worker? 0 = some { trainer := ⟨{}, t⟩ } := rfl
  have h₁ : Exchange.Steps Larder.buyer Larder.plan (.start {} t workers) s₁ :=
    .iterate hfirst hlearns
  -- the coordinator hears of it and tells the second worker
  let team₁ : Watched (Team ℤ) := { s₁.team with part := { s₁.team.part with results := [] } }
  let team₂ := final (Team.collect Larder.buyer Larder.plan (.result 0 3 [Larder.shortage])) team₁
  obtain ⟨isOver, hcollect⟩ : ∃ isOver, Team.collect Larder.buyer Larder.plan
      (.result 0 3 [Larder.shortage]) team₁ = .ok isOver team₂ :=
    exists_eq_ok_final (by decide +kernel)
  have hsettled : t.graph.IsSettled := hconsistent.settled
  obtain ⟨hheard, hresults, hworkers⟩ := Team.learns_collect (by exact hsettled) hcollect
  have hworkers : team₂.part.workers = [{ trainer := v }, ⟨⟨{}, t⟩, [[Larder.shortage]], 0, none⟩] :=
    hworkers
  let s₂ : Exchange ℤ := { s₁ with
    team := team₂
    found := Function.update s₁.found 0 (s₁.found 0 ++ CutRecord.fresh [Larder.shortage] s₁.known) }
  have hfront : s₁.results = .result (0 : ℕ) 3 [Larder.shortage] :: [] := rfl
  have h₂ : Exchange.Steps Larder.buyer Larder.plan s₁ s₂ := .collect hfront hcollect
  -- the second worker merges the message
  let s₃ : Exchange ℤ := { s₂.replace 1 ⟨v, [], 0, none⟩ [] with
    merged := Function.update s₂.merged 1 (s₂.merged 1 ++ [[Larder.shortage]]) }
  have hsecond : s₂.worker? 1 = some ⟨⟨{}, t⟩, [[Larder.shortage]], 0, none⟩ := by
    rw [Exchange.worker?, hworkers]
    rfl
  have h₃ : Exchange.Steps Larder.buyer Larder.plan s₂ s₃ := .merge hsecond rfl hinstall
  have hruns : Relation.ReflTransGen (Exchange.Steps Larder.buyer Larder.plan)
      (.start {} t workers) s₃ := ((Relation.ReflTransGen.single h₁).tail h₂).tail h₃
  have hempty : s₃.results = [] := (List.append_nil _).trans hresults
  have hmailboxes : ∀ q w, s₃.worker? q = some w → w.mailbox = [] := by
    intro q w hw
    have hw : (team₂.part.workers.set 1 ⟨v, [], 0, none⟩)[q]? = some w := hw
    rw [hworkers] at hw
    have hmem := List.mem_of_getElem? hw
    simp only [List.set_cons_succ, List.set_cons_zero, List.mem_cons, List.not_mem_nil, or_false] at hmem
    rcases hmem with rfl | rfl <;> rfl
  have hstored := (exchange_loses_nothing hsymm htrans hconsistent hcopies hruns).2 hempty hmailboxes
  exact ⟨s₃, ⟨hsymm, htrans, hconsistent, hcopies, hruns⟩, hheard.known, hempty,
    fun q w hw => ⟨hmailboxes q w hw, hstored q w hw⟩⟩

end DualDynamic
