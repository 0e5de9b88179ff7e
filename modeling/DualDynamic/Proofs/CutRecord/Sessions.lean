import DualDynamic.Proofs.CutRecord
import DualDynamic.Proofs.CutRecord.File
import DualDynamic.Proofs.Step

/-!
# Cut files written in sessions

A cut file grows in sessions: a writer opens it, appends the rows of some records and closes it. What
matters is the sequence of all records, not where one session ends and the next one begins. So the
file is read back as this sequence (`read_sessions`), provided that the text of every scalar but a NaN
is read as an equal one: a number need not come back as the very same one, as with the two zeros of
floats.
-/

namespace DualDynamic

/-- The text of a scalar that is equal to itself, so of any but a NaN, is read as an equal one. The empty
text, which stands for a missing rib, spells no scalar. -/
structure Numeral.IsReadable (K : Type) [Numeral K] : Prop where
  read_text : ∀ x : K, Scalar.eq x x = true →
    ∃ y, Numeral.read (Numeral.text x) = some y ∧ Scalar.eq y x = true
  read_empty : Numeral.read (K := K) "" = none

namespace CutFile

variable {K : Type} [Numeral K]

/-! ## Writing -/

/-- A record as it is handed to a writer. -/
def labels (r : CutRecord K) : Datum K × Datum K × Datum K × Cut K :=
  (.whole r.stage, .whole r.markov, (r.rib.map Datum.real).getD .absent, r.cut)

/-- Appends records in sessions, one after the other. -/
def appendSessions (sessions : List (List (CutRecord K))) : Step K String Unit :=
  Step.each sessions fun records => appendLabelled (records.map labels)

/-- The file after a session of a training: it was opened, records were written, and it was closed. -/
def Log.session (l : Log) (records : List (CutRecord K)) : Log :=
  { records.foldl Log.write { l with isOpen := true } with isOpen := false }

theorem textOf_append (records more : List (CutRecord K)) :
    textOf (records ++ more) = textOf records ++ textOf more := by
  rw [textOf, List.map_append, String.join_append]
  rfl

theorem textOf_cons (r : CutRecord K) (records : List (CutRecord K)) :
    textOf (r :: records) = line r ++ textOf records := by
  rw [← List.singleton_append, textOf_append]
  exact congrArg (· ++ _) String.empty_append

theorem labelledLine_labels (r : CutRecord K) :
    labelledLine (.whole r.stage) (.whole r.markov) ((r.rib.map Datum.real).getD .absent) r.cut =
      .ok (line r) := by
  obtain ⟨stage, markov, rib, cut⟩ := r
  cases rib <;> rfl

theorem appendLabelled_labels (records : List (CutRecord K)) (text : String) :
    appendLabelled (records.map labels) text = .ok () (text ++ textOf records) := by
  induction records generalizing text with
  | nil => exact congrArg _ String.append_empty.symm
  | cons r records ih =>
    have hfirst : appendLabelled ((r :: records).map labels) text =
        appendLabelled (records.map labels) (text ++ line r) := by
      refine Step.bind_of_ok (Step.bind_eq_ok.2 ⟨line r, text, ?_, rfl⟩)
      exact Step.ofExcept_eq_ok.2 ⟨labelledLine_labels r, rfl⟩
    rw [hfirst, ih, textOf_cons, String.append_assoc]

/-- All sessions together write the records of all of them. -/
theorem appendSessions_eq (sessions : List (List (CutRecord K))) (text : String) :
    appendSessions sessions text = .ok () (text ++ textOf sessions.flatten) := by
  induction sessions generalizing text with
  | nil => exact congrArg _ String.append_empty.symm
  | cons records sessions ih =>
    have hfirst : appendSessions (records :: sessions) text =
        appendSessions sessions (text ++ textOf records) :=
      Step.bind_of_ok (appendLabelled_labels records text)
    rw [hfirst, ih, List.flatten_cons, textOf_append, String.append_assoc]

theorem Log.session_text (l : Log) (records : List (CutRecord K)) :
    (l.session records).text = l.text ++ textOf records := by
  have hopen : ∀ l : Log, l.isOpen = true →
      (records.foldl Log.write l).text = l.text ++ textOf records := by
    induction records with
    | nil => exact fun l _ => String.append_empty.symm
    | cons r records ih =>
      intro l hl
      have hwrite : l.write r = { l with text := l.text ++ line r } := if_pos hl
      rw [List.foldl_cons, hwrite, ih { l with text := l.text ++ line r } hl, textOf_cons,
        String.append_assoc]
  exact hopen { l with isOpen := true } rfl

/-- A training writes as a writer does. -/
theorem Log.sessions_text (sessions : List (List (CutRecord K))) (l : Log) :
    (sessions.foldl Log.session l).text = l.text ++ textOf sessions.flatten := by
  induction sessions generalizing l with
  | nil => exact String.append_empty.symm
  | cons records sessions ih =>
    rw [List.foldl_cons, ih, Log.session_text, List.flatten_cons, textOf_append,
      String.append_assoc]

/-! ## Reading -/

/-- `s` is what is read of `r`: the same record, its cut tagged with the place of `r`. -/
structure IsReadAs (r s : CutRecord K) : Prop where
  same : s.same r = true
  stage : s.cut.stage = some r.stage
  markov : s.cut.markov = some r.markov

section Readable

variable (hreadable : Numeral.IsReadable K)
include hreadable

theorem exists_reads {xs : List K} (h : Scalar.eqAll xs xs = true) :
    ∃ ys, List.Forall₂ Reads xs ys ∧ Scalar.eqAll ys xs = true := by
  induction xs with
  | nil => exact ⟨[], .nil, rfl⟩
  | cons x xs ih =>
    obtain ⟨hfirst, hrest⟩ := Scalar.eqAll_cons_iff.1 h
    obtain ⟨y, hy, hyx⟩ := hreadable.read_text x hfirst
    obtain ⟨ys, hys, hysx⟩ := ih hrest
    exact ⟨y :: ys, .cons hy hys, Scalar.eqAll_cons_iff.2 ⟨hyx, hysx⟩⟩

/-- A record without a NaN is spelt so that it is read as it was. -/
theorem exists_spells {r : CutRecord K} (h : r.same r = true) :
    ∃ s, Spells r s ∧ IsReadAs r (restamped s) := by
  obtain ⟨-, -, hrib, hcut⟩ := CutRecord.same_iff.1 h
  simp only [Cut.same, Bool.and_eq_true] at hcut
  obtain ⟨⟨-, hintercept⟩, hcoefficients⟩ := hcut
  obtain ⟨y, hy, hyx⟩ := hreadable.read_text _ hintercept
  obtain ⟨ys, hys, hysx⟩ := exists_reads hreadable hcoefficients
  have hribs : ∃ rib, Option.Rel Reads r.rib rib ∧ CutRecord.sameRib rib r.rib = true := by
    cases hr : r.rib with
    | none => exact ⟨none, .none, rfl⟩
    | some x =>
      rw [hr] at hrib
      obtain ⟨z, hz, hzx⟩ := hreadable.read_text x hrib
      exact ⟨some z, .some hz, hzx⟩
  obtain ⟨rib, hreads, hsame⟩ := hribs
  refine ⟨⟨r.stage, r.markov, rib, { r.cut with intercept := y, coefficients := ys }⟩,
    ⟨rfl, rfl, rfl, hreads, hy, hys⟩, CutRecord.same_iff.2 ⟨rfl, rfl, hsame, ?_⟩, rfl, rfl⟩
  simp only [Cut.same, restamped, beq_self_eq_true, hyx, hysx, Bool.and_self]

/-- Records without a NaN that are appended to an empty file, by a writer or by trainings and in
any number of sessions, are all read back, in their order and without a fault. -/
theorem read_sessions (sessions : List (List (CutRecord K)))
    (hnumbers : ∀ records ∈ sessions, ∀ r ∈ records, r.same r = true) (path : String) :
    ∃ text, appendSessions sessions "" = .ok () text ∧
      (sessions.foldl Log.session {}).text = text ∧
      ∃ back, read path text = (back, none) ∧ List.Forall₂ IsReadAs sessions.flatten back := by
  have hspelt : ∀ records : List (CutRecord K), (∀ r ∈ records, r.same r = true) →
      ∃ back, List.Forall₂ Spells records back ∧
        List.Forall₂ IsReadAs records (back.map restamped) := by
    intro records hrecords
    induction records with
    | nil => exact ⟨[], .nil, .nil⟩
    | cons r records ih =>
      obtain ⟨s, hs, hread⟩ := exists_spells hreadable (hrecords r (by simp))
      obtain ⟨back, hback, hreads⟩ := ih fun r hr => hrecords r (by simp [hr])
      exact ⟨s :: back, .cons hs hback, .cons hread hreads⟩
  obtain ⟨back, hback, hreads⟩ := hspelt sessions.flatten fun r hr => by
    obtain ⟨records, hrecords, hr⟩ := List.mem_flatten.1 hr
    exact hnumbers records hrecords r hr
  refine ⟨textOf sessions.flatten, ?_, ?_, back.map restamped,
    read_of_spells hreadable.read_empty path hback, hreads⟩
  · rw [appendSessions_eq, String.empty_append]
  · rw [Log.sessions_text, String.empty_append]

end Readable

end CutFile

/-! ## Three sessions -/

theorem Numeral.isReadable_int : Numeral.IsReadable ℤ where
  read_text x h := ⟨x, Numeral.isLegible_int.read_text x, h⟩
  read_empty := Numeral.isLegible_int.read_empty

namespace CutFile

/-- A cut without a rib and without coefficients, a session in which nothing is written, and a cut at a
rib that is written twice. -/
def ledger : List (List (CutRecord ℤ)) :=
  let high : CutRecord ℤ := ⟨0, -1, none, { intercept := 5, coefficients := [], side := .atMost }⟩
  let low : CutRecord ℤ :=
    ⟨-1, 12, some (-30), { intercept := -7, coefficients := [4, 0, -1], side := .atLeast }⟩
  [[high], [], [low, low]]

example : textOf ledger.flatten =
    "0,-1,,<=,5\r\n-1,12,-30,>=,-7,4,0,-1\r\n-1,12,-30,>=,-7,4,0,-1\r\n" := by decide +kernel

theorem read_sessions_ledger :
    (Numeral.IsReadable ℤ ∧ ∀ records ∈ ledger, ∀ r ∈ records, r.same r = true) ∧
    ∃ text, appendSessions ledger "" = .ok () text ∧
      (ledger.foldl Log.session {}).text = text ∧
      ∃ back, read "cuts.csv" text = (back, none) ∧
        List.Forall₂ IsReadAs ledger.flatten back := by
  have hnumbers : ∀ records ∈ ledger, ∀ r ∈ records, r.same r = true := by decide +kernel
  exact ⟨⟨Numeral.isReadable_int, hnumbers⟩,
    read_sessions Numeral.isReadable_int ledger hnumbers "cuts.csv"⟩

end CutFile

end DualDynamic
