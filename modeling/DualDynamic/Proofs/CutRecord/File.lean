import Mathlib
import DualDynamic.CutRecord.File

/-!
# Reading what was written

A table that was written is read back row by row: the reader, wherever a row begins, comes to the end
of its text with one more row (`read_encodeRow`). Whole numbers are read back from their digits. So a
cut file is read back record by record, if the texts of scalars are: places and numbers are those that
were written (`read_textOf`).
-/

namespace DualDynamic

namespace Text.Separated

/-! ## Tables -/

namespace Reader

/-- Between quotes, doubled quotes stand for quotes and everything else for itself. -/
theorem foldl_doubleQuotes (rows : List (List (List Char))) (fields : List (List Char))
    (field text : List Char) :
    (doubleQuotes text).foldl step ⟨.quotedPart, rows, fields, field⟩ =
      ⟨.quotedPart, rows, fields, text.reverse ++ field⟩ := by
  induction text generalizing field with
  | nil => rfl
  | cons c text ih =>
    have hcons : doubleQuotes (c :: text) =
        (if c == '"' then ['"', '"'] else [c]) ++ doubleQuotes text := rfl
    rw [hcons, List.foldl_append, List.reverse_cons, List.append_assoc, List.singleton_append, ← ih]
    by_cases hc : c = '"'
    · subst hc
      rfl
    · have hc' : (c == '"') = false := by simpa using hc
      simp only [hc', Bool.false_eq_true, if_false, List.foldl_cons, List.foldl_nil, step, push]

/-- Outside quotes, characters that need none stand for themselves. -/
theorem foldl_plain (rows : List (List (List Char))) (fields : List (List Char))
    {field text : List Char} (h : needsQuotes text = false) :
    text.foldl step ⟨.plain, rows, fields, field⟩ =
      ⟨.plain, rows, fields, text.reverse ++ field⟩ := by
  induction text generalizing field with
  | nil => rfl
  | cons c text ih =>
    simp only [needsQuotes, List.any_cons, Bool.or_eq_false_iff] at h ih
    obtain ⟨⟨⟨⟨hcomma, hquote⟩, hreturn⟩, hfeed⟩, htext⟩ := h
    have hstep : step ⟨.plain, rows, fields, field⟩ c = ⟨.plain, rows, fields, c :: field⟩ := by
      simp only [step, stepPlain, isBreak, hcomma, hreturn, hfeed, Bool.or_self, Bool.false_eq_true,
        if_false, push]
    rw [List.foldl_cons, hstep, ih htext, List.reverse_cons, List.append_assoc,
      List.singleton_append]

/-- Where the reader stands behind a field. -/
def behind (start : Mode) (field : List Char) : Mode :=
  if needsQuotes field then .quoteSeen else if field.isEmpty then start else .plain

variable {start : Mode} {rows : List (List (List Char))} {fields : List (List Char)}
  {field : List Char}

/-- A field is read from where a row or a field begins. -/
theorem foldl_encodeField (hstart : start = .rowStart ∨ start = .fieldStart)
    (rows : List (List (List Char))) (fields : List (List Char)) (field : List Char) :
    (encodeField field).foldl step ⟨start, rows, fields, []⟩ =
      ⟨behind start field, rows, fields, field.reverse⟩ := by
  unfold encodeField behind
  cases hquotes : needsQuotes field with
  | true =>
    have hopen : step ⟨start, rows, fields, []⟩ '"' = ⟨.quotedPart, rows, fields, []⟩ := by
      rcases hstart with rfl | rfl <;> rfl
    simp only [if_true, List.cons_append, List.foldl_cons, List.foldl_append, hopen,
      foldl_doubleQuotes, List.append_nil, List.foldl_nil]
    rfl
  | false =>
    cases field with
    | nil => rfl
    | cons c text =>
      have hquotes' := hquotes
      simp only [needsQuotes, List.any_cons, Bool.or_eq_false_iff] at hquotes'
      obtain ⟨⟨⟨⟨hcomma, hquote⟩, hreturn⟩, hfeed⟩, htext⟩ := hquotes'
      have hfirst : step ⟨start, rows, fields, []⟩ c = ⟨.plain, rows, fields, [c]⟩ := by
        rcases hstart with rfl | rfl <;>
          simp only [step, stepRowStart, stepFieldStart, stepPlain, isBreak, hcomma, hquote, hreturn,
            hfeed, Bool.or_self, Bool.false_eq_true, if_false, push]
      simp only [Bool.false_eq_true, if_false, List.foldl_cons, hfirst, foldl_plain rows fields htext,
        List.isEmpty_cons, List.reverse_cons]

theorem step_comma (hstart : start = .rowStart ∨ start = .fieldStart) :
    step ⟨behind start field, rows, fields, field.reverse⟩ ',' =
      ⟨.fieldStart, rows, field :: fields, []⟩ := by
  unfold behind
  split_ifs with hquotes hempty
  · simp [step, stepPlain, isBreak, endField]
  · rcases hstart with rfl | rfl <;>
      simp [step, stepRowStart, stepFieldStart, stepPlain, isBreak, endField]
  · simp [step, stepPlain, isBreak, endField]

/-- A row ends behind its last field, unless there is nothing in it. -/
theorem foldl_break (h : start = .fieldStart ∨ start = .rowStart ∧ field ≠ []) :
    ['\r', '\n'].foldl step ⟨behind start field, rows, fields, field.reverse⟩ =
      ⟨.rowStart, (field :: fields).reverse :: rows, [], []⟩ := by
  have hreturn : step ⟨behind start field, rows, fields, field.reverse⟩ '\r' =
      ⟨.afterReturn, (field :: fields).reverse :: rows, [], []⟩ := by
    unfold behind
    split_ifs with hquotes hempty
    · simp [step, stepPlain, isBreak, endField, endRow]
    · rcases h with rfl | ⟨-, hne⟩
      · simp [step, stepFieldStart, stepPlain, isBreak, endField, endRow]
      · exact absurd (List.isEmpty_iff.1 hempty) hne
    · simp [step, stepPlain, isBreak, endField, endRow]
  rw [List.foldl_cons, hreturn]
  rfl

/-- The rest of a row is read from where a field begins. -/
theorem foldl_fields (rows : List (List (List Char))) (fields : List (List Char)) (field : List Char)
    (more : List (List Char)) :
    ([','].intercalate ((field :: more).map encodeField) ++ ['\r', '\n']).foldl step
        ⟨.fieldStart, rows, fields, []⟩ =
      ⟨.rowStart, (fields.reverse ++ field :: more) :: rows, [], []⟩ := by
  induction more generalizing fields field with
  | nil =>
    have hone : [','].intercalate ([field].map encodeField) = encodeField field := by
      simp [List.intercalate]
    rw [hone, List.foldl_append, foldl_encodeField (Or.inr rfl), foldl_break (Or.inl rfl),
      List.reverse_cons]
  | cons next more ih =>
    have hsplit : [','].intercalate ((field :: next :: more).map encodeField) =
        encodeField field ++ ',' :: [','].intercalate ((next :: more).map encodeField) := by
      simp [List.intercalate]
    rw [hsplit, List.append_assoc, List.foldl_append, foldl_encodeField (Or.inr rfl), List.cons_append,
      List.foldl_cons, step_comma (Or.inr rfl), ih, List.reverse_cons, List.append_assoc,
      List.singleton_append]

/-- A row is read from where a row begins. -/
theorem foldl_encodeRow (rows : List (List (List Char))) (row : List (List Char)) :
    (encodeRow row).foldl step ⟨.rowStart, rows, [], []⟩ = ⟨.rowStart, row :: rows, [], []⟩ := by
  match row with
  | [] => rfl
  | [[]] => rfl
  | [c :: field] =>
    have hrow : encodeRow [c :: field] = encodeField (c :: field) ++ ['\r', '\n'] := by
      simp [encodeRow, List.intercalate]
    rw [hrow, List.foldl_append, foldl_encodeField (Or.inl rfl),
      foldl_break (Or.inr ⟨rfl, List.cons_ne_nil c field⟩)]
    rfl
  | field :: next :: more =>
    have hrow : encodeRow (field :: next :: more) = encodeField field ++
        ',' :: ([','].intercalate ((next :: more).map encodeField) ++ ['\r', '\n']) := by
      simp [encodeRow, List.intercalate]
    rw [hrow, List.foldl_append, foldl_encodeField (Or.inl rfl), List.foldl_cons,
      step_comma (Or.inl rfl), foldl_fields]
    rfl

end Reader

/-- A table is read back as it was written. -/
theorem decodeRows_encodeRows (rows : List (List (List Char))) :
    decodeRows (rows.flatMap encodeRow) = rows := by
  have hfold : ∀ before : List (List (List Char)),
      (rows.flatMap encodeRow).foldl Reader.step ⟨.rowStart, before, [], []⟩ =
        ⟨.rowStart, rows.reverse ++ before, [], []⟩ := by
    induction rows with
    | nil => exact fun _ => rfl
    | cons row rows ih =>
      intro before
      rw [List.flatMap_cons, List.foldl_append, Reader.foldl_encodeRow, ih, List.reverse_cons,
        List.append_assoc, List.singleton_append]
  rw [decodeRows, Reader.start, hfold, List.append_nil, Reader.finish, List.reverse_reverse]

end Text.Separated

/-! ## Whole numbers -/

namespace Decimal

theorem digitsValue_toDigits (n : ℕ) : digitsValue (Nat.toDigits 10 n) = n :=
  Nat.ofDigitChars_toDigits (by decide) (by decide)

theorem toNat_of_isDigit {c : Char} (h : c.isDigit = true) : 48 ≤ c.toNat ∧ c.toNat ≤ 57 := by
  simp only [Char.isDigit, Bool.and_eq_true, decide_eq_true_eq, ge_iff_le,
    UInt32.le_iff_toNat_le] at h
  exact h

theorem isBlank_of_isDigit {c : Char} (h : c.isDigit = true) : Text.isBlank c = false := by
  have hbounds := toNat_of_isDigit h
  simp only [Text.isBlank, Bool.or_eq_false_iff, Bool.and_eq_false_iff, decide_eq_false_iff_not,
    beq_eq_false_iff_ne]
  omega

theorem strip_eq {cs : List Char} (h : ∀ c ∈ cs, Text.isBlank c = false) : Text.strip cs = cs := by
  have hdrop : ∀ ds : List Char, (∀ c ∈ ds, Text.isBlank c = false) → ds.dropWhile Text.isBlank = ds := by
    intro ds hds
    cases ds with
    | nil => rfl
    | cons c ds => rw [List.dropWhile_cons_of_neg (by simp [hds c (by simp)])]
  rw [Text.strip, hdrop cs h, hdrop _ fun c hc => h c (List.mem_reverse.1 hc), List.reverse_reverse]

/-- Digits and signs are read as they stand. -/
theorem normalize_eq {text : String} (h : ∀ c ∈ text.toList, c.isDigit = true ∨ c = '-') :
    normalize text = text.toList := by
  have hascii : ∀ c ∈ text.toList, c.toNat < 127 := by
    intro c hc
    rcases h c hc with hdigit | rfl
    · have := toNat_of_isDigit hdigit
      omega
    · decide
  have hmap : ∀ f : Char → Char, (∀ c ∈ text.toList, f c = c) → text.toList.map f = text.toList :=
    fun f hf => (List.map_congr_left hf).trans (List.map_id _)
  rw [normalize, hmap _ fun c hc => if_pos (hascii c hc)]
  refine strip_eq fun c hc => ?_
  rcases h c hc with hdigit | rfl
  · exact isBlank_of_isDigit hdigit
  · decide

theorem dropUnderscores_eq {cs : List Char} (h : ∀ c ∈ cs, c ≠ '_') : dropUnderscores cs = cs := by
  fun_induction dropUnderscores cs with
  | case1 a b rest hdigits ih => simp at h
  | case2 a b rest hdigits ih => simp at h
  | case3 a rest hnot ih => rw [ih fun c hc => h c (by simp [hc])]
  | case4 => rfl

theorem takeSign_digits {cs : List Char} (h : ∀ c ∈ cs, c.isDigit = true) :
    takeSign cs = (false, cs) := by
  unfold takeSign
  split
  · exact absurd (h '-' (by simp)) (by decide)
  · exact absurd (h '+' (by simp)) (by decide)
  · rfl

/-- A whole number is read back from its digits. -/
theorem readWhole_toString (n : ℤ) : readWhole (toString n) = some n := by
  have hdigits : ∀ m : ℕ, ∀ c ∈ Nat.toDigits 10 m, c.isDigit = true :=
    fun m c hc => Nat.isDigit_of_mem_toDigits (by decide) (by decide) hc
  have hread : ∀ (text : String) (sign : Bool) (m : ℕ),
      (∀ c ∈ text.toList, c.isDigit = true ∨ c = '-') →
      takeSign text.toList = (sign, Nat.toDigits 10 m) →
      readWhole text = some (if sign then -Int.ofNat m else Int.ofNat m) := by
    intro text sign m hchars hsign
    have hplain : dropUnderscores text.toList = text.toList := dropUnderscores_eq fun c hc heq => by
      subst heq
      rcases hchars _ hc with h | h
      · exact absurd h (by decide)
      · exact absurd h (by decide)
    have hnonempty : (Nat.toDigits 10 m).isEmpty = false := by
      simp [List.isEmpty_eq_false_iff, Nat.toDigits_ne_nil]
    have hall : (Nat.toDigits 10 m).all Char.isDigit = true := List.all_eq_true.2 (hdigits m)
    simp only [readWhole, normalize_eq hchars, hplain, hsign, hnonempty, hall, Bool.not_false,
      Bool.and_self, if_true, digitsValue_toDigits]
  cases n with
  | ofNat m =>
    have htext : (toString (Int.ofNat m)).toList = Nat.toDigits 10 m := String.toList_ofList
    rw [hread _ false m (fun c hc => Or.inl (hdigits m c (htext ▸ hc)))
      (by rw [htext]; exact takeSign_digits (hdigits m))]
    rfl
  | negSucc m =>
    have htext : (toString (Int.negSucc m)).toList = '-' :: Nat.toDigits 10 (m + 1) := by
      have happend : toString (Int.negSucc m) = "-" ++ String.ofList (Nat.toDigits 10 (m + 1)) := rfl
      have hdigits' : (String.ofList (Nat.toDigits 10 (m + 1))).toList = Nat.toDigits 10 (m + 1) :=
        String.toList_ofList
      rw [happend, String.toList_append, hdigits']
      rfl
    rw [hread _ true (m + 1) (fun c hc => ?_) (by rw [htext]; rfl)]
    · rfl
    · rw [htext] at hc
      rcases List.mem_cons.1 hc with rfl | hc
      · exact Or.inr rfl
      · exact Or.inl (hdigits _ c hc)

end Decimal

/-! ## Records -/

/-- The texts of scalars are read back as equal ones, so no scalar is a NaN. The empty text, which stands
for a missing rib, is not the text of a scalar. -/
structure Numeral.IsLegible (K : Type) [Numeral K] : Prop where
  read_text : ∀ x : K, Numeral.read (Numeral.text x) = some x
  eq_self : ∀ x : K, Scalar.eq x x = true
  read_empty : Numeral.read (K := K) "" = none

namespace CutFile

variable {K : Type} [Numeral K]

/-- The text of a file of records. -/
def textOf (records : List (CutRecord K)) : String := String.join (records.map line)

/-- A record as it is read: its cut has the place of the record and no iteration. -/
def restamped (r : CutRecord K) : CutRecord K :=
  { r with cut := { r.cut with
      stage := some r.stage, markov := some r.markov, iteration := none } }

theorem textOf_concat (records : List (CutRecord K)) (r : CutRecord K) :
    textOf (records ++ [r]) = textOf records ++ line r := by
  simp [textOf, String.join]

/-- The fields of a record. -/
def fieldsOf (r : CutRecord K) : List String :=
  fields (toString r.stage) (toString r.markov) r.rib r.cut

theorem toList_textOf (records : List (CutRecord K)) : (textOf records).toList =
    (records.map fun r => (fieldsOf r).map String.toList).flatMap Text.Separated.encodeRow := by
  induction records using List.reverseRecOn with
  | nil => rfl
  | append_singleton records r ih =>
    have hline : (line r).toList = Text.Separated.encodeRow ((fieldsOf r).map String.toList) :=
      String.toList_ofList
    rw [textOf_concat, String.toList_append, ih, hline]
    simp

/-- The text of `x` is read as `y`. -/
def Reads (x y : K) : Prop := Numeral.read (Numeral.text x) = some y

/-- The row of `r` spells `s`: the same place and side, and the numbers that are read from the texts of
the numbers of `r`. -/
structure Spells (r s : CutRecord K) : Prop where
  stage : s.stage = r.stage
  markov : s.markov = r.markov
  side : s.cut.side = r.cut.side
  rib : Option.Rel Reads r.rib s.rib
  intercept : Reads r.cut.intercept s.cut.intercept
  coefficients : List.Forall₂ Reads r.cut.coefficients s.cut.coefficients

theorem realField_text {x y : K} (h : Reads x y) :
    (realField (Numeral.text x) : Except RecordFault K) = .ok y := by
  have hread : Numeral.read (Numeral.text x) = some y := h
  simp only [realField, hread]

theorem mapM_realField {xs ys : List K} (h : List.Forall₂ Reads xs ys) :
    (xs.map Numeral.text).mapM realField = (.ok ys : Except RecordFault (List K)) := by
  induction h with
  | nil => rfl
  | cons hxy _ ih =>
    rw [List.map_cons, List.mapM_cons, realField_text hxy, ih]
    rfl

section Reading

variable (hempty : Numeral.read (K := K) "" = none)
include hempty

/-- No scalar that can be read has the empty text. -/
theorem text_ne_empty {x y : K} (h : Reads x y) : (Numeral.text x == "") = false := by
  rw [beq_eq_false_iff_ne]
  intro heq
  have hread : Numeral.read (Numeral.text x) = some y := h
  rw [heq, hempty] at hread
  cases hread

theorem readRow_fieldsOf {r s : CutRecord K} (h : Spells r s) :
    readRow (fieldsOf r) = .ok (restamped s) := by
  have hstage : wholeField (toString r.stage) = .ok r.stage := by
    simp only [wholeField, Decimal.readWhole_toString]
  have hmarkov : wholeField (toString r.markov) = .ok r.markov := by
    simp only [wholeField, Decimal.readWhole_toString]
  have hfields : ∀ i text, (fieldsOf r)[i]? = some text → fieldAt (fieldsOf r) i = .ok text := by
    intro i text hi
    rw [fieldAt, hi]
  have hdrop : (fieldsOf r).drop 5 = r.cut.coefficients.map Numeral.text := rfl
  rw [readRow, hfields 0 _ rfl, hfields 1 _ rfl, hfields 2 _ rfl, hfields 3 _ rfl, hfields 4 _ rfl,
    hdrop]
  simp only [bind, Except.bind, hstage, hmarkov, realField_text h.intercept,
    mapM_realField h.coefficients, Side.ofText?_text]
  obtain ⟨stage, markov, rib, cut⟩ := r
  obtain ⟨stage', markov', rib', cut'⟩ := s
  obtain ⟨rfl, rfl, hside, hrib, -, -⟩ := h
  have hcut : cut'.side = cut.side := hside
  cases hrib with
  | none =>
    simp only [restamped, hcut]
    rfl
  | some hxy =>
    simp only [Option.map_some, Option.getD_some, text_ne_empty hempty hxy, Bool.false_eq_true,
      if_false, realField_text hxy, restamped, hcut]
    rfl

/-- A cut file is read back record by record, without a fault, as its rows are spelt. -/
theorem read_of_spells (path : String) {records back : List (CutRecord K)}
    (h : List.Forall₂ Spells records back) :
    read path (textOf records) = (back.map restamped, none) := by
  have hrows : ∀ n, readRows path n (records.map fieldsOf) = (back.map restamped, none) := by
    induction h with
    | nil => exact fun _ => rfl
    | @cons r s records back hrs _ ih =>
      intro n
      have hcons : ∃ field more, fieldsOf r = field :: more := ⟨_, _, rfl⟩
      obtain ⟨field, more, hfields⟩ := hcons
      have hread := readRow_fieldsOf hempty hrs
      rw [List.map_cons, hfields] at *
      simp only [readRows, hread, ih, List.map_cons]
  have hdecode : ((Text.Separated.decodeRows (textOf records).toList).map fun row =>
      row.map String.ofList) = records.map fieldsOf := by
    rw [toList_textOf, Text.Separated.decodeRows_encodeRows, List.map_map]
    refine List.map_congr_left fun r _ => ?_
    simp [Function.comp_def]
  rw [read, hdecode, hrows]

end Reading

/-- Where texts are read back exactly, a record spells itself. -/
theorem spells_self (hlegible : Numeral.IsLegible K) (r : CutRecord K) :
    Spells r r where
  stage := rfl
  markov := rfl
  side := rfl
  rib := by
    cases r.rib with
    | none => exact .none
    | some x => exact .some (hlegible.read_text x)
  intercept := hlegible.read_text _
  coefficients := List.forall₂_same.2 fun x _ => hlegible.read_text x

/-- A cut file is read back record by record, without a fault. -/
theorem read_textOf (hlegible : Numeral.IsLegible K) (path : String) (records : List (CutRecord K)) :
    read path (textOf records) = (records.map restamped, none) :=
  read_of_spells hlegible.read_empty path (List.forall₂_same.2 fun r _ => spells_self hlegible r)

end CutFile

/-! ## Whole numbers as scalars -/

/-- Whole numbers, with division that rounds down. -/
instance : Numeral ℤ where
  ofInt n := n
  le a b := decide (a ≤ b)
  lt a b := decide (a < b)
  eq a b := decide (a = b)
  isFinite _ := true
  isNaN _ := false
  nearest n := n
  text n := toString n
  read := Decimal.readWhole
  missing := 0

theorem Numeral.isLegible_int : Numeral.IsLegible ℤ where
  read_text := Decimal.readWhole_toString
  eq_self _ := decide_eq_true rfl
  read_empty := by decide

end DualDynamic
