import DualDynamic.Proofs.Step
import DualDynamic.Datum

/-!
# Blocks of numbers

Nested lists that form a block have as many entries as the shape of the block says.
-/

namespace DualDynamic

open Step

variable {K : Type}

namespace Datum

theorem commonShape_self (l : List ℕ) : commonShape l l = l := by
  induction l with
  | nil => rfl
  | cons a l ih => simp [commonShape, ih]

section Numerals

variable [Numeral K]

mutual

/-- Nested lists of one shape have as many entries as the shape says. -/
theorem length_entries (d : Datum K) {xs : List K} (hregular : d.extent.regular = true)
    (h : d.entries = .ok xs) : xs.length = d.extent.lengths.prod := by
  cases d with
  | list items =>
    simp only [extent] at hregular ⊢
    simp only [entries] at h
    rw [List.prod_cons]
    exact length_entriesAll items hregular h
  | absent =>
    obtain rfl := Except.ok.inj h
    rfl
  | text s =>
    simp only [entries, number, Except.map] at h
    cases hr : Numeral.read (K := K) s with
    | none => simp [hr] at h
    | some x =>
      simp only [hr] at h
      obtain rfl := Except.ok.inj h
      rfl
  | _ =>
    simp only [entries, number, Except.map] at h
    cases h
    try rfl

theorem length_entriesAll (ds : List (Datum K)) {xs : List K}
    (hregular : (extents ds).regular = true) (h : entriesAll ds = .ok xs) :
    xs.length = ds.length * (extents ds).lengths.prod := by
  match ds with
  | [] =>
    obtain rfl := Except.ok.inj h
    simp
  | [d] =>
    obtain ⟨front, hfront, h⟩ := exceptBind_eq_ok.1 h
    obtain ⟨back, hback, h⟩ := exceptBind_eq_ok.1 h
    obtain rfl := Except.ok.inj hback
    obtain rfl := Except.ok.inj h
    simpa [extents] using length_entries d hregular hfront
  | d :: d' :: ds =>
    simp only [extents, Extent.join, Bool.and_eq_true, beq_iff_eq] at hregular
    obtain ⟨⟨hd, hds⟩, hsame⟩ := hregular
    obtain ⟨front, hfront, h⟩ := exceptBind_eq_ok.1 h
    obtain ⟨back, hback, h⟩ := exceptBind_eq_ok.1 h
    obtain rfl := Except.ok.inj h
    have hlengths : (extents (d :: d' :: ds)).lengths = d.extent.lengths := by
      simp only [extents, Extent.join, hsame, commonShape_self]
    rw [hlengths, List.length_append, length_entries d hd hfront,
      length_entriesAll (d' :: ds) hds hback, ← hsame, List.length_cons (a := d)]
    ring

end

theorem length_block {d : Datum K} {b : Block K} (h : d.block = .ok b) :
    b.entries.length = b.shape.prod := by
  simp only [block] at h
  split_ifs at h with hregular
  cases hentries : d.entries with
  | error e => simp [hentries, Except.map] at h
  | ok xs =>
    simp only [hentries, Except.map] at h
    obtain rfl := Except.ok.inj h
    exact length_entries d hregular hentries

/-- Numbers in a row are a block of one dimension. -/
theorem block_reals (xs : List K) :
    (list (xs.map real)).block = .ok ⟨[xs.length], xs⟩ := by
  have hextents : extents (xs.map real) = ⟨[], true⟩ := by
    induction xs with
    | nil => rfl
    | cons x xs ih =>
      cases xs with
      | nil => rfl
      | cons y xs =>
        rw [List.map_cons, List.map_cons, extents, ← List.map_cons, ih]
        · rfl
        · simp
  have hentries : entriesAll (xs.map real) = .ok xs := by
    clear hextents
    induction xs with
    | nil => rfl
    | cons x xs ih =>
      rw [List.map_cons, entriesAll, ih]
      rfl
  simp only [block, extent, hextents, entries, hentries, List.length_map]
  rfl

end Numerals

end Datum

theorem Block.length_of_mem_rowsOf {width n : ℕ} {xs row : List K} (h : n * width ≤ xs.length)
    (hrow : row ∈ Block.rowsOf width n xs) : row.length = width := by
  induction n generalizing xs with
  | zero => simp [rowsOf] at hrow
  | succ n ih =>
    rw [Nat.succ_mul] at h
    rcases List.mem_cons.1 hrow with rfl | hrow
    · rw [List.length_take]
      omega
    · exact ih (by rw [List.length_drop]; omega) hrow

theorem Block.length_rowsOf (width n : ℕ) (xs : List K) :
    (Block.rowsOf width n xs).length = n := by
  induction n generalizing xs with
  | zero => rfl
  | succ n ih => rw [rowsOf, List.length_cons, ih]

/-- The rows of a block that is as full as its shape says. -/
theorem Block.rows_of_shape {b : Block K} {n width : ℕ} (hshape : b.shape = [n, width])
    (hlength : b.entries.length = b.shape.prod) :
    b.rows.length = n ∧ ∀ row ∈ b.rows, row.length = width := by
  rw [rows, hshape]
  exact ⟨length_rowsOf width n b.entries,
    fun row hrow => length_of_mem_rowsOf (by simp [hlength, hshape]) hrow⟩

end DualDynamic
