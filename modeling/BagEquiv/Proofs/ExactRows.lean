/-
**Rows as exact values.**

Two rows are the same if they have the same columns with the same cells, and fractions are the same
if they stand for one number.  So a row, as far as comparisons of rows can tell, is a partial map
from columns to exact cells: integers, rational numbers and texts, each with its null flag.  The
multiplicity of a row in a table depends on the row in this sense only.

Main definition:

* `ExactDatum`, `ExactCell`, `ExactRow` — exact values, cells and rows.

Main result:

* `Row.same_iff_exact` — **rows are the same if their exact rows are equal**.
-/

import Mathlib.Algebra.Order.Field.Rat
import BagEquiv.Valuation

set_option autoImplicit false

namespace BagEquiv

/-- The value of a cell: an integer, a rational number or a text. -/
inductive ExactDatum where
  | int (n : ℤ)
  | real (q : ℚ)
  | str (s : String)
deriving DecidableEq

namespace ExactDatum

/-- What the value of a cell stands for. -/
def scalar : ExactDatum → Scalar ℚ
  | .int n => .number n
  | .real q => .number q
  | .str s => .text s

end ExactDatum

/-- An exact value and, apart from it, whether the column is null. -/
structure ExactCell where
  value : ExactDatum
  null : Bool
deriving DecidableEq

/-- The cells of a row, by column. -/
abbrev ExactRow := String → Option ExactCell

/-! ### Cells -/

def Datum.exact : Datum → ExactDatum
  | .int n => .int n.toInt
  | .real q => .real q.toRat
  | .str s => .str s

theorem Datum.same_iff_exact (a b : Datum) : a.same b = true ↔ a.exact = b.exact := by
  cases a <;> cases b <;> simp [same, exact, Fraction.same_iff_toRat_eq, Int64.toInt_inj]

theorem Fraction.toRat_ofWord (n : Int64) : (Fraction.ofWord n).toRat = (n.toInt : ℚ) := by
  simp [toRat, ofWord]

theorem Scalar.ofDatum_eq (d : Datum) : (Scalar.ofDatum d : Scalar ℚ) = d.exact.scalar := by
  cases d with
  | int n => exact congrArg Scalar.number (Fraction.toRat_ofWord n)
  | real q => rfl
  | str s => rfl

def Cell.exact (c : Cell) : ExactCell := ⟨c.value.exact, c.null⟩

theorem Cell.same_iff_exact (a b : Cell) : a.same b = true ↔ a.exact = b.exact := by
  simp [same, exact, Datum.same_iff_exact]

theorem Cell.sameBy_exact (a b : Cell) :
    a.sameBy (Arithmetic.sameFraction ℚ) b = .ok (decide (a.exact = b.exact)) := by
  have hdatum : a.value.sameBy (Arithmetic.sameFraction ℚ) b.value =
      .ok (a.value.same b.value) := by
    cases a.value <;> cases b.value <;> rfl
  have hsame : a.same b = decide (a.exact = b.exact) := by
    rw [Bool.eq_iff_iff, same_iff_exact, decide_eq_true_iff]
  rw [sameBy, ← hsame, same, hdatum]
  by_cases h : a.null = b.null <;> simp [h]

/-! ### Rows -/

namespace Row

/-- The exact cells of a row. -/
def exact (r : Row) : ExactRow := fun attr => (r.get? attr).map Cell.exact

theorem lookup_of_lt {name : String} {as : List (String × Cell)} (h : ∀ a ∈ as, name < a.1) :
    NameMap.lookup name as = none := by
  induction as with
  | nil => rfl
  | cons a as ih =>
      rw [List.forall_mem_cons] at h
      have hne : a.1 ≠ name := fun heq => String.lt_irrefl name (heq ▸ h.1)
      rw [NameMap.lookup, if_neg hne, ih h.2]

/-- Lists of cells in the order of their names are the same if every column has the same cell. -/
theorem sameEntries_iff : ∀ {as bs : List (String × Cell)},
    as.Pairwise (fun a b => a.1 < b.1) → bs.Pairwise (fun a b => a.1 < b.1) →
    (sameEntries as bs = true ↔ ∀ name,
      (NameMap.lookup name as).map Cell.exact = (NameMap.lookup name bs).map Cell.exact)
  | [], [], _, _ => by simp [sameEntries]
  | [], (n, b) :: bs, _, _ => by
      simp only [sameEntries, Bool.false_eq_true, false_iff, not_forall]
      exact ⟨n, by simp [NameMap.lookup]⟩
  | (m, a) :: as, [], _, _ => by
      simp only [sameEntries, Bool.false_eq_true, false_iff, not_forall]
      exact ⟨m, by simp [NameMap.lookup]⟩
  | (m, a) :: as, (n, b) :: bs, ha, hb => by
      rw [List.pairwise_cons] at ha hb
      have hm := lookup_of_lt ha.1
      have hn := lookup_of_lt hb.1
      simp only [sameEntries, Bool.and_eq_true, beq_iff_eq, Cell.same_iff_exact,
        sameEntries_iff ha.2 hb.2]
      constructor
      · rintro ⟨⟨rfl, hab⟩, h⟩ name
        simp only [NameMap.lookup]
        split
        · exact congrArg some hab
        · exact h name
      · intro h
        -- The smaller of the first names would be missing on the other side.
        obtain rfl : m = n := by
          by_contra hne
          by_cases hlt : m < n
          · have := h m
            rw [lookup_of_lt (List.forall_mem_cons.mpr
              ⟨hlt, fun p hp => String.lt_trans hlt (hb.1 p hp)⟩)] at this
            simp [NameMap.lookup] at this
          · have hlt := NameMap.lt_of_not_lt_of_ne hlt hne
            have := h n
            rw [lookup_of_lt (List.forall_mem_cons.mpr
              ⟨hlt, fun p hp => String.lt_trans hlt (ha.1 p hp)⟩)] at this
            simp [NameMap.lookup] at this
        refine ⟨⟨rfl, by simpa [NameMap.lookup] using h m⟩, fun name => ?_⟩
        by_cases hname : m = name
        · rw [← hname, hm, hn]
        · simpa [NameMap.lookup, hname] using h name

/-- Rows are the same if their exact rows are equal. -/
theorem same_iff_exact (a b : Row) : a.same b = true ↔ a.exact = b.exact := by
  rw [same, sameEntries_iff a.sorted b.sorted, funext_iff]
  rfl

theorem sameEntriesBy_exact : ∀ as bs : List (String × Cell),
    sameEntriesBy (Arithmetic.sameFraction ℚ) as bs = .ok (sameEntries as bs)
  | [], [] => rfl
  | [], _ :: _ => rfl
  | _ :: _, [] => rfl
  | (m, a) :: as, (n, b) :: bs => by
      have hsame : decide (a.exact = b.exact) = a.same b := by
        rw [Bool.eq_iff_iff, Cell.same_iff_exact, decide_eq_true_iff]
      rw [sameEntriesBy, sameEntries, Cell.sameBy_exact, sameEntriesBy_exact as bs, hsame]
      by_cases hmn : m = n
      · cases h : a.same b <;> simp [hmn, bind, Except.bind, pure, Except.pure]
      · simp [hmn]

theorem sameBy_exact (a b : Row) : sameBy (Arithmetic.sameFraction ℚ) a b = .ok (a.same b) := by
  rw [sameBy, same, sameEntries_eq_and, sameEntriesBy_exact]
  split <;> simp_all

end Row

/-! ### Tables -/

namespace Table

open Classical in
/-- How often the first entry of an exact row says that it occurs. -/
noncomputable def count (e : ExactRow) : Table → ℕ
  | [] => 0
  | (q, n) :: rest => if Row.exact q = e then n.toNat else count e rest

theorem toNat_multiplicity (r : Row) (t : Table) :
    (multiplicity r t).toNat = count (Row.exact r) t := by
  induction t with
  | nil => rfl
  | cons entry rest ih =>
      obtain ⟨q, n⟩ := entry
      by_cases h : Row.exact q = Row.exact r
      · rw [multiplicity, count, if_pos h, if_pos ((Row.same_iff_exact q r).mpr h)]
      · rw [multiplicity, count, if_neg h, if_neg (mt (Row.same_iff_exact q r).mp h), ih]

theorem multiplicityBy_exact (r : Row) (t : Table) :
    multiplicityBy (Arithmetic.sameFraction ℚ) r t = .ok (multiplicity r t) := by
  induction t with
  | nil => rfl
  | cons entry rest ih =>
      obtain ⟨q, n⟩ := entry
      rw [multiplicityBy, multiplicity, Row.sameBy_exact, ih]
      cases h : q.same r <;> simp [bind, Except.bind, pure, Except.pure]

/-- A row that is not listed does not occur. -/
theorem count_of_notMem {e : ExactRow} {t : Table} (h : e ∉ t.rows.map Row.exact) :
    count e t = 0 := by
  induction t with
  | nil => rfl
  | cons entry rest ih =>
      obtain ⟨q, n⟩ := entry
      simp only [rows, List.map_cons, List.mem_cons, not_or] at h
      rw [count, if_neg (Ne.symm h.1), ih h.2]

end Table

end BagEquiv
