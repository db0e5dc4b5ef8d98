/-
**Values in the cells of a table.**

Main definitions:

* `Datum` — an integer, a fraction or a text, with its spelling;
* `Datum.same` — equality of values, fractions being compared as numbers;
* `Datum.sameBy` — the same, with a test for fractions that may fail.
-/

import BagEquiv.Fraction
import BagEquiv.Schema
import BagEquiv.Text

set_option autoImplicit false

namespace BagEquiv

/-- The value of a cell. -/
inductive Datum where
  | int (n : Int64)
  | real (q : Fraction)
  | str (s : String)
deriving DecidableEq

namespace Datum

def text : Datum → String
  | .int n => toString n.toInt
  | .real q => q.text
  | .str s => Text.quoted s

/-- Equality of values of one kind; an integer is not equal to a fraction. -/
def same : Datum → Datum → Bool
  | .int m, .int n => m == n
  | .real p, .real q => p.same q
  | .str s, .str t => s == t
  | _, _ => false

theorem same_refl (a : Datum) : a.same a = true := by
  cases a with
  | int n => exact beq_self_eq_true n
  | real q => exact (Fraction.same_iff_toRat_eq q q).2 rfl
  | str s => exact beq_self_eq_true s

theorem same_symm {a b : Datum} (h : a.same b = true) : b.same a = true := by
  cases a <;> cases b <;> simp_all [same, Fraction.same_iff_toRat_eq]

theorem same_trans {a b c : Datum} (h : a.same b = true) (h' : b.same c = true) :
    a.same c = true := by
  cases a <;> cases b <;> cases c <;> simp_all [same, Fraction.same_iff_toRat_eq]

/-- Equality of values of one kind, with fractions compared by `test`. -/
def sameBy (test : Fraction → Fraction → Except Fault Bool) : Datum → Datum → Except Fault Bool
  | .int m, .int n => .ok (m == n)
  | .real p, .real q => test p q
  | .str s, .str t => .ok (s == t)
  | _, _ => .ok false

theorem same_of_sameBy {test : Fraction → Fraction → Except Fault Bool}
    (ht : ∀ p q r, test p q = .ok r → p.same q = r) {a b : Datum} {r : Bool}
    (h : sameBy test a b = .ok r) : a.same b = r := by
  cases a <;> cases b <;> simp only [sameBy] at h <;> try cases h <;> rfl
  exact ht _ _ r h

/-- A fraction with denominator one is an integer. -/
def ofFraction (q : Fraction) : Datum := if q.isWhole then .int q.num else .real q

/-- The value of a column about which nothing is known. -/
def default : DataType → Datum
  | .string => .str ""
  | .char => .str ""
  | _ => .int 0

end Datum

end BagEquiv
