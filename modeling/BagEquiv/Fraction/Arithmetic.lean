/-
**Numbers to evaluate in.**

Evaluation of terms is written once, over any numbers that offer these operations.  On `Fraction`
the operations are the checked ones on words, and on `Rat` they are exact and always succeed.

Main definitions:

* `Arithmetic` — the operations;
* the instances on `Fraction` and on `Rat`.
-/

import BagEquiv.Fraction

set_option autoImplicit false

namespace BagEquiv

/-- Operations on numbers, some of which may overflow. -/
class Arithmetic (ν : Type) where
  /-- The number a fraction stands for. -/
  ofFraction : Fraction → ν
  /-- The number of times a row occurs. -/
  ofCount : UInt64 → ν
  isZero : ν → Bool
  compare : ν → ν → Except Fault Ordering
  /-- Whether two fractions stand for the same number. -/
  sameFraction : Fraction → Fraction → Except Fault Bool
  add : ν → ν → Except Fault ν
  sub : ν → ν → Except Fault ν
  mul : ν → ν → Except Fault ν
  /-- The quotient by a number that is not zero. -/
  div : ν → ν → Except Fault ν
  neg : ν → Except Fault ν

namespace Arithmetic

variable {ν : Type} [Arithmetic ν]

def zero : ν := ofFraction Fraction.zero

def one : ν := ofFraction Fraction.one

/-- One if the condition holds, and zero if not. -/
def indicator (b : Bool) : ν := if b then one else zero

/-- The sum from the left, starting at zero. -/
def sum (ns : List ν) : Except Fault ν := ns.foldlM add zero

/-- The product from the left, starting at one. -/
def product (ns : List ν) : Except Fault ν := ns.foldlM mul one

end Arithmetic

/-- Checked arithmetic.  A count above `2 ^ 63` turns negative. -/
instance : Arithmetic Fraction where
  ofFraction q := q
  ofCount n := Fraction.ofWord n.toInt64
  isZero := Fraction.isZero
  compare := Fraction.Checked.compare
  sameFraction := Fraction.Checked.same
  add := Fraction.add
  sub := Fraction.sub
  mul := Fraction.mul
  div := Fraction.div
  neg := Fraction.neg

/-- Exact arithmetic. -/
instance : Arithmetic Rat where
  ofFraction := Fraction.toRat
  ofCount n := (n.toNat : Rat)
  isZero q := q == 0
  compare a b := .ok (if a < b then .lt else if a = b then .eq else .gt)
  sameFraction a b := .ok (a.same b)
  add a b := .ok (a + b)
  sub a b := .ok (a - b)
  mul a b := .ok (a * b)
  div a b := .ok (a / b)
  neg a := .ok (-a)

end BagEquiv
