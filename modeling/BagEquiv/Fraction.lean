/-
**Fractions of words.**

A fraction keeps the numerator and the denominator it was given: two over four, or one over minus
two, stay as they are and are written that way.  Two fractions can therefore be different and yet
have the same value, which is what `same` decides.  Results of arithmetic are reduced with a
positive denominator.

Main definitions:

* `Fraction` — a numerator over a denominator that is not zero;
* `Fraction.toRat` — the rational number a fraction stands for;
* `Fraction.same`, `Fraction.compare` — equality of values and the order.

Main results:

* `Fraction.same_iff_toRat_eq` — fractions are the same if they stand for one number;
* `Fraction.Checked.same_of_ok` — a checked comparison that succeeds is right.
-/

import BagEquiv.Word

set_option autoImplicit false

namespace BagEquiv

-- Powers are core's, not those of a monoid.
attribute [local instance (high)] instPowNat

/-- A numerator over a denominator, neither reduced nor normalised in sign. -/
structure Fraction where
  num : Int64
  den : Int64
  den_ne_zero : den ≠ 0
deriving DecidableEq

namespace Fraction

/-! ### Values -/

/-- The fraction `n / 1`. -/
def ofWord (n : Int64) : Fraction := ⟨n, 1, by decide⟩

instance : Inhabited Fraction := ⟨ofWord 0⟩

def zero : Fraction := ofWord 0

def one : Fraction := ofWord 1

/-- The fraction with the given parts, unless the denominator is zero. -/
def make? (n d : Int64) : Option Fraction :=
  if h : d ≠ 0 then some ⟨n, d, h⟩ else none

/-- The number a fraction stands for. -/
def toRat (q : Fraction) : Rat := Rat.divInt q.num.toInt q.den.toInt

/-- Written without a fraction bar: the denominator is one, so `4/2` is not whole. -/
def isWhole (q : Fraction) : Bool := q.den == 1

def isZero (q : Fraction) : Bool := q.num == 0

def isOne (q : Fraction) : Bool := q.num == q.den

def isPositive (q : Fraction) : Bool :=
  (decide (0 < q.num) && decide (0 < q.den)) || (decide (q.num < 0) && decide (q.den < 0))

/-- The value rounded toward zero. -/
def truncate (q : Fraction) : Except Fault Int64 := Word.div q.num q.den

/-- A whole fraction as its numerator, any other with a fraction bar. -/
def text (q : Fraction) : String :=
  if q.isWhole then toString q.num.toInt
  else toString q.num.toInt ++ "/" ++ toString q.den.toInt

/-! ### Comparison -/

/-- Whether two fractions have the same value. -/
def same (a b : Fraction) : Bool :=
  a.num.toInt * b.den.toInt == b.num.toInt * a.den.toInt

theorem toInt_den_ne_zero (q : Fraction) : q.den.toInt ≠ 0 := fun h =>
  q.den_ne_zero (Int64.toInt_inj.1 h)

theorem same_iff_toRat_eq (a b : Fraction) : a.same b = true ↔ a.toRat = b.toRat := by
  rw [same, beq_iff_eq, toRat, toRat,
    Rat.divInt_eq_divInt_iff a.toInt_den_ne_zero b.toInt_den_ne_zero]

/-- The order of the values, by cross multiplication. -/
def compareValues (a b : Fraction) : Ordering :=
  let s := (a.den.toInt * b.den.toInt).sign
  Ord.compare (s * (a.num.toInt * b.den.toInt)) (s * (b.num.toInt * a.den.toInt))

/-- The order of fractions.  Over a common denominator the numerators decide, and under a common
numerator the denominators do, the smaller one making the larger fraction if the numerator is
positive and the smaller one if it is negative; only fractions that share neither are compared by
value.  With denominators of one sign this is the order of the values. -/
def compare (a b : Fraction) : Ordering :=
  if a.den = b.den then
    if a.den < 0 then Ord.compare b.num.toInt a.num.toInt else Ord.compare a.num.toInt b.num.toInt
  else if a.num = b.num then
    if a.num = 0 then .eq
    else if a.num < 0 then Ord.compare a.den.toInt b.den.toInt
    else Ord.compare b.den.toInt a.den.toInt
  else compareValues a b

/-! ### Comparison with words -/

/-- The value rounded down. -/
def whole (q : Fraction) : Int := q.num.toInt.fdiv q.den.toInt

/-- What is left of the numerator when the whole part is taken away; it has the sign of the
denominator. -/
def rest (q : Fraction) : Int := q.num.toInt.fmod q.den.toInt

/-- Whether the quotient of two words, rounded down, is a word. -/
def quotientFits (n d : Int) : Bool := !(n == -2 ^ (63 : Nat) && d == -1)

/-- Whether every whole part of the continued fraction is a word.  From the third step on the
numerator is a remainder and therefore not the least word, so only the first two can be none. -/
def expands (q : Fraction) : Bool :=
  quotientFits q.num.toInt q.den.toInt && quotientFits q.den.toInt q.rest

/-- Whether two fractions can be compared with words.  Fractions with a common part are compared
by the other part.  Otherwise the whole parts are compared, and if they are equal the reciprocals
of what is left. -/
def comparable (a b : Fraction) : Bool :=
  a.den == b.den || a.num == b.num ||
    (quotientFits a.num.toInt a.den.toInt && quotientFits b.num.toInt b.den.toInt &&
      (a.whole != b.whole || a.rest == 0 || b.rest == 0 || a.rest == b.rest ||
        (quotientFits a.den.toInt a.rest && quotientFits b.den.toInt b.rest)))

namespace Checked

/-- Whether two fractions have the same value. -/
def same (a b : Fraction) : Except Fault Bool :=
  if a.comparable b then .ok (a.same b) else .error .overflow

/-- The order of two fractions. -/
def compare (a b : Fraction) : Except Fault Ordering :=
  if a.comparable b then .ok (a.compare b) else .error .overflow

theorem same_of_ok {a b : Fraction} {r : Bool} (h : same a b = .ok r) : a.same b = r := by
  unfold same at h
  split at h <;> simp_all

end Checked

/-! ### Arithmetic -/

/-- The fraction with the given parts in lowest terms and with a positive denominator. -/
def reduce (n d : Int64) : Except Fault Fraction :=
  if n = 0 then .ok zero
  else if n = d then .ok one
  else do
    let g ← Word.gcd n d
    let n ← Word.div n g
    let d ← Word.div d g
    if d < 0 then
      build (← Word.neg n) (← Word.neg d)
    else
      build n d
where
  /-- A zero denominator cannot be represented. -/
  build (n d : Int64) : Except Fault Fraction :=
    match make? n d with
    | some q => .ok q
    | none => .error .outOfRange

/-- Both numerators over the least common multiple of the denominators, combined by `op`. -/
def combine (op : Int64 → Int64 → Except Fault Int64) (a b : Fraction) : Except Fault Fraction := do
  if a.den = b.den then
    reduce (← op a.num b.num) a.den
  else
    let l ← Word.lcm a.den b.den
    let m ← Word.mul a.num (← Word.div l a.den)
    let n ← Word.mul b.num (← Word.div l b.den)
    reduce (← op m n) l

def add (a b : Fraction) : Except Fault Fraction := combine Word.add a b

def sub (a b : Fraction) : Except Fault Fraction := combine Word.sub a b

def mul (a b : Fraction) : Except Fault Fraction := do
  let g ← Word.gcd a.num b.den
  let h ← Word.gcd a.den b.num
  let n ← Word.mul (← Word.div a.num g) (← Word.div b.num h)
  let d ← Word.mul (← Word.div b.den g) (← Word.div a.den h)
  reduce n d

/-- The quotient; the divisor is not zero. -/
def div (a b : Fraction) : Except Fault Fraction := do
  let g ← Word.gcd a.num b.num
  let h ← Word.gcd a.den b.den
  let n ← Word.mul (← Word.div a.num g) (← Word.div b.den h)
  let d ← Word.mul (← Word.div a.den h) (← Word.div b.num g)
  reduce n d

/-- Negation of the numerator alone: nothing is reduced. -/
def neg (a : Fraction) : Except Fault Fraction := do
  let n ← Word.neg a.num
  return ⟨n, a.den, a.den_ne_zero⟩

end Fraction

end BagEquiv
