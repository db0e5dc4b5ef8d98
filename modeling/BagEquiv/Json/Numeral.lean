/-
**Numbers in text.**

A number is a whole part without leading zeros, and may go on with a fraction and an exponent.
One without both is an integer if it is a 64-bit word, signed or unsigned, and not a negative
zero.  Every other number stands for a floating-point number of double precision, and has no
value when that would be infinite.

The floating-point number is a significand times a power of ten: the significand takes in digits
as long as it remains an unsigned 64-bit word.  Both factors are rounded before they are
multiplied, so the range ends where that product does, and not where the number itself leaves it.

Main definitions:

* `Json.Numeral` — the parts of a spelling;
* `Json.Numeral.read?` — the number at the front of a text;
* `Json.Numeral.nearest` — rounding to 53 binary digits.
-/

import BagEquiv.Json

set_option autoImplicit false

namespace BagEquiv.Json

-- Powers are core's, not those of a monoid.
attribute [local instance (high)] instPowNat

/-- A number as it is written. -/
structure Numeral where
  negative : Bool
  /-- The digits before the point. -/
  whole : List Char
  /-- The digits after the point, none if there is no point. -/
  fraction : List Char
  /-- The letter, the sign and the digits of the exponent, if there is one. -/
  exponent : Option (Char × Option Char × List Char)

namespace Numeral

/-! ### Spelling -/

/-- The digits at the front, and what follows them. -/
def digits (cs : List Char) : List Char × List Char :=
  (cs.takeWhile Char.isDigit, cs.dropWhile Char.isDigit)

/-- One digit at least. -/
def someDigits? (cs : List Char) : Option (List Char × List Char) :=
  match digits cs with
  | ([], _) => none
  | found => some found

/-- A zero, or digits that start with another one. -/
def whole? (cs : List Char) : Option (List Char × List Char) :=
  match digits cs with
  | ([], _) => none
  | ('0' :: _ :: _, _) => none
  | found => some found

/-- The digits after a point, if there is a point. -/
def fraction? : List Char → Option (List Char × List Char)
  | '.' :: rest => someDigits? rest
  | cs => some ([], cs)

/-- The sign of an exponent, if it has one. -/
def sign : List Char → Option Char × List Char
  | '+' :: rest => (some '+', rest)
  | '-' :: rest => (some '-', rest)
  | cs => (none, cs)

/-- An exponent, if there is one. -/
def exponent? : List Char → Option (Option (Char × Option Char × List Char) × List Char)
  | [] => some (none, [])
  | e :: rest =>
      if e = 'e' ∨ e = 'E' then
        let (sign, rest) := sign rest
        (someDigits? rest).map fun (ds, after) => (some (e, sign, ds), after)
      else some (none, e :: rest)

/-- A number after its sign. -/
def unsigned? (negative : Bool) (cs : List Char) : Option (Numeral × List Char) := do
  let (whole, cs) ← whole? cs
  let (fraction, cs) ← fraction? cs
  let (exponent, cs) ← exponent? cs
  return (⟨negative, whole, fraction, exponent⟩, cs)

/-- The number at the front of a text, and what follows it. -/
def read? : List Char → Option (Numeral × List Char)
  | '-' :: rest => unsigned? true rest
  | cs => unsigned? false cs

/-- The characters of a number. -/
def spelling (n : Numeral) : List Char :=
  (if n.negative then ['-'] else []) ++ n.whole
    ++ (if n.fraction.isEmpty then [] else '.' :: n.fraction)
    ++ match n.exponent with
      | none => []
      | some (e, sign, ds) => e :: (sign.toList ++ ds)

/-! ### Value -/

/-- The value of a digit. -/
def digit (d : Char) : Nat := d.toNat - '0'.toNat

/-- The value of a sequence of digits. -/
def ofDigits (ds : List Char) : Nat := ds.foldl (fun n d => 10 * n + digit d) 0

/-- The significand `s` followed by digits, as long as it remains a 64-bit word, and how many
digits are left over. -/
def absorb (s : Nat) : List Char → Nat × Nat
  | [] => (s, 0)
  | d :: ds =>
      if 10 * s + digit d < 2 ^ (64 : Nat) then absorb (10 * s + digit d) ds else (s, ds.length + 1)

/-- The exponent as it is written. -/
def power (n : Numeral) : Int :=
  match n.exponent with
  | none => 0
  | some (_, some '-', ds) => -(ofDigits ds : Int)
  | some (_, _, ds) => ofDigits ds

/-- The significand and the power of ten of a number.  Digits of the whole part that the
significand has no room for raise the power; those of the fraction are dropped. -/
def scaled (n : Numeral) : Nat × Int :=
  let (s, above) := absorb 0 n.whole
  let (s, dropped) := absorb s n.fraction
  (s, n.power + above - ((n.fraction.length - dropped : Nat) : Int))

/-- A number rounded to 53 binary digits; from halfway to the even neighbour. -/
def nearest (n : Nat) : Nat :=
  let unit := 2 ^ (n.log2 - 52)
  let q := n / unit
  let r := n % unit
  if unit < 2 * r ∨ (unit = 2 * r ∧ q % 2 = 1) then (q + 1) * unit else q * unit

/-- Whether a number is finite as a floating-point number: the greatest one ends at `2 ^ 1024`,
and from the middle of its last step on is rounded there. -/
def isFinite (n : Numeral) : Bool :=
  let (s, e) := n.scaled
  s = 0 || e < 0 ||
    (e ≤ 308 && nearest s * nearest (10 ^ e.toNat) < 2 ^ (1024 : Nat) - 2 ^ (970 : Nat))

/-- The value of a number. -/
def toJson (n : Numeral) : Json :=
  let m := ofDigits n.whole
  if n.fraction.isEmpty ∧ n.exponent.isNone ∧ n.negative = false ∧ m < 2 ^ (64 : Nat) then .int m
  else if n.fraction.isEmpty ∧ n.exponent.isNone ∧ n.negative ∧ 0 < m ∧ m ≤ 2 ^ (63 : Nat) then
    .int (-(m : Int))
  else if n.isFinite then .float (String.ofList n.spelling)
  else .unreadable

end Numeral

end BagEquiv.Json
