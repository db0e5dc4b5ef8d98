/-
**Functions with a meaning of their own.**

Function names are compared without regard to the case of their letters.

Main definitions:

* `Operation` — the operations of arithmetic, and the names that stand for them;
* `isCounting` — the functions whose values are natural numbers.
-/

set_option autoImplicit false

namespace BagEquiv

/-- An operation of arithmetic. -/
inductive Operation where
  | divide
  | minus
  | plus
  | times
deriving DecidableEq, Repr

namespace Operation

/-- The operation of a name in lower case. -/
def ofName? : String → Option Operation
  | "divide" => some .divide
  | "/" => some .divide
  | "minus" => some .minus
  | "-" => some .minus
  | "plus" => some .plus
  | "+" => some .plus
  | "times" => some .times
  | "*" => some .times
  | _ => none

end Operation

/-- Whether the function of a name in lower case has natural numbers as values. -/
def isCounting (name : String) : Bool :=
  name ∈ ["count", "count_distinct", "length", "char_length", "abs"]

end BagEquiv
