/-
**Simplification.**

Constants are folded, neutral and absorbing operands are removed, nested sums, products,
conjunctions and disjunctions are flattened, and repeated conjuncts and disjuncts are dropped,
from the leaves up.  Folding and comparing constants work with words and can overflow.

Main definitions:

* `Formula.simplifyPlus`, `simplifyMul`, … — one node whose children are simplified;
* `Formula.simplify` — **the whole formula**.
-/

import BagEquiv.Formula.Equality
import BagEquiv.Fraction.Arithmetic

set_option autoImplicit false

namespace BagEquiv.Formula

/-! ### Sums and products -/

/-- The terms of a sum, with those of sums among them. -/
def flattenPlus (terms : List Formula) : List Formula :=
  terms.flatMap fun
    | .plus inner => inner
    | t => [t]

/-- The factors of a product, with those of products among them. -/
def flattenMul (factors : List Formula) : List Formula :=
  factors.flatMap fun
    | .mul inner => inner
    | t => [t]

def isConstant (t : Formula) : Bool := t.constant?.isSome

/-- The constants of a sum are added up at its end, unless they amount to zero. -/
def simplifyPlus (terms : List Formula) : Except Fault Formula := do
  let flat := flattenPlus terms
  let c ← Arithmetic.sum (flat.filterMap constant?)
  let others := flat.filter fun t => !isConstant t
  match if Fraction.isZero c then others else others ++ [.const c] with
  | [] => return zero
  | [t] => return t
  | ts => return .plus ts

/-- The constants of a product are multiplied at its front, unless they amount to one; if they
amount to zero, so does the product. -/
def simplifyMul (factors : List Formula) : Except Fault Formula := do
  let flat := flattenMul factors
  let c ← Arithmetic.product (flat.filterMap constant?)
  if Fraction.isZero c then return zero
  let others := flat.filter fun t => !isConstant t
  match if Fraction.isOne c then others else .const c :: others with
  | [] => return one
  | [t] => return t
  | ts => return .mul ts

def simplifyMinus (a b : Formula) : Except Fault Formula :=
  match a.constant?, b.constant? with
  | some x, some y => do return .const (← x.sub y)
  | none, some y => if y.isZero then .ok a else .ok (.minus a b)
  | _, none => .ok (.minus a b)

/-- A quotient by zero is left alone. -/
def simplifyDiv (a b : Formula) : Except Fault Formula :=
  match a.constant?, b.constant? with
  | some x, some y => if y.isZero then .ok (.div a b) else do return .const (← x.div y)
  | none, some y => if y.isOne then .ok a else .ok (.div a b)
  | _, none => .ok (.div a b)

/-! ### Conditions -/

def simplifyIte (c a b : Formula) : Except Fault Formula :=
  match c with
  | .bool true => .ok a
  | .bool false => .ok b
  | c => do return if ← Checked.same a b then a else .ite c a b

def simplifyEq (a b : Formula) : Except Fault Formula := do
  if ← Checked.same a b then return .bool true
  else match a.constant?, b.constant? with
    | some _, some _ => return .bool false
    | _, _ => return .eq a b

def simplifyLe (a b : Formula) : Except Fault Formula :=
  match a.constant?, b.constant? with
  | some x, some y => do return .bool ((← Fraction.Checked.compare x y) != .gt)
  | _, _ => do return if ← Checked.same a b then .bool true else .le a b

def simplifyLt (a b : Formula) : Except Fault Formula :=
  match a.constant?, b.constant? with
  | some x, some y => do return .bool ((← Fraction.Checked.compare x y) == .lt)
  | _, _ => do return if ← Checked.same a b then .bool false else .lt a b

def simplifyNot : Formula → Formula
  | .bool b => .bool !b
  | .not a => a
  | a => .not a

/-! ### Conjunctions and disjunctions -/

def flattenAnd (terms : List Formula) : List Formula :=
  terms.flatMap fun
    | .and inner => inner
    | t => [t]

def flattenOr (terms : List Formula) : List Formula :=
  terms.flatMap fun
    | .or inner => inner
    | t => [t]

/-- The members of a list that are not neutral, each once and at its first place, after those that
are `done`; nothing if an absorbing member comes.  The neutral member is `.bool unit` and the
absorbing one `.bool !unit`. -/
def distinctMembers (unit : Bool) (done : List Formula) :
    List Formula → Except Fault (Option (List Formula))
  | [] => .ok (some done)
  | t :: ts =>
      match t with
      | .bool b => if b = unit then distinctMembers unit done ts else .ok none
      | t => do
          if ← Checked.mem t done then distinctMembers unit done ts
          else distinctMembers unit (done ++ [t]) ts

def simplifyAnd (terms : List Formula) : Except Fault Formula := do
  match ← distinctMembers true [] (flattenAnd terms) with
  | none => return .bool false
  | some [] => return .bool true
  | some [t] => return t
  | some ts => return .and ts

def simplifyOr (terms : List Formula) : Except Fault Formula := do
  match ← distinctMembers false [] (flattenOr terms) with
  | none => return .bool true
  | some [] => return .bool false
  | some [t] => return t
  | some ts => return .or ts

/-! ### Formulas -/

mutual

/-- The formula simplified from the leaves up. -/
def simplify : Formula → Except Fault Formula
  | .const q => return .const q
  | .bool b => return .bool b
  | .sym s => return .sym s
  | .plus terms => do simplifyPlus (← simplifyAll terms)
  | .minus a b => do simplifyMinus (← simplify a) (← simplify b)
  | .mul factors => do simplifyMul (← simplifyAll factors)
  | .div a b => do simplifyDiv (← simplify a) (← simplify b)
  | .ite c a b => do simplifyIte (← simplify c) (← simplify a) (← simplify b)
  | .eq a b => do simplifyEq (← simplify a) (← simplify b)
  | .le a b => do simplifyLe (← simplify a) (← simplify b)
  | .lt a b => do simplifyLt (← simplify a) (← simplify b)
  | .not a => do return simplifyNot (← simplify a)
  | .and terms => do simplifyAnd (← simplifyAll terms)
  | .or terms => do simplifyOr (← simplifyAll terms)
  | .func name args type => do return .func name (← simplifyAll args) type
  | .star outer inner sides body => do return .star outer inner sides (← simplify body)

def simplifyAll : List Formula → Except Fault (List Formula)
  | [] => return []
  | t :: ts => do return (← simplify t) :: (← simplifyAll ts)

end

end BagEquiv.Formula
