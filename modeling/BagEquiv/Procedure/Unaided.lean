/-
**Deciding without a solver.**

A claim is laid out for a solver, operands before their operator, and with no solver at hand the
first thing to be laid out ends the attempt.  A star cannot be laid out at all.

Main definitions:

* `Formula.firstStar?` — the star that is met before anything is laid out;
* `Procedure.unaided` — **the decision procedure that never decides**.
-/

import BagEquiv.Budget
import BagEquiv.Procedure

set_option autoImplicit false

namespace BagEquiv

namespace Formula

mutual

/-- The outer symbols of the star that is met before a constant, a symbol or an operator is laid
out. -/
def firstStar? : Formula → Option (List Symbol)
  | .const _ => none
  | .bool _ => none
  | .sym _ => none
  | .plus terms => firstStarOf? terms
  | .minus a _ => firstStar? a
  | .mul factors => firstStarOf? factors
  | .div a _ => firstStar? a
  | .ite c _ _ => firstStar? c
  | .eq a _ => firstStar? a
  | .le a _ => firstStar? a
  | .lt a _ => firstStar? a
  | .not a => firstStar? a
  | .and terms => firstStarOf? terms
  | .or terms => firstStarOf? terms
  | .func _ args _ => firstStarOf? args
  | .star outer _ _ _ => some outer

def firstStarOf? : List Formula → Option (List Symbol)
  | [] => none
  | t :: _ => firstStar? t

end

/-- Why a formula is not decided. -/
def obstacle (t : Formula) : String :=
  match firstStar? t with
  | some outer => "iterated sum over (" ++ ", ".intercalate (outer.map Symbol.name) ++
      ") has no quantifier-free encoding"
  | none => "solver failed"

end Formula

namespace Procedure

/-- The reason not to decide a claim within `limit` milliseconds, and within the budget. -/
def giveUp (limit : Nat) (budget : Budget) (claim : Claim) : Except Error String := do
  budget.check
  if limit = 0 then throw .timeout
  return claim.formula.obstacle

/-- The procedure that never decides. -/
def unaided (limit : Nat) (budget : Budget) : Procedure Unit where
  checkValid claim s := ((giveUp limit budget claim).map .unknown, s)
  checkSat claim s := ((giveUp limit budget claim).map .unknown, s)

end Procedure

end BagEquiv
