/-
**Budgets.**

A run has so many milliseconds left, or no limit, and it can be interrupted.  Every long
computation asks at fixed points whether it may go on.

Main definitions:

* `Budget` — the time that is left, and the interrupt flag;
* `Budget.check` — the error of a budget that is used up.
-/

import BagEquiv.Outcome

set_option autoImplicit false

namespace BagEquiv

/-- What is left of the time for a run, in milliseconds, and whether it was interrupted. -/
structure Budget where
  left : Option Nat
  interrupted : Bool
deriving DecidableEq, Repr

namespace Budget

/-- No limit and no interrupt. -/
def unlimited : Budget := ⟨none, false⟩

instance : Inhabited Budget := ⟨unlimited⟩

/-- No time is left. -/
def elapsed (b : Budget) : Bool := b.left == some 0

def expired (b : Budget) : Bool := b.interrupted || b.elapsed

/-- Whether there is a limit. -/
def bounded (b : Budget) : Bool := b.left.isSome

def check (b : Budget) : Except Error Unit := if b.expired then .error .timeout else .ok ()

end Budget

end BagEquiv
