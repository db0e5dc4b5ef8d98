/-
**The parts of a term.**

Main definitions:

* `Term.subterms` — every node, the nearer ones first;
* `Term.atoms` — the leaves of the skeleton of sums and products;
* `Term.summations` — the summations that are in no other summation.
-/

import BagEquiv.Term

set_option autoImplicit false

namespace BagEquiv.Term

/-! ### Nodes by level -/

mutual

/-- The number of levels of nodes. -/
def depth : Term → Nat
  | .sum _ body => depth body + 1
  | .add terms => depthAll terms + 1
  | .mul factors => depthAll factors + 1
  | .neg term => depth term + 1
  | .squash term => depth term + 1
  | .pred _ args => depthAll args + 1
  | .func _ args => depthAll args + 1
  | .var _ => 1
  | .const _ => 1
  | .table _ _ => 1
  | .str _ => 1

def depthAll : List Term → Nat
  | [] => 0
  | t :: ts => max (depth t) (depthAll ts)

end

/-- The given terms, the terms one step below them, and so on, `n` times. -/
def levels : (n : Nat) → List Term → List Term
  | 0, _ => []
  | n + 1, ts => ts ++ levels n (ts.flatMap children)

/-- Every node of the tree, level by level. -/
def subterms (t : Term) : List Term := levels t.depth [t]

/-! ### The skeleton of sums and products -/

mutual

/-- Predicates, memberships and values, as they stand in the skeleton from left to right. -/
def atoms : Term → List Term
  | .sum _ body => atoms body
  | .add terms => atomsAll terms
  | .mul factors => atomsAll factors
  | .neg term => atoms term
  | .squash term => atoms term
  | t => [t]

def atomsAll : List Term → List Term
  | [] => []
  | t :: ts => atoms t ++ atomsAll ts

end

mutual

/-- The variables and bodies of the summations that are in no other summation. -/
def summations : Term → List (VarSet × Term)
  | .sum vars body => [(vars, body)]
  | .add terms => summationsAll terms
  | .mul factors => summationsAll factors
  | .neg term => summations term
  | .squash term => summations term
  | .pred _ args => summationsAll args
  | .func _ args => summationsAll args
  | .var _ => []
  | .const _ => []
  | .table _ _ => []
  | .str _ => []

def summationsAll : List Term → List (VarSet × Term)
  | [] => []
  | t :: ts => summations t ++ summationsAll ts

end

theorem summationsAll_eq (ts : List Term) : summationsAll ts = ts.flatMap summations := by
  induction ts with
  | nil => rfl
  | cons t ts ih => simp [summationsAll, ih]

theorem mem_summationsAll {s : VarSet × Term} {ts : List Term} :
    s ∈ summationsAll ts ↔ ∃ t ∈ ts, s ∈ t.summations := by
  rw [summationsAll_eq, List.mem_flatMap]

mutual

/-- The table of the first membership of the tuple among the factors of a product. -/
def tableOf? (base : String) : Term → Option String
  | .table name (.base b) => if b = base then some name else none
  | .mul factors => tableOfAny? base factors
  | _ => none

def tableOfAny? (base : String) : List Term → Option String
  | [] => none
  | t :: ts => (tableOf? base t).or (tableOfAny? base ts)

end

/-! ### Occurrences of a tuple -/

/-- Whether a set of variables binds a tuple, or a column of it. -/
def bound (base : String) (vars : VarSet) : Bool := vars.toList.any (·.tuple = base)

/-- Whether the term is a summation over a tuple. -/
def binds (base : String) : Term → Bool
  | .sum vars _ => bound base vars
  | _ => false

mutual

/-- Whether a tuple occurs where it is not bound. -/
def mentions (base : String) : Term → Bool
  | .sum vars body => !bound base vars && mentions base body
  | .add terms => mentionsAny base terms
  | .mul factors => mentionsAny base factors
  | .neg term => mentions base term
  | .squash term => mentions base term
  | .pred _ args => mentionsAny base args
  | .var v => v.tuple = base
  | .const _ => false
  | .table _ v => v.tuple = base
  | .func _ args => mentionsAny base args
  | .str _ => false

def mentionsAny (base : String) : List Term → Bool
  | [] => false
  | t :: ts => mentions base t || mentionsAny base ts

end

end BagEquiv.Term
