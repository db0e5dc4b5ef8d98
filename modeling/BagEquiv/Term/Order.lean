/-
**The order of terms.**

Terms are ordered by their outermost constructor and then by their parts from left to right; lists
and sets are ordered like words in a dictionary.  Since the order of fractions does not always
follow their values, this order sorts lists for display and indexes tables, and nothing more is
asked of it.

Main definitions:

* `Term.compare` — the order;
* `Term.sortIndices` — the terms of a list in order.
-/

import BagEquiv.StableSort
import BagEquiv.Term

set_option autoImplicit false

namespace BagEquiv

namespace Var

def compare (a b : Var) : Ordering := if a < b then .lt else if a = b then .eq else .gt

end Var

namespace VarSet

/-- Dictionary order of lists of variables. -/
def compareLists : List Var → List Var → Ordering
  | [], [] => .eq
  | [], _ :: _ => .lt
  | _ :: _, [] => .gt
  | v :: vs, w :: ws => (v.compare w).then (compareLists vs ws)

def compare (s t : VarSet) : Ordering := compareLists s.toList t.toList

end VarSet

namespace Pred

def rank : Pred → Nat
  | .eq => 0
  | .ne => 1
  | .lt => 2
  | .le => 3
  | .gt => 4
  | .ge => 5
  | .isNull => 6
  | .named _ => 7

def compare : Pred → Pred → Ordering
  | .named a, .named b => Ord.compare a b
  | a, b => Ord.compare a.rank b.rank

end Pred

namespace Term

/-- The place of the outermost constructor. -/
def rank : Term → Nat
  | .sum _ _ => 0
  | .add _ => 1
  | .mul _ => 2
  | .neg _ => 3
  | .squash _ => 4
  | .pred _ _ => 5
  | .var _ => 6
  | .const _ => 7
  | .table _ _ => 8
  | .func _ _ => 9
  | .str _ => 10

/-- The second comparison, if the first finds no difference. -/
def refine (o : Ordering) (next : Except Fault Ordering) : Except Fault Ordering :=
  if o = .eq then next else .ok o

mutual

/-- The order of two terms.  Comparing constants can overflow; parts behind the first difference are
not compared. -/
def compare : Term → Term → Except Fault Ordering
  | .sum v a, .sum w b => refine (v.compare w) (compare a b)
  | .add ts, .add us => compareLists ts us
  | .mul ts, .mul us => compareLists ts us
  | .neg a, .neg b => compare a b
  | .squash a, .squash b => compare a b
  | .pred k ts, .pred l us => refine (k.compare l) (compareLists ts us)
  | .var v, .var w => .ok (v.compare w)
  | .const p, .const q => Fraction.Checked.compare p q
  | .table n v, .table m w => .ok ((Ord.compare n m).then (v.compare w))
  | .func n ts, .func m us => refine (Ord.compare n m) (compareLists ts us)
  | .str s, .str t => .ok (Ord.compare s t)
  | a, b => .ok (Ord.compare a.rank b.rank)

def compareLists : List Term → List Term → Except Fault Ordering
  | [], [] => .ok .eq
  | [], _ :: _ => .ok .lt
  | _ :: _, [] => .ok .gt
  | t :: ts, u :: us => do refine (← compare t u) (compareLists ts us)

end

/-- The indices of a list of terms in increasing order of the terms. -/
def sortIndices (ts : List Term) : Except Fault (List Nat) := do
  let less (x y : Term × Nat) : Except Fault Bool := return (← compare x.1 y.1) = .lt
  return (← StableSort.sort less ts.zipIdx).map Prod.snd

end Term

end BagEquiv
