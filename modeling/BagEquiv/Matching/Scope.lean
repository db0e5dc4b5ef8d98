/-
**Summations layer by layer.**

A summation over several variables is resolved one variable at a time.  At each layer one of its
variables may be matched: it becomes the tuple of the layer, and the other variables are summed
over at the next layer.  If none is matched, all its variables are local to the layer, and the
next layer has the summations inside it.

Main definitions:

* `OpenSum` — a summation that is still to be resolved, and the side it is on;
* `OpenSum.rest`, `OpenSum.peel` — what is left of it below a layer;
* `Matching.validate` — a matching names each variable once, at a layer where it is bound.
-/

import BagEquiv.Matching

set_option autoImplicit false

namespace BagEquiv

/-- A summation that is still to be resolved. -/
structure OpenSum where
  side : Side
  vars : VarSet
  body : Term
deriving DecidableEq

namespace OpenSum

/-- The summations of a term that are in no other summation. -/
def ofTerm (t : Term) (side : Side) : List OpenSum :=
  t.summations.map fun (vars, body) => ⟨side, vars, body⟩

/-- The summations of both terms. -/
def scope (left right : Term) : List OpenSum := ofTerm left .left ++ ofTerm right .right

/-- The table a variable of the summation ranges over. -/
def tableOf? (s : OpenSum) (v : Var) : Option String := s.body.tableOf? v.tuple

/-- What is left below a layer whose tuple is `tuple`. -/
def rest (s : OpenSum) (matched : Option Var) (tuple : String) : Term :=
  match matched with
  | some v =>
      let body := s.body.rename v.tuple tuple
      let vars := s.vars.erase v
      if vars.isEmpty then body else .sum vars body
  | none => s.body

/-- The summations of the next layer. -/
def peel (s : OpenSum) (matched : Option Var) (tuple : String) : List OpenSum :=
  ofTerm (s.rest matched tuple) s.side

end OpenSum

namespace Matching

/-- The variable of a summation that is matched at a layer. -/
def matchedIn? (m : Matching) (depth : Nat) (s : OpenSum) : Option Var :=
  match m.layer? depth with
  | some layer => s.vars.toList.find? fun v => decide (v ∈ layer)
  | none => none

/-- The scope below a layer. -/
def descend (m : Matching) (depth : Nat) (scope : List OpenSum) : List OpenSum :=
  scope.flatMap fun s => s.peel (m.matchedIn? depth s) (placeholder depth)

/-- The first member of a list that was there before. -/
def firstRepeated? (seen : List Var) : List Var → Option Var
  | [] => none
  | v :: vs => if v ∈ seen then some v else firstRepeated? (v :: seen) vs

/-- The first layer, from `depth` on, with a variable that is not bound in its scope, and that
variable. -/
def firstUnbound? (m : Matching) (depth : Nat) :
    List VarSet → List OpenSum → Option (Nat × Var)
  | [], _ => none
  | layer :: layers, scope =>
      match layer.toList.find? fun v => !scope.any fun s => decide (v ∈ s.vars) with
      | some v => some (depth, v)
      | none => firstUnbound? m (depth + 1) layers (m.descend depth scope)

/-- No variable is in two layers, and each is bound at its layer. -/
def validate (m : Matching) (left right : Term) : Except Error Unit :=
  match firstRepeated? [] (m.layers.flatMap VarSet.toList) with
  | some v => .error (.structuralMismatch (v.text ++ " occurs in more than one layer"))
  | none =>
      match firstUnbound? m 0 m.layers (OpenSum.scope left right) with
      | some (depth, v) =>
          .error (.structuralMismatch (v.text ++ " is not bound at depth " ++ toString depth))
      | none => .ok ()

/-- Whether `validate` accepts. -/
def isValid (m : Matching) (left right : Term) : Bool :=
  match m.validate left right with
  | .ok _ => true
  | .error _ => false

end Matching

namespace Term

mutual

/-- The number of summations and of the variables they bind. -/
def binderCount : Term → Nat
  | .sum vars body => 1 + vars.size + binderCount body
  | .add terms => binderCountAll terms
  | .mul factors => binderCountAll factors
  | .neg term => binderCount term
  | .squash term => binderCount term
  | .pred _ args => binderCountAll args
  | .func _ args => binderCountAll args
  | .var _ => 0
  | .const _ => 0
  | .table _ _ => 0
  | .str _ => 0

def binderCountAll : List Term → Nat
  | [] => 0
  | t :: ts => binderCount t + binderCountAll ts

end

end Term

end BagEquiv
