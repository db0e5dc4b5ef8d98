/-
**Aligning the summations of the right term.**

The variables of one summation can be resolved in any order.  A summation of the right term that
would equal one of the left term, if only its variables were resolved in another order, is
reordered to do so.

Main definitions:

* `Matching.reassign` — the matching with the variables of a summation in given layers;
* `Matching.aligned` — **the matching with every right summation reordered**.
-/

import BagEquiv.Bag
import BagEquiv.Matching.Scope

set_option autoImplicit false

namespace BagEquiv

namespace Term

/-- The variables and bodies of all summations. -/
def binders (t : Term) : List (List Var × Term) :=
  t.subterms.filterMap fun
    | .sum vars body => some (vars.toList, body)
    | _ => none

end Term

namespace Matching

/-- The largest number of variables whose orders are tried. -/
def maxAligned : Nat := 5

/-- The layers of a list of variables, if each has one. -/
def layersOf? (m : Matching) (vs : List Var) : Option (List Nat) := vs.mapM m.layerOf?

/-- The variables taken out of all layers, and each put in the layer given for it. -/
def reassign (m : Matching) (order : List Var) (depths : List Nat) : Matching :=
  let cleared := m.layers.map fun l => l.filter fun v => v ∉ order
  ⟨(order.zip depths).foldl (fun ls (v, d) => ls.modify d (·.insert v)) cleared⟩

/-- The first order of the right variables, in the layers of the left ones, that makes the bodies
equal and is valid. -/
def reordering? (m : Matching) (left right : Term) (ldepths : List Nat) (lbody : Term)
    (rvars : List Var) (rbody : Term) : Option Matching :=
  ((permutations rvars).map fun order => m.reassign order ldepths).find? fun c =>
    c.equates lbody rbody && c.isValid left right

/-- The first left summation that occupies the same layers as the right one, and equals it or can
be made to, decides what becomes of the right one. -/
def alignTo (m : Matching) (left right : Term) (rdepths : List Nat) (rvars : List Var)
    (rbody : Term) : List (List Var × Term) → Except Fault Matching
  | [] => .ok m
  | (lvars, lbody) :: others =>
      match m.layersOf? lvars with
      | none => alignTo m left right rdepths rvars rbody others
      | some ldepths =>
          if ldepths.isPerm rdepths then do
            Term.requireKeys [lbody, rbody]
            if m.equates lbody rbody then return m
            else match m.reordering? left right ldepths lbody rvars rbody with
              | some c => return c
              | none => alignTo m left right rdepths rvars rbody others
          else alignTo m left right rdepths rvars rbody others

/-- One right summation aligned, if it has between two and `maxAligned` variables, all of them
matched. -/
def alignOne (left right : Term) (m : Matching) (r : List Var × Term) : Except Fault Matching :=
  if r.1.length < 2 ∨ maxAligned < r.1.length then .ok m
  else match m.layersOf? r.1 with
    | none => .ok m
    | some rdepths => m.alignTo left right rdepths r.1 r.2 left.binders

/-- The matching with every right summation, from the outside in, reordered to follow a left one
that it can be made equal to.  Bodies that are compared need keys. -/
def aligned (m : Matching) (left right : Term) : Except Fault Matching :=
  right.binders.foldlM (alignOne left right) m

end Matching

end BagEquiv
