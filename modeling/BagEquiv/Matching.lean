/-
**Matchings of bound variables.**

A matching groups bound variables of two terms in layers.  The variables of one layer are to be
read as one tuple, the placeholder of the layer.

Main definitions:

* `Matching` — the layers, with `layerOf?` and `swap`;
* `placeholder` — the tuple that stands for a layer;
* `Matching.apply` — a term with placeholders for the matched variables.
-/

import BagEquiv.Term.Key
import BagEquiv.Term.Rename

set_option autoImplicit false

namespace BagEquiv

/-- The tuple that stands for the variables of a layer. -/
def placeholder (depth : Nat) : String := "#bv" ++ toString depth

/-- Sets of variables, one for each layer. -/
structure Matching where
  layers : List VarSet
deriving DecidableEq

namespace Matching

def text (m : Matching) : String := "[" ++ ", ".intercalate (m.layers.map VarSet.text) ++ "]"

def depth (m : Matching) : Nat := m.layers.length

def layer? (m : Matching) (depth : Nat) : Option VarSet := m.layers[depth]?

/-- The first layer that has a variable. -/
def layerOf? (m : Matching) (v : Var) : Option Nat := m.layers.findIdx? fun l => decide (v ∈ l)

/-- A layer in which two variables have changed places. -/
def swapIn (a b : Var) (l : VarSet) : VarSet :=
  if a ∈ l then
    if b ∈ l then l else (l.erase a).insert b
  else if b ∈ l then (l.erase b).insert a
  else l

/-- The matching in which two variables have changed places. -/
def swap (m : Matching) (a b : Var) : Matching := ⟨m.layers.map (swapIn a b)⟩

/-- The layers with their numbers. -/
def numbered (m : Matching) : List (Nat × VarSet) := m.layers.zipIdx.map fun (l, d) => (d, l)

/-- The term with every variable of a layer renamed to the placeholder of the layer, also where it
is bound. -/
def apply (m : Matching) (t : Term) : Term :=
  m.numbered.foldl (fun t (d, l) =>
    l.toList.foldl (fun t v => t.renameAll v.tuple (placeholder d)) t) t

/-- Whether two terms become equal up to the order of operands. -/
def equates (m : Matching) (a b : Term) : Bool := (m.apply a).key == (m.apply b).key

end Matching

end BagEquiv
