/-
**The nesting of summations.**

Main definitions:

* `BoundVar` — a bound variable and the table it ranges over, if the body says so;
* `BinderTree` — one node for each summation, below the node of the summation around it;
* `Term.forest` — the trees of a term.
-/

import BagEquiv.Term.Subterm
import BagEquiv.Text

set_option autoImplicit false

namespace BagEquiv

/-- A bound variable with the table it ranges over. -/
structure BoundVar where
  var : Var
  table : Option String
deriving DecidableEq

namespace BoundVar

def text (b : BoundVar) : String :=
  match b.table with
  | some t => b.var.text ++ ": " ++ t
  | none => b.var.text

/-- The members of a set, each with the table that the body puts it in. -/
def ofBinder (vars : VarSet) (body : Term) : List BoundVar :=
  vars.toList.map fun v => ⟨v, body.tableOf? v.tuple⟩

end BoundVar

/-- A summation, and the summations directly inside it. -/
inductive BinderTree where
  | node (vars : List BoundVar) (children : List BinderTree)

namespace BinderTree

def vars : BinderTree → List BoundVar
  | .node vars _ => vars

def children : BinderTree → List BinderTree
  | .node _ children => children

mutual

/-- The number of levels. -/
def depth : BinderTree → Nat
  | .node _ children => 1 + depthAll children

def depthAll : List BinderTree → Nat
  | [] => 0
  | t :: ts => max (depth t) (depthAll ts)

end

mutual

/-- The bound variables of a tree, the root first. -/
def flatten : BinderTree → List (List BoundVar)
  | .node vars children => vars :: nodes children

/-- The bound variables of the nodes of a forest, from left to right, each node before those below
it. -/
def nodes : List BinderTree → List (List BoundVar)
  | [] => []
  | t :: ts => flatten t ++ nodes ts

end

mutual

def text : BinderTree → String
  | .node vars children =>
      "\x7b" ++ ", ".intercalate (vars.map BoundVar.text) ++ "\x7d" ++ textBelow children

def textBelow : List BinderTree → String
  | [] => ""
  | t :: ts => "\n" ++ Text.indent (text t) ++ textBelow ts

end

end BinderTree

namespace Term

mutual

/-- The trees of the summations that are in no other summation. -/
def forest : Term → List BinderTree
  | .sum vars body => [.node (BoundVar.ofBinder vars body) (forest body)]
  | .add terms => forestAll terms
  | .mul factors => forestAll factors
  | .neg term => forest term
  | .squash term => forest term
  | .pred _ args => forestAll args
  | .func _ args => forestAll args
  | .var _ => []
  | .const _ => []
  | .table _ _ => []
  | .str _ => []

def forestAll : List Term → List BinderTree
  | [] => []
  | t :: ts => forest t ++ forestAll ts

end

end Term

end BagEquiv
