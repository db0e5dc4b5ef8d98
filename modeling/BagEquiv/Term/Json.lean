/-
**Terms as structured data.**

Main definitions:

* `toJson` and `ofJson?` in the namespaces of `Fraction`, `Var`, `VarSet`, `Pred` and `Term` —
  writing and reading.

A fraction is the list of its two parts, a set of variables the list of its members, and every
alternative an object with the name of the alternative and its content.
-/

import BagEquiv.Json
import BagEquiv.Term

set_option autoImplicit false

namespace BagEquiv

namespace Fraction

def toJson (q : Fraction) : Json := .arr [.ofWord q.num, .ofWord q.den]

def ofJson? : Json → Option Fraction
  | .arr [n, d] => do make? (← n.word?) (← d.word?)
  | _ => none

end Fraction

namespace Var

def toJson : Var → Json
  | .base b => .obj [("base", .str b)]
  | .proj a b => .obj [("proj", .arr [.str a, .str b])]

def ofJson? : Json → Option Var
  | .obj [("base", .str b)] => some (.base b)
  | .obj [("proj", .arr [.str a, .str b])] => some (.proj a b)
  | _ => none

end Var

namespace VarSet

def toJson (s : VarSet) : Json := .ofList Var.toJson s.toList

def ofJson? (j : Json) : Option VarSet := (j.list? Var.ofJson?).map ofList

end VarSet

namespace Pred

def toJson : Pred → Json
  | .eq => .str "eq"
  | .ne => .str "ne"
  | .lt => .str "lt"
  | .le => .str "le"
  | .gt => .str "gt"
  | .ge => .str "ge"
  | .isNull => .str "isnull"
  | .named name => .obj [("named", .str name)]

/-- The predicate of a name that needs no content. -/
def ofName? : String → Option Pred
  | "eq" => some .eq
  | "ne" => some .ne
  | "lt" => some .lt
  | "le" => some .le
  | "gt" => some .gt
  | "ge" => some .ge
  | "isnull" => some .isNull
  | _ => none

def ofJson? : Json → Option Pred
  | .obj [("named", .str name)] => some (.named name)
  | j => j.constant?.bind ofName?

end Pred

namespace Term

mutual

def toJson : Term → Json
  | .sum vars body => .obj [("sum", .arr [vars.toJson, toJson body])]
  | .add terms => .obj [("add", .arr (toJsonList terms))]
  | .mul factors => .obj [("mul", .arr (toJsonList factors))]
  | .neg term => .obj [("neg", toJson term)]
  | .squash term => .obj [("squash", toJson term)]
  | .pred kind args => .obj [("pred", .arr [kind.toJson, .arr (toJsonList args)])]
  | .var v => .obj [("var", v.toJson)]
  | .const q => .obj [("const", q.toJson)]
  | .table name v => .obj [("table", .arr [.str name, v.toJson])]
  | .func name args => .obj [("func", .arr [.str name, .arr (toJsonList args)])]
  | .str s => .obj [("str", .str s)]

def toJsonList : List Term → List Json
  | [] => []
  | t :: ts => toJson t :: toJsonList ts

end

mutual

def ofJson? : Json → Option Term
  | .obj [("sum", .arr [vars, body])] => do return .sum (← VarSet.ofJson? vars) (← ofJson? body)
  | .obj [("add", .arr terms)] => do return .add (← ofJsonList? terms)
  | .obj [("mul", .arr factors)] => do return .mul (← ofJsonList? factors)
  | .obj [("neg", term)] => do return .neg (← ofJson? term)
  | .obj [("squash", term)] => do return .squash (← ofJson? term)
  | .obj [("pred", .arr [kind, .arr args])] => do
      return .pred (← Pred.ofJson? kind) (← ofJsonList? args)
  | .obj [("var", v)] => do return .var (← Var.ofJson? v)
  | .obj [("const", q)] => do return .const (← Fraction.ofJson? q)
  | .obj [("table", .arr [.str name, v])] => do return .table name (← Var.ofJson? v)
  | .obj [("func", .arr [.str name, .arr args])] => do return .func name (← ofJsonList? args)
  | .obj [("str", .str s)] => some (.str s)
  | _ => none
termination_by structural j => j

def ofJsonList? : List Json → Option (List Term)
  | [] => some []
  | j :: js => do return (← ofJson? j) :: (← ofJsonList? js)
termination_by structural js => js

end

end Term

end BagEquiv
