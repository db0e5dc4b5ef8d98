/-
**Formulas as structured data.**

Main definitions:

* `toJson` and `ofJson?` in the namespaces of `SymbolType`, `Symbol` and `Formula`;
* `Symbol.toPair`, `Symbol.ofPair?` — a symbol as the list of its name and type,
  as it is written inside formulas.
-/

import BagEquiv.Formula
import BagEquiv.Schema.Json
import BagEquiv.Term.Json

set_option autoImplicit false

namespace BagEquiv

namespace SymbolType

def name : SymbolType → String
  | .int => "Int"
  | .nat => "Nat"
  | .real => "Real"
  | .char => "Char"
  | .str => "Str"

def toJson (t : SymbolType) : Json := .str t.name

def ofName? : String → Option SymbolType
  | "Int" => some .int
  | "Nat" => some .nat
  | "Real" => some .real
  | "Char" => some .char
  | "Str" => some .str
  | _ => none

def ofJson? (j : Json) : Option SymbolType := j.constant?.bind ofName?

end SymbolType

namespace Symbol

def toJson (s : Symbol) : Json := .obj [("name", .str s.name), ("ty", s.type.toJson)]

def ofJson? (j : Json) : Option Symbol :=
  match j.fields? ["name", "ty"] with
  | some [some name, some type] => do return ⟨← name.string?, ← SymbolType.ofJson? type⟩
  | _ => none

def toPair (s : Symbol) : Json := .arr [.str s.name, s.type.toJson]

def ofPair? : Json → Option Symbol
  | .arr [.str name, type] => do return ⟨name, ← SymbolType.ofJson? type⟩
  | _ => none

end Symbol

namespace Formula

mutual

def toJson : Formula → Json
  | .const q => .obj [("const", q.toJson)]
  | .bool b => .obj [("bool", .bool b)]
  | .sym s => .obj [("var", s.toPair)]
  | .plus terms => .obj [("plus", .arr (toJsonList terms))]
  | .minus a b => .obj [("minus", .arr [toJson a, toJson b])]
  | .mul factors => .obj [("mul", .arr (toJsonList factors))]
  | .div a b => .obj [("div", .arr [toJson a, toJson b])]
  | .ite c a b => .obj [("ite", .arr [toJson c, toJson a, toJson b])]
  | .eq a b => .obj [("eq", .arr [toJson a, toJson b])]
  | .le a b => .obj [("le", .arr [toJson a, toJson b])]
  | .lt a b => .obj [("lt", .arr [toJson a, toJson b])]
  | .not a => .obj [("not", toJson a)]
  | .and terms => .obj [("and", .arr (toJsonList terms))]
  | .or terms => .obj [("or", .arr (toJsonList terms))]
  | .func name args type => .obj [("func", .arr [.str name, .arr (toJsonList args), type.toJson])]
  | .star outer inner sides body => .obj [("sum", .obj [("outer", .ofList Symbol.toPair outer),
      ("inner", .ofList Symbol.toPair inner), ("sides", .ofList Side.toJson sides),
      ("body", toJson body)])]

def toJsonList : List Formula → List Json
  | [] => []
  | t :: ts => toJson t :: toJsonList ts

end

mutual

def ofJson? : Json → Option Formula
  | .obj [("const", q)] => do return .const (← Fraction.ofJson? q)
  | .obj [("bool", .bool b)] => some (.bool b)
  | .obj [("var", s)] => do return .sym (← Symbol.ofPair? s)
  | .obj [("plus", .arr terms)] => do return .plus (← ofJsonList? terms)
  | .obj [("minus", .arr [a, b])] => do return .minus (← ofJson? a) (← ofJson? b)
  | .obj [("mul", .arr factors)] => do return .mul (← ofJsonList? factors)
  | .obj [("div", .arr [a, b])] => do return .div (← ofJson? a) (← ofJson? b)
  | .obj [("ite", .arr [c, a, b])] => do
      return .ite (← ofJson? c) (← ofJson? a) (← ofJson? b)
  | .obj [("eq", .arr [a, b])] => do return .eq (← ofJson? a) (← ofJson? b)
  | .obj [("le", .arr [a, b])] => do return .le (← ofJson? a) (← ofJson? b)
  | .obj [("lt", .arr [a, b])] => do return .lt (← ofJson? a) (← ofJson? b)
  | .obj [("not", a)] => do return .not (← ofJson? a)
  | .obj [("and", .arr terms)] => do return .and (← ofJsonList? terms)
  | .obj [("or", .arr terms)] => do return .or (← ofJsonList? terms)
  | .obj [("func", .arr [.str name, .arr args, type])] => do
      return .func name (← ofJsonList? args) (← SymbolType.ofJson? type)
  | .obj [("sum", .obj members)] => do
      return .star (← (Json.member? "outer" members).bind (Json.list? Symbol.ofPair?))
        (← (Json.member? "inner" members).bind (Json.list? Symbol.ofPair?))
        (← (Json.member? "sides" members).bind (Json.list? Side.ofJson?))
        (← ofBody? members)
  | _ => none
termination_by structural j => j

def ofJsonList? : List Json → Option (List Formula)
  | [] => some []
  | j :: js => do return (← ofJson? j) :: (← ofJsonList? js)
termination_by structural js => js

/-- The body of a star among the members of its object. -/
def ofBody? : List (String × Json) → Option Formula
  | [] => none
  | (name, j) :: rest => if name = "body" then ofJson? j else ofBody? rest
termination_by structural ms => ms

end

end Formula

end BagEquiv
