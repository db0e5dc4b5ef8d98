/-
**Databases as structured data.**

Main definitions:

* `toJson` and `ofJson?` in the namespaces of `Datum`, `Cell`, `Row`, `Table` and `Database`.
-/

import BagEquiv.Database
import BagEquiv.Schema.Json
import BagEquiv.Term.Json

set_option autoImplicit false

namespace BagEquiv

namespace Datum

def toJson : Datum → Json
  | .int n => .obj [("Int", .ofWord n)]
  | .real q => .obj [("Real", q.toJson)]
  | .str s => .obj [("Str", .str s)]

def ofJson? (j : Json) : Option Datum :=
  match j.variant? with
  | some ("Int", some n) => n.word?.map .int
  | some ("Real", some q) => (Fraction.ofJson? q).map .real
  | some ("Str", some s) => s.string?.map .str
  | _ => none

end Datum

namespace Cell

def toJson (c : Cell) : Json := .obj [("value", c.value.toJson), ("null", .bool c.null)]

def ofJson? (j : Json) : Option Cell :=
  match j.fields? ["value", "null"] with
  | some [some value, some flag] => do return ⟨← Datum.ofJson? value, ← flag.bool?⟩
  | _ => none

end Cell

namespace Row

def toJson (r : Row) : Json := NameMap.toJson Cell.toJson r

def ofJson? (j : Json) : Option Row := NameMap.ofJson? Cell.ofJson? j

end Row

namespace Table

def toJson (t : Table) : Json := .ofList (fun (r, n) => .arr [r.toJson, .ofCount n]) t

/-- An entry is a row and the number of times it occurs. -/
def entryOfJson? : Json → Option (Row × UInt64)
  | .arr [r, n] => do return (← Row.ofJson? r, ← n.count?)
  | _ => none

def ofJson? (j : Json) : Option Table := j.list? entryOfJson?

end Table

namespace Database

def toJson (db : Database) : Json :=
  .obj [("tables", NameMap.toJson Table.toJson db.tables), ("output", db.output.toJson)]

def ofJson? (j : Json) : Option Database :=
  match j.fields? ["tables", "output"] with
  | some [some tables, some output] => do
      return ⟨← NameMap.ofJson? Table.ofJson? tables, ← Row.ofJson? output⟩
  | _ => none

end Database

end BagEquiv
