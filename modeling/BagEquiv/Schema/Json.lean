/-
**Schemas as structured data.**

Main definitions:

* `toJson` and `ofJson?` in the namespaces of `DataType`, `Column`, `Schema`, `SchemaMap` and
  `Side`, and for maps on names of anything that can be written and read.
-/

import BagEquiv.Json
import BagEquiv.Schema

set_option autoImplicit false

namespace BagEquiv

namespace NameMap

variable {α : Type}

/-- An object with the entries as its members. -/
def toJson (write : α → Json) (m : NameMap α) : Json :=
  .obj (m.entries.map fun e => (e.1, write e.2))

/-- The map of the members of an object, of which the last with a name counts. -/
def ofJson? (read : Json → Option α) : Json → Option (NameMap α)
  | .obj members => do
      return ofList (← members.mapM fun e => do return (e.1, ← read e.2))
  | _ => none

end NameMap

namespace DataType

def toJson (t : DataType) : Json := .str t.text

/-- The type of a name; some types have more than one. -/
def ofName? : String → Option DataType
  | "integer" => some .integer
  | "int" => some .integer
  | "integral" => some .integer
  | "natural" => some .natural
  | "nat" => some .natural
  | "real" => some .real
  | "string" => some .string
  | "char" => some .char
  | _ => none

def ofJson? (j : Json) : Option DataType := j.constant?.bind ofName?

end DataType

namespace Column

def toJson (c : Column) : Json := .obj [("name", .str c.name), ("ty", c.type.toJson)]

def ofJson? (j : Json) : Option Column :=
  match j.fields? ["name", "ty"] with
  | some [some name, some type] => do return ⟨← name.string?, ← DataType.ofJson? type⟩
  | _ => none

end Column

namespace Schema

def toJson (s : Schema) : Json := .ofList Column.toJson s.columns

def ofJson? (j : Json) : Option Schema := (j.list? Column.ofJson?).map Schema.mk

end Schema

namespace SchemaMap

def toJson (m : SchemaMap) : Json := NameMap.toJson Schema.toJson m

def ofJson? (j : Json) : Option SchemaMap := NameMap.ofJson? Schema.ofJson? j

end SchemaMap

namespace Side

def toJson : Side → Json
  | .left => .str "Left"
  | .right => .str "Right"

def ofJson? (j : Json) : Option Side :=
  match j.constant? with
  | some "Left" => some .left
  | some "Right" => some .right
  | _ => none

end Side

end BagEquiv
