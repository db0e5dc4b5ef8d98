/-
**Schemas of tuples, sides of a pair, and the names of symbols.**

Main definitions:

* `DataType`, `Column`, `Schema` — the columns of a tuple;
* `SchemaMap` — the schema of each tuple name;
* `Side` — which term of a pair something comes from.
-/

import BagEquiv.NameMap

set_option autoImplicit false

namespace BagEquiv

/-- The type of a column. -/
inductive DataType where
  | integer
  | natural
  | real
  | string
  | char
deriving DecidableEq, Repr

namespace DataType

def text : DataType → String
  | .integer => "integer"
  | .natural => "natural"
  | .real => "real"
  | .string => "string"
  | .char => "char"

end DataType

/-- A named column. -/
structure Column where
  name : String
  type : DataType
deriving DecidableEq, Repr

/-- The columns of a tuple, in order. -/
structure Schema where
  columns : List Column
deriving DecidableEq, Repr

namespace Schema

/-- The type of the first column of that name. -/
def typeOf? (s : Schema) (attr : String) : Option DataType :=
  (s.columns.find? fun c => c.name = attr).map Column.type

def text (s : Schema) : String :=
  "(" ++ ", ".intercalate (s.columns.map fun c => c.name ++ ": " ++ c.type.text) ++ ")"

end Schema

/-- The schemas of tuple names. -/
abbrev SchemaMap := NameMap Schema

/-- One of the two terms of a pair. -/
inductive Side where
  | left
  | right
deriving DecidableEq, Repr

namespace Side

def opposite : Side → Side
  | .left => .right
  | .right => .left

end Side

/-! ### Names of symbols -/

/-- The symbol for the column `attr` of the tuple `base`. -/
def columnName (base attr : String) : String := base ++ "." ++ attr

/-- The symbol for the number of times the tuple `base` occurs in the table. -/
def countName (table base : String) : String := table ++ "!" ++ base

/-- The symbol for the null flag of the column `attr` of the tuple `base`. -/
def nullName (base attr : String) : String := "isnull!" ++ base ++ "." ++ attr

end BagEquiv
