/-
**Databases from models.**

A model of a formula gives values to symbols by name.  Every tuple of the formula whose membership
count is positive becomes a row of its table.

Main definitions:

* `Value`, `Assignment` — the values of symbols;
* `Assignment.positive?` — the positive count that a symbol stands for;
* `Database.ofAssignment` — **the database that a model describes**.
-/

import BagEquiv.Database
import BagEquiv.Encoder

set_option autoImplicit false

namespace BagEquiv

/-- The value of a symbol; a value that is no number and no text is only known by its spelling. -/
inductive Value where
  | int (n : Int64)
  | real (q : Fraction)
  | str (s : String)
  | unknown (text : String)
deriving DecidableEq

namespace Value

def text : Value → String
  | .int n => toString n.toInt
  | .real q => q.text
  | .str s => Text.quoted s
  | .unknown text => text

/-- The value of a cell, if it is known. -/
def datum? : Value → Option Datum
  | .int n => some (.int n)
  | .real q => some (.ofFraction q)
  | .str s => some (.str s)
  | .unknown _ => none

end Value

/-- Values of symbols, by name. -/
abbrev Assignment := NameMap Value

namespace Assignment

/-- The count that a symbol stands for, if it is positive.  A fraction counts as the whole number
below it, but at least as one. -/
def positive? (a : Assignment) (name : String) : Except Fault (Option UInt64) :=
  match a.get? name with
  | some (.int n) => .ok (if 0 < n then some n.toUInt64 else none)
  | some (.real q) =>
      if q.isPositive then do
        let n ← q.truncate
        return some (if n < 1 then 1 else n.toUInt64)
      else .ok none
  | _ => .ok none

/-- The cell of a column of a tuple. -/
def cell (a : Assignment) (name : String) (c : Column) : Except Fault Cell := do
  let value := ((a.get? (columnName name c.name)).bind Value.datum?).getD (Datum.default c.type)
  let null ← a.positive? (nullName name c.name)
  return ⟨value, null.isSome⟩

/-- The row of a tuple; a tuple without schema has no columns. -/
def row (a : Assignment) (schemas : SchemaMap) (name : String) : Except Fault Row :=
  match schemas.get? name with
  | none => .ok .empty
  | some schema => do
      return .ofList (← schema.columns.mapM fun c => do return (c.name, ← a.cell name c))

end Assignment

namespace Database

/-- The schemas, together with those of tuples that have none there. -/
def extendSchemas (schemas : SchemaMap) (tuples : List TupleInfo) : SchemaMap :=
  tuples.foldl (fun schemas t =>
    match t.schema with
    | some schema => if schemas.contains t.name then schemas else schemas.insert t.name schema
    | none => schemas) schemas

/-- The row of a tuple put into its table, if the tuple has a table and a positive count. -/
def addTuple (a : Assignment) (schemas : SchemaMap) (db : Database) (t : TupleInfo) :
    Except Fault Database :=
  match t.table with
  | none => .ok db
  | some table => do
      match ← a.positive? (countName table t.name) with
      | none => return db
      | some n => db.insert table (← a.row schemas t.name) n

/-- The database that a model describes. -/
def ofAssignment (a : Assignment) (tuples : List TupleInfo) (output : String)
    (schemas : SchemaMap) : Except Fault Database := do
  let schemas := extendSchemas schemas tuples
  tuples.foldlM (addTuple a schemas) ⟨.empty, ← a.row schemas output⟩

end Database

end BagEquiv
