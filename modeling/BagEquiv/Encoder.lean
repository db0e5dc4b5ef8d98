/-
**The state of an encoding.**

Encoding terms as formulas introduces symbols: placeholders for summations, common tuples, text
literals, and functions that are only known to count something.  The encoder remembers them, the
null flags that are in use, and the equations between tuples whose null flags are still to be
related.  What was introduced before a failure stays.

Main definitions:

* `TupleInfo` — a tuple that the formula is about;
* `Encoder`, `EncodeM` — the state, and computations that use it;
* `Encoder.fresh`, `freshCount`, `nullFlag`, `literal`, `counting` — symbols.
-/

import BagEquiv.Bag
import BagEquiv.Formula
import BagEquiv.Outcome
import BagEquiv.SearchTree
import BagEquiv.Term.Order

set_option autoImplicit false

namespace BagEquiv

/-- A tuple that was introduced for a layer, and what is known of it. -/
structure TupleInfo where
  name : String
  table : Option String
  schema : Option Schema
deriving DecidableEq

/-- Two tuples that were compared, the columns that correspond, and the condition that they are
equal. -/
structure TupleEquation where
  left : String
  right : String
  columns : List (String × String)
  condition : Formula

/-- What was introduced so far. -/
structure Encoder where
  schemas : SchemaMap
  /-- The number of the next fresh name. -/
  next : Nat
  /-- The placeholders for summations. -/
  counts : List String
  /-- The symbols of functions that count something, by the order of the terms. -/
  counted : SearchTree (Term × Symbol)
  /-- The symbols of text literals. -/
  literals : NameMap Symbol
  /-- The tuples and columns whose null flags are in use. -/
  nulls : List (String × String)
  /-- The equations whose null flags are not related yet. -/
  equations : List TupleEquation
  /-- The tuples introduced for layers. -/
  tuples : List TupleInfo

/-- Computations that introduce symbols and may fail; what they introduced before stays. -/
abbrev EncodeM := ExceptT Failure (StateM Encoder)

namespace Encoder

def ofSchemas (schemas : SchemaMap) : Encoder where
  schemas := schemas
  next := 0
  counts := []
  counted := .empty
  literals := .empty
  nulls := []
  equations := []
  tuples := []

/-! ### Names -/

/-- A name that starts in the given way and ends in a number not used before. -/
def fresh (start : String) (e : Encoder) : String × Encoder :=
  (start ++ toString e.next, { e with next := e.next + 1 })

/-- A placeholder for a summation. -/
def freshCount (e : Encoder) : String × Encoder :=
  let (name, e) := e.fresh "#u"
  (name, { e with counts := name :: e.counts })

def isCount (e : Encoder) (name : String) : Bool := name ∈ e.counts

def schemaOf? (e : Encoder) (base : String) : Option Schema := e.schemas.get? base

def bindSchema (e : Encoder) (base : String) (schema : Schema) : Encoder :=
  { e with schemas := e.schemas.insert base schema }

/-! ### Symbols -/

/-- The symbol of a column, an integer if its type is not known. -/
def column (e : Encoder) (base attr : String) : Symbol :=
  match (e.schemaOf? base).bind (·.typeOf? attr) with
  | some type => ⟨columnName base attr, .ofDataType type⟩
  | none => ⟨columnName base attr, .int⟩

/-- The symbol of a null flag, which is in use from now on. -/
def nullFlag (base attr : String) (e : Encoder) : Symbol × Encoder :=
  (⟨nullName base attr, .nat⟩,
    if (base, attr) ∈ e.nulls then e else { e with nulls := (base, attr) :: e.nulls })

/-- The symbol of a text literal. -/
def literal (s : String) (e : Encoder) : Symbol × Encoder :=
  match e.literals.get? s with
  | some v => (v, e)
  | none =>
      let (name, e) := e.fresh "#s"
      let v : Symbol := ⟨name, .str⟩
      (v, { e with literals := e.literals.insert s v })

/-- A step that is refused. -/
def refuse {α : Type} (e : Error) : EncodeM α := throw (.error e)

/-- A step that can fault. -/
def attempt {α : Type} (r : Except Fault α) : EncodeM α :=
  match r with
  | .ok a => return a
  | .error f => throw (.fault f)

/-- The symbol of the application of a function that counts something. -/
def counting (name : String) (app : Term) : EncodeM Symbol := do
  let order (entry : Term × Symbol) : Except Fault Ordering := app.compare entry.1
  let e ← get
  match ← attempt (e.counted.find order) with
  | some (_, v) => return v
  | none =>
      let (name, e) := e.fresh (name ++ "#")
      let v : Symbol := ⟨name, .nat⟩
      let counted ← attempt (e.counted.insert order (app, v))
      set ({ e with counted := counted } : Encoder)
      return v

/-! ### Equations between tuples -/

/-- The condition that two tuples are equal: they agree in corresponding columns. -/
def tupleEquation (x y : String) : EncodeM Formula := do
  let e ← get
  match e.schemaOf? x, e.schemaOf? y with
  | some sx, some sy =>
      if sx.columns.length ≠ sy.columns.length then
        refuse (.structuralMismatch ("tuples " ++ x ++ " " ++ sx.text ++ " and " ++ y ++ " " ++
          sy.text ++ " differ in arity"))
      let columns := (sx.columns.zip sy.columns).map fun (c, d) => (c.name, d.name)
      let condition : Formula :=
        .and (columns.map fun (c, d) => .eq (.sym (e.column x c)) (.sym (e.column y d)))
      let equation : TupleEquation := ⟨x, y, columns, condition⟩
      set ({ e with equations := e.equations ++ [equation] } : Encoder)
      return condition
  | _, _ =>
      refuse (.unsupported ("equality of tuples " ++ x ++ " and " ++ y ++ " without schema"))

/-- That a symbol is zero. -/
def isZero (s : Symbol) : Formula := .eq (.sym s) .zero

/-- The constraint on the null flags of two corresponding columns, if one of them is in use. -/
def relateNulls (q : TupleEquation) (c : String × String) (e : Encoder) : List Formula × Encoder :=
  if (q.left, c.1) ∈ e.nulls ∨ (q.right, c.2) ∈ e.nulls then
    let (x, e) := e.nullFlag q.left c.1
    let (y, e) := e.nullFlag q.right c.2
    ([.implies q.condition (.iff (isZero x) (isZero y))], e)
  else ([], e)

/-- The constraints for all pairs of an equation and a pair of its columns. -/
def relateAll : List (TupleEquation × (String × String)) → Encoder → List Formula × Encoder
  | [], e => ([], e)
  | (q, c) :: rest, e =>
      let (fs, e) := relateNulls q c e
      let (gs, e) := relateAll rest e
      (fs ++ gs, e)

/-- Equal tuples agree on which columns are null: the constraints of the equations since the last
time. -/
def congruence (e : Encoder) : List Formula × Encoder :=
  relateAll (e.equations.flatMap fun q => q.columns.map fun c => (q, c))
    { e with equations := [] }

/-- Different literals have different values. -/
def distinctness (e : Encoder) : List Formula :=
  (pairs (e.literals.entries.map Prod.snd)).map fun (a, b) => .not (.eq (.sym a) (.sym b))

end Encoder

end BagEquiv
