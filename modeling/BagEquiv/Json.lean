/-
**Structured data.**

Integers are kept apart from other numbers, which no format of this library uses: those are only
carried along as their digits.  The members of an object stand in the order in which they were
written, repetitions included.  A part of a text may follow the grammar and still have no value;
it does no harm where it is ignored, so it is kept as a value that nothing can be read from.

Main definitions:

* `Json` — values;
* `Json.isReadable` — no part is without a value;
* `Json.lastWins` — objects in which only the last member of each name is left.
-/

set_option autoImplicit false

namespace BagEquiv

-- Powers are core's, not those of a monoid.
attribute [local instance (high)] instPowNat

/-- A value of structured data. -/
inductive Json where
  | null
  | bool (b : Bool)
  /-- An integer written without point and exponent. -/
  | int (n : Int)
  /-- Any other number, as it was written. -/
  | float (digits : String)
  | str (s : String)
  | arr (items : List Json)
  | obj (members : List (String × Json))
  /-- A part that has no value, which can only be ignored. -/
  | unreadable

namespace Json

instance : Inhabited Json := ⟨.null⟩

mutual

/-- Every part of the value has a value itself. -/
def isReadable : Json → Bool
  | .arr items => areReadable items
  | .obj members => membersReadable members
  | .unreadable => false
  | _ => true

def areReadable : List Json → Bool
  | [] => true
  | j :: rest => isReadable j && areReadable rest

def membersReadable : List (String × Json) → Bool
  | [] => true
  | (_, j) :: rest => isReadable j && membersReadable rest

end

/-! ### Objects -/

/-- The value of the first member of a name. -/
def member? (name : String) : List (String × Json) → Option Json
  | [] => none
  | (k, v) :: rest => if k = name then some v else member? name rest

/-- The members with each name once, at its last occurrence. -/
def dropRepeated : List (String × Json) → List (String × Json)
  | [] => []
  | (k, v) :: rest => if rest.any (·.1 = k) then dropRepeated rest else (k, v) :: dropRepeated rest

mutual

/-- The value in which every object has each member once, the last one written. -/
def lastWins : Json → Json
  | .arr items => .arr (lastWinsItems items)
  | .obj members => .obj (dropRepeated (lastWinsMembers members))
  | j => j

def lastWinsItems : List Json → List Json
  | [] => []
  | j :: rest => lastWins j :: lastWinsItems rest

def lastWinsMembers : List (String × Json) → List (String × Json)
  | [] => []
  | (k, j) :: rest => (k, lastWins j) :: lastWinsMembers rest

end

/-- A member of an object. -/
def get? (j : Json) (name : String) : Option Json :=
  match j with
  | .obj members => member? name members
  | _ => none

/-! ### Scalars -/

def string? : Json → Option String
  | .str s => some s
  | _ => none

def bool? : Json → Option Bool
  | .bool b => some b
  | _ => none

/-- A signed 64-bit word. -/
def word? : Json → Option Int64
  | .int n => if -2 ^ (63 : Nat) ≤ n ∧ n < 2 ^ (63 : Nat) then some (Int64.ofInt n) else none
  | _ => none

/-- A natural number below a bound. -/
def below? (bound : Nat) : Json → Option Nat
  | .int n => if 0 ≤ n ∧ n < bound then some n.toNat else none
  | _ => none

/-- An unsigned 64-bit word. -/
def count? (j : Json) : Option UInt64 := (below? (2 ^ (64 : Nat)) j).map UInt64.ofNat

/-! ### Shapes -/

/-- Every item of a list read the same way. -/
def list? {α : Type} (read : Json → Option α) : Json → Option (List α)
  | .arr items => items.mapM read
  | _ => none

/-- Nothing, or a value. -/
def option? {α : Type} (read : Json → Option α) : Json → Option (Option α)
  | .null => some none
  | j => (read j).map some

/-- An alternative is its name alone, or an object with one member: the name and its content. -/
def variant? : Json → Option (String × Option Json)
  | .str name => some (name, none)
  | .obj [(name, content)] => some (name, some content)
  | _ => none

/-- The name of an alternative that has no content. -/
def constant? (j : Json) : Option String :=
  match variant? j with
  | some (name, none) => some name
  | some (name, some .null) => some name
  | _ => none

/-- The value of a member that may be missing but must not be repeated. -/
def unique? (name : String) (members : List (String × Json)) : Option (Option Json) :=
  match members.filter (·.1 = name) with
  | [] => some none
  | [(_, v)] => some (some v)
  | _ => none

/-- The fields of a record that is written as an object, whose other members are ignored, or as a
list of the fields in their order, which may stop early. -/
def fields? (names : List String) : Json → Option (List (Option Json))
  | .obj members => names.mapM fun name => unique? name members
  | .arr items =>
      if items.length ≤ names.length then
        some (items.map some ++ List.replicate (names.length - items.length) none)
      else none
  | _ => none

/-! ### Writing -/

def ofWord (n : Int64) : Json := .int n.toInt

def ofNat (n : Nat) : Json := .int n

def ofCount (n : UInt64) : Json := .int n.toNat

def ofOption {α : Type} (write : α → Json) : Option α → Json
  | none => .null
  | some a => write a

def ofList {α : Type} (write : α → Json) (items : List α) : Json := .arr (items.map write)

end Json

end BagEquiv
