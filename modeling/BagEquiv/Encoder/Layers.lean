/-
**Encoding a pair of terms under a matching.**

The formula says that the two terms differ.  Summations are replaced by placeholders, and each
layer of summations becomes a list of stars: the placeholders are sums of per-row counts.  The
summations whose matched variables have the same schema share the rows of one common tuple and so
form one star; a summation without a matched variable is a star by itself.

Main definitions:

* `Encoder.star` — the star of some summations;
* `Encoder.layer` — the stars of a layer;
* `encodePair` — **the formula that two terms differ**, and the tuples it is about.
-/

import BagEquiv.Encoder.Terms
import BagEquiv.Formula.Simplify
import BagEquiv.Matching.Alignment
import BagEquiv.Budget
import BagEquiv.Term.Strip

set_option autoImplicit false

namespace BagEquiv

namespace Encoder

/-- The error of a budget that is used up. -/
def poll (budget : Budget) : EncodeM Unit :=
  match budget.check with
  | .ok _ => return ()
  | .error e => refuse e

/-- A summation in scope and the symbol of its placeholder. -/
abbrev Counted := Symbol × OpenSum

/-- The term with placeholders for its summations, and the summations. -/
def stripTerm (t : Term) (side : Side) : EncodeM (Term × List Counted) :=
  step fun e =>
    let (t, found, e) := t.strip freshCount e
    ((t, found.map fun s => (⟨s.name, .int⟩, ⟨side, s.vars, s.body⟩)), e)

/-- A summation in scope and the variable of it that is matched. -/
structure Member where
  symbol : Symbol
  sum : OpenSum
  matched : Option Var

/-- The rows of a star: for each member the symbol of its count in a row and the equation for it,
and the summations inside the members. -/
def starRows (tuple : String) : List Member → EncodeM (List (Symbol × Formula) × List Counted)
  | [] => return ([], [])
  | m :: ms => do
      let (t, below) ← stripTerm (m.sum.rest m.matched tuple) m.sum.side
      let v : Symbol := ⟨← step (fresh "#v"), .int⟩
      let f ← encode t
      let (rows, more) ← starRows tuple ms
      return ((v, .eq (.sym v) f) :: rows, below ++ more)

/-- The star of some summations over the rows of one tuple; `next` gives the stars of the
summations inside them. -/
def star (next : List Counted → EncodeM (List Formula)) (tuple : String) (members : List Member) :
    EncodeM Formula := do
  let (rows, below) ← starRows tuple members
  let nulls ← step congruence
  let stars ← next below
  let literals := (← get).distinctness
  return .star (members.map (·.symbol)) (rows.map Prod.fst) (members.map (·.sum.side))
    (.and (rows.map Prod.snd ++ nulls ++ stars ++ literals))

/-- Members put to the group of their schema, or in a new group at the end. -/
def addToGroup (schema : Option Schema) (m : Member) :
    List (Option Schema × List Member) → List (Option Schema × List Member)
  | [] => [(schema, [m])]
  | (s, ms) :: rest =>
      if s = schema then (s, ms ++ [m]) :: rest else (s, ms) :: addToGroup schema m rest

/-- The members with a matched variable, grouped by its schema. -/
def groups (e : Encoder) (members : List Member) : List (Option Schema × List Member) :=
  members.foldl (fun gs m =>
    match m.matched with
    | some v => addToGroup (e.schemaOf? v.tuple) m gs
    | none => gs) []

/-- The table that the matched variable of the first member ranges over. -/
def groupTable? (members : List Member) : Option String := do
  let m ← members.head?
  let v ← m.matched
  m.sum.tableOf? v

/-- The common tuple of a group. -/
def groupTuple (schema : Option Schema) (table : Option String) (e : Encoder) : String × Encoder :=
  let (tuple, e) := e.fresh "#ct"
  let e := match schema with
    | some s => e.bindSchema tuple s
    | none => e
  (tuple, { e with tuples := e.tuples ++ [⟨tuple, table, schema⟩] })

/-- The variables of a summation become tuples of its layer. -/
def localTuples (s : OpenSum) (e : Encoder) : Encoder :=
  { e with tuples := e.tuples ++ s.vars.toList.map fun v =>
      ⟨v.tuple, s.tableOf? v, e.schemaOf? v.tuple⟩ }

/-- The stars of the groups of a layer. -/
def groupStars (next : List Counted → EncodeM (List Formula)) :
    List (Option Schema × List Member) → EncodeM (List Formula)
  | [] => return []
  | (schema, members) :: rest => do
      let tuple ← step (groupTuple schema (groupTable? members))
      let f ← star next tuple members
      let fs ← groupStars next rest
      return f :: fs

/-- The stars of the summations of a layer that have no matched variable. -/
def localStars (next : List Counted → EncodeM (List Formula)) :
    List Member → EncodeM (List Formula)
  | [] => return []
  | m :: rest => do
      modify (localTuples m.sum)
      let f ← star next "" [m]
      let fs ← localStars next rest
      return f :: fs

/-- The stars of the summations in scope at a layer and below.  Each layer takes away a summation
or a variable of one, so `fuel` need not exceed their number. -/
def layer (m : Matching) (budget : Budget) :
    (fuel depth : Nat) → List Counted → EncodeM (List Formula)
  | 0, _, _ => do
      poll budget
      return []
  | fuel + 1, depth, scope => do
      poll budget
      let members := scope.map fun (u, s) => (⟨u, s, m.matchedIn? depth s⟩ : Member)
      let next := layer m budget fuel (depth + 1)
      let common ← groupStars next (groups (← get) members)
      let locals ← localStars next (members.filter (·.matched.isNone))
      return common ++ locals

/-- The formula that two terms differ, before simplification. -/
def difference (m : Matching) (budget : Budget) (left right : Term) : EncodeM Formula := do
  poll budget
  let aligned ← attempt (m.aligned left right)
  let (l, lscope) ← stripTerm left .left
  let (r, rscope) ← stripTerm right .right
  let f ← encode l
  let g ← encode r
  let nulls ← step congruence
  let fuel := left.binderCount + right.binderCount
  let stars ← layer aligned budget fuel 0 (lscope ++ rscope)
  let literals := (← get).distinctness
  return .and (.not (.eq f g) :: nulls ++ stars ++ literals)

end Encoder

/-- A formula and the tuples it is about. -/
structure Encoding where
  formula : Formula
  tuples : List TupleInfo

/-- The formula that two terms differ, with the bound variables unified as a matching says. -/
def encodePair (schemas : SchemaMap) (m : Matching) (budget : Budget) (left right : Term) :
    Except Failure Encoding :=
  match (Encoder.difference m budget left right).run (.ofSchemas schemas) with
  | (.error e, _) => .error e
  | (.ok f, e) => do return ⟨← Failure.ofFault f.simplify, e.tuples⟩

end BagEquiv
