/-
**Renaming tuples, and giving bound ones fresh names.**

Main definitions:

* `Term.rename` — renaming of the free occurrences of a tuple;
* `Term.renameAll` — renaming of every occurrence, binders included;
* `Term.freshen` — every bound tuple gets a name of its own, numbered by a counter.
-/

import BagEquiv.Schema
import BagEquiv.Term.Subterm
import BagEquiv.Outcome

set_option autoImplicit false

namespace BagEquiv.Term

-- Powers are core's, not those of a monoid.
attribute [local instance (high)] instPowNat

mutual

/-- The free occurrences of the tuple `source` renamed to `target`. -/
def rename (source target : String) : Term → Term
  | .sum vars body =>
      if bound source vars then .sum vars body else .sum vars (rename source target body)
  | .add terms => .add (renameList source target terms)
  | .mul factors => .mul (renameList source target factors)
  | .neg term => .neg (rename source target term)
  | .squash term => .squash (rename source target term)
  | .pred kind args => .pred kind (renameList source target args)
  | .var v => .var (v.renamed source target)
  | .const q => .const q
  | .table name v => .table name (v.renamed source target)
  | .func name args => .func name (renameList source target args)
  | .str s => .str s

def renameList (source target : String) : List Term → List Term
  | [] => []
  | t :: ts => rename source target t :: renameList source target ts

end

theorem renameList_eq (source target : String) (ts : List Term) :
    renameList source target ts = ts.map (rename source target) := by
  induction ts with
  | nil => rfl
  | cons t ts ih => simp [renameList, ih]

mutual

/-- Every occurrence of the tuple `source` renamed to `target`, also where it is bound. -/
def renameAll (source target : String) : Term → Term
  | .sum vars body =>
      .sum (vars.map (Var.renamed source target)) (renameAll source target body)
  | .add terms => .add (renameAllList source target terms)
  | .mul factors => .mul (renameAllList source target factors)
  | .neg term => .neg (renameAll source target term)
  | .squash term => .squash (renameAll source target term)
  | .pred kind args => .pred kind (renameAllList source target args)
  | .var v => .var (v.renamed source target)
  | .const q => .const q
  | .table name v => .table name (v.renamed source target)
  | .func name args => .func name (renameAllList source target args)
  | .str s => .str s

def renameAllList (source target : String) : List Term → List Term
  | [] => []
  | t :: ts => renameAll source target t :: renameAllList source target ts

end

theorem renameAllList_eq (source target : String) (ts : List Term) :
    renameAllList source target ts = ts.map (renameAll source target) := by
  induction ts with
  | nil => rfl
  | cons t ts ih => simp [renameAllList, ih]

/-! ### Fresh names -/

/-- The schemas known so far and the number of the next fresh name. -/
structure Supply where
  schemas : SchemaMap
  next : UInt64
deriving DecidableEq

namespace Supply

/-- A fresh name for the tuple `base`, which gets the schema of `base`. -/
def fresh (s : Supply) (base : String) : Except Fault (String × Supply) :=
  let name := base ++ "#" ++ toString s.next.toNat
  if s.next.toNat + 1 < 2 ^ (64 : Nat) then
    let schemas := match s.schemas.get? base with
      | some schema => s.schemas.insert name schema
      | none => s.schemas
    .ok (name, ⟨schemas, s.next + 1⟩)
  else .error .overflow

end Supply

/-- Fresh names for the tuples of the given variables, each with the name it replaces. -/
def freshNames : List Var → Supply → Except Fault (List (String × String) × Supply)
  | [], s => .ok ([], s)
  | v :: vs, s => do
      let (name, s) ← s.fresh v.tuple
      let (names, s) ← freshNames vs s
      return ((v.tuple, name) :: names, s)

/-- Renamings that are to be carried out one after the other on the free occurrences. -/
abbrev Renaming := List (String × String)

namespace Renaming

def apply (ρ : Renaming) (v : Var) : Var := ρ.foldl (fun v r => v.renamed r.1 r.2) v

/-- The renamings that pass a binder: those of tuples that it does not bind. -/
def under (ρ : Renaming) (vars : VarSet) : Renaming := ρ.filter fun r => !bound r.1 vars

end Renaming

mutual

/-- The term with the renamings `ρ` carried out and with fresh names for its bound tuples. -/
def freshenWith (ρ : Renaming) : Term → Supply → Except Fault (Term × Supply)
  | .sum vars body, s => do
      let (names, s) ← freshNames vars.toList s
      let (body, s) ← freshenWith (ρ.under vars ++ names) body s
      return (.sum (.ofList (names.map fun r => .base r.2)) body, s)
  | .add terms, s => do
      let (terms, s) ← freshenList ρ terms s
      return (.add terms, s)
  | .mul factors, s => do
      let (factors, s) ← freshenList ρ factors s
      return (.mul factors, s)
  | .neg term, s => do
      let (term, s) ← freshenWith ρ term s
      return (.neg term, s)
  | .squash term, s => do
      let (term, s) ← freshenWith ρ term s
      return (.squash term, s)
  | .pred kind args, s => do
      let (args, s) ← freshenList ρ args s
      return (.pred kind args, s)
  | .var v, s => return (.var (ρ.apply v), s)
  | .const q, s => return (.const q, s)
  | .table name v, s => return (.table name (ρ.apply v), s)
  | .func name args, s => do
      let (args, s) ← freshenList ρ args s
      return (.func name args, s)
  | .str t, s => return (.str t, s)

def freshenList (ρ : Renaming) : List Term → Supply → Except Fault (List Term × Supply)
  | [], s => return ([], s)
  | t :: ts, s => do
      let (t, s) ← freshenWith ρ t s
      let (ts, s) ← freshenList ρ ts s
      return (t :: ts, s)

end

/-- Every bound tuple gets a name of its own: its name, a number sign, and a number.  The new
names get the schemas of the old ones. -/
def freshen (t : Term) (s : Supply) : Except Fault (Term × Supply) := freshenWith [] t s

end BagEquiv.Term
