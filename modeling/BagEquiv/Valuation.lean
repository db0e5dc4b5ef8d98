/-
**The value of a term over a database.**

Values are computed in any numbers that offer `Arithmetic`: checked fractions when a program asks,
exact rationals when a theorem does.  A term has no value when a part of it that is needed has
none: an unbound tuple, a function without a meaning, values that cannot be compared.  Whole tuples
are only compared with each other and looked up in tables; the value of one is asked for without
end.

Main definitions:

* `Environment` — a database, the schemas, and the rows of the bound tuples;
* `Scalar` — what an expression can stand for, a number or a text;
* `Term.valueOver` — **the value of a term over a database**.

Main result:

* `Reader.throughChoices_eq` — a summation adds up the numbers of all choices of rows.
-/

import BagEquiv.Bag
import BagEquiv.Database
import BagEquiv.Fraction.Arithmetic
import BagEquiv.Operation
import BagEquiv.Term.Subterm

set_option autoImplicit false

namespace BagEquiv

/-- A database, the schemas of tuples, and the rows of the tuples that are bound. -/
structure Environment where
  database : Database
  schemas : SchemaMap
  rows : String → Option Row

namespace Environment

/-- The environment that binds the output tuple only. -/
def ofDatabase (db : Database) (schemas : SchemaMap) (output : String) : Environment :=
  ⟨db, schemas, fun name => if name = output then some db.output else none⟩

def bind (env : Environment) (name : String) (r : Row) : Environment :=
  { env with rows := fun n => if n = name then some r else env.rows n }

/-- The tuples bound in turn. -/
def bindAll (env : Environment) (choice : List (String × Row)) : Environment :=
  choice.foldl (fun env (name, r) => env.bind name r) env

def cell? (env : Environment) (base attr : String) : Option Cell := do
  (← env.rows base).get? attr

/-- Whether two rows agree in corresponding columns, with fractions compared by `test`; a column
that is missing agrees with none. -/
def agree (test : Fraction → Fraction → Except Fault Bool) (a b : Row) :
    List (Column × Column) → Except Fault Bool
  | [] => .ok true
  | (c, d) :: rest =>
      match a.get? c.name, b.get? d.name with
      | some x, some y => do if ← x.sameBy test y then agree test a b rest else return false
      | _, _ => .ok false

/-- Whether two tuples agree in corresponding columns of their schemas. -/
def sameTuple? (test : Fraction → Fraction → Except Fault Bool) (env : Environment)
    (x y : String) : Except Fault (Option Bool) :=
  match env.rows x, env.rows y, env.schemas.get? x, env.schemas.get? y with
  | some a, some b, some sx, some sy =>
      if sx.columns.length ≠ sy.columns.length then .ok none
      else do return some (← agree test a b (sx.columns.zip sy.columns))
  | _, _, _, _ => .ok none

end Environment

/-- What an expression can stand for. -/
inductive Scalar (ν : Type) where
  | number (n : ν)
  | text (s : String)

namespace Scalar

variable {ν : Type} [Arithmetic ν]

def number? : Scalar ν → Option ν
  | .number n => some n
  | .text _ => none

def ofDatum : Datum → Scalar ν
  | .int n => .number (Arithmetic.ofFraction (.ofWord n))
  | .real q => .number (Arithmetic.ofFraction q)
  | .str s => .text s

/-- Numbers are compared with numbers, and texts with texts. -/
def compare? : Scalar ν → Scalar ν → Except Fault (Option Ordering)
  | .number a, .number b => do return some (← Arithmetic.compare a b)
  | .text s, .text t => .ok (some (if s < t then .lt else if s = t then .eq else .gt))
  | _, _ => .ok none

end Scalar

/-- Whether a comparison holds of values in the given order. -/
def Pred.holds? : Pred → Ordering → Option Bool
  | .eq, o => some (o == .eq)
  | .ne, o => some (o != .eq)
  | .lt, o => some (o == .lt)
  | .le, o => some (o != .gt)
  | .gt, o => some (o == .gt)
  | .ge, o => some (o != .lt)
  | _, _ => none

/-- What a term stands for in each environment. -/
abbrev Reader (ν : Type) := Environment → Except Fault (Option (Scalar ν))

namespace Reader

variable {ν : Type} [Arithmetic ν]

/-- What is known without computing. -/
def known (s : Option (Scalar ν)) : Except Fault (Option (Scalar ν)) := .ok s

/-- The number that a term stands for. -/
def number? (r : Reader ν) (env : Environment) : Except Fault (Option ν) := do
  return (← r env).bind Scalar.number?

/-- The sum of numbers, added from the left to a first one; no number if one of them has none, and
then those behind it are not looked at. -/
def sumFrom (total : ν) : List (Unit → Except Fault (Option ν)) → Except Fault (Option ν)
  | [] => .ok (some total)
  | r :: rest => do
      match ← r () with
      | none => return none
      | some n => sumFrom (← Arithmetic.add total n) rest

/-- The rows that a variable ranges over: those of the table that the body mentions it with. -/
def domain? (env : Environment) (body : Term) (v : Var) : Option (List (String × Row)) := do
  return (env.database.rows (← body.tableOf? v.tuple)).map fun r => (v.tuple, r)

/-- A total carried through the rows of a variable, up to the first that has no number. -/
def throughRows (step : Environment → ν → Except Fault (Option ν)) (env : Environment) :
    List (String × Row) → ν → Except Fault (Option ν)
  | [], total => .ok (some total)
  | (name, row) :: rest, total => do
      match ← step (env.bind name row) total with
      | none => return none
      | some total => throughRows step env rest total

/-- A total carried through all choices of rows for the variables, the last variable changing
fastest, up to the first choice that has no number. -/
def throughChoices (r : Reader ν) :
    List (List (String × Row)) → Environment → ν → Except Fault (Option ν)
  | [], env, total => sumFrom total [fun _ => r.number? env]
  | rows :: rest, env, total => throughRows (throughChoices r rest) env rows total

theorem sumFrom_append (xs ys : List (Unit → Except Fault (Option ν))) (total : ν) :
    sumFrom total (xs ++ ys) =
      (do (← sumFrom total xs).elim (.ok none) fun total => sumFrom total ys) := by
  induction xs generalizing total with
  | nil => rfl
  | cons x xs ih =>
      rw [List.cons_append, sumFrom, sumFrom]
      cases x () with
      | error e => rfl
      | ok n =>
          cases n with
          | none => rfl
          | some n =>
              simp only [bind, Except.bind]
              cases Arithmetic.add total n with
              | error e => rfl
              | ok m => exact ih m

theorem throughRows_eq (rest : List (List (String × Row))) (r : Reader ν)
    (step : Environment → ν → Except Fault (Option ν))
    (hs : ∀ env total, step env total =
      sumFrom total ((choices rest).map fun c _ => r.number? (env.bindAll c)))
    (env : Environment) (rows : List (String × Row)) (total : ν) :
    throughRows step env rows total =
      sumFrom total ((choices (rows :: rest)).map fun c _ => r.number? (env.bindAll c)) := by
  induction rows generalizing total with
  | nil => rfl
  | cons row rows ih =>
      obtain ⟨name, row⟩ := row
      have split : choices (((name, row) :: rows) :: rest) =
          (choices rest).map ((name, row) :: ·) ++ choices (rows :: rest) := rfl
      rw [split, List.map_append, sumFrom_append, throughRows, hs, List.map_map]
      congr 1
      funext n
      cases n with
      | none => rfl
      | some n => exact ih n

/-- Carrying a total through the choices adds up their numbers. -/
theorem throughChoices_eq (r : Reader ν) (domains : List (List (String × Row)))
    (env : Environment) (total : ν) :
    throughChoices r domains env total =
      sumFrom total ((choices domains).map fun c _ => r.number? (env.bindAll c)) := by
  induction domains generalizing env total with
  | nil => rfl
  | cons rows rest ih => exact throughRows_eq rest r _ ih env rows total

/-- The sum over all choices of rows for the variables; there is none if a table is empty. -/
def summation (vars : VarSet) (body : Term) (r : Reader ν) (env : Environment) :
    Except Fault (Option ν) :=
  match vars.toList.mapM (domain? env body) with
  | none => .ok none
  | some domains =>
      if domains.any List.isEmpty then .ok (some Arithmetic.zero)
      else throughChoices r domains env Arithmetic.zero

/-- The sum of terms. -/
def addition (rs : List (Reader ν)) (env : Environment) : Except Fault (Option ν) :=
  sumFrom Arithmetic.zero (rs.map fun r _ => r.number? env)

/-- The product of terms, multiplied from the left to a first number.  A factor of zero decides at
once, even behind factors that have no value. -/
def productFrom (env : Environment) (total : ν) (unknown : Bool) :
    List (Reader ν) → Except Fault (Option ν)
  | [] => .ok (if unknown then none else some total)
  | r :: rest => do
      match ← r.number? env with
      | none => productFrom env total true rest
      | some n =>
          if Arithmetic.isZero n then return some n
          else productFrom env (← Arithmetic.mul total n) unknown rest

/-- One where a number satisfies a condition, zero where not. -/
def test (condition : ν → Bool) (r : Reader ν) (env : Environment) : Except Fault (Option ν) := do
  return (← r.number? env).map fun n => Arithmetic.indicator (condition n)

/-- Whether a comparison of two terms holds. -/
def comparison (kind : Pred) (a b : Reader ν) (env : Environment) :
    Except Fault (Option Bool) := do
  match ← a env with
  | none => return none
  | some x =>
      match ← b env with
      | none => return none
      | some y => return (← x.compare? y).bind kind.holds?

/-- Whether a predicate holds of its arguments; `rs` read them. -/
def predicate (kind : Pred) (args : List Term) (rs : List (Reader ν)) (env : Environment) :
    Except Fault (Option Bool) :=
  match kind, args, rs with
  | .isNull, [.var (.proj attr base)], _ => .ok ((env.cell? base attr).map Cell.null)
  | .isNull, _, _ => .ok none
  | .named _, _, _ => .ok none
  | kind, [.var (.base x), .var (.base y)], _ => do
      match kind, ← env.sameTuple? (Arithmetic.sameFraction ν) x y with
      | .eq, some same => return some same
      | .ne, some same => return some !same
      | _, _ => return none
  | kind, _, [a, b] => comparison kind a b env
  | _, _, _ => .ok none

/-- The numbers that terms stand for, up to the first that has none. -/
def numbers (env : Environment) : List (Reader ν) → Except Fault (Option (List ν))
  | [] => .ok (some [])
  | r :: rest => do
      match ← r.number? env with
      | none => return none
      | some n => return (← numbers env rest).map (n :: ·)

/-- The result of an operation, if it has one. -/
def operate : Operation → List ν → Except Fault (Option ν)
  | .divide, [a, b] =>
      if Arithmetic.isZero b then .ok none else do return some (← Arithmetic.div a b)
  | .minus, [a, b] => do return some (← Arithmetic.sub a b)
  | .minus, [a] => do return some (← Arithmetic.neg a)
  | .plus, ns => do return some (← Arithmetic.sum ns)
  | .times, ns => do return some (← Arithmetic.product ns)
  | _, _ => .ok none

/-- The result of a function.  Only the operations of arithmetic have one. -/
def application (name : String) (rs : List (Reader ν)) (env : Environment) :
    Except Fault (Option ν) :=
  match Operation.ofName? name.toLower with
  | none => .ok none
  | some op => do
      match ← numbers env rs with
      | none => return none
      | some ns => operate op ns

/-- How often the row of a tuple occurs in a table. -/
def membership (table : String) : Var → Environment → Except Fault (Option ν)
  | .base base, env =>
      match env.rows base with
      | none => .ok none
      | some r => do
          let n ← env.database.multiplicityBy (Arithmetic.sameFraction ν) table r
          return some (Arithmetic.ofCount n)
  | .proj _ _, _ => .ok none

end Reader

namespace Term

variable {ν : Type} [Arithmetic ν]

/-- A result that is a number. -/
def asScalar (n : Except Fault (Option ν)) : Except Fault (Option (Scalar ν)) := do
  return (← n).map .number

mutual

/-- What a term stands for. -/
def read : Term → Reader ν
  | .sum vars body => fun env => asScalar (Reader.summation vars body (read body) env)
  | .add terms => fun env => asScalar (Reader.addition (readAll terms) env)
  | .mul factors => fun env =>
      asScalar (Reader.productFrom env Arithmetic.one false (readAll factors))
  | .neg term => fun env => asScalar ((read term).test Arithmetic.isZero env)
  | .squash term => fun env => asScalar ((read term).test (fun n => !Arithmetic.isZero n) env)
  | .pred kind args => fun env => do
      let rs : List (Reader ν) := readAll args
      return (← Reader.predicate kind args rs env).map fun b => .number (Arithmetic.indicator b)
  | .var (.proj attr base) => fun env =>
      .ok ((env.cell? base attr).map fun c => Scalar.ofDatum c.value)
  | .var (.base _) => fun _ => .error .endless
  | .const q => fun _ => .ok (some (.number (Arithmetic.ofFraction q)))
  | .table name v => fun env => asScalar (Reader.membership name v env)
  | .func name args => fun env => asScalar (Reader.application name (readAll args) env)
  | .str s => fun _ => .ok (some (.text s))

def readAll : List Term → List (Reader ν)
  | [] => []
  | t :: ts => read t :: readAll ts

end

theorem readAll_eq_map (ts : List Term) : (readAll ts : List (Reader ν)) = ts.map read := by
  induction ts with
  | nil => rfl
  | cons t ts ih => rw [readAll, ih, List.map_cons]

/-- The value of a term over a database, if every part that is needed has one. -/
def valueOver (t : Term) (db : Database) (schemas : SchemaMap) (output : String) :
    Except Fault (Option ν) :=
  (read t).number? (.ofDatabase db schemas output)

end Term

end BagEquiv
