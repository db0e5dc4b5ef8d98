/-
**Checking a pair of terms.**

The terms get fresh bound variables, and one matching after the other is tried: its formula with
invariants in place of stars may be refuted, and then the terms are equivalent; or its formula with
one summand per star may have a model, and then the database of the model may separate the terms.

Main definitions:

* `Input`, `Config` — what is checked, and within which limits;
* `Verdict`, `Report` — the result;
* `check` — **the check of a pair with any decision procedure**.
-/

import BagEquiv.Encoder.Layers
import BagEquiv.Formula.Printer
import BagEquiv.Formula.StarFree
import BagEquiv.Matching.Chooser
import BagEquiv.Matching.Search
import BagEquiv.Procedure.Unaided
import BagEquiv.Term.Rename
import BagEquiv.Valuation

set_option autoImplicit false

namespace BagEquiv

/-- The limits of a check.  Times are in milliseconds. -/
structure Config where
  /-- Keep the formula in the report. -/
  debug : Bool := false
  timeout : Option Nat := some 10000
  /-- The time for one question to the decision procedure. -/
  solverTimeout : Nat := 2000
  /-- The number of matchings to try. -/
  limit : Nat := 8
deriving DecidableEq

/-- Two terms, the schemas of their tuples, and the name of the output tuple. -/
structure Input where
  schemas : SchemaMap
  output : String
  left : Term
  right : Term

namespace Input

/-- The input with fresh bound variables on both sides. -/
def freshen (input : Input) : Except Fault Input := do
  let (left, supply) ← input.left.freshen ⟨input.schemas, 0⟩
  let (right, supply) ← input.right.freshen supply
  return ⟨supply.schemas, input.output, left, right⟩

end Input

/-- A model that separates two terms, and its database. -/
structure Witness where
  assignment : Assignment
  database : Database

/-- What is known of two terms. -/
inductive Verdict where
  | equivalent
  | different (witness : Option Witness)
  /-- Evidence for neither. -/
  | inconclusive (reason : String)

def Verdict.text : Verdict → String
  | .equivalent => "EQUIVALENT"
  | .different _ => "DIFFERENT"
  | .inconclusive reason => "INCONCLUSIVE (" ++ reason ++ ")"

/-- How a check went. -/
structure Stats where
  /-- The terms are equal as they are written. -/
  trivial : Bool
  timedOut : Bool
  /-- The number of matchings tried. -/
  tried : Nat
deriving DecidableEq

/-- The result of a check. -/
structure Report where
  verdict : Verdict
  stats : Stats
  /-- The last formula, if it was to be kept. -/
  formula : Option String

namespace Check

/-- What was reached so far. -/
structure Progress (σ : Type) where
  tried : Nat
  formula : Option String
  /-- Why the last matching did not decide. -/
  reason : String
  /-- The state of the decision procedure. -/
  procedure : σ

def Progress.start {σ : Type} (procedure : σ) : Progress σ :=
  ⟨0, none, "no matching decided the pair", procedure⟩

/-- Computations of a check; what was reached before a failure stays. -/
abbrev CheckM (σ : Type) := ExceptT Failure (StateM (Progress σ))

variable {σ α : Type}

/-- A step that may fail. -/
def lift (r : Except Failure α) : CheckM σ α :=
  match r with
  | .ok a => return a
  | .error e => throw e

/-- A computation with the decision procedure. -/
def consult (c : ProcedureM σ (Except Error α)) : CheckM σ α := do
  let progress ← get
  let (r, s) := c.run progress.procedure
  set { progress with procedure := s }
  match r with
  | .error f => throw (.fault f)
  | .ok (.error e) => throw (.error e)
  | .ok (.ok a) => return a

/-- Remembers why a matching did not decide. -/
def note (reason : String) : CheckM σ Unit := modify fun p => { p with reason := reason }

/-- Whether the formula of a matching, with invariants in place of stars, is refuted. -/
def refutes (p : Procedure σ) (formula : Formula) : CheckM σ Bool := do
  let approximation ← consult (formula.overApproximate p)
  match ← consult (.ask (p.checkValid ⟨.not approximation, [], []⟩)) with
  | .valid => return true
  | .invalid _ => return false
  | .unknown reason =>
      note reason
      return false

/-- The witness of a model, if its database gives the terms different values. -/
def separates (input : Input) (tuples : List TupleInfo) (a : Assignment) :
    Except Fault (Option Witness) := do
  let db ← Database.ofAssignment a tuples input.output input.schemas
  let l : Option Fraction ← input.left.valueOver db input.schemas input.output
  let r : Option Fraction ← input.right.valueOver db input.schemas input.output
  match l, r with
  | some l, some r => return if ← Fraction.Checked.same l r then none else some ⟨a, db⟩
  | _, _ => return none

/-- The witness of a model of the formula with one summand per star. -/
def separation (p : Procedure σ) (input : Input) (encoding : Encoding) :
    CheckM σ (Option Witness) := do
  match ← consult (.ask (p.checkSat ⟨encoding.formula.underApproximate, [], []⟩)) with
  | .satisfiable a => lift (Failure.ofFault (separates input encoding.tuples a))
  | .unsatisfiable => return none
  | .unknown reason =>
      note reason
      return none

/-- The verdict by one matching, if it decides. -/
def attempt (p : Procedure σ) (input : Input) (debug : Bool) (budget : Budget) (m : Matching) :
    CheckM σ (Option Verdict) := do
  lift (Failure.ofError budget.check)
  modify fun p => { p with tried := p.tried + 1 }
  let encoding ← lift (encodePair input.schemas m budget input.left input.right)
  if debug then modify fun p => { p with formula := some encoding.formula.text }
  if ← refutes p encoding.formula then return some .equivalent
  match ← separation p input encoding with
  | some w => return some (.different (some w))
  | none => return none

/-- The verdict by the matchings of a search, at most `n` of them. -/
def attempts (p : Procedure σ) (input : Input) (debug : Bool) (budget : Budget) :
    (n : Nat) → Search → CheckM σ Verdict
  | 0, _ => return .inconclusive (← get).reason
  | n + 1, s =>
      match s.next? with
      | none => return .inconclusive (← get).reason
      | some (m, s) => do
          match ← attempt p input debug budget m with
          | some v => return v
          | none => attempts p input debug budget n s

/-- The verdict on two terms that are not equal as they are written. -/
def verdict (p : Procedure σ) (input : Input) (config : Config) (budget : Budget) :
    CheckM σ Verdict := do
  let input ← lift (Failure.ofFault input.freshen)
  let seed ← lift (Matching.seed input.left input.right input.output budget)
  lift (Failure.ofError (seed.validate input.left input.right))
  let limit := max config.limit 1
  let search ← lift (Failure.ofFault (Search.Checked.start input.left input.right seed limit))
  attempts p input config.debug budget limit search

end Check

/-- The check of a pair with a decision procedure in its state `s`.  Terms that are equal as they
are written are equivalent, whatever the budget; a budget that runs out makes the check
inconclusive. -/
def check {σ : Type} (p : Procedure σ) (s : σ) (input : Input) (config : Config)
    (budget : Budget) : Except Failure Report := do
  if ← Failure.ofFault (Term.Checked.same input.left input.right) then
    return ⟨.equivalent, ⟨true, false, 0⟩, none⟩
  match (Check.verdict p input config budget).run (.start s) with
  | (.ok v, progress) => return ⟨v, ⟨false, false, progress.tried⟩, progress.formula⟩
  | (.error (.error .timeout), progress) =>
      return ⟨.inconclusive "timed out", ⟨false, true, progress.tried⟩, progress.formula⟩
  | (.error e, _) => .error e

/-- The check of a pair without a solver, within the given budget. -/
def verifyWithin (input : Input) (config : Config) (budget : Budget) : Except Failure Report :=
  check (.unaided config.solverTimeout budget) () input config budget

/-- The check of a pair without a solver. -/
def verify (input : Input) (config : Config) : Except Failure Report :=
  verifyWithin input config ⟨config.timeout, false⟩

end BagEquiv
