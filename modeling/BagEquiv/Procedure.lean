/-
**Decision procedures.**

A decision procedure is asked whether claims hold and whether they can be satisfied.  It may keep a
state from one question to the next, it may give up, and it may fail.

Main definitions:

* `Claim` — a formula and the quantifiers of its symbols;
* `Validity`, `Satisfiability` — the answers;
* `Procedure`, `ProcedureM` — procedures, and computations that ask them.
-/

import BagEquiv.Formula
import BagEquiv.Model
import BagEquiv.Outcome

set_option autoImplicit false

namespace BagEquiv

/-- A formula to decide.  Symbols that are not existential are universal. -/
structure Claim where
  formula : Formula
  universal : List Symbol := []
  existential : List Symbol := []

/-- Whether a claim holds for all values of its universal symbols. -/
inductive Validity where
  | valid
  | invalid (counterexample : Assignment)
  | unknown (reason : String)

/-- Whether some values satisfy a claim. -/
inductive Satisfiability where
  | satisfiable (model : Assignment)
  | unsatisfiable
  | unknown (reason : String)

/-- A decision procedure with a state. -/
structure Procedure (σ : Type) where
  checkValid : Claim → σ → Except Error Validity × σ
  checkSat : Claim → σ → Except Error Satisfiability × σ

/-- Computations that ask a procedure.  A fault ends them, and the state stays as it is then. -/
abbrev ProcedureM (σ : Type) := ExceptT Fault (StateM σ)

namespace ProcedureM

variable {σ α : Type}

/-- One question to a procedure. -/
def ask (question : σ → Except Error α × σ) : ProcedureM σ (Except Error α) := modifyGet question

/-- A step that may fault. -/
def ofExcept (r : Except Fault α) : ProcedureM σ α :=
  match r with
  | .ok a => return a
  | .error f => throw f

end ProcedureM

end BagEquiv
