/-
**Models and checks as structured data.**

Main definitions:

* `toJson` and `ofJson?` in the namespaces of `Value`, `Assignment`, `Config`, `Input`, `Witness`
  and `Verdict`;
* `Report.toJson`.
-/

import BagEquiv.Check
import BagEquiv.Database.Json
import BagEquiv.Model

set_option autoImplicit false

namespace BagEquiv

-- Powers are core's, not those of a monoid.
attribute [local instance (high)] instPowNat

/-! ### Models -/

namespace Value

def toJson : Value → Json
  | .int n => .obj [("Int", .ofWord n)]
  | .real q => .obj [("Real", q.toJson)]
  | .str s => .obj [("Str", .str s)]
  | .unknown text => .obj [("Unknown", .str text)]

def ofJson? (j : Json) : Option Value :=
  match j.variant? with
  | some ("Int", some n) => n.word?.map .int
  | some ("Real", some q) => (Fraction.ofJson? q).map .real
  | some ("Str", some s) => s.string?.map .str
  | some ("Unknown", some s) => s.string?.map .unknown
  | _ => none

end Value

namespace Assignment

def toJson (a : Assignment) : Json := NameMap.toJson Value.toJson a

def ofJson? (j : Json) : Option Assignment := NameMap.ofJson? Value.ofJson? j

end Assignment

/-! ### Inputs and answers -/

namespace Config

def toJson (c : Config) : Json :=
  .obj [("debug", .bool c.debug), ("timeout_ms", .ofOption .ofNat c.timeout),
    ("solver_timeout_ms", .ofNat c.solverTimeout), ("bvm_limit", .ofNat c.limit)]

/-- The value of a field, or the value that it has if nothing is said. -/
def orDefault {α : Type} (read : Json → Option α) (default : α) : Option Json → Option α
  | none => some default
  | some j => read j

def ofJson? (j : Json) : Option Config :=
  match j.fields? ["debug", "timeout_ms", "solver_timeout_ms", "bvm_limit"] with
  | some [debug, timeout, solverTimeout, limit] => do
      let c : Config := {}
      return {
        debug := ← orDefault Json.bool? c.debug debug
        timeout := ← orDefault (Json.option? (Json.below? (2 ^ (64 : Nat)))) c.timeout timeout
        solverTimeout := ← orDefault (Json.below? (2 ^ (32 : Nat))) c.solverTimeout solverTimeout
        limit := ← orDefault (Json.below? (2 ^ (64 : Nat))) c.limit limit }
  | _ => none

end Config

namespace Input

def toJson (i : Input) : Json :=
  .obj [("schemas", i.schemas.toJson), ("output", .str i.output),
    ("queries", .arr [i.left.toJson, i.right.toJson])]

/-- The two terms of a pair. -/
def queriesOfJson? : Json → Option (Term × Term)
  | .arr [l, r] => do return (← Term.ofJson? l, ← Term.ofJson? r)
  | _ => none

def ofJson? (j : Json) : Option Input :=
  match j.fields? ["schemas", "output", "queries"] with
  | some [some schemas, some output, some queries] => do
      let schemas ← SchemaMap.ofJson? schemas
      let output ← output.string?
      let (left, right) ← queriesOfJson? queries
      return ⟨schemas, output, left, right⟩
  | _ => none

end Input

namespace Witness

def toJson (w : Witness) : Json :=
  .obj [("assignment", w.assignment.toJson), ("database", w.database.toJson)]

def ofJson? (j : Json) : Option Witness :=
  match j.fields? ["assignment", "database"] with
  | some [some assignment, some database] => do
      return ⟨← Assignment.ofJson? assignment, ← Database.ofJson? database⟩
  | _ => none

end Witness

namespace Verdict

def toJson : Verdict → Json
  | .equivalent => .str "Equivalent"
  | .different w => .obj [("Different", .ofOption Witness.toJson w)]
  | .inconclusive reason => .obj [("Inconclusive", .str reason)]

def ofJson? (j : Json) : Option Verdict :=
  match j.variant? with
  | some ("Equivalent", none) => some .equivalent
  | some ("Equivalent", some .null) => some .equivalent
  | some ("Different", some w) => (w.option? Witness.ofJson?).map .different
  | some ("Inconclusive", some reason) => reason.string?.map .inconclusive
  | _ => none

end Verdict

namespace Report

/-- A length of time. -/
def durationJson (seconds nanoseconds : Nat) : Json :=
  .obj [("secs", .ofNat seconds), ("nanos", .ofNat nanoseconds)]

/-- The phases of a check whose durations are reported. -/
def phases : List String := ["seed", "translate", "star", "smt", "replay", "total"]

/-- The statistics of a check.  A check measures no time, so the durations are zero. -/
def statsJson (s : Stats) : Json :=
  .obj ([("trivial", .bool s.trivial), ("timed_out", .bool s.timedOut),
    ("bvms_tried", .ofNat s.tried)] ++
    phases.map fun phase => (phase ++ "_duration", durationJson 0 0))

def toJson (r : Report) : Json :=
  .obj [("verdict", r.verdict.toJson), ("stats", statsJson r.stats),
    ("formula", .ofOption .str r.formula)]

end Report

end BagEquiv
