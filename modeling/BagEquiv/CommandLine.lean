/-
**The command line.**

Main definitions:

* `CommandLine.Request`, `CommandLine.parse?` — what the arguments ask for;
* `CommandLine.reportFile` — what is printed for a file.
-/

import BagEquiv.Check.Json
import BagEquiv.Json.Printer
import BagEquiv.Json.Reader

set_option autoImplicit false

namespace BagEquiv.CommandLine

-- Powers are core's, not those of a monoid.
attribute [local instance (high)] instPowNat

/-! ### Arguments -/

/-- What the arguments ask for. -/
inductive Request where
  | run (config : Config) (files : List String)
  | help
  | version

/-- The settings read so far; one that is given may not be given again. -/
structure Settings where
  debug : Bool := false
  timeout : Option Nat := none
  solverTimeout : Option Nat := none
  limit : Option Nat := none
  /-- The files, the last one first. -/
  files : List String := []

namespace Settings

/-- A time of zero is no limit. -/
def config (s : Settings) : Config where
  debug := s.debug
  timeout := match s.timeout with
    | none => ({} : Config).timeout
    | some n => if n = 0 then none else some n
  solverTimeout := s.solverTimeout.getD ({} : Config).solverTimeout
  limit := s.limit.getD ({} : Config).limit

def request (s : Settings) : Request := .run s.config s.files.reverse

/-- A file; the empty name is none. -/
def addFile? (s : Settings) (name : String) : Option Settings :=
  if name.isEmpty then none else some { s with files := name :: s.files }

end Settings

/-- The number of decimal digits. -/
def digits? (cs : List Char) : Option Nat :=
  if cs.isEmpty then none
  else cs.foldlM (fun n c => if c.isDigit then some (10 * n + (c.toNat - '0'.toNat)) else none) 0

/-- A number below a bound, which may have a plus sign. -/
def number? (bound : Nat) (s : String) : Option Nat := do
  let n ← digits? (match s.toList with
    | '+' :: cs => cs
    | cs => cs)
  if n < bound then some n else none

/-- A number below a bound, which may have a sign, even if it is zero and the sign is minus. -/
def signedNumber? (bound : Nat) (s : String) : Option Nat :=
  match s.toList with
  | '-' :: cs => (digits? cs).filter (· = 0)
  | _ => number? bound s

/-- The setting that an option with a value makes. -/
def setValue? (s : Settings) (name value : String) : Option Settings :=
  match name with
  | "timeout-ms" => do
      if s.timeout.isSome then none
      return { s with timeout := some (← number? (2 ^ (64 : Nat)) value) }
  | "solver-timeout-ms" => do
      if s.solverTimeout.isSome then none
      return { s with solverTimeout := some (← signedNumber? (2 ^ (32 : Nat)) value) }
  | "bvm-limit" => do
      if s.limit.isSome then none
      return { s with limit := some (← number? (2 ^ (64 : Nat)) value) }
  | _ => none

/-- The characters before and behind the first equality sign. -/
def splitValue : List Char → List Char × Option (List Char)
  | [] => ([], none)
  | '=' :: cs => ([], some cs)
  | c :: cs =>
      let (name, value) := splitValue cs
      (c :: name, value)

/-- What the arguments ask for, from left to right.  The first argument that makes no sense spoils
all, unless help or the version is asked for before. -/
def parseFrom (s : Settings) : List String → Option Request
  | [] => some s.request
  | arg :: rest =>
      match arg.toList with
      | ['-', '-'] => do return (← rest.foldlM Settings.addFile? s).request
      | '-' :: '-' :: cs =>
          match splitValue cs with
          | (name, some value) => do
              parseFrom (← setValue? s (String.ofList name) (String.ofList value)) rest
          | (name, none) =>
              match String.ofList name with
              | "help" => some .help
              | "version" => some .version
              | "debug" => if s.debug then none else parseFrom { s with debug := true } rest
              | name =>
                  match rest with
                  | [] => none
                  | value :: rest =>
                      if value.startsWith "-" then none
                      else do parseFrom (← setValue? s name value) rest
      | '-' :: 'h' :: _ => some .help
      | '-' :: 'V' :: _ => some .version
      | '-' :: _ :: _ => none
      | _ => do parseFrom (← s.addFile? arg) rest

/-- What the arguments ask for, if they make sense. -/
def parse? (args : List String) : Option Request := parseFrom {} args

/-! ### Output -/

def versionText : String := "uexpr-equiv 0.1.0"

def helpText : String :=
  "Decide bag equivalence of U-expression pairs\n" ++
  "\n" ++
  "Usage: uexpr-equiv [OPTIONS] [FILES]...\n" ++
  "\n" ++
  "Arguments:\n" ++
  "  [FILES]...  Input JSON files, one pair each\n" ++
  "\n" ++
  "Options:\n" ++
  "      --debug                                  Print the LIA* formula and the full report\n" ++
  "      --timeout-ms <TIMEOUT_MS>                Time limit per pair in milliseconds" ++
  " (0 for none) [default: 10000]\n" ++
  "      --solver-timeout-ms <SOLVER_TIMEOUT_MS>  Time limit per solver call in milliseconds" ++
  " [default: 2000]\n" ++
  "      --bvm-limit <BVM_LIMIT>                  Number of matchings to try per pair" ++
  " [default: 8]\n" ++
  "  -h, --help                                   Print help\n" ++
  "  -V, --version                                Print version"

/-- Why a run ends at a file. -/
inductive Obstacle where
  /-- The file cannot be read. -/
  | reading (name : String)
  /-- The file does not describe a pair. -/
  | parsing (name : String)
  /-- The check of the pair has no result. -/
  | checking (fault : Fault)
deriving DecidableEq

/-- What is said about the end of a run; a fault is not explained. -/
def Obstacle.message? : Obstacle → Option String
  | .reading name => some ("Error: reading " ++ name)
  | .parsing name => some ("Error: parsing " ++ name)
  | .checking _ => none

/-- The exit status of a run that ends early. -/
def Obstacle.status : Obstacle → UInt32
  | .checking _ => 101
  | _ => 1

/-- What is printed for a file, or why the run ends there.  `content` is nothing if the file
cannot be read. -/
def reportFile (config : Config) (name : String) (content : Option String) :
    Except Obstacle (List String) :=
  match content with
  | none => .error (.reading name)
  | some text =>
      match (Json.parse? text).bind Input.ofJson? with
      | none => .error (.parsing name)
      | some input =>
          match verify input config with
          | .error (.fault f) => .error (.checking f)
          | .error (.error e) => .ok [name ++ "\terror: " ++ e.message]
          | .ok report =>
              let line := name ++ "\t" ++ report.verdict.text
              .ok (if config.debug then [line, report.toJson.pretty] else [line])

end BagEquiv.CommandLine
