/-
**The program.**

Reads the files named on the command line, one pair each, and prints a verdict for each.
-/

import BagEquiv.CommandLine

set_option autoImplicit false

namespace BagEquiv.CommandLine

/-- The content of a file, if it can be read. -/
def readFile? (name : String) : IO (Option String) := do
  try return some (← IO.FS.readFile name) catch _ => return none

/-- The files checked in turn; the first that has no result ends the run. -/
def runFiles (config : Config) : List String → IO UInt32
  | [] => return 0
  | name :: rest => do
      match reportFile config name (← readFile? name) with
      | .error obstacle =>
          obstacle.message?.forM fun message => IO.eprintln message
          return obstacle.status
      | .ok lines =>
          lines.forM fun line => IO.println line
          runFiles config rest

end BagEquiv.CommandLine

open BagEquiv.CommandLine in
/-- Runs the command line. -/
def main (args : List String) : IO UInt32 :=
  match parse? args with
  | none => do
      IO.eprintln "error: the arguments are not understood\n\nFor more information, try '--help'."
      return 2
  | some .help => do
      IO.println helpText
      return 0
  | some .version => do
      IO.println versionText
      return 0
  | some (.run config files) => runFiles config files
