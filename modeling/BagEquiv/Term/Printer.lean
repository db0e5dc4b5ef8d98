/-
**The text of a term.**

Main definition:

* `Term.text` — a term in the notation of sums and products, each summation over several
  lines with its body indented.
-/

import BagEquiv.Term
import BagEquiv.Text

set_option autoImplicit false

namespace BagEquiv.Term

/-- A predicate and its arguments: in front of them for tests, and between them for comparisons. -/
def predText (kind : Pred) (args : List String) : String :=
  match kind with
  | .isNull => "[" ++ kind.text ++ "(" ++ ", ".intercalate args ++ ")]"
  | .named _ => "[" ++ kind.text ++ "(" ++ ", ".intercalate args ++ ")]"
  | _ => "[" ++ (" " ++ kind.text ++ " ").intercalate args ++ "]"

mutual

def text : Term → String
  | .sum vars body => "∑" ++ vars.text ++ " \x7b\n" ++ Text.indent (text body) ++ "\n\x7d"
  | .add terms => "(" ++ " + ".intercalate (texts terms) ++ ")"
  | .mul factors => "(" ++ " × ".intercalate (texts factors) ++ ")"
  | .neg term => "not(" ++ text term ++ ")"
  | .squash term => "‖" ++ text term ++ "‖"
  | .pred kind args => predText kind (texts args)
  | .var v => v.text
  | .const q => q.text
  | .table name v => name ++ "(" ++ v.text ++ ")"
  | .func name args => name ++ "(" ++ ", ".intercalate (texts args) ++ ")"
  | .str s => "'" ++ s ++ "'"

def texts : List Term → List String
  | [] => []
  | t :: ts => text t :: texts ts

end

end BagEquiv.Term
