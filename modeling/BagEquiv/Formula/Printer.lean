/-
**The text of a formula.**

Main definition:

* `Formula.text` — a formula in brackets with the operator in front.
-/

import BagEquiv.Formula

set_option autoImplicit false

namespace BagEquiv.Formula

/-- An operator and its operands in brackets. -/
def operation (op : String) (args : List String) : String :=
  "(" ++ op ++ " " ++ " ".intercalate args ++ ")"

/-- The names of a vector in brackets. -/
def vectorText (v : List Symbol) : String := "(" ++ " ".intercalate (v.map Symbol.name) ++ ")"

mutual

def text : Formula → String
  | .const q => q.text
  | .bool b => if b then "true" else "false"
  | .sym s => s.name
  | .plus terms => operation "+" (texts terms)
  | .minus a b => operation "-" [text a, text b]
  | .mul factors => operation "*" (texts factors)
  | .div a b => operation "/" [text a, text b]
  | .ite c a b => operation "ite" [text c, text a, text b]
  | .eq a b => operation "=" [text a, text b]
  | .le a b => operation "<=" [text a, text b]
  | .lt a b => operation "<" [text a, text b]
  | .not a => operation "not" [text a]
  | .and terms => operation "and" (texts terms)
  | .or terms => operation "or" (texts terms)
  | .func name args _ => operation name (texts args)
  | .star outer inner _ body => operation "sum" [vectorText outer, vectorText inner, text body]

def texts : List Formula → List String
  | [] => []
  | t :: ts => text t :: texts ts

end

end BagEquiv.Formula
