/-
**Taking summations out of a term.**

The summations of a term that are in no other summation are replaced by placeholders, from left to
right.  The placeholders are drawn from a supply of names, whatever its state is.

Main definitions:

* `Term.Stripped` — a summation that was taken out, and its placeholder;
* `Term.strip` — the term with placeholders, and what they stand for.
-/

import BagEquiv.Term.Subterm

set_option autoImplicit false

namespace BagEquiv.Term

/-- A summation that was taken out of a term, and the name of the placeholder in its place. -/
structure Stripped where
  name : String
  vars : VarSet
  body : Term
deriving DecidableEq

variable {σ : Type}

mutual

/-- The term with a placeholder for each summation that is in no other one, the summations, and
the supply of names afterwards. -/
def strip (fresh : σ → String × σ) : Term → σ → Term × List Stripped × σ
  | .sum vars body, s =>
      let (name, s) := fresh s
      (tuple name, [⟨name, vars, body⟩], s)
  | .add terms, s =>
      let (terms, found, s) := stripList fresh terms s
      (.add terms, found, s)
  | .mul factors, s =>
      let (factors, found, s) := stripList fresh factors s
      (.mul factors, found, s)
  | .neg term, s =>
      let (term, found, s) := strip fresh term s
      (.neg term, found, s)
  | .squash term, s =>
      let (term, found, s) := strip fresh term s
      (.squash term, found, s)
  | .pred kind args, s =>
      let (args, found, s) := stripList fresh args s
      (.pred kind args, found, s)
  | .var v, s => (.var v, [], s)
  | .const q, s => (.const q, [], s)
  | .table name v, s => (.table name v, [], s)
  | .func name args, s =>
      let (args, found, s) := stripList fresh args s
      (.func name args, found, s)
  | .str t, s => (.str t, [], s)

def stripList (fresh : σ → String × σ) : List Term → σ → List Term × List Stripped × σ
  | [], s => ([], [], s)
  | t :: ts, s =>
      let (t, found, s) := strip fresh t s
      let (ts, more, s) := stripList fresh ts s
      (t :: ts, found ++ more, s)

end

end BagEquiv.Term
