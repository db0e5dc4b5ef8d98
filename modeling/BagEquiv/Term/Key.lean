/-
**Keys: terms up to the order of operands.**

The key of a term is a sequence of numbers in which the operands of sums and products, and the
arguments of equality and of its negation, stand in increasing order of their own keys.  Two terms
have the same key exactly if they become equal when such operands are exchanged, at any depth, and
constants are read as numbers.  Each part is written so that it is clear where it ends.

Main definitions:

* `Term.key` — the key of a term;
* `Term.keys` — the keys of all nodes, as a bag has them;
* `Term.hasKey`, `Term.requireKeys` — whether keys can be computed with words.
-/

import BagEquiv.Term.Subterm

set_option autoImplicit false

namespace BagEquiv

/-- A sequence of numbers that tells where it ends. -/
abbrev Key := List Nat

namespace Key

/-- A text after its length. -/
def ofString (s : String) : Key := s.length :: s.toList.map Char.toNat

def ofVar : Var → Key
  | .base b => 0 :: ofString b
  | .proj a b => 1 :: (ofString a ++ ofString b)

def ofVarSet (s : VarSet) : Key := s.size :: s.toList.flatMap ofVar

def ofRat (q : Rat) : Key := [if q.num < 0 then 1 else 0, q.num.natAbs, q.den]

def ofPred : Pred → Key
  | .eq => [0]
  | .ne => [1]
  | .lt => [2]
  | .le => [3]
  | .gt => [4]
  | .ge => [5]
  | .isNull => [6]
  | .named name => 7 :: ofString name

/-- Keys after their number. -/
def ofList (ks : List Key) : Key := ks.length :: ks.flatten

/-- Keys are compared by their first numbers that differ; one that ends before is less. -/
def le : Key → Key → Bool
  | [], _ => true
  | _ :: _, [] => false
  | m :: k, n :: l => if m = n then le k l else m < n

/-- The keys with one more in its place. -/
def place (k : Key) : List Key → List Key
  | [] => [k]
  | l :: ls => if le k l then k :: l :: ls else l :: place k ls

/-- Keys in increasing order, after their number. -/
def ofBag (ks : List Key) : Key := ofList (ks.foldr place [])

end Key

namespace Term

mutual

/-- The key of a term. -/
def key : Term → Key
  | .sum vars body => 0 :: (Key.ofVarSet vars ++ key body)
  | .add terms => 1 :: Key.ofBag (keyList terms)
  | .mul factors => 2 :: Key.ofBag (keyList factors)
  | .neg term => 3 :: key term
  | .squash term => 4 :: key term
  | .pred kind args =>
      5 :: (Key.ofPred kind ++
        if kind.isSymmetric then Key.ofBag (keyList args) else Key.ofList (keyList args))
  | .var v => 6 :: Key.ofVar v
  | .const q => 7 :: Key.ofRat q.toRat
  | .table name v => 8 :: (Key.ofString name ++ Key.ofVar v)
  | .func name args => 9 :: (Key.ofString name ++ Key.ofList (keyList args))
  | .str s => 10 :: Key.ofString s

def keyList : List Term → List Key
  | [] => []
  | t :: ts => key t :: keyList ts

end

theorem keyList_eq (ts : List Term) : keyList ts = ts.map key := by
  induction ts with
  | nil => rfl
  | cons t ts ih => simp [keyList, ih]

/-- The keys of all nodes. -/
def keys (t : Term) : List Key := t.subterms.map key

mutual

/-- Whether the key can be computed with words: the continued fraction of every constant can. -/
def hasKey : Term → Bool
  | .sum _ body => hasKey body
  | .add terms => allKeyed terms
  | .mul factors => allKeyed factors
  | .neg term => hasKey term
  | .squash term => hasKey term
  | .pred _ args => allKeyed args
  | .var _ => true
  | .const q => q.expands
  | .table _ _ => true
  | .func _ args => allKeyed args
  | .str _ => true

def allKeyed : List Term → Bool
  | [] => true
  | t :: ts => hasKey t && allKeyed ts

end

theorem allKeyed_eq (ts : List Term) : allKeyed ts = ts.all hasKey := by
  induction ts with
  | nil => rfl
  | cons t ts ih => rw [allKeyed, ih, List.all_cons]

/-- An overflow, unless all the terms have keys. -/
def requireKeys (ts : List Term) : Except Fault Unit :=
  if ts.all hasKey then .ok () else .error .overflow

end Term

end BagEquiv
