/-
**How well a matching fits.**

Main definitions:

* `Term.distance` — the number of nodes that two terms do not share, up to the order of
  operands;
* `Matching.score` — the distance that is left between two terms when a matching is
  applied, the summations of the left one paired greedily with those of the right one;
* `Term.Checked.distance`, `Matching.Checked.score` — the same with words, where
  keys can overflow.
-/

import BagEquiv.Bag
import BagEquiv.Matching

set_option autoImplicit false

namespace BagEquiv

-- Zero is core's, not that of a monoid.
attribute [local instance (high)] Zero.ofOfNat0

namespace Term

/-- The keys of the nodes. -/
def shape (t : Term) : Bag Key := .ofList t.keys

/-- The number of nodes that two terms do not share. -/
def distance (a b : Term) : Nat := a.shape.distance b.shape

/-- The same, if the keys can be computed with words. -/
def Checked.distance (a b : Term) : Except Fault Nat := do
  requireKeys [a, b]
  return a.distance b

end Term

namespace Matching

/-- The first member of a list at the least distance from a term, that distance, and the other
members. -/
def nearest? (t : Term) : List Term → Option (Nat × List Term)
  | [] => none
  | r :: rs =>
      match nearest? t rs with
      | none => some (t.distance r, rs)
      | some (d, others) =>
          if d < t.distance r then some (d, r :: others) else some (t.distance r, rs)

/-- Each left term is paired with the nearest right one that is left.  The score is the sum of the
distances, and of the sizes of the terms without a partner. -/
def pairing : List Term → List Term → Nat
  | [], rights => (rights.map Term.size).sum
  | l :: ls, rights =>
      match nearest? l rights with
      | some (d, rights) => d + pairing ls rights
      | none => l.size + pairing ls []

/-- The summations of a term that are in no other one, as terms. -/
def outermost (t : Term) : List Term := t.summations.map fun (vars, body) => .sum vars body

/-- The distance that is left between two terms. -/
def score (m : Matching) (left right : Term) : Nat :=
  pairing (outermost (m.apply left)) (outermost (m.apply right))

/-- The terms whose keys decide a pairing: the right ones, and as many left ones as find a partner;
none if there is nothing to pair. -/
def keyed (lefts rights : List Term) : List Term :=
  if lefts.isEmpty then [] else lefts.take rights.length ++ rights

/-- Whether the summations of two terms have keys, so that matchings of them have scores. -/
def requireScores (left right : Term) : Except Fault Unit :=
  Term.requireKeys (keyed (outermost left) (outermost right))

/-- The distance that is left between two terms, if the keys can be computed with words.  A matching
renames variables only, so it does not decide about that. -/
def Checked.score (m : Matching) (left right : Term) : Except Fault Nat := do
  requireScores left right
  return m.score left right

end Matching

end BagEquiv
