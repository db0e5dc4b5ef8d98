/-
**Searching through matchings.**

From a first matching others are reached by exchanging two variables of one summation over the
same table.  The search yields the matchings in the order of their scores, the earlier found ones
first among equals, and never one twice.

Main definitions:

* `Matching.neighbors` — the valid matchings one exchange away;
* `Search` — the matchings found and not yet yielded, and those seen;
* `Search.peek?`, `Search.next?`, `Search.drain` — the results.
-/

import BagEquiv.Bag
import BagEquiv.BinderTree
import BagEquiv.Matching.Scope
import BagEquiv.Matching.Score

set_option autoImplicit false

namespace BagEquiv

namespace Matching

/-- The bound variables of the summations of two terms. -/
def nodes (left right : Term) : List (List BoundVar) :=
  BinderTree.nodes (left.forest ++ right.forest)

/-- The valid matchings that arise by exchanging two variables of one summation that range over
the same table and are in different layers. -/
def neighbors (m : Matching) (left right : Term) : List Matching :=
  let exchanges := ((nodes left right).flatMap pairs).filter fun (a, b) =>
    a.table = b.table && m.layerOf? a.var ≠ m.layerOf? b.var
  (exchanges.map fun (a, b) => m.swap a.var b.var).filter (·.isValid left right)

end Matching

/-- The state of a search. -/
structure Search where
  left : Term
  right : Term
  /-- Matchings with their scores, in the order in which they were found. -/
  pending : List (Nat × Matching)
  visited : List Matching
  yielded : Nat
  limit : Nat

namespace Search

/-- The search from a first matching, for at most `limit` results. -/
def start (left right : Term) (seed : Matching) (limit : Nat) : Search where
  left := left
  right := right
  pending := [(seed.score left right, seed)]
  visited := [seed]
  yielded := 0
  limit := limit

/-- The same, if matchings of the terms have scores. -/
def Checked.start (left right : Term) (seed : Matching) (limit : Nat) : Except Fault Search := do
  Matching.requireScores left right
  return .start left right seed limit

/-- The first entry of the least score, and the other entries. -/
def popLeast? : List (Nat × Matching) → Option ((Nat × Matching) × List (Nat × Matching))
  | [] => none
  | x :: xs =>
      match popLeast? xs with
      | none => some (x, xs)
      | some (y, others) => if y.1 < x.1 then some (y, x :: others) else some (x, xs)

/-- A matching is put on the list unless it was seen. -/
def discover (s : Search) (m : Matching) : Search :=
  if m ∈ s.visited then s
  else { s with
    visited := m :: s.visited
    pending := s.pending ++ [(m.score s.left s.right, m)] }

/-- The matching that `next?` would yield. -/
def peek? (s : Search) : Option Matching :=
  if s.limit ≤ s.yielded then none else (popLeast? s.pending).map fun (x, _) => x.2

/-- The best matching that is pending, and the search after it. -/
def next? (s : Search) : Option (Matching × Search) :=
  if s.limit ≤ s.yielded then none
  else match popLeast? s.pending with
    | none => none
    | some ((_, m), others) =>
        let s := { s with pending := others, yielded := s.yielded + 1 }
        some (m, (m.neighbors s.left s.right).foldl discover s)

/-- The next matchings, at most `n` of them, and the search after them. -/
def take : (n : Nat) → Search → List Matching × Search
  | 0, s => ([], s)
  | n + 1, s =>
      match s.next? with
      | none => ([], s)
      | some (m, s) =>
          let (ms, s) := take n s
          (m :: ms, s)

/-- All matchings that are left. -/
def drain (s : Search) : List Matching × Search := s.take (s.limit - s.yielded)

end Search

end BagEquiv
