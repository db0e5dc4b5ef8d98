/-
**Bags, and combinations of the members of lists.**

A bag counts how many times each item occurs.  The entries of a bag list each item that occurs
once, with its count.

Main definitions:

* `Bag` — items and their counts;
* `Bag.count` — the view of a bag: how many times an item occurs;
* `Bag.insert`, `ofList`, `union` — adding items.
-/

import BagEquiv.Outcome

set_option autoImplicit false

namespace BagEquiv

-- Powers and zero are core's, not those of a monoid.
attribute [local instance (high)] instPowNat Zero.ofOfNat0

/-- Items with the number of times they occur. -/
structure Bag (α : Type) where
  entries : List (α × Nat)

namespace Bag

variable {α : Type} [DecidableEq α]

def empty : Bag α := ⟨[]⟩

instance : Inhabited (Bag α) := ⟨empty⟩

/-- The count of an item among entries. -/
def countIn (x : α) : List (α × Nat) → Nat
  | [] => 0
  | (y, n) :: rest => if y = x then n else countIn x rest

/-- How many times an item occurs. -/
def count (b : Bag α) (x : α) : Nat := countIn x b.entries

/-- `n` more occurrences of an item. -/
def bump (x : α) (n : Nat) : List (α × Nat) → List (α × Nat)
  | [] => [(x, n)]
  | (y, m) :: rest => if y = x then (y, m + n) :: rest else (y, m) :: bump x n rest

def insert (b : Bag α) (x : α) : Bag α := ⟨bump x 1 b.entries⟩

/-- The bag of the members of a list. -/
def ofList (xs : List α) : Bag α := xs.foldl insert empty

/-- The items of both bags together. -/
def union (a b : Bag α) : Bag α :=
  b.entries.foldl (fun a e => ⟨bump e.1 e.2 a.entries⟩) a

def isEmpty (b : Bag α) : Bool := b.entries.isEmpty

/-- The number of items, each as often as it occurs. -/
def size (b : Bag α) : Nat := (b.entries.map Prod.snd).sum

/-- The number of items that two bags share. -/
def common (a b : Bag α) : Nat := (a.entries.map fun e => min e.2 (b.count e.1)).sum

/-- The number of items that two bags do not share. -/
def distance (a b : Bag α) : Nat := a.size + b.size - 2 * a.common b

/-- Whether two bags list the same items with the same counts. -/
def equal (a b : Bag α) : Bool :=
  a.entries.length == b.entries.length && a.entries.all fun e =>
    b.entries.any fun f => e.1 = f.1 && e.2 = f.2

/-! ### Counts that are words -/

namespace Checked

/-- A count, if it is a 64-bit word. -/
def narrow (n : Nat) : Except Fault Nat := if n < 2 ^ (64 : Nat) then .ok n else .error .overflow

/-- A bag, if all its counts are words. -/
def narrowAll (b : Bag α) : Except Fault (Bag α) :=
  if b.entries.all (·.2 < 2 ^ (64 : Nat)) then .ok b else .error .overflow

def insert (b : Bag α) (x : α) : Except Fault (Bag α) := narrowAll (b.insert x)

def union (a b : Bag α) : Except Fault (Bag α) := narrowAll (a.union b)

def size (b : Bag α) : Except Fault Nat := narrow b.size

def common (a b : Bag α) : Except Fault Nat := narrow (a.common b)

def distance (a b : Bag α) : Except Fault Nat := do
  let both ← narrow (a.size + b.size)
  let shared ← narrow (2 * a.common b)
  return both - shared

end Checked

end Bag

/-! ### Combinations of the members of lists -/

section Combinations

variable {α : Type}

/-- The pairs of members of a list, each member with every later one. -/
def pairs : List α → List (α × α)
  | [] => []
  | x :: xs => xs.map (fun y => (x, y)) ++ pairs xs

/-- Each member of a list with the other members. -/
def selections : List α → List (α × List α)
  | [] => []
  | x :: xs => (x, xs) :: (selections xs).map fun (y, ys) => (y, x :: ys)

/-- The orders of the members of a list of the given length. -/
def permutationsOf : (length : Nat) → List α → List (List α)
  | 0, _ => [[]]
  | n + 1, xs => (selections xs).flatMap fun (x, rest) => (permutationsOf n rest).map (x :: ·)

/-- The orders of the members of a list. -/
def permutations (xs : List α) : List (List α) := permutationsOf xs.length xs

/-- One member of each list. -/
def choices : List (List α) → List (List α)
  | [] => [[]]
  | xs :: rest => xs.flatMap fun x => (choices rest).map (x :: ·)

end Combinations

end BagEquiv
