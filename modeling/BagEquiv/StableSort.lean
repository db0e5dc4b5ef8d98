/-
**A stable sort that notices a contradictory order.**

Sorting asks an order, given as a test whether one member is less than another, which may fail.
Short lists are sorted by insertion.  Longer ones are cut into runs that are in order already or
are put in order on their own, and the runs are merged in pairs along a nearly balanced tree.  A
run of up to thirty-two members is sorted in two halves that are merged from both ends at once;
if the two ends do not meet, the order contradicts itself and the sort ends with a fault.  Runs
that are longer are divided at a pivot first.

Main definitions:

* `StableSort.insertAll` — sorting by insertion;
* `StableSort.mergeEnds` — the merge from both ends;
* `StableSort.sort` — **the sort**.
-/

import BagEquiv.Outcome

set_option autoImplicit false

namespace BagEquiv.StableSort

-- Powers are core's, not those of a monoid.
attribute [local instance (high)] instPowNat

variable {α : Type}

/-- Whether one member is less than another. -/
abbrev Less (α : Type) := α → α → Except Fault Bool

/-! ### Insertion -/

/-- A member put into a list that is written from right to left, after the last one from the right
that it is not less than. -/
def place (less : Less α) (x : α) : List α → Except Fault (List α)
  | [] => .ok [x]
  | y :: ys => do
      if ← less x y then return y :: (← place less x ys) else return x :: y :: ys

/-- Members put one after the other into a list that is in order. -/
def insertAll (less : Less α) (done rest : List α) : Except Fault (List α) := do
  return (← rest.foldlM (fun ys x => place less x ys) done.reverse).reverse

/-! ### Merging -/

/-- The first `n` members of the merge of two lists that are in order, and how many of them come
from the left one. -/
def mergeFront (less : Less α) : (n : Nat) → List α → List α → Except Fault (List α × Nat)
  | n + 1, x :: xs, y :: ys => do
      if ← less y x then
        let (zs, k) ← mergeFront less n (x :: xs) ys
        return (y :: zs, k)
      else
        let (zs, k) ← mergeFront less n xs (y :: ys)
        return (x :: zs, k + 1)
  | _, _, _ => .ok ([], 0)

/-- The last `n` members of the merge of two lists that are in order, from the last one on, and how
many of them come from the left one.  The lists are written from right to left. -/
def mergeBack (less : Less α) : (n : Nat) → List α → List α → Except Fault (List α × Nat)
  | n + 1, x :: xs, y :: ys => do
      if ← less y x then
        let (zs, k) ← mergeBack less n xs (y :: ys)
        return (x :: zs, k + 1)
      else
        let (zs, k) ← mergeBack less n (x :: xs) ys
        return (y :: zs, k)
  | _, _, _ => .ok ([], 0)

/-- The merge of two lists from both ends, half of it from each.  The right list is as long as the
left one or longer by one, and then one member is left for the middle. -/
def mergeEnds (less : Less α) (xs ys : List α) : Except Fault (List α) := do
  let h := xs.length
  let (front, i) ← mergeFront less h xs ys
  let (back, j) ← mergeBack less h xs.reverse ys.reverse
  if ys.length = h then
    if i + j = h then return front ++ back.reverse else .error .disorder
  else if i + j + 1 = h then return front ++ (xs.drop i).take 1 ++ back.reverse
  else if i + j = h then return front ++ (ys.drop (h - i)).take 1 ++ back.reverse
  else .error .disorder

/-- The merge of two lists from the left, for a left list that is not the longer one. -/
def mergeLeft (less : Less α) : List α → List α → Except Fault (List α)
  | [], ys => .ok ys
  | x :: xs, [] => .ok (x :: xs)
  | x :: xs, y :: ys => do
      if ← less y x then return y :: (← mergeLeft less (x :: xs) ys)
      else return x :: (← mergeLeft less xs (y :: ys))

/-- The merge of two lists from the right; they and the result are written from right to left. -/
def mergeRight (less : Less α) : List α → List α → Except Fault (List α)
  | [], ys => .ok ys
  | x :: xs, [] => .ok (x :: xs)
  | x :: xs, y :: ys => do
      if ← less y x then return x :: (← mergeRight less xs (y :: ys))
      else return y :: (← mergeRight less (x :: xs) ys)

/-- The merge of two lists, from the side of the shorter one. -/
def merge (less : Less α) (xs ys : List α) : Except Fault (List α) :=
  if xs.length ≤ ys.length then mergeLeft less xs ys
  else do return (← mergeRight less xs.reverse ys.reverse).reverse

/-! ### Short runs -/

/-- Four members in order by five comparisons. -/
def sortFour (less : Less α) (x y z w : α) : Except Fault (List α) := do
  let (a, b) := if ← less y x then (y, x) else (x, y)
  let (c, d) := if ← less w z then (w, z) else (z, w)
  let low ← less c a
  let high ← less d b
  let least := if low then c else a
  let greatest := if high then b else d
  let left := if low then a else if high then c else b
  let right := if high then d else if low then b else c
  if ← less right left then return [least, right, left, greatest]
  else return [least, left, right, greatest]

/-- The members that a half starts with in order: the first eight, the first four, or the first
one, depending on `n`, the length of the whole run. -/
def startHalf (less : Less α) (n : Nat) (xs : List α) : Except Fault (List α) :=
  match xs with
  | x :: y :: z :: w :: rest =>
      if 8 ≤ n then do
        let first ← sortFour less x y z w
        match rest with
        | x' :: y' :: z' :: w' :: rest =>
            if 16 ≤ n then
              insertAll less (← mergeEnds less first (← sortFour less x' y' z' w')) rest
            else insertAll less first (x' :: y' :: z' :: w' :: rest)
        | rest => insertAll less first rest
      else insertAll less [x] (y :: z :: w :: rest)
  | xs => insertAll less [] xs

/-- The length of the longest run that is sorted in two halves. -/
def runLength : Nat := 32

/-- A run in order. -/
def sortRun (less : Less α) (xs : List α) : Except Fault (List α) :=
  let n := xs.length
  if n < 2 then .ok xs
  else do
    let h := n / 2
    mergeEnds less (← startHalf less n (xs.take h)) (← startHalf less n (xs.drop h))

/-! ### Runs -/

/-- Some members in a row, and whether they are in order. -/
structure Run (α : Type) where
  items : List α
  ordered : Bool

/-- How many members continue a row that ends with `x`, each less than the one before it, or each
not less. -/
def continued (less : Less α) (falling : Bool) (x : α) : List α → Except Fault Nat
  | [] => .ok 0
  | y :: ys => do
      if (← less y x) = falling then return (← continued less falling y ys) + 1 else return 0

/-- The number of members at the front that rise, or that fall strictly, and whether they fall. -/
def naturalRun (less : Less α) : List α → Except Fault (Nat × Bool)
  | x :: y :: rest => do
      let falling ← less y x
      return (2 + (← continued less falling y rest), falling)
  | xs => .ok (xs.length, false)

/-- The run at the front of a list, and what comes after it.  If the list is in order far enough,
this is as far as it goes; otherwise a short run is put in order if `eager` is set, and a longer
one is left as it is if not. -/
def nextRun (less : Less α) (eager : Bool) (good : Nat) (xs : List α) :
    Except Fault (Run α × List α) := do
  let (n, falling) ← if good ≤ xs.length then naturalRun less xs else .ok (0, false)
  if good ≤ n then
    return (⟨if falling then (xs.take n).reverse else xs.take n, true⟩, xs.drop n)
  else if eager then return (⟨← sortRun less (xs.take runLength), true⟩, xs.drop runLength)
  else return (⟨xs.take good, false⟩, xs.drop good)

/-- Two neighbouring runs made one.  Two runs that are not in order stay so; otherwise each is put
in order by `settle`, and they are merged. -/
def join (less : Less α) (settle : List α → Except Fault (List α)) (a b : Run α) :
    Except Fault (Run α) :=
  if a.ordered || b.ordered then do
    let xs ← if a.ordered then .ok a.items else settle a.items
    let ys ← if b.ordered then .ok b.items else settle b.items
    return ⟨← merge less xs ys, true⟩
  else .ok ⟨a.items ++ b.items, false⟩

/-- The depth, in the tree of merges of `n` members, of the merge of two neighbouring runs that
start, meet and end at the given positions: the number of leading bits that their middles share. -/
def mergeDepth (n start meet stop : Nat) : Nat :=
  let scale := (2 ^ (62 : Nat) + n - 1) / n
  let bits := (scale * (start + meet)) ^^^ (scale * (meet + stop))
  if bits = 0 then 64 else 63 - bits.log2

/-- The last run joined with those before it whose merges lie at least at a depth; the first entry
of the stack, at its end, stays. -/
def collapse (less : Less α) (settle : List α → Except Fault (List α)) (depth : Nat) :
    List (Run α × Nat) → Run α → Except Fault (List (Run α × Nat) × Run α)
  | (a, d) :: e :: stack, b =>
      if depth ≤ d then do collapse less settle depth (e :: stack) (← join less settle a b)
      else .ok ((a, d) :: e :: stack, b)
  | stack, b => .ok (stack, b)

/-- The state of the merges: the runs that wait with the depths of their merges, the last one
first, then the run before the next one, and the position that was reached. -/
structure Merges (α : Type) where
  stack : List (Run α × Nat)
  last : Run α
  reached : Nat

/-- All runs of a list of `n` members joined to one.  Every run has a member, so `fuel` need not
exceed the number of members by more than one. -/
def joinRuns (less : Less α) (settle : List α → Except Fault (List α)) (eager : Bool)
    (good n : Nat) : (fuel : Nat) → Merges α → List α → Except Fault (Run α)
  | 0, s, _ => .ok s.last
  | fuel + 1, s, xs =>
      if xs.isEmpty then do
        let (_, run) ← collapse less settle 0 s.stack s.last
        return run
      else do
        let (run, rest) ← nextRun less eager good xs
        let stop := s.reached + run.items.length
        let depth := mergeDepth n (s.reached - s.last.items.length) s.reached stop
        let (stack, last) ← collapse less settle depth s.stack s.last
        joinRuns less settle eager good n fuel ⟨(last, depth) :: stack, run, stop⟩ rest

/-- The length from which on a row that is in order already counts as a run. -/
def goodLength (n : Nat) : Nat :=
  if n ≤ 4096 then min (n - n / 2) 64
  else
    let k := (n.log2 + 1) / 2
    (2 ^ k + n / 2 ^ k) / 2

/-- Sorting by runs; `settle` sorts what is not in order. -/
def byRuns (less : Less α) (settle : List α → Except Fault (List α)) (eager : Bool)
    (xs : List α) : Except Fault (List α) := do
  let n := xs.length
  if n < 2 then return xs
  let run ← joinRuns less settle eager (goodLength n) n (n + 1) ⟨[], ⟨[], true⟩, 0⟩ xs
  if run.ordered then return run.items else settle run.items

/-! ### Division at pivots -/

/-- The middle one of three members. -/
def median (less : Less α) (a b c : α) : Except Fault α := do
  let x ← less a b
  let y ← less a c
  if x = y then
    if (← less b c) = x then return b else return c
  else return a

/-- The middle one of three groups of `n` members that start at the given members of a list; each
group is represented by the middle one of three parts of it, as long as it is large. -/
def groupMedian (less : Less α × (Nat → α)) : (fuel n a b c : Nat) → Except Fault Nat
  | 0, _, a, b, c => medianAt a b c
  | fuel + 1, n, a, b, c =>
      if 64 ≤ n * 8 then do
        let k := n / 8
        let a ← groupMedian less fuel k a (a + k * 4) (a + k * 7)
        let b ← groupMedian less fuel k b (b + k * 4) (b + k * 7)
        let c ← groupMedian less fuel k c (c + k * 4) (c + k * 7)
        medianAt a b c
      else medianAt a b c
where
  /-- The middle one of the members at three positions. -/
  medianAt (a b c : Nat) : Except Fault Nat :=
    median (fun i j => less.1 (less.2 i) (less.2 j)) a b c

/-- The position of the pivot. -/
def pivotIndex (less : Less α) (xs : List α) (default : α) : Except Fault Nat :=
  let v := xs.toArray
  let n := xs.length / 8
  let fuel := if xs.length < 64 then 0 else xs.length
  groupMedian (less, fun i => v.getD i default) fuel n 0 (n * 4) (n * 7)

/-- The members of a list that pass a test, and the others, each in order; the member at `index`
passes if `passes` is set. -/
def divideAt (test : α → Except Fault Bool) (passes : Bool) :
    (index : Nat) → List α → Except Fault (List α × List α)
  | _, [] => .ok ([], [])
  | 0, x :: xs => do
      let (ys, zs) ← xs.foldrM (fun x (ys, zs) => do
        if ← test x then return (x :: ys, zs) else return (ys, x :: zs)) ([], [])
      return if passes then (x :: ys, zs) else (ys, x :: zs)
  | i + 1, x :: xs => do
      let pass ← test x
      let (ys, zs) ← divideAt test passes i xs
      return if pass then (x :: ys, zs) else (ys, x :: zs)

/-- Sorting by division at pivots, at most `limit` times in turn, and by runs after that.  `above`
is the pivot that everything here is not less than, if there is one; a pivot that is not greater
is divided from the members equal to it. -/
def partitioned (less : Less α) : (limit : Nat) → Option α → List α → Except Fault (List α)
  | _, _, [] => .ok []
  | limit, above, x :: xs => do
      let all := x :: xs
      if all.length ≤ runLength then sortRun less all
      else match limit with
        | 0 => byRuns less .ok true all
        | limit + 1 => do
            let i ← pivotIndex less all x
            let pivot := all.getD i x
            let repeated ← match above with
              | some p => (!·) <$> less p pivot
              | none => .ok false
            let (left, right) ←
              if repeated then .ok ([], all) else divideAt (fun y => less y pivot) false i all
            if left.isEmpty then
              let (equal, greater) ← divideAt (fun y => (!·) <$> less pivot y) true i all
              return equal ++ (← partitioned less limit none greater)
            else
              let right ← partitioned less limit (some pivot) right
              return (← partitioned less limit above left) ++ right

/-- Sorting a run that is not in order. -/
def settle (less : Less α) (xs : List α) : Except Fault (List α) :=
  partitioned less (2 * (xs.length ||| 1).log2) none xs

/-! ### Sorting -/

/-- A list in increasing order; members of which none is less than the other keep their order. -/
def sort (less : Less α) (xs : List α) : Except Fault (List α) :=
  if xs.length ≤ 20 then insertAll less [] xs
  else byRuns less (settle less) (decide (xs.length ≤ 2 * runLength)) xs

end BagEquiv.StableSort
