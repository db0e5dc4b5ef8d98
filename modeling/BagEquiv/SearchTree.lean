/-
**Search trees with wide nodes.**

A node has up to eleven entries in increasing order and, if it is not a leaf, one subtree more than
entries.  An entry is looked for from the left, so what is found is fixed by the comparisons alone,
also where the order contradicts itself.  A comparison may fail.

Main definitions:

* `SearchTree` — the trees;
* `SearchTree.find` — the entry that equals what is sought;
* `SearchTree.insert` — the tree with one more entry.

Main result:

* `SearchTree.mem_insert` — **an insertion adds its entry and no other**.
-/

import BagEquiv.Outcome

set_option autoImplicit false

namespace BagEquiv

/-- A node with its entries and subtrees. -/
inductive SearchTree (α : Type) where
  | node (entries : List α) (children : List (SearchTree α))

namespace SearchTree

variable {α : Type} {order : α → Except Fault Ordering} {x : α}

def empty : SearchTree α := .node [] []

instance : Inhabited (SearchTree α) := ⟨empty⟩

/-! ### Entries -/

mutual

/-- The entries of the whole tree, those of a node before those below it. -/
def toList : SearchTree α → List α
  | .node entries children => entries ++ toLists children

def toLists : List (SearchTree α) → List α
  | [] => []
  | t :: ts => toList t ++ toLists ts

end

theorem toLists_append (ts us : List (SearchTree α)) :
    toLists (ts ++ us) = toLists ts ++ toLists us := by
  induction ts with
  | nil => rfl
  | cons t ts ih => rw [List.cons_append, toLists, toLists, ih, List.append_assoc]

theorem toLists_take_drop (n : Nat) (ts : List (SearchTree α)) :
    toLists ts = toLists (ts.take n) ++ toLists (ts.drop n) := by
  rw [← toLists_append, List.take_append_drop]

/-! ### Looking for an entry -/

/-- Where to go from the entries of a node. -/
inductive Place (α : Type) where
  | found (entry : α)
  /-- Into the subtree of that number. -/
  | below (index : Nat)

/-- The first entry that is not before what is sought decides; `order` says how what is sought
compares with an entry. -/
def locate (order : α → Except Fault Ordering) : List α → Except Fault (Place α)
  | [] => .ok (.below 0)
  | x :: xs => do
      match ← order x with
      | .lt => return .below 0
      | .eq => return .found x
      | .gt =>
          match ← locate order xs with
          | .found y => return .found y
          | .below i => return .below (i + 1)

mutual

/-- The entry that equals what is sought. -/
def find (order : α → Except Fault Ordering) : SearchTree α → Except Fault (Option α)
  | .node entries children => do
      match ← locate order entries with
      | .found x => return some x
      | .below i => findBelow order i children

def findBelow (order : α → Except Fault Ordering) :
    Nat → List (SearchTree α) → Except Fault (Option α)
  | _, [] => .ok none
  | 0, t :: _ => find order t
  | i + 1, _ :: ts => findBelow order i ts

end

theorem mem_of_locate : ∀ {xs : List α},
    locate order xs = .ok (.found x) → x ∈ xs
  | [], h => by cases h
  | y :: ys, h => by
      obtain ⟨o, _, h⟩ := Fault.ok_of_bind h
      cases o with
      | lt => cases h
      | eq => cases h; exact List.mem_cons_self
      | gt =>
          obtain ⟨p, hp, h⟩ := Fault.ok_of_bind h
          cases p with
          | found z => cases h; exact List.mem_cons_of_mem _ (mem_of_locate hp)
          | below i => cases h

mutual

/-- What is found is an entry. -/
theorem mem_of_find : ∀ (t : SearchTree α),
    find order t = .ok (some x) → x ∈ t.toList
  | .node entries children, h => by
      rw [find] at h
      obtain ⟨p, hp, h⟩ := Fault.ok_of_bind h
      rw [toList]
      cases p with
      | found y => cases h; exact List.mem_append_left _ (mem_of_locate hp)
      | below i => exact List.mem_append_right _ (mem_of_findBelow i children h)

theorem mem_of_findBelow :
    ∀ (i : Nat) (ts : List (SearchTree α)), findBelow order i ts = .ok (some x) → x ∈ toLists ts
  | _, [], h => by cases h
  | 0, t :: ts, h => by
      rw [findBelow] at h
      exact List.mem_append_left _ (mem_of_find t h)
  | i + 1, t :: ts, h => by
      rw [findBelow] at h
      exact List.mem_append_right _ (mem_of_findBelow i ts h)

end

/-! ### Insertion -/

/-- The largest number of entries of a node. -/
def capacity : Nat := 11

/-- The number of the entry that moves up when the entry of the given number makes a node too
large. -/
def middle (index : Nat) : Nat := if index < 5 ∨ index = 6 then 5 else 6

/-- A tree that grew: one tree, or two trees with an entry between them. -/
inductive Grown (α : Type) where
  | whole (t : SearchTree α)
  | split (left : SearchTree α) (entry : α) (right : SearchTree α)

namespace Grown

/-- The entries of what grew. -/
def toList : Grown α → List α
  | .whole t => t.toList
  | .split l x r => x :: (l.toList ++ r.toList)

end Grown

/-- The node of some entries and subtrees, in two if there are too many; `index` is the number of
the entry that came last. -/
def divide (index : Nat) (entries : List α) (children : List (SearchTree α)) : Grown α :=
  if entries.length ≤ capacity then .whole (.node entries children)
  else
    let m := middle index
    match entries.drop m with
    | [] => .whole (.node entries children)
    | x :: rest =>
        .split (.node (entries.take m) (children.take (m + 1))) x
          (.node rest (children.drop (m + 1)))

/-- Where a new entry goes among the entries of a node. -/
def edge (order : α → Except Fault Ordering) : List α → Except Fault Nat
  | [] => .ok 0
  | x :: xs => do
      match ← order x with
      | .gt => return (← edge order xs) + 1
      | _ => return 0

mutual

/-- One more entry in a tree. -/
def grow (order : α → Except Fault Ordering) (x : α) : SearchTree α → Except Fault (Grown α)
  | .node entries children => do
      let i ← edge order entries
      match ← growBelow order x i children with
      | (children, none) => return .whole (.node entries children)
      | (children, some y) => return divide i (entries.insertIdx i y) children

/-- One more entry in the subtree of a number, and the entry that moves up from there.  Without
subtrees it is the new entry itself. -/
def growBelow (order : α → Except Fault Ordering) (x : α) :
    Nat → List (SearchTree α) → Except Fault (List (SearchTree α) × Option α)
  | _, [] => .ok ([], some x)
  | 0, t :: ts => do
      match ← grow order x t with
      | .whole t => return (t :: ts, none)
      | .split l y r => return (l :: r :: ts, some y)
  | i + 1, t :: ts => do
      let (ts, y) ← growBelow order x i ts
      return (t :: ts, y)

end

/-- The tree with one more entry; `order` says how it compares with an entry. -/
def insert (order : α → Except Fault Ordering) (x : α) (t : SearchTree α) :
    Except Fault (SearchTree α) := do
  match ← grow order x t with
  | .whole t => return t
  | .split l y r => return .node [y] [l, r]

theorem mem_divide (y : α) (index : Nat) (entries : List α) (children : List (SearchTree α)) :
    y ∈ (divide index entries children).toList ↔ y ∈ entries ∨ y ∈ toLists children := by
  unfold divide
  split
  · simp [Grown.toList, toList]
  · dsimp only
    split
    · simp [Grown.toList, toList]
    · rename_i x rest h
      have he : y ∈ entries ↔ y ∈ entries.take (middle index) ∨ y = x ∨ y ∈ rest := by
        rw [← List.mem_cons, ← h, ← List.mem_append, List.take_append_drop]
      rw [he, toLists_take_drop (middle index + 1) children]
      simp only [Grown.toList, toList, List.mem_cons, List.mem_append]
      grind

theorem edge_le : ∀ {xs : List α} {i : Nat},
    edge order xs = .ok i → i ≤ xs.length
  | [], i, h => by
      cases h
      exact Nat.le_refl 0
  | x :: xs, i, h => by
      obtain ⟨o, _, h⟩ := Fault.ok_of_bind h
      cases o with
      | gt =>
          obtain ⟨j, hj, h⟩ := Fault.ok_of_bind h
          cases h
          exact Nat.succ_le_succ (edge_le hj)
      | lt => cases h; exact Nat.zero_le _
      | eq => cases h; exact Nat.zero_le _

mutual

theorem mem_grow (y : α) :
    ∀ (t : SearchTree α) (g : Grown α), grow order x t = .ok g →
      (y ∈ g.toList ↔ y = x ∨ y ∈ t.toList)
  | .node entries children, g, h => by
      rw [grow] at h
      obtain ⟨i, hi, ⟨children', up⟩, hb, h⟩ := Fault.ok_of_bind₂ h
      have hm := mem_growBelow y i children children' up hb
      rw [toList, List.mem_append]
      cases up with
      | none =>
          cases h
          simp only [Option.toList_none, List.not_mem_nil, false_or] at hm
          rw [Grown.toList, toList, List.mem_append, hm]
          grind
      | some z =>
          cases h
          simp only [Option.toList_some, List.mem_singleton] at hm
          rw [mem_divide, List.mem_insertIdx (edge_le hi)]
          grind

theorem mem_growBelow (y : α) :
    ∀ (i : Nat) (ts ts' : List (SearchTree α)) (up : Option α),
      growBelow order x i ts = .ok (ts', up) →
      (y ∈ up.toList ∨ y ∈ toLists ts' ↔ y = x ∨ y ∈ toLists ts)
  | _, [], ts', up, h => by
      rw [growBelow] at h
      cases h
      simp [toLists]
  | 0, t :: ts, ts', up, h => by
      rw [growBelow] at h
      obtain ⟨g, hg, h⟩ := Fault.ok_of_bind h
      have hm := mem_grow y t g hg
      cases g with
      | whole t' =>
          cases h
          simp only [Grown.toList] at hm
          simp only [toLists, Option.toList_none, List.not_mem_nil, false_or, List.mem_append]
          grind
      | split l z r =>
          cases h
          simp only [Grown.toList, List.mem_cons, List.mem_append] at hm
          simp only [toLists, Option.toList_some, List.mem_singleton, List.mem_append]
          grind
  | i + 1, t :: ts, ts', up, h => by
      rw [growBelow] at h
      obtain ⟨⟨us, z⟩, hb, h⟩ := Fault.ok_of_bind h
      have hm := mem_growBelow y i ts us z hb
      cases h
      simp only [toLists, List.mem_append]
      grind

end

/-- An insertion adds its entry and no other. -/
theorem mem_insert {t t' : SearchTree α} (h : insert order x t = .ok t') (y : α) :
    y ∈ t'.toList ↔ y = x ∨ y ∈ t.toList := by
  obtain ⟨g, hg, h⟩ := Fault.ok_of_bind h
  rw [← mem_grow y t g hg]
  cases g with
  | whole u => cases h; rfl
  | split l z r =>
      cases h
      simp [toList, toLists, Grown.toList]

end SearchTree

end BagEquiv
