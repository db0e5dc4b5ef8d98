/-
**Tuple variables and sets of them.**

A variable is a tuple, or a column of one.  Summations bind sets of variables; a set is the list
of its members in increasing order, tuples before columns and otherwise by the names.

Main definitions:

* `Var` — tuples and columns, with `base` and `renamed`;
* `VarSet` — sets of variables as strictly increasing lists.

Main results:

* `VarSet.mem_insert`, `VarSet.mem_erase` — membership after the operations.
-/

set_option autoImplicit false

namespace BagEquiv

/-- A tuple variable, or a column of one. -/
inductive Var where
  /-- The tuple of that name. -/
  | base (name : String)
  /-- The column `attr` of the tuple `name`. -/
  | proj (attr name : String)
deriving DecidableEq, Repr

namespace Var

/-- The tuple a variable belongs to. -/
def tuple : Var → String
  | .base b => b
  | .proj _ b => b

/-- The same variable of the tuple `target`, if it belongs to the tuple `source`. -/
def renamed (source target : String) : Var → Var
  | .base b => if b = source then .base target else .base b
  | .proj a b => if b = source then .proj a target else .proj a b

def text : Var → String
  | .base b => b
  | .proj a b => a ++ "(" ++ b ++ ")"

/-! ### The order of variables -/

/-- Tuples come before columns; otherwise the names decide. -/
protected def lt : Var → Var → Prop
  | .base a, .base b => a < b
  | .base _, .proj _ _ => True
  | .proj _ _, .base _ => False
  | .proj a b, .proj c d => a < c ∨ (a = c ∧ b < d)

instance : LT Var := ⟨Var.lt⟩

instance decidableLt : (a b : Var) → Decidable (a < b)
  | .base a, .base b => inferInstanceAs (Decidable (a < b))
  | .base _, .proj _ _ => isTrue trivial
  | .proj _ _, .base _ => isFalse id
  | .proj a b, .proj c d => inferInstanceAs (Decidable (a < c ∨ (a = c ∧ b < d)))

theorem lt_irrefl (a : Var) : ¬ a < a := by
  cases a with
  | base b => exact String.lt_irrefl b
  | proj a b =>
      rintro (h | h)
      · exact String.lt_irrefl a h
      · exact String.lt_irrefl b h.2

theorem lt_trans {a b c : Var} (h : a < b) (h' : b < c) : a < c := by
  cases a <;> cases b <;> cases c <;> simp only [LT.lt, Var.lt] at h h' ⊢
  · exact String.lt_trans h h'
  · rcases h with h | ⟨rfl, h⟩ <;> rcases h' with h' | ⟨rfl, h'⟩
    · exact .inl (String.lt_trans h h')
    · exact .inl h
    · exact .inl h'
    · exact .inr ⟨rfl, String.lt_trans h h'⟩

theorem lt_of_not_lt_of_ne {a b : Var} (h : ¬ a < b) (hne : a ≠ b) : b < a := by
  have names : ∀ {x y : String}, ¬ x < y → x ≠ y → y < x := fun h hne =>
    Std.lt_of_le_of_ne (Std.not_lt.1 h) (Ne.symm hne)
  match a, b with
  | .base _, .base _ => exact names h fun e => hne (e ▸ rfl)
  | .base _, .proj _ _ => exact absurd trivial h
  | .proj _ _, .base _ => exact trivial
  | .proj a c, .proj b d =>
      by_cases e : a = b
      · subst e
        exact .inr ⟨rfl, names (fun k => h (.inr ⟨rfl, k⟩)) fun k => hne (k ▸ rfl)⟩
      · exact .inl (names (fun k => h (.inl k)) e)

end Var

/-! ### Sets of variables -/

/-- A finite set of variables. -/
structure VarSet where
  toList : List Var
  sorted : toList.Pairwise (· < ·)
deriving DecidableEq

namespace VarSet

@[ext] theorem ext {s t : VarSet} (h : s.toList = t.toList) : s = t := by
  cases s; cases t; cases h; rfl

def empty : VarSet := ⟨[], .nil⟩

instance : Inhabited VarSet := ⟨empty⟩

instance : Membership Var VarSet := ⟨fun s v => v ∈ s.toList⟩

instance (v : Var) (s : VarSet) : Decidable (v ∈ s) := inferInstanceAs (Decidable (v ∈ s.toList))

def isEmpty (s : VarSet) : Bool := s.toList.isEmpty

def size (s : VarSet) : Nat := s.toList.length

/-- A variable put in its place, unless it is there. -/
def place (v : Var) : List Var → List Var
  | [] => [v]
  | w :: rest =>
      if v < w then v :: w :: rest
      else if v = w then w :: rest
      else w :: place v rest

theorem mem_place {v w : Var} {vs : List Var} : w ∈ place v vs ↔ w = v ∨ w ∈ vs := by
  induction vs with
  | nil => simp [place]
  | cons x rest ih =>
      unfold place
      split
      · simp
      · split
        · rename_i h
          subst h
          simp
        · simp only [List.mem_cons, ih]
          constructor
          · rintro (h | h | h) <;> simp [h]
          · rintro (h | h | h) <;> simp [h]

theorem sorted_place (v : Var) {vs : List Var} (h : vs.Pairwise (· < ·)) :
    (place v vs).Pairwise (· < ·) := by
  induction vs with
  | nil => simp [place]
  | cons w rest ih =>
      rw [List.pairwise_cons] at h
      unfold place
      split
      · rename_i hlt
        refine List.pairwise_cons.2 ⟨?_, List.pairwise_cons.2 h⟩
        intro x hx
        rcases List.mem_cons.1 hx with rfl | hx
        · exact hlt
        · exact Var.lt_trans hlt (h.1 x hx)
      · rename_i hlt
        split
        · exact List.pairwise_cons.2 h
        · rename_i hne
          refine List.pairwise_cons.2 ⟨?_, ih h.2⟩
          intro x hx
          rcases mem_place.1 hx with rfl | hx
          · exact Var.lt_of_not_lt_of_ne hlt hne
          · exact h.1 x hx

/-- The set with a variable added. -/
def insert (s : VarSet) (v : Var) : VarSet := ⟨place v s.toList, sorted_place v s.sorted⟩

/-- The set of the members of a list. -/
def ofList (vs : List Var) : VarSet := vs.foldl insert empty

/-- The set without a variable. -/
def erase (s : VarSet) (v : Var) : VarSet :=
  ⟨s.toList.filter (· ≠ v), s.sorted.filter _⟩

/-- The members that satisfy a condition. -/
def filter (s : VarSet) (p : Var → Bool) : VarSet := ⟨s.toList.filter p, s.sorted.filter _⟩

/-- The set of the images of the members. -/
def map (s : VarSet) (f : Var → Var) : VarSet := ofList (s.toList.map f)

@[simp] theorem mem_insert {s : VarSet} {v w : Var} : w ∈ s.insert v ↔ w = v ∨ w ∈ s := mem_place

@[simp] theorem mem_erase {s : VarSet} {v w : Var} : w ∈ s.erase v ↔ w ∈ s ∧ w ≠ v := by
  change w ∈ s.toList.filter _ ↔ w ∈ s.toList ∧ _
  simp

/-- The members in braces. -/
def text (s : VarSet) : String :=
  "\x7b" ++ ", ".intercalate (s.toList.map Var.text) ++ "\x7d"

end VarSet

end BagEquiv
