/-
**Query terms.**

A term says how many times a row occurs in the result of a query.  It is built from memberships
of tuples in tables, predicates on tuples and values, sums, products, negation, truncation to at
most one, and summation over all tuples; the leaves of predicates are values.

Main definitions:

* `Pred` — what a predicate compares or tests;
* `Term` — terms, with decidable equality;
* `Term.children`, `Term.size` — the terms one step below, and the number of
  nodes.

Main results:

* `Term.induct`, `Term.induct_children` — induction over a term and the lists of terms in it, and
  over its nodes;
* `Term.size_eq` — the size is one more than the sizes of the children;
* `Term.Checked.same_of_ok` — a checked comparison that succeeds is right.
-/

import BagEquiv.Fraction
import BagEquiv.Var

set_option autoImplicit false

namespace BagEquiv

-- Zero is core's, not that of a monoid.
attribute [local instance (high)] Zero.ofOfNat0

/-- What a predicate compares or tests. -/
inductive Pred where
  | eq
  | ne
  | lt
  | le
  | gt
  | ge
  | isNull
  | named (name : String)
deriving DecidableEq, Repr

namespace Pred

def text : Pred → String
  | .eq => "="
  | .ne => "<>"
  | .lt => "<"
  | .le => "<="
  | .gt => ">"
  | .ge => ">="
  | .isNull => "isnull"
  | .named name => name

/-- Whether the order of the arguments does not matter. -/
def isSymmetric : Pred → Bool
  | .eq => true
  | .ne => true
  | _ => false

end Pred

/-- How many times a row occurs in the result of a query. -/
inductive Term where
  /-- The sum of the body over all values of the variables. -/
  | sum (vars : VarSet) (body : Term)
  | add (terms : List Term)
  | mul (factors : List Term)
  /-- One if the term is zero, and zero if not. -/
  | neg (term : Term)
  /-- Zero if the term is zero, and one if not. -/
  | squash (term : Term)
  | pred (kind : Pred) (args : List Term)
  | var (v : Var)
  | const (q : Fraction)
  /-- How many times a tuple occurs in a table. -/
  | table (name : String) (v : Var)
  | func (name : String) (args : List Term)
  | str (s : String)

namespace Term

instance : Inhabited Term := ⟨.add []⟩

/-! ### Short forms -/

/-- The sum over the tuples of those names. -/
def sumOver (names : List String) (body : Term) : Term := .sum (.ofList (names.map .base)) body

/-- The tuple of that name. -/
def tuple (base : String) : Term := .var (.base base)

/-- The column `attr` of the tuple `base`. -/
def attr (attr base : String) : Term := .var (.proj attr base)

def int (n : Int64) : Term := .const (.ofWord n)

/-- The predicate that two values are equal. -/
def equal (a b : Term) : Term := .pred .eq [a, b]

/-! ### Induction -/

/-- Induction over a term, with the hypothesis for every member of a list of terms. -/
@[elab_as_elim]
theorem induct {motive : Term → Prop}
    (sum : ∀ vars body, motive body → motive (.sum vars body))
    (add : ∀ terms, (∀ t ∈ terms, motive t) → motive (.add terms))
    (mul : ∀ factors, (∀ t ∈ factors, motive t) → motive (.mul factors))
    (neg : ∀ term, motive term → motive (.neg term))
    (squash : ∀ term, motive term → motive (.squash term))
    (pred : ∀ kind args, (∀ t ∈ args, motive t) → motive (.pred kind args))
    (var : ∀ v, motive (.var v))
    (const : ∀ q, motive (.const q))
    (table : ∀ name v, motive (.table name v))
    (func : ∀ name args, (∀ t ∈ args, motive t) → motive (.func name args))
    (str : ∀ s, motive (.str s)) (t : Term) : motive t :=
  @Term.rec motive (fun ts => ∀ t ∈ ts, motive t) sum add mul neg squash pred var const table func
    str (fun _ h => nomatch h)
    (fun _ _ head tail _ h => match h with
      | .head _ => head
      | .tail _ h => tail _ h) t

/-! ### Children and size -/

/-- The terms one step below. -/
def children : Term → List Term
  | .sum _ body => [body]
  | .add terms => terms
  | .mul factors => factors
  | .neg term => [term]
  | .squash term => [term]
  | .pred _ args => args
  | .func _ args => args
  | .var _ => []
  | .const _ => []
  | .table _ _ => []
  | .str _ => []

/-- Induction over the nodes of a term. -/
theorem induct_children {motive : Term → Prop}
    (step : ∀ t, (∀ c ∈ t.children, motive c) → motive t) (t : Term) : motive t := by
  induction t using Term.induct with
  | sum vars body ih | neg t ih | squash t ih => exact step _ (List.forall_mem_singleton.mpr ih)
  | add ts ih | mul ts ih | pred kind ts ih | func name ts ih =>
      apply step
      exact ih
  | var | const | table | str => exact step _ fun _ hc => absurd hc List.not_mem_nil

mutual

/-- The number of nodes. -/
def size : Term → Nat
  | .sum _ body => size body + 1
  | .add terms => sizeAll terms + 1
  | .mul factors => sizeAll factors + 1
  | .neg term => size term + 1
  | .squash term => size term + 1
  | .pred _ args => sizeAll args + 1
  | .func _ args => sizeAll args + 1
  | .var _ => 1
  | .const _ => 1
  | .table _ _ => 1
  | .str _ => 1

def sizeAll : List Term → Nat
  | [] => 0
  | t :: ts => size t + sizeAll ts

end

theorem sizeAll_eq (ts : List Term) : sizeAll ts = (ts.map size).sum := by
  induction ts with
  | nil => rfl
  | cons t ts ih => simp [sizeAll, ih]

/-- The size is one more than the sizes of the children. -/
theorem size_eq (t : Term) : t.size = (t.children.map size).sum + 1 := by
  cases t <;> simp [size, children, sizeAll_eq]

theorem size_pos (t : Term) : 0 < t.size := by
  rw [size_eq]
  omega

/-! ### Equality -/

mutual

/-- Equality of terms, with constants compared by `eqConst`. -/
def alike (eqConst : Fraction → Fraction → Bool) : Term → Term → Bool
  | .sum v a, .sum w b => v == w && alike eqConst a b
  | .add ts, .add us => alikeAll eqConst ts us
  | .mul ts, .mul us => alikeAll eqConst ts us
  | .neg a, .neg b => alike eqConst a b
  | .squash a, .squash b => alike eqConst a b
  | .pred k ts, .pred l us => k == l && alikeAll eqConst ts us
  | .var v, .var w => v == w
  | .const p, .const q => eqConst p q
  | .table n v, .table m w => n == m && v == w
  | .func n ts, .func m us => n == m && alikeAll eqConst ts us
  | .str s, .str t => s == t
  | _, _ => false

def alikeAll (eqConst : Fraction → Fraction → Bool) : List Term → List Term → Bool
  | [], [] => true
  | t :: ts, u :: us => alike eqConst t u && alikeAll eqConst ts us
  | _, _ => false

end

/-- Equality of terms, with constants compared as numbers. -/
def same (a b : Term) : Bool := alike Fraction.same a b

mutual

theorem eq_of_alike : ∀ a b : Term, alike (· == ·) a b = true → a = b
  | .sum v a, b, h => by
      cases b <;> simp [alike] at h
      rw [h.1, eq_of_alike a _ h.2]
  | .add ts, b, h | .mul ts, b, h => by
      cases b <;> simp [alike] at h
      rw [eq_of_alikeAll ts _ h]
  | .neg a, b, h | .squash a, b, h => by
      cases b <;> simp [alike] at h
      rw [eq_of_alike a _ h]
  | .pred k ts, b, h | .func n ts, b, h => by
      cases b <;> simp [alike] at h
      rw [h.1, eq_of_alikeAll ts _ h.2]
  | .var v, b, h | .const p, b, h | .str s, b, h => by
      cases b <;> simp [alike] at h
      rw [h]
  | .table n v, b, h => by
      cases b <;> simp [alike] at h
      rw [h.1, h.2]

theorem eq_of_alikeAll : ∀ ts us : List Term, alikeAll (· == ·) ts us = true → ts = us
  | [], us, h => by
      cases us <;> simp [alikeAll] at h
      rfl
  | t :: ts, us, h => by
      cases us <;> simp [alikeAll] at h
      rw [eq_of_alike t _ h.1, eq_of_alikeAll ts _ h.2]

end

mutual

theorem alike_refl {eqConst : Fraction → Fraction → Bool} (hc : ∀ q, eqConst q q = true) :
    ∀ a : Term, alike eqConst a a = true
  | .sum _ a | .neg a | .squash a => by simp [alike, alike_refl hc a]
  | .add ts | .mul ts | .pred _ ts | .func _ ts => by simp [alike, alikeAll_refl hc ts]
  | .var _ | .table _ _ | .str _ => by simp [alike]
  | .const q => by simp [alike, hc q]

theorem alikeAll_refl {eqConst : Fraction → Fraction → Bool} (hc : ∀ q, eqConst q q = true) :
    ∀ ts : List Term, alikeAll eqConst ts ts = true
  | [] => rfl
  | t :: ts => by simp [alikeAll, alike_refl hc t, alikeAll_refl hc ts]

end

instance : DecidableEq Term := fun a b =>
  if h : alike (· == ·) a b = true then isTrue (eq_of_alike a b h)
  else isFalse fun e => h (e ▸ alike_refl (by simp) a)

/-! ### Equality with words -/

theorem alikeAll_eq_and (eqConst : Fraction → Fraction → Bool) : ∀ ts us : List Term,
    alikeAll eqConst ts us = (decide (ts.length = us.length) && alikeAll eqConst ts us)
  | [], [] => rfl
  | [], _ :: _ => rfl
  | _ :: _, [] => rfl
  | t :: ts, u :: us => by
      rw [alikeAll, alikeAll_eq_and eqConst ts us]
      cases alike eqConst t u <;> simp

namespace Checked

mutual

/-- Equality of terms, with constants compared as numbers.  Parts are compared from left to right
up to the first difference, and lists only if they have the same length. -/
def same : Term → Term → Except Fault Bool
  | .sum v a, .sum w b => if v = w then same a b else .ok false
  | .add ts, .add us => if ts.length = us.length then sameAll ts us else .ok false
  | .mul ts, .mul us => if ts.length = us.length then sameAll ts us else .ok false
  | .neg a, .neg b => same a b
  | .squash a, .squash b => same a b
  | .pred k ts, .pred l us =>
      if k = l then if ts.length = us.length then sameAll ts us else .ok false else .ok false
  | .var v, .var w => .ok (v == w)
  | .const p, .const q => Fraction.Checked.same p q
  | .table n v, .table m w => .ok (n == m && v == w)
  | .func n ts, .func m us =>
      if n = m then if ts.length = us.length then sameAll ts us else .ok false else .ok false
  | .str s, .str t => .ok (s == t)
  | _, _ => .ok false

def sameAll : List Term → List Term → Except Fault Bool
  | [], [] => .ok true
  | t :: ts, u :: us => do if ← same t u then sameAll ts us else return false
  | _, _ => .ok false

end

mutual

theorem alike_of_ok : ∀ (a b : Term) (r : Bool), same a b = .ok r → alike Fraction.same a b = r
  | .sum _ a, b, r, h => by
      cases b <;> simp only [same] at h <;> try cases h <;> rfl
      exact Fault.and_of_ok h (alike_of_ok a _ r)
  | .add ts, b, r, h | .mul ts, b, r, h => by
      cases b <;> simp only [same] at h <;> try cases h <;> rfl
      rw [alike, alikeAll_eq_and]
      exact Fault.and_of_ok h (alikeAll_of_ok ts _ r)
  | .neg a, b, r, h | .squash a, b, r, h => by
      cases b <;> simp only [same] at h <;> try cases h <;> rfl
      exact alike_of_ok a _ r h
  | .pred _ ts, b, r, h | .func _ ts, b, r, h => by
      cases b <;> simp only [same] at h <;> try cases h <;> rfl
      rw [alike, alikeAll_eq_and]
      exact Fault.and_of_ok h fun h => Fault.and_of_ok h (alikeAll_of_ok ts _ r)
  | .var _, b, r, h | .table _ _, b, r, h | .str _, b, r, h => by
      cases b <;> simp only [same] at h <;> cases h <;> rfl
  | .const _, b, r, h => by
      cases b <;> simp only [same] at h <;> try cases h <;> rfl
      exact Fraction.Checked.same_of_ok h

theorem alikeAll_of_ok : ∀ (ts us : List Term) (r : Bool), sameAll ts us = .ok r →
    alikeAll Fraction.same ts us = r
  | [], us, r, h => by
      cases us <;> simp only [sameAll] at h <;> cases h <;> rfl
  | t :: ts, [], r, h => by
      simp only [sameAll] at h
      cases h
      rfl
  | t :: ts, u :: us, r, h => by
      rw [sameAll] at h
      obtain ⟨b, hb, h⟩ := Fault.ok_of_bind h
      rw [alikeAll, alike_of_ok t u b hb]
      cases b with
      | true => exact alikeAll_of_ok ts us r h
      | false => cases h; rfl

end

/-- A checked comparison that succeeds is right. -/
theorem same_of_ok {a b : Term} {r : Bool} (h : same a b = .ok r) : a.same b = r :=
  alike_of_ok a b r h

end Checked

end Term

end BagEquiv
