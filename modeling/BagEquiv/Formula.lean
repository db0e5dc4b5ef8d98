/-
**Formulas of linear arithmetic with iterated sums.**

Numbers, texts and truth values are written in one language.  Besides the operations of arithmetic
and logic it has the *star*: a vector of symbols is the sum of finitely many vectors, possibly
none, each of which satisfies a body.

Main definitions:

* `SymbolType`, `Symbol` — typed symbols;
* `Formula` — arithmetic, logic, uninterpreted functions and stars;
* `Formula.type` — the type of a term's values.
-/

import BagEquiv.Fraction
import BagEquiv.Schema

set_option autoImplicit false

namespace BagEquiv

/-- The type of a symbol. -/
inductive SymbolType where
  | int
  | nat
  | real
  | char
  | str
deriving DecidableEq, Repr

namespace SymbolType

def isNumeric : SymbolType → Bool
  | .int => true
  | .nat => true
  | .real => true
  | .char => false
  | .str => false

/-- The type of the values of a column. -/
def ofDataType : DataType → SymbolType
  | .integer => .int
  | .natural => .nat
  | .real => .real
  | .string => .str
  | .char => .char

def rank : SymbolType → Nat
  | .int => 0
  | .nat => 1
  | .real => 2
  | .char => 3
  | .str => 4

end SymbolType

/-- A typed symbol. -/
structure Symbol where
  name : String
  type : SymbolType
deriving DecidableEq, Repr

namespace Symbol

/-- Symbols in the order of their names, and of their types for one name. -/
def le (a b : Symbol) : Bool := a.name < b.name || (a.name = b.name && a.type.rank ≤ b.type.rank)

end Symbol

/-- Terms and formulas of arithmetic. -/
inductive Formula where
  | const (q : Fraction)
  | bool (b : Bool)
  | sym (s : Symbol)
  | plus (terms : List Formula)
  | minus (a b : Formula)
  | mul (factors : List Formula)
  | div (a b : Formula)
  | ite (c a b : Formula)
  | eq (a b : Formula)
  | le (a b : Formula)
  | lt (a b : Formula)
  | not (a : Formula)
  | and (terms : List Formula)
  | or (terms : List Formula)
  | func (name : String) (args : List Formula) (type : SymbolType)
  /-- The vector `outer` is a finite sum of vectors `inner` that satisfy `body`; the sides tell
  which term of a pair each component counts for. -/
  | star (outer inner : List Symbol) (sides : List Side) (body : Formula)

namespace Formula

instance : Inhabited Formula := ⟨.bool true⟩

/-! ### Short forms -/

def int (n : Int64) : Formula := .const (.ofWord n)

def zero : Formula := int 0

def one : Formula := int 1

def implies (a b : Formula) : Formula := .or [.not a, b]

def iff (a b : Formula) : Formula := .and [implies a b, implies b a]

/-- One if the condition holds, and zero if not. -/
def indicator (c : Formula) : Formula := .ite c one zero

def constant? : Formula → Option Fraction
  | .const q => some q
  | _ => none

/-! ### Induction -/

/-- Induction over a formula, with the hypothesis for every member of a list of formulas. -/
@[elab_as_elim]
theorem induct {motive : Formula → Prop}
    (const : ∀ q, motive (.const q))
    (bool : ∀ b, motive (.bool b))
    (sym : ∀ s, motive (.sym s))
    (plus : ∀ terms, (∀ t ∈ terms, motive t) → motive (.plus terms))
    (minus : ∀ a b, motive a → motive b → motive (.minus a b))
    (mul : ∀ factors, (∀ t ∈ factors, motive t) → motive (.mul factors))
    (div : ∀ a b, motive a → motive b → motive (.div a b))
    (ite : ∀ c a b, motive c → motive a → motive b → motive (.ite c a b))
    (eq : ∀ a b, motive a → motive b → motive (.eq a b))
    (le : ∀ a b, motive a → motive b → motive (.le a b))
    (lt : ∀ a b, motive a → motive b → motive (.lt a b))
    (not : ∀ a, motive a → motive (.not a))
    (and : ∀ terms, (∀ t ∈ terms, motive t) → motive (.and terms))
    (or : ∀ terms, (∀ t ∈ terms, motive t) → motive (.or terms))
    (func : ∀ name args type, (∀ t ∈ args, motive t) → motive (.func name args type))
    (star : ∀ outer inner sides body, motive body → motive (.star outer inner sides body))
    (t : Formula) : motive t :=
  @Formula.rec motive (fun ts => ∀ t ∈ ts, motive t) const bool sym plus minus mul div ite eq le lt
    not and or func star (fun _ h => nomatch h)
    (fun _ _ head tail _ h => match h with
      | .head _ => head
      | .tail _ h => tail _ h) t

/-! ### Types, children and symbols -/

mutual

/-- The type of the values of a term; formulas count as integers. -/
def type : Formula → SymbolType
  | .const q => if q.isWhole then .int else .real
  | .sym s => s.type
  | .func _ _ type => type
  | .plus terms => if anyReal terms then .real else .int
  | .mul factors => if anyReal factors then .real else .int
  | .minus a b => if type a = .real || type b = .real then .real else .int
  | .div _ _ => .real
  | .ite _ a b => if type a = .real || type b = .real then .real else type a
  | .bool _ => .int
  | .eq _ _ => .int
  | .le _ _ => .int
  | .lt _ _ => .int
  | .not _ => .int
  | .and _ => .int
  | .or _ => .int
  | .star _ _ _ _ => .int

def anyReal : List Formula → Bool
  | [] => false
  | t :: ts => type t = .real || anyReal ts

end

/-- The formulas one step below. -/
def children : Formula → List Formula
  | .const _ => []
  | .bool _ => []
  | .sym _ => []
  | .plus terms => terms
  | .minus a b => [a, b]
  | .mul factors => factors
  | .div a b => [a, b]
  | .ite c a b => [c, a, b]
  | .eq a b => [a, b]
  | .le a b => [a, b]
  | .lt a b => [a, b]
  | .not a => [a]
  | .and terms => terms
  | .or terms => terms
  | .func _ args _ => args
  | .star _ _ _ body => [body]

mutual

/-- The symbols that occur and are not bound by a star around them, with repetitions. -/
def freeSymbols : Formula → List Symbol
  | .const _ => []
  | .bool _ => []
  | .sym s => [s]
  | .plus terms => freeSymbolsAll terms
  | .minus a b => freeSymbols a ++ freeSymbols b
  | .mul factors => freeSymbolsAll factors
  | .div a b => freeSymbols a ++ freeSymbols b
  | .ite c a b => freeSymbols c ++ freeSymbols a ++ freeSymbols b
  | .eq a b => freeSymbols a ++ freeSymbols b
  | .le a b => freeSymbols a ++ freeSymbols b
  | .lt a b => freeSymbols a ++ freeSymbols b
  | .not a => freeSymbols a
  | .and terms => freeSymbolsAll terms
  | .or terms => freeSymbolsAll terms
  | .func _ args _ => freeSymbolsAll args
  | .star outer inner _ body => (freeSymbols body).filter (· ∉ inner) ++ outer

def freeSymbolsAll : List Formula → List Symbol
  | [] => []
  | t :: ts => freeSymbols t ++ freeSymbolsAll ts

end

/-- The free symbols in order, each once. -/
def symbols (t : Formula) : List Symbol := (t.freeSymbols.mergeSort Symbol.le).eraseDups

mutual

/-- Whether a star occurs. -/
def hasStar : Formula → Bool
  | .const _ => false
  | .bool _ => false
  | .sym _ => false
  | .plus terms => hasStarAny terms
  | .minus a b => hasStar a || hasStar b
  | .mul factors => hasStarAny factors
  | .div a b => hasStar a || hasStar b
  | .ite c a b => hasStar c || hasStar a || hasStar b
  | .eq a b => hasStar a || hasStar b
  | .le a b => hasStar a || hasStar b
  | .lt a b => hasStar a || hasStar b
  | .not a => hasStar a
  | .and terms => hasStarAny terms
  | .or terms => hasStarAny terms
  | .func _ args _ => hasStarAny args
  | .star _ _ _ _ => true

def hasStarAny : List Formula → Bool
  | [] => false
  | t :: ts => hasStar t || hasStarAny ts

end

/-! ### Equality -/

mutual

/-- Equality of formulas, with constants compared by `eqConst`. -/
def alike (eqConst : Fraction → Fraction → Bool) : Formula → Formula → Bool
  | .const p, .const q => eqConst p q
  | .bool a, .bool b => a == b
  | .sym s, .sym t => s == t
  | .plus ts, .plus us => alikeAll eqConst ts us
  | .minus a b, .minus c d => alike eqConst a c && alike eqConst b d
  | .mul ts, .mul us => alikeAll eqConst ts us
  | .div a b, .div c d => alike eqConst a c && alike eqConst b d
  | .ite c a b, .ite d e f => alike eqConst c d && alike eqConst a e && alike eqConst b f
  | .eq a b, .eq c d => alike eqConst a c && alike eqConst b d
  | .le a b, .le c d => alike eqConst a c && alike eqConst b d
  | .lt a b, .lt c d => alike eqConst a c && alike eqConst b d
  | .not a, .not b => alike eqConst a b
  | .and ts, .and us => alikeAll eqConst ts us
  | .or ts, .or us => alikeAll eqConst ts us
  | .func n ts s, .func m us t => n == m && alikeAll eqConst ts us && s == t
  | .star o i s a, .star p j t b => o == p && i == j && s == t && alike eqConst a b
  | _, _ => false

def alikeAll (eqConst : Fraction → Fraction → Bool) : List Formula → List Formula → Bool
  | [], [] => true
  | t :: ts, u :: us => alike eqConst t u && alikeAll eqConst ts us
  | _, _ => false

end

/-- Equality of formulas, with constants compared as numbers. -/
def same (a b : Formula) : Bool := alike Fraction.same a b

mutual

theorem eq_of_alike : ∀ a b : Formula, alike (· == ·) a b = true → a = b
  | .const p, b, h | .bool a, b, h | .sym s, b, h => by
      cases b <;> simp [alike] at h
      rw [h]
  | .plus ts, b, h | .mul ts, b, h | .and ts, b, h | .or ts, b, h => by
      cases b <;> simp [alike] at h
      rw [eq_of_alikeAll ts _ h]
  | .minus a c, b, h | .div a c, b, h | .eq a c, b, h | .le a c, b, h | .lt a c, b, h => by
      cases b <;> simp [alike] at h
      rw [eq_of_alike a _ h.1, eq_of_alike c _ h.2]
  | .ite c a e, b, h => by
      cases b <;> simp [alike] at h
      rw [eq_of_alike c _ h.1.1, eq_of_alike a _ h.1.2, eq_of_alike e _ h.2]
  | .not a, b, h => by
      cases b <;> simp [alike] at h
      rw [eq_of_alike a _ h]
  | .func n ts s, b, h => by
      cases b <;> simp [alike] at h
      rw [h.1.1, eq_of_alikeAll ts _ h.1.2, h.2]
  | .star o i s a, b, h => by
      cases b <;> simp [alike] at h
      rw [h.1.1.1, h.1.1.2, h.1.2, eq_of_alike a _ h.2]

theorem eq_of_alikeAll : ∀ ts us : List Formula, alikeAll (· == ·) ts us = true → ts = us
  | [], us, h => by
      cases us <;> simp [alikeAll] at h
      rfl
  | t :: ts, us, h => by
      cases us <;> simp [alikeAll] at h
      rw [eq_of_alike t _ h.1, eq_of_alikeAll ts _ h.2]

end

mutual

theorem alike_refl {eqConst : Fraction → Fraction → Bool} (hc : ∀ q, eqConst q q = true) :
    ∀ a : Formula, alike eqConst a a = true
  | .const q => by simp [alike, hc q]
  | .bool _ | .sym _ => by simp [alike]
  | .plus ts | .mul ts | .and ts | .or ts | .func _ ts _ => by simp [alike, alikeAll_refl hc ts]
  | .minus a b | .div a b | .eq a b | .le a b | .lt a b => by
      simp [alike, alike_refl hc a, alike_refl hc b]
  | .ite c a b => by simp [alike, alike_refl hc c, alike_refl hc a, alike_refl hc b]
  | .not a | .star _ _ _ a => by simp [alike, alike_refl hc a]

theorem alikeAll_refl {eqConst : Fraction → Fraction → Bool} (hc : ∀ q, eqConst q q = true) :
    ∀ ts : List Formula, alikeAll eqConst ts ts = true
  | [] => rfl
  | t :: ts => by simp [alikeAll, alike_refl hc t, alikeAll_refl hc ts]

end

instance : DecidableEq Formula := fun a b =>
  if h : alike (· == ·) a b = true then isTrue (eq_of_alike a b h)
  else isFalse fun e => h (e ▸ alike_refl (by simp) a)

/-! ### Approximation from below -/

mutual

/-- Every star replaced by its body and the equations that make the vector a single summand. -/
def underApproximate : Formula → Formula
  | .const q => .const q
  | .bool b => .bool b
  | .sym s => .sym s
  | .plus terms => .plus (underApproximateAll terms)
  | .minus a b => .minus (underApproximate a) (underApproximate b)
  | .mul factors => .mul (underApproximateAll factors)
  | .div a b => .div (underApproximate a) (underApproximate b)
  | .ite c a b => .ite (underApproximate c) (underApproximate a) (underApproximate b)
  | .eq a b => .eq (underApproximate a) (underApproximate b)
  | .le a b => .le (underApproximate a) (underApproximate b)
  | .lt a b => .lt (underApproximate a) (underApproximate b)
  | .not a => .not (underApproximate a)
  | .and terms => .and (underApproximateAll terms)
  | .or terms => .or (underApproximateAll terms)
  | .func name args type => .func name (underApproximateAll args) type
  | .star outer inner _ body =>
      .and (underApproximate body :: (outer.zip inner).map fun (u, v) => .eq (.sym u) (.sym v))

def underApproximateAll : List Formula → List Formula
  | [] => []
  | t :: ts => underApproximate t :: underApproximateAll ts

end

end Formula

end BagEquiv
