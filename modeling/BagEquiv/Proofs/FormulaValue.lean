/-
**The meaning of formulas.**

Every term and every formula has a rational number for its value.  A truth value is one or zero,
and a formula holds if its value is not zero.  Texts are read as numbers too, in some order
preserving way, so that a formula has a value whether or not its parts fit together.

A star holds if its outer vector is the sum of the inner vectors of finitely many summands, and a
summand is an interpretation that satisfies the body.  Which symbols a summand shares with the
place where the star stands is part of a *reading*: it may depend on the star and on the symbols
that are in scope there.

Main definition:

* `Formula.value`, `Formula.Holds` — **the value of a formula**, and that it is
  true.

Main results:

* `Formula.holds_star` — what a star says;
* `Formula.holds_of_starFree` — without stars it does not matter what is in scope.
-/

import Mathlib.Algebra.BigOperators.Group.List.Basic
import Mathlib.Algebra.Order.Field.Rat
import Mathlib.Data.Set.Basic
import BagEquiv.Formula

set_option autoImplicit false

namespace BagEquiv

/-- A value for every symbol. -/
abbrev Interpretation := Symbol → ℚ

/-- How formulas are read. -/
structure Reading where
  /-- The values that symbols of a type can have. -/
  admits : SymbolType → Set ℚ
  /-- The functions that formulas name. -/
  apply : String → SymbolType → List ℚ → ℚ
  /-- The quotient of a number by zero. -/
  overZero : ℚ → ℚ
  /-- The symbols that the summands of a star share with the place where the star stands, given
  the symbols in scope and the outer and the inner vector. -/
  shared : Set Symbol → List Symbol → List Symbol → Set Symbol
  /-- The symbols in scope in the body of a star, given those in scope outside. -/
  inside : Set Symbol → Formula → Set Symbol

/-- Every symbol has a value that its type admits. -/
def Reading.Admits (R : Reading) (ρ : Interpretation) : Prop := ∀ s : Symbol, ρ s ∈ R.admits s.type

open Classical in
/-- The value of a truth. -/
noncomputable def truth (p : Prop) : ℚ := if p then 1 else 0

@[simp] theorem truth_ne_zero {p : Prop} : truth p ≠ 0 ↔ p := by
  by_cases h : p <;> simp [truth, h]

@[simp] theorem truth_eq_zero {p : Prop} : truth p = 0 ↔ ¬p := by
  by_cases h : p <;> simp [truth, h]

theorem truth_nonneg (p : Prop) : 0 ≤ truth p := by
  unfold truth
  split
  · exact zero_le_one
  · exact le_refl 0

namespace Formula

/-- The values of the outer symbols are the sums of the values of the inner ones. -/
def Sums (outer inner : List Symbol) (ρ : Interpretation) (σs : List Interpretation) : Prop :=
  ∀ p ∈ outer.zip inner, ρ p.1 = (σs.map fun σ => σ p.2).sum

mutual

/-- The value of a formula where the given symbols are in scope. -/
@[simp] noncomputable def value (R : Reading) : Formula → Set Symbol → Interpretation → ℚ
  | .const q, _, _ => q.toRat
  | .bool b, _, _ => truth (b = true)
  | .sym s, _, ρ => ρ s
  | .plus terms, K, ρ => (valueAll R terms K ρ).sum
  | .minus a b, K, ρ => value R a K ρ - value R b K ρ
  | .mul factors, K, ρ => (valueAll R factors K ρ).prod
  | .div a b, K, ρ =>
      if value R b K ρ = 0 then R.overZero (value R a K ρ) else value R a K ρ / value R b K ρ
  | .ite c a b, K, ρ => if value R c K ρ = 0 then value R b K ρ else value R a K ρ
  | .eq a b, K, ρ => truth (value R a K ρ = value R b K ρ)
  | .le a b, K, ρ => truth (value R a K ρ ≤ value R b K ρ)
  | .lt a b, K, ρ => truth (value R a K ρ < value R b K ρ)
  | .not a, K, ρ => truth (value R a K ρ = 0)
  | .and terms, K, ρ => truth (∀ x ∈ valueAll R terms K ρ, x ≠ 0)
  | .or terms, K, ρ => truth (∃ x ∈ valueAll R terms K ρ, x ≠ 0)
  | .func name args type, K, ρ => R.apply name type (valueAll R args K ρ)
  | .star outer inner _ body, K, ρ =>
      truth (∃ σs : List Interpretation,
        (∀ σ ∈ σs, R.Admits σ ∧ (∀ s ∈ R.shared K outer inner, σ s = ρ s) ∧
          value R body (R.inside K body) σ ≠ 0) ∧
        Sums outer inner ρ σs)

noncomputable def valueAll (R : Reading) : List Formula → Set Symbol → Interpretation → List ℚ
  | [], _, _ => []
  | t :: ts, K, ρ => value R t K ρ :: valueAll R ts K ρ

end

/-- The formula is true. -/
def Holds (R : Reading) (f : Formula) (K : Set Symbol) (ρ : Interpretation) : Prop :=
  value R f K ρ ≠ 0

variable {R : Reading} {K : Set Symbol} {ρ : Interpretation}

theorem valueAll_eq_map (ts : List Formula) :
    valueAll R ts K ρ = ts.map fun t => value R t K ρ := by
  induction ts with
  | nil => rw [valueAll, List.map_nil]
  | cons t ts ih => rw [valueAll, ih, List.map_cons]

/-! ### What the connectives say -/

@[simp] theorem holds_bool {b : Bool} : (Formula.bool b).Holds R K ρ ↔ b = true := by
  simp [Holds, value]

@[simp] theorem holds_eq {a b : Formula} :
    (Formula.eq a b).Holds R K ρ ↔ a.value R K ρ = b.value R K ρ := by
  simp [Holds, value]

@[simp] theorem holds_le {a b : Formula} :
    (Formula.le a b).Holds R K ρ ↔ a.value R K ρ ≤ b.value R K ρ := by
  simp [Holds, value]

@[simp] theorem holds_lt {a b : Formula} :
    (Formula.lt a b).Holds R K ρ ↔ a.value R K ρ < b.value R K ρ := by
  simp [Holds, value]

@[simp] theorem holds_not {a : Formula} : (Formula.not a).Holds R K ρ ↔ ¬a.Holds R K ρ := by
  simp [Holds, value]

@[simp] theorem holds_and {ts : List Formula} :
    (Formula.and ts).Holds R K ρ ↔ ∀ t ∈ ts, t.Holds R K ρ := by
  simp [Holds, value, valueAll_eq_map]

@[simp] theorem holds_or {ts : List Formula} :
    (Formula.or ts).Holds R K ρ ↔ ∃ t ∈ ts, t.Holds R K ρ := by
  simp [Holds, value, valueAll_eq_map]

@[simp] theorem holds_implies {a b : Formula} :
    (implies a b).Holds R K ρ ↔ (a.Holds R K ρ → b.Holds R K ρ) := by
  simp [implies, imp_iff_not_or]

@[simp] theorem holds_iff {a b : Formula} :
    (iff a b).Holds R K ρ ↔ (a.Holds R K ρ ↔ b.Holds R K ρ) := by
  simp [iff, iff_iff_implies_and_implies]

/-- A star says that its outer vector is a sum of inner vectors of summands. -/
theorem holds_star {outer inner : List Symbol} {sides : List Side} {body : Formula} :
    (Formula.star outer inner sides body).Holds R K ρ ↔
      ∃ σs : List Interpretation,
        (∀ σ ∈ σs, R.Admits σ ∧ (∀ s ∈ R.shared K outer inner, σ s = ρ s) ∧
          body.Holds R (R.inside K body) σ) ∧
        Sums outer inner ρ σs := by
  simp [Holds, value]

/-! ### Values of short forms -/

@[simp] theorem value_zero : zero.value R K ρ = 0 := by
  simp [zero, int, value, Fraction.toRat, Fraction.ofWord]

@[simp] theorem value_one : one.value R K ρ = 1 := by
  simp [one, int, value, Fraction.toRat, Fraction.ofWord]

/-! ### Formulas without stars -/

theorem hasStarAny_eq (ts : List Formula) : hasStarAny ts = ts.any hasStar := by
  induction ts with
  | nil => rfl
  | cons t ts ih => rw [hasStarAny, ih, List.any_cons]

theorem freeSymbolsAll_eq (ts : List Formula) : freeSymbolsAll ts = ts.flatMap freeSymbols := by
  induction ts with
  | nil => rfl
  | cons t ts ih => rw [freeSymbolsAll, ih, List.flatMap_cons]

/-- The values of formulas agree if those of the single formulas do. -/
theorem valueAll_congr {ts : List Formula} {L : Set Symbol} {σ : Interpretation}
    (h : ∀ t ∈ ts, t.value R K ρ = t.value R L σ) : valueAll R ts K ρ = valueAll R ts L σ := by
  rw [valueAll_eq_map, valueAll_eq_map]
  exact List.map_congr_left h

/-- Without stars the value depends on the values of the symbols that occur, and not on what is in
scope. -/
theorem value_of_starFree (f : Formula) (hf : f.hasStar = false) {K L : Set Symbol}
    {ρ σ : Interpretation} (h : ∀ s ∈ f.freeSymbols, ρ s = σ s) :
    f.value R K ρ = f.value R L σ := by
  -- The hypotheses for a list of formulas, one member at a time.
  have member : ∀ {ts : List Formula}, hasStarAny ts = false →
      (∀ s ∈ freeSymbolsAll ts, ρ s = σ s) →
      (∀ t ∈ ts, t.hasStar = false → (∀ s ∈ t.freeSymbols, ρ s = σ s) →
        t.value R K ρ = t.value R L σ) →
      valueAll R ts K ρ = valueAll R ts L σ := by
    intro ts hts hs ih
    rw [hasStarAny_eq, List.any_eq_false] at hts
    rw [freeSymbolsAll_eq] at hs
    refine valueAll_congr fun t ht => ih t ht (by simpa using hts t ht) fun s hst => ?_
    exact hs s (List.mem_flatMap.mpr ⟨t, ht, hst⟩)
  induction f using Formula.induct with
  | const q | bool b => simp only [value]
  | sym s => simpa [freeSymbols] using h
  | plus ts ih | mul ts ih | and ts ih | or ts ih | func name ts type ih =>
      simp only [value, member hf h ih]
  | not a ih => simp only [value, ih hf h]
  | minus a b iha ihb | div a b iha ihb | eq a b iha ihb | le a b iha ihb | lt a b iha ihb =>
      simp only [hasStar, Bool.or_eq_false_iff] at hf
      simp only [freeSymbols, List.forall_mem_append] at h
      simp only [value, iha hf.1 h.1, ihb hf.2 h.2]
  | ite c a b ihc iha ihb =>
      simp only [hasStar, Bool.or_eq_false_iff] at hf
      simp only [freeSymbols, List.forall_mem_append] at h
      simp only [value, ihc hf.1.1 h.1.1, iha hf.1.2 h.1.2, ihb hf.2 h.2]
  | star outer inner sides body ih => simp [hasStar] at hf

theorem holds_of_starFree {f : Formula} (hf : f.hasStar = false) {K L : Set Symbol}
    (h : f.Holds R K ρ) : f.Holds R L ρ := by
  rwa [Holds, value_of_starFree f hf fun s _ => rfl]

/-- Stars stand only in conjunctions and in the bodies of stars. -/
inductive Conjunctive : Formula → Prop
  | starFree {f : Formula} (h : f.hasStar = false) : Conjunctive f
  | and {ts : List Formula} (h : ∀ t ∈ ts, Conjunctive t) : Conjunctive (.and ts)
  | star {outer inner : List Symbol} {sides : List Side} {body : Formula} (h : Conjunctive body) :
      Conjunctive (.star outer inner sides body)

end Formula

end BagEquiv
