/-
**The stars of a formula.**

Simplification folds constants, flattens conjunctions and drops conjuncts, and it may unwrap a
conjunction or an alternative.  Whatever is collected from the symbols and stars of a formula, it
only drops some of it.  So the vectors of the stars that are left are as before and in the same
order, and no symbol becomes free.  Where stars stand only as conjuncts, outside and inside of other
stars, they still do afterwards.

Main definition:

* `Formula.StarVectors`, `Formula.stars` — the vectors of all stars of a formula,
  wherever they stand.

Main result:

* `Formula.stars_simplify` — **it only drops stars**.
-/

import Mathlib.Data.List.Flatten
import BagEquiv.Proofs.FormulaValue
import BagEquiv.Proofs.Typings

set_option autoImplicit false

namespace BagEquiv.Formula

/-- The vectors of a star. -/
structure StarVectors where
  outer : List Symbol
  inner : List Symbol
  sides : List Side
deriving DecidableEq

mutual

/-- The vectors of all stars, wherever they stand. -/
def stars : Formula → List StarVectors
  | .const _ => []
  | .bool _ => []
  | .sym _ => []
  | .plus terms => starsAll terms
  | .minus a b => stars a ++ stars b
  | .mul factors => starsAll factors
  | .div a b => stars a ++ stars b
  | .ite c a b => stars c ++ stars a ++ stars b
  | .eq a b => stars a ++ stars b
  | .le a b => stars a ++ stars b
  | .lt a b => stars a ++ stars b
  | .not a => stars a
  | .and terms => starsAll terms
  | .or terms => starsAll terms
  | .func _ args _ => starsAll args
  | .star outer inner sides body => ⟨outer, inner, sides⟩ :: stars body

def starsAll : List Formula → List StarVectors
  | [] => []
  | t :: ts => stars t ++ starsAll ts

end

/-- The outer symbols of all stars, with repetitions. -/
def outers (f : Formula) : List Symbol := f.stars.flatMap StarVectors.outer

/-- The inner symbols of all stars, with repetitions. -/
def inners (f : Formula) : List Symbol := f.stars.flatMap StarVectors.inner

theorem starsAll_eq (ts : List Formula) : starsAll ts = ts.flatMap stars := by
  induction ts with
  | nil => rfl
  | cons t ts ih => rw [starsAll, ih, List.flatMap_cons]

/-- A formula has a star if its stars are not none. -/
theorem stars_eq_nil_iff {f : Formula} : f.stars = [] ↔ f.hasStar = false := by
  induction f using Formula.induct with
  | const | bool | sym | star => simp [stars, hasStar]
  | plus ts ih | mul ts ih | and ts ih | or ts ih | func _ ts _ ih =>
      rw [stars, hasStar, starsAll_eq, hasStarAny_eq, List.flatMap_eq_nil_iff, List.any_eq_false]
      simp only [Bool.not_eq_true]
      exact forall₂_congr ih
  | minus a b iha ihb | div a b iha ihb | eq a b iha ihb | le a b iha ihb | lt a b iha ihb =>
      simp [stars, hasStar, iha, ihb]
  | ite c a b ihc iha ihb => simp [stars, hasStar, ihc, iha, ihb, and_assoc]
  | not a ih => exact ih

/-! ### Collecting from a formula -/

variable {β : Type} {collect : Formula → List β}

/-- The formula is neither a symbol nor a star. -/
def isOperator : Formula → Bool
  | .sym _ => false
  | .star _ _ _ _ => false
  | _ => true

/-- Something is collected from a formula: from an operator what is collected from its operands,
and from a star something that gets less with what is collected from its body. -/
structure Collects (collect : Formula → List β) : Prop where
  operator : ∀ f : Formula, f.isOperator = true → collect f = f.children.flatMap collect
  star : ∀ {outer inner sides body body'}, (collect body').Sublist (collect body) →
    (collect (.star outer inner sides body')).Sublist (collect (.star outer inner sides body))

namespace Collects

variable {a g : Formula}

theorem flatMap_singleton (t : Formula) : [t].flatMap collect = collect t := List.append_nil _

theorem variadic (h : Collects collect) (op : Variadic) (ts : List Formula) :
    collect (op.node ts) = ts.flatMap collect := by
  cases op <;> exact h.operator _ rfl

theorem const (h : Collects collect) (q : Fraction) : collect (.const q) = [] :=
  h.operator _ rfl

theorem bool (h : Collects collect) (b : Bool) : collect (.bool b) = [] :=
  h.operator _ rfl

theorem operand (h : Collects collect) {f : Formula} (hf : f.isOperator = true)
    (ha : a ∈ f.children) : (collect a).Sublist (collect f) := by
  rw [h.operator f hf]
  have hone := (List.singleton_sublist.mpr ha).flatMap collect
  rwa [flatMap_singleton] at hone

theorem operands (h : Collects collect) {f g : Formula} (hf : f.isOperator = true)
    (hg : g.isOperator = true)
    (hall : List.Forall₂ (fun t u => (collect u).Sublist (collect t)) f.children g.children) :
    (collect g).Sublist (collect f) := by
  rw [h.operator f hf, h.operator g hg]
  generalize f.children = ts, g.children = us at hall
  induction hall with
  | nil => exact List.Sublist.refl _
  | cons ht _ ih => exact ht.append ih

/-- Flattening keeps what is collected. -/
theorem flatten (h : Collects collect) (op : Variadic) (ts : List Formula) :
    (op.flatten ts).flatMap collect = ts.flatMap collect := by
  obtain ⟨part, hflat, hpart⟩ := op.flatten_eq ts
  rw [hflat, List.flatMap_assoc]
  refine List.flatMap_congr fun t _ => ?_
  rcases hpart t with ⟨hone, -⟩ | hnode
  · rw [hone, flatMap_singleton]
  · exact (h.variadic op _).symm.trans (congrArg collect hnode.symm)

/-- Folding a node only drops what is collected. -/
theorem folds (hc : Collects collect) {f : Formula} (h : Folds f g) :
    (collect g).Sublist (collect f) := by
  have fewer : ∀ (op : Variadic) {ts us : List Formula}, us.Sublist (op.flatten ts) →
      (us.flatMap collect).Sublist (collect (op.node ts)) := by
    intro op ts us hus
    rw [hc.variadic, ← hc.flatten op ts]
    exact hus.flatMap collect
  cases h with
  | refl => exact List.Sublist.refl _
  | const => exact hc.const _ ▸ List.nil_sublist _
  | bool => exact hc.bool _ ▸ List.nil_sublist _
  | member op ht _ =>
      have hone := fewer op (List.singleton_sublist.mpr ht)
      rwa [flatMap_singleton] at hone
  | fewer op hus => exact hc.variadic op _ ▸ fewer op hus
  | @plus _ us q hus =>
      have hcollect := hc.variadic .plus (us ++ [.const q])
      rw [List.flatMap_append, flatMap_singleton, hc.const, List.append_nil] at hcollect
      exact hcollect ▸ fewer .plus hus
  | @mul _ us q hus =>
      have hcollect := hc.variadic .mul (.const q :: us)
      rw [List.flatMap_cons, hc.const, List.nil_append] at hcollect
      exact hcollect ▸ fewer .mul hus
  | minus | div => exact hc.operand rfl List.mem_cons_self
  | left | right => exact hc.operand rfl (by simp [children])
  | not => exact (hc.operand rfl List.mem_cons_self).trans (hc.operand rfl List.mem_cons_self)

theorem congruent (hc : Collects collect) {f : Formula}
    (h : Congruent (fun f g => (collect g).Sublist (collect f)) f g) :
    (collect g).Sublist (collect f) := by
  cases h with
  | refl => exact List.Sublist.refl _
  | variadic op h => cases op <;> exact hc.operands rfl rfl h
  | minus ha hb | div ha hb | eq ha hb | le ha hb | lt ha hb =>
      exact hc.operands rfl rfl (.cons ha (.cons hb .nil))
  | ite h ha hb => exact hc.operands rfl rfl (.cons h (.cons ha (.cons hb .nil)))
  | not ha => exact hc.operands rfl rfl (.cons ha .nil)
  | func h => exact hc.operands rfl rfl h
  | star ha => exact hc.star ha

/-- Simplification only drops what is collected. -/
theorem simplify (hc : Collects collect) {f : Formula} (h : f.simplify = .ok g) :
    (collect g).Sublist (collect f) :=
  of_simplify (R := fun f g => (collect g).Sublist (collect f))
    (fun hcongr hfolds => (hc.folds hfolds).trans (hc.congruent hcongr)) h

end Collects

variable {ts us : List Formula} {f g : Formula}

theorem starsAll_singleton (t : Formula) : starsAll [t] = t.stars := List.append_nil _

theorem collects_stars : Collects stars where
  operator f hf := by
    cases f with
    | sym | star => cases hf
    | _ => simp [stars, children, starsAll_eq]
  star h := h.cons_cons _

/-- Simplification only drops stars. -/
theorem stars_simplify (h : f.simplify = .ok g) : g.stars.Sublist f.stars :=
  collects_stars.simplify h

theorem hasStar_simplify (h : f.simplify = .ok g) (hf : f.hasStar = false) : g.hasStar = false := by
  rw [← stars_eq_nil_iff] at hf ⊢
  exact List.sublist_nil.mp (hf ▸ stars_simplify h)

theorem collects_freeSymbols : Collects freeSymbols where
  operator f hf := by
    cases f with
    | sym | star => cases hf
    | _ => simp [freeSymbols, children, freeSymbolsAll_eq]
  star h := (h.filter _).append_right _

/-- Simplification only drops free symbols. -/
theorem freeSymbols_simplify (h : f.simplify = .ok g) :
    g.freeSymbols.Sublist f.freeSymbols := collects_freeSymbols.simplify h

/-- The members of a conjunction in which stars are conjuncts. -/
theorem Conjunctive.of_and (h : (Formula.and ts).Conjunctive) : ∀ t ∈ ts, t.Conjunctive := by
  cases h with
  | starFree h =>
      intro t ht
      rw [hasStar, hasStarAny_eq, List.any_eq_false] at h
      exact .starFree (by simpa using h t ht)
  | and h => exact h

/-- Where stars stand only as conjuncts, they do so in the simplified formula. -/
theorem Conjunctive.simplify (hf : f.Conjunctive) (h : f.simplify = .ok g) : g.Conjunctive := by
  induction hf generalizing g with
  | starFree hstars => exact .starFree (hasStar_simplify h hstars)
  | @and ts _ ih =>
      obtain ⟨us, hus, o, ho, h⟩ := Fault.ok_of_bind₂ h
      have hflat : ∀ t ∈ flattenAnd us, t.Conjunctive := by
        intro t ht
        obtain ⟨u, hu, ht⟩ := List.mem_flatMap.mp ht
        obtain ⟨s, hs, hsu⟩ := exists_mem_of_simplifyAll hus hu
        have hconj := ih s hs hsu
        split at ht
        · exact hconj.of_and t ht
        · rwa [List.mem_singleton.mp ht]
      have hall : ∀ vs, o = some vs → ∀ t ∈ vs, t.Conjunctive := by
        rintro vs rfl t ht
        obtain ⟨ws, rfl, hws⟩ := distinctMembers_sublist ho
        exact hflat t (hws.subset ht)
      split at h <;> cases h
      · exact .starFree rfl
      · exact .starFree rfl
      · exact hall _ rfl _ (List.mem_singleton.mpr rfl)
      · exact .and (hall _ rfl)
  | star _ ih =>
      obtain ⟨body', hbody, h⟩ := Fault.ok_of_bind h
      cases h
      exact .star (ih hbody)

end BagEquiv.Formula
