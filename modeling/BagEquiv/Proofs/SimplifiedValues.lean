/-
**Simplification keeps values.**

Terms have values, and formulas in the narrow sense are true or false.  Where values and truths
stand in their places, simplification keeps the value of a formula, unless it compares a constant
with a negative denominator: fractions are ordered by their denominators if they share a numerator,
so one over minus two counts as larger than one half.  Constants inside of sums, products,
differences and quotients do no harm, since a comparison gets to see the reduced result.

A star is read as a finite sum of vectors that satisfy its body.  A reading may make what summands
share depend on the symbols that the body mentions, and simplification can drop symbols.  So the
value is kept in readings that do not look at the body, and for formulas without stars in all of
them.

Main definition:

* `Formula.Kind`, `Formula.OfKind` — **values and truths in their places**.

Main result:

* `Formula.simplify_meaning` — **it keeps kinds and values and frees no symbol**.
-/

import BagEquiv.Proofs.FormulaStars

set_option autoImplicit false

namespace BagEquiv

namespace Formula

/-! ### Values and truths -/

/-- Terms have values, and formulas in the narrow sense are true or false. -/
inductive Kind where
  | value
  | truth
deriving DecidableEq

mutual

/-- The formula is of the given kind, and so are its parts: numbers are computed and compared,
truths are connected, and an equation or a choice is between formulas of one kind.  The arguments of
a function may be of any kind. -/
@[simp] def OfKind : Kind → Formula → Prop
  | k, .const _ => k = .value
  | k, .bool _ => k = .truth
  | k, .sym _ => k = .value
  | k, .plus terms => k = .value ∧ AllOfKind .value terms
  | k, .minus a b => k = .value ∧ OfKind .value a ∧ OfKind .value b
  | k, .mul factors => k = .value ∧ AllOfKind .value factors
  | k, .div a b => k = .value ∧ OfKind .value a ∧ OfKind .value b
  | k, .ite c a b => OfKind .truth c ∧ OfKind k a ∧ OfKind k b
  | k, .eq a b => k = .truth ∧ ∃ l, OfKind l a ∧ OfKind l b
  | k, .le a b => k = .truth ∧ OfKind .value a ∧ OfKind .value b
  | k, .lt a b => k = .truth ∧ OfKind .value a ∧ OfKind .value b
  | k, .not a => k = .truth ∧ OfKind .truth a
  | k, .and terms => k = .truth ∧ AllOfKind .truth terms
  | k, .or terms => k = .truth ∧ AllOfKind .truth terms
  | k, .func _ args _ => k = .value ∧ EachOfKind args
  | k, .star _ _ _ body => k = .truth ∧ OfKind .truth body

def AllOfKind (k : Kind) : List Formula → Prop
  | [] => True
  | t :: ts => OfKind k t ∧ AllOfKind k ts

def EachOfKind : List Formula → Prop
  | [] => True
  | t :: ts => (∃ k, OfKind k t) ∧ EachOfKind ts

end

@[simp] theorem allOfKind_iff {k : Kind} {ts : List Formula} :
    AllOfKind k ts ↔ ∀ t ∈ ts, OfKind k t := by
  induction ts with
  | nil => simp [AllOfKind]
  | cons t ts ih => rw [AllOfKind, ih, List.forall_mem_cons]

@[simp] theorem eachOfKind_iff {ts : List Formula} :
    EachOfKind ts ↔ ∀ t ∈ ts, ∃ k, OfKind k t := by
  induction ts with
  | nil => simp [EachOfKind]
  | cons t ts ih => rw [EachOfKind, ih, List.forall_mem_cons]

/-- Simplification keeps the kind of a formula. -/
theorem typing_ofKind : Typing (· = Kind.value) (· = Kind.truth) OfKind where
  const hi _ := hi
  bool hi := hi
  plus := and_congr_right (by rintro rfl; exact allOfKind_iff)
  mul := and_congr_right (by rintro rfl; exact allOfKind_iff)
  minus := and_congr_right (by rintro rfl; rfl)
  div := and_congr_right (by rintro rfl; rfl)
  not := and_congr_right (by rintro rfl; rfl)
  and := and_congr_right (by rintro rfl; exact allOfKind_iff)
  or := and_congr_right (by rintro rfl; exact allOfKind_iff)
  ite hi := hi.2
  eq hi := hi.1
  le hi := hi.1
  lt hi := hi.1
  ite_congr hc ha hb _ hi := ⟨hc _ hi.1, ha _ hi.2.1, hb _ hi.2.2⟩
  eq_congr ha hb _ hi := ⟨hi.1, hi.2.imp fun l hl => ⟨ha l hl.1, hb l hl.2⟩⟩
  le_congr ha hb _ hi := ⟨hi.1, ha _ hi.2.1, hb _ hi.2.2⟩
  lt_congr ha hb _ hi := ⟨hi.1, ha _ hi.2.1, hb _ hi.2.2⟩
  func_congr h _ hi := by
    simp only [OfKind, eachOfKind_iff] at hi ⊢
    -- Every argument keeps the kind that it has.
    have hany : List.Forall₂ (Keeps fun (_ : Unit) t => ∃ k, OfKind k t) _ _ :=
      h.imp fun t u htu _ ht => ht.imp htu
    exact ⟨hi.1, Typing.all hany (i := ()) hi.2⟩
  star_congr ha _ hi := ⟨hi.1, ha _ hi.2⟩

/-- A truth is worth one or zero. -/
theorem OfKind.value_eq_truth {f : Formula} (h : f.OfKind .truth) (R : Reading) (K : Set Symbol)
    (ρ : Interpretation) : f.value R K ρ = truth (f.Holds R K ρ) := by
  have htruth : ∀ p : Prop, truth p = truth (truth p ≠ 0) := fun p => by rw [truth_ne_zero]
  induction f using Formula.induct with
  | bool | eq | le | lt | not | and | or | star => exact htruth _
  | ite c a b _ iha ihb =>
      unfold Holds at iha ihb ⊢
      rw [value]
      split
      · exact ihb h.2.2
      · exact iha h.2.1
  | const | sym => cases h
  | plus | minus | mul | div | func => cases h.1

/-! ### Constants that are compared -/

/-- The constants that a term may turn into by choosing branches. -/
def offered : Formula → List Fraction
  | .const q => [q]
  | .ite _ a b => offered a ++ offered b
  | _ => []

mutual

/-- The constants that comparisons may get to see: operands of `≤` and `<`, and branches of
choices there. -/
def compared : Formula → List Fraction
  | .const _ => []
  | .bool _ => []
  | .sym _ => []
  | .plus terms => comparedAll terms
  | .minus a b => compared a ++ compared b
  | .mul factors => comparedAll factors
  | .div a b => compared a ++ compared b
  | .ite c a b => compared c ++ compared a ++ compared b
  | .eq a b => compared a ++ compared b
  | .le a b => offered a ++ offered b ++ compared a ++ compared b
  | .lt a b => offered a ++ offered b ++ compared a ++ compared b
  | .not a => compared a
  | .and terms => comparedAll terms
  | .or terms => comparedAll terms
  | .func _ args _ => comparedAll args
  | .star _ _ _ body => compared body

def comparedAll : List Formula → List Fraction
  | [] => []
  | t :: ts => compared t ++ comparedAll ts

end

theorem comparedAll_eq (ts : List Formula) : comparedAll ts = ts.flatMap compared := by
  induction ts with
  | nil => rfl
  | cons t ts ih => rw [comparedAll, ih, List.flatMap_cons]

/-- A constant that a term is simplified to was offered, or it is a result of arithmetic. -/
theorem offered_of_simplify {f : Formula} {q : Fraction} (hf : f.OfKind .value)
    (h : f.simplify = .ok (.const q)) : q ∈ f.offered ∨ q.Positive := by
  induction f using Formula.induct generalizing q with
  | const p =>
      cases h
      exact .inl List.mem_cons_self
  | bool => cases hf
  | sym => cases h
  | plus ts ih =>
      obtain ⟨us, _, h⟩ := Fault.ok_of_bind h
      exact .inr ((folds_simplifyPlus h).positive rfl rfl)
  | mul ts ih =>
      obtain ⟨us, _, h⟩ := Fault.ok_of_bind h
      exact .inr ((folds_simplifyMul h).positive rfl rfl)
  | minus a b _ _ =>
      obtain ⟨a', _, b', _, h⟩ := Fault.ok_of_bind₂ h
      exact .inr ((folds_simplifyMinus h).positive rfl rfl)
  | div a b _ _ =>
      obtain ⟨a', _, b', _, h⟩ := Fault.ok_of_bind₂ h
      exact .inr ((folds_simplifyDiv h).positive rfl rfl)
  | ite c a b _ iha ihb =>
      obtain ⟨c', _, a', ha, b', hb, h⟩ := Fault.ok_of_bind₃ h
      have hleft : a' = .const q → q ∈ offered (.ite c a b) ∨ q.Positive := fun h =>
        (iha hf.2.1 (h ▸ ha)).imp_left (List.mem_append_left _)
      unfold simplifyIte at h
      split at h
      · exact hleft (Except.ok.inj h)
      · exact (ihb hf.2.2 (Except.ok.inj h ▸ hb)).imp_left (List.mem_append_right _)
      · obtain ⟨r, _, h⟩ := Fault.ok_of_bind h
        cases r with
        | true => exact hleft (Except.ok.inj h)
        | false => cases h
  | eq | le | lt | not | and | or | star => cases hf.1
  | func name ts type _ =>
      obtain ⟨us, _, h⟩ := Fault.ok_of_bind h
      cases h

end Formula

/-! ### Readings that do not look at the bodies of stars -/

/-- What is in scope in the body of a star does not depend on the body. -/
def Reading.Uniform (R : Reading) : Prop := ∀ K f g, R.inside K f = R.inside K g

namespace Formula

variable {R : Reading} {K : Set Symbol} {ρ : Interpretation}

theorem uniform_or_starFree {ts : List Formula} :
    (R.Uniform ∨ hasStarAny ts = false) ↔ ∀ t ∈ ts, R.Uniform ∨ t.hasStar = false := by
  simp [hasStarAny_eq, forall_or_left]

theorem uniform_or_flatten (op : Variadic) {ts : List Formula}
    (h : ∀ t ∈ ts, R.Uniform ∨ t.hasStar = false) :
    ∀ t ∈ op.flatten ts, R.Uniform ∨ t.hasStar = false :=
  op.forall_mem_flatten h (fun _ ht _ => ht) fun _ hus =>
    uniform_or_starFree.mp (by cases op <;> exact hus)

/-! ### The same formula with constants spelled in another way -/

theorem alikeAll_iff {eqConst : Fraction → Fraction → Bool} {ts us : List Formula} :
    alikeAll eqConst ts us = true ↔ List.Forall₂ (fun t u => alike eqConst t u = true) ts us := by
  induction ts generalizing us with
  | nil => cases us <;> simp [alikeAll]
  | cons t ts ih => cases us <;> simp [alikeAll, ih]

/-- Formulas that are the same up to the spelling of constants have the same value. -/
theorem value_of_alike {R : Reading} {a b : Formula} (h : alike Fraction.same a b = true)
    (hR : R.Uniform ∨ a.hasStar = false) (K : Set Symbol) (ρ : Interpretation) :
    a.value R K ρ = b.value R K ρ := by
  have members : ∀ {ts us : List Formula} {K : Set Symbol} {ρ : Interpretation},
      alikeAll Fraction.same ts us = true → R.Uniform ∨ hasStarAny ts = false →
      (∀ t ∈ ts, ∀ {u : Formula}, alike Fraction.same t u = true →
        R.Uniform ∨ t.hasStar = false → ∀ K ρ, t.value R K ρ = u.value R K ρ) →
      valueAll R ts K ρ = valueAll R us K ρ := by
    intro ts us K ρ h hR ih
    rw [alikeAll_iff] at h
    rw [hasStarAny_eq, List.any_eq_false] at hR
    induction h with
    | nil => rfl
    | @cons t u ts us h _ ih' =>
        rw [List.forall_mem_cons] at hR ih
        rw [valueAll, valueAll, ih.1 h (hR.imp_right fun hR => by simpa using hR.1),
          ih' (hR.imp_right And.right) ih.2]
  induction a using Formula.induct generalizing b K ρ with
  | const p =>
      cases b <;> simp only [alike, Bool.false_eq_true] at h
      exact (Fraction.same_iff_toRat_eq _ _).mp h
  | bool | sym =>
      cases b <;> simp only [alike, Bool.false_eq_true, beq_iff_eq] at h
      rw [h]
  | plus ts ih | mul ts ih | and ts ih | or ts ih =>
      cases b <;> simp only [alike, Bool.false_eq_true] at h
      simp only [value, members h hR ih]
  | func name ts type ih =>
      cases b <;> simp only [alike, Bool.false_eq_true, Bool.and_eq_true, beq_iff_eq] at h
      simp only [value, h.1.1, h.2, members h.1.2 hR ih]
  | minus a c iha ihc | div a c iha ihc | eq a c iha ihc | le a c iha ihc | lt a c iha ihc =>
      cases b <;> simp only [alike, Bool.false_eq_true, Bool.and_eq_true] at h
      simp only [hasStar, Bool.or_eq_false_iff] at hR
      simp only [value, iha h.1 (hR.imp_right And.left), ihc h.2 (hR.imp_right And.right)]
  | ite c a e ihc iha ihe =>
      cases b <;> simp only [alike, Bool.false_eq_true, Bool.and_eq_true] at h
      simp only [hasStar, Bool.or_eq_false_iff] at hR
      simp only [value, ihc h.1.1 (hR.imp_right fun h => h.1.1),
        iha h.1.2 (hR.imp_right fun h => h.1.2), ihe h.2 (hR.imp_right And.right)]
  | not a ih =>
      cases b <;> simp only [alike, Bool.false_eq_true] at h
      simp only [value, ih h hR]
  | star outer inner sides body ih =>
      cases b <;> simp only [alike, Bool.false_eq_true, Bool.and_eq_true, beq_iff_eq] at h
      rename_i body'
      obtain hR | hR := hR
      · simp only [value, h.1.1.1, h.1.1.2, ih h.2 (.inl hR), hR K body body']
      · cases hR

/-! ### Values of single nodes -/

/-- The constants among the operands can be taken first. -/
theorem perm_constants (R : Reading) (K : Set Symbol) (ρ : Interpretation) (ts : List Formula) :
    (valueAll R ts K ρ).Perm ((ts.filterMap constant?).map Fraction.toRat ++
      valueAll R (ts.filter fun t => !isConstant t) K ρ) := by
  rw [valueAll_eq_map, valueAll_eq_map]
  induction ts with
  | nil => exact .nil
  | cons t ts ih =>
      cases ht : t.constant? with
      | some q =>
          have hval : t.value R K ρ = q.toRat := by rw [constant?_eq_some.mp ht, value]
          rw [List.filterMap_cons_some ht, List.filter_cons_of_neg (by simp [isConstant, ht]),
            List.map_cons, List.map_cons, hval]
          exact ih.cons _
      | none =>
          rw [List.filterMap_cons_none ht, List.filter_cons_of_pos (by simp [isConstant, ht]),
            List.map_cons, List.map_cons]
          exact (ih.cons _).trans List.perm_middle.symm

/-- Flattening replaces some operands by operands of their own. -/
theorem valueAll_flatMap (R : Reading) (K : Set Symbol) (ρ : Interpretation)
    (part : Formula → List Formula) (ts : List Formula) :
    valueAll R (ts.flatMap part) K ρ = ts.flatMap fun t => valueAll R (part t) K ρ := by
  simp only [valueAll_eq_map, List.map_flatMap]

theorem sum_flattenPlus (R : Reading) (K : Set Symbol) (ρ : Interpretation) (ts : List Formula) :
    (valueAll R (flattenPlus ts) K ρ).sum = (valueAll R ts K ρ).sum := by
  rw [flattenPlus, valueAll_flatMap]
  induction ts with
  | nil => rfl
  | cons t ts ih =>
      rw [List.flatMap_cons, List.sum_append, ih, valueAll, List.sum_cons]
      cases t <;> simp [valueAll]

theorem prod_flattenMul (R : Reading) (K : Set Symbol) (ρ : Interpretation) (ts : List Formula) :
    (valueAll R (flattenMul ts) K ρ).prod = (valueAll R ts K ρ).prod := by
  rw [flattenMul, valueAll_flatMap]
  induction ts with
  | nil => rfl
  | cons t ts ih =>
      rw [List.flatMap_cons, List.prod_append, ih, valueAll, List.prod_cons]
      cases t <;> simp [valueAll]

variable {ts us : List Formula} {a b c g : Formula}

/-- An operator with fewer than two operands is left out. -/
theorem value_of_operands {unit : Formula} {node : List Formula → Formula}
    (h : (match us with
      | [] => return unit
      | [t] => return t
      | ts => return node ts : Except Fault Formula) = .ok g)
    (hunit : unit.value R K ρ = (node []).value R K ρ)
    (hsingle : ∀ t, t.value R K ρ = (node [t]).value R K ρ) :
    g.value R K ρ = (node us).value R K ρ := by
  match us, h with
  | [], h =>
      cases h
      exact hunit
  | [t], h =>
      cases h
      exact hsingle _
  | t :: u :: us, h =>
      cases h
      rfl

theorem value_simplifyPlus (h : simplifyPlus ts = .ok g) :
    g.value R K ρ = (Formula.plus ts).value R K ρ := by
  obtain ⟨c, hc, h⟩ := Fault.ok_of_bind h
  have hsum := (perm_constants R K ρ (flattenPlus ts)).sum_eq
  rw [sum_flattenPlus, List.sum_append, ← (sum_ok hc).1] at hsum
  rw [value_of_operands h (by simp [valueAll]) (by simp [valueAll]), value, value, hsum]
  split
  · next hzero => rw [(Fraction.isZero_iff c).mp hzero, zero_add]
  · simp [valueAll_eq_map, add_comm]

theorem value_simplifyMul (h : simplifyMul ts = .ok g) :
    g.value R K ρ = (Formula.mul ts).value R K ρ := by
  obtain ⟨c, hc, h⟩ := Fault.ok_of_bind h
  have hprod := (perm_constants R K ρ (flattenMul ts)).prod_eq
  rw [prod_flattenMul, List.prod_append, ← (product_ok hc).1] at hprod
  split at h
  · next hzero =>
      cases h
      rw [value, value_zero, hprod, (Fraction.isZero_iff c).mp hzero, zero_mul]
  · rw [value_of_operands h (by simp [valueAll]) (by simp [valueAll]), value, value, hprod]
    split
    · next hone => rw [(Fraction.isOne_iff c).mp hone, one_mul]
    · rw [valueAll, List.prod_cons, value]

theorem value_simplifyMinus (h : simplifyMinus a b = .ok g) :
    g.value R K ρ = (Formula.minus a b).value R K ρ := by
  unfold simplifyMinus at h
  split at h
  · next x y hx hy =>
      rw [constant?_eq_some] at hx hy
      subst hx hy
      obtain ⟨c, hc, h⟩ := Fault.ok_of_bind h
      cases h
      exact (Fraction.sub_ok hc).1
  · next y _ hy =>
      rw [constant?_eq_some] at hy
      subst hy
      split at h <;> cases h
      · next hzero => rw [value, value, (Fraction.isZero_iff y).mp hzero, sub_zero]
      · rfl
  · cases h
    rfl

theorem value_simplifyDiv (h : simplifyDiv a b = .ok g) :
    g.value R K ρ = (Formula.div a b).value R K ρ := by
  unfold simplifyDiv at h
  split at h
  · next x y hx hy =>
      rw [constant?_eq_some] at hx hy
      subst hx hy
      split at h
      · cases h
        rfl
      · next hzero =>
          obtain ⟨c, hc, h⟩ := Fault.ok_of_bind h
          cases h
          rw [value, value, value, value, if_neg (mt (Fraction.isZero_iff y).mpr hzero),
            (Fraction.div_ok (Bool.eq_false_of_not_eq_true hzero) hc).1]
  · next y _ hy =>
      rw [constant?_eq_some] at hy
      subst hy
      split at h <;> cases h
      · next hone =>
          rw [value, value, (Fraction.isOne_iff y).mp hone, if_neg one_ne_zero, div_one]
      · rfl
  · cases h
    rfl

theorem value_simplifyIte (hR : R.Uniform ∨ a.hasStar = false) (h : simplifyIte c a b = .ok g) :
    g.value R K ρ = (Formula.ite c a b).value R K ρ := by
  unfold simplifyIte at h
  split at h
  · cases h
    simp [truth]
  · cases h
    simp [truth]
  · obtain ⟨r, hr, h⟩ := Fault.ok_of_bind h
    cases h
    cases r with
    | false => rfl
    | true => rw [if_pos rfl, value, ← value_of_alike (Checked.same_of_ok hr) hR, ite_self]

theorem value_simplifyEq (hR : R.Uniform ∨ a.hasStar = false) (h : simplifyEq a b = .ok g) :
    g.value R K ρ = (Formula.eq a b).value R K ρ := by
  obtain ⟨r, hr, hg⟩ := Fault.ok_of_bind h
  have hr := Checked.same_of_ok hr
  cases r with
  | true =>
      cases hg
      simp [value_of_alike hr hR]
  | false =>
      rw [if_neg Bool.false_ne_true] at hg
      split at hg
      · next x y hx hy =>
          rw [constant?_eq_some] at hx hy
          subst hx hy
          cases hg
          have hne : x.toRat ≠ y.toRat := fun he => by
            rw [← Fraction.same_iff_toRat_eq] at he
            exact absurd (he.symm.trans hr) (by simp)
          simp [hne]
      · cases hg
        rfl

theorem compare_ok {a b : Fraction} {o : Ordering} (ha : a.Positive) (hb : b.Positive)
    (h : Fraction.Checked.compare a b = .ok o) :
    o = if a.toRat < b.toRat then .lt else if a.toRat = b.toRat then .eq else .gt := by
  unfold Fraction.Checked.compare at h
  split at h <;> cases h
  exact Fraction.compare_of_positive ha hb

theorem value_simplifyLe (hR : R.Uniform ∨ a.hasStar = false)
    (ha : ∀ q, a = .const q → q.Positive) (hb : ∀ q, b = .const q → q.Positive)
    (h : simplifyLe a b = .ok g) : g.value R K ρ = (Formula.le a b).value R K ρ := by
  unfold simplifyLe at h
  split at h
  · next x y hx hy =>
      rw [constant?_eq_some] at hx hy
      obtain ⟨o, ho, h⟩ := Fault.ok_of_bind h
      cases h
      rw [hx, hy, value, value, value, value, compare_ok (ha x hx) (hb y hy) ho]
      congr 1
      split_ifs with hlt heq
      · simpa using hlt.le
      · simpa using heq.le
      · simpa using lt_of_le_of_ne (not_lt.mp hlt) (Ne.symm heq)
  · obtain ⟨r, hr, h⟩ := Fault.ok_of_bind h
    cases h
    cases r with
    | false => rfl
    | true => simp [value_of_alike (Checked.same_of_ok hr) hR]

theorem value_simplifyLt (hR : R.Uniform ∨ a.hasStar = false)
    (ha : ∀ q, a = .const q → q.Positive) (hb : ∀ q, b = .const q → q.Positive)
    (h : simplifyLt a b = .ok g) : g.value R K ρ = (Formula.lt a b).value R K ρ := by
  unfold simplifyLt at h
  split at h
  · next x y hx hy =>
      rw [constant?_eq_some] at hx hy
      obtain ⟨o, ho, h⟩ := Fault.ok_of_bind h
      cases h
      rw [hx, hy, value, value, value, value, compare_ok (ha x hx) (hb y hy) ho]
      congr 1
      split_ifs with hlt heq
      · simpa using hlt
      · simpa using heq.ge
      · simpa using not_lt.mp hlt
  · obtain ⟨r, hr, h⟩ := Fault.ok_of_bind h
    cases h
    cases r with
    | false => rfl
    | true => simp [value_of_alike (Checked.same_of_ok hr) hR]

theorem value_simplifyNot (ha : a.OfKind .truth) :
    (simplifyNot a).value R K ρ = (Formula.not a).value R K ρ := by
  cases a with
  | bool b => cases b <;> simp [simplifyNot, truth]
  | not a =>
      rw [simplifyNot, OfKind.value_eq_truth ha.2]
      simp [Holds]
  | _ => rfl

theorem forall_mem_flattenAnd : (∀ t ∈ flattenAnd ts, t.Holds R K ρ) ↔ ∀ t ∈ ts, t.Holds R K ρ := by
  rw [flattenAnd, List.forall_mem_flatMap]
  refine forall₂_congr fun t _ => ?_
  cases t <;> simp

theorem exists_mem_flattenOr : (∃ t ∈ flattenOr ts, t.Holds R K ρ) ↔ ∃ t ∈ ts, t.Holds R K ρ := by
  constructor
  · rintro ⟨u, hu, hold⟩
    obtain ⟨t, ht, hu⟩ := List.mem_flatMap.mp hu
    refine ⟨t, ht, ?_⟩
    cases t <;> simp only [List.mem_singleton] at hu <;> try exact hu ▸ hold
    exact holds_or.mpr ⟨u, hu, hold⟩
  · rintro ⟨t, ht, hold⟩
    cases t with
    | or inner =>
        obtain ⟨u, hu, hold⟩ := holds_or.mp hold
        exact ⟨u, List.mem_flatMap.mpr ⟨_, ht, hu⟩, hold⟩
    | _ => exact ⟨_, List.mem_flatMap.mpr ⟨_, ht, List.mem_singleton_self _⟩, hold⟩

theorem value_and (ts : List Formula) :
    (Formula.and ts).value R K ρ = truth (∀ t ∈ ts, t.Holds R K ρ) := by
  simp [Holds, valueAll_eq_map]

theorem value_or (ts : List Formula) :
    (Formula.or ts).value R K ρ = truth (∃ t ∈ ts, t.Holds R K ρ) := by
  simp [Holds, valueAll_eq_map]

/-- The members that are left are members, and each member that is not neutral holds if and only if
one that is left does. -/
theorem distinctMembers_holds {unit : Bool} (h : distinctMembers unit [] ts = .ok (some us))
    (hR : ∀ t ∈ ts, R.Uniform ∨ t.hasStar = false) (K : Set Symbol) (ρ : Interpretation) :
    us ⊆ ts ∧ ∀ t ∈ ts, t = .bool unit ∨ ∃ u ∈ us, (u.Holds R K ρ ↔ t.Holds R K ρ) := by
  obtain ⟨-, hsub, hrep⟩ := distinctMembers_some h
  rw [List.nil_append] at hsub
  refine ⟨hsub, fun t ht => (hrep t ht).imp_right ?_⟩
  rintro ⟨u, hu, hsame⟩
  exact ⟨u, hu, by rw [Holds, Holds, value_of_alike hsame (hR u (hsub hu))]⟩

theorem value_simplifyAnd (hts : ∀ t ∈ ts, t.OfKind .truth)
    (hR : ∀ t ∈ ts, R.Uniform ∨ t.hasStar = false) (h : simplifyAnd ts = .ok g) :
    g.value R K ρ = (Formula.and ts).value R K ρ := by
  obtain ⟨o, ho, h⟩ := Fault.ok_of_bind h
  have hkind := typing_ofKind.flatten .and hts
  rw [value_and, ← forall_mem_flattenAnd]
  cases o with
  | none =>
      cases h
      have hfalse : ¬∀ t ∈ flattenAnd ts, t.Holds R K ρ := fun hall => by
        simpa using hall _ (distinctMembers_none ho)
      rw [value, truth, if_neg (by simp), truth, if_neg hfalse]
  | some us =>
      obtain ⟨hsub, hrep⟩ := distinctMembers_holds ho (uniform_or_flatten .and hR) K ρ
      have hall : (∀ t ∈ flattenAnd ts, t.Holds R K ρ) ↔ ∀ u ∈ us, u.Holds R K ρ := by
        refine ⟨fun hall u hu => hall u (hsub hu), fun hall t ht => ?_⟩
        obtain rfl | ⟨u, hu, hiff⟩ := hrep t ht
        · simp
        · exact hiff.mp (hall u hu)
      rw [hall]
      rcases us with _ | ⟨t, _ | ⟨u, us⟩⟩ <;> cases h
      · simp
      · rw [(hkind _ (hsub (List.mem_singleton_self _))).value_eq_truth]
        simp
      · rw [value_and]

theorem value_simplifyOr (hts : ∀ t ∈ ts, t.OfKind .truth)
    (hR : ∀ t ∈ ts, R.Uniform ∨ t.hasStar = false) (h : simplifyOr ts = .ok g) :
    g.value R K ρ = (Formula.or ts).value R K ρ := by
  obtain ⟨o, ho, h⟩ := Fault.ok_of_bind h
  have hkind := typing_ofKind.flatten .or hts
  rw [value_or, ← exists_mem_flattenOr]
  cases o with
  | none =>
      cases h
      have htrue : ∃ t ∈ flattenOr ts, t.Holds R K ρ := ⟨_, distinctMembers_none ho, by simp⟩
      rw [value, truth, if_pos rfl, truth, if_pos htrue]
  | some us =>
      obtain ⟨hsub, hrep⟩ := distinctMembers_holds ho (uniform_or_flatten .or hR) K ρ
      have hany : (∃ t ∈ flattenOr ts, t.Holds R K ρ) ↔ ∃ u ∈ us, u.Holds R K ρ := by
        constructor
        · rintro ⟨t, ht, hold⟩
          obtain rfl | ⟨u, hu, hiff⟩ := hrep t ht
          · simp at hold
          · exact ⟨u, hu, hiff.mpr hold⟩
        · rintro ⟨u, hu, hold⟩
          exact ⟨u, hsub hu, hold⟩
      rw [hany]
      rcases us with _ | ⟨t, _ | ⟨u, us⟩⟩ <;> cases h
      · simp
      · rw [(hkind _ (hsub (List.mem_singleton_self _))).value_eq_truth]
        simp
      · rw [value_or]

/-! ### Values of formulas -/

/-- The members of a list are simplified one by one. -/
theorem valueAll_simplifyAll (h : simplifyAll ts = .ok us)
    (ih : ∀ t ∈ ts, ∀ {u : Formula}, t.simplify = .ok u → u.value R K ρ = t.value R K ρ) :
    valueAll R us K ρ = valueAll R ts K ρ := by
  have hall := simplifyAll_ok h
  clear h
  induction hall with
  | nil => rfl
  | cons ht _ hrest =>
      rw [List.forall_mem_cons] at ih
      rw [valueAll, valueAll, ih.1 ht, hrest ih.2]

/-- **Simplification keeps values.** -/
theorem value_simplify {f : Formula} {k : Kind} (hf : f.OfKind k)
    (hpos : ∀ q ∈ f.compared, q.Positive) (hR : R.Uniform ∨ f.hasStar = false)
    (h : f.simplify = .ok g) (K : Set Symbol) (ρ : Interpretation) :
    g.value R K ρ = f.value R K ρ := by
  -- The hypotheses for a list of formulas, one member at a time.
  have members : ∀ {ts us : List Formula} {K : Set Symbol} {ρ : Interpretation},
      simplifyAll ts = .ok us → (∀ t ∈ ts, ∃ l, t.OfKind l) →
      (∀ q ∈ comparedAll ts, q.Positive) → R.Uniform ∨ hasStarAny ts = false →
      (∀ t ∈ ts, ∀ {u : Formula} {l : Kind}, t.OfKind l → (∀ q ∈ t.compared, q.Positive) →
        R.Uniform ∨ t.hasStar = false → t.simplify = .ok u →
        ∀ K ρ, u.value R K ρ = t.value R K ρ) →
      valueAll R us K ρ = valueAll R ts K ρ := by
    intro ts us K ρ hus hts hpos hR ih
    rw [comparedAll_eq, List.forall_mem_flatMap] at hpos
    rw [uniform_or_starFree] at hR
    refine valueAll_simplifyAll hus fun t ht u hu => ?_
    obtain ⟨l, hl⟩ := hts t ht
    exact ih t ht hl (hpos t ht) (hR t ht) hu K ρ
  have starFree : ∀ {ts us : List Formula}, simplifyAll ts = .ok us →
      R.Uniform ∨ hasStarAny ts = false → ∀ u ∈ us, R.Uniform ∨ u.hasStar = false := by
    intro ts us hus hR u hu
    obtain ⟨t, ht, htu⟩ := exists_mem_of_simplifyAll hus hu
    exact (uniform_or_starFree.mp hR t ht).imp_right (hasStar_simplify htu)
  induction f using Formula.induct generalizing g k K ρ with
  | const | bool | sym =>
      cases h
      rfl
  | plus ts ih =>
      obtain ⟨us, hus, h⟩ := Fault.ok_of_bind h
      have hts : ∀ t ∈ ts, ∃ l, t.OfKind l := fun t ht => ⟨.value, allOfKind_iff.mp hf.2 t ht⟩
      rw [value_simplifyPlus h, value, value, members hus hts hpos hR ih]
  | mul ts ih =>
      obtain ⟨us, hus, h⟩ := Fault.ok_of_bind h
      have hts : ∀ t ∈ ts, ∃ l, t.OfKind l := fun t ht => ⟨.value, allOfKind_iff.mp hf.2 t ht⟩
      rw [value_simplifyMul h, value, value, members hus hts hpos hR ih]
  | and ts ih =>
      obtain ⟨us, hus, h⟩ := Fault.ok_of_bind h
      have hts := allOfKind_iff.mp hf.2
      rw [value_simplifyAnd (typing_ofKind.members hus hts) (starFree hus hR) h, value, value,
        members hus (fun t ht => ⟨.truth, hts t ht⟩) hpos hR ih]
  | or ts ih =>
      obtain ⟨us, hus, h⟩ := Fault.ok_of_bind h
      have hts := allOfKind_iff.mp hf.2
      rw [value_simplifyOr (typing_ofKind.members hus hts) (starFree hus hR) h, value, value,
        members hus (fun t ht => ⟨.truth, hts t ht⟩) hpos hR ih]
  | minus a b iha ihb =>
      obtain ⟨a', ha, b', hb, h⟩ := Fault.ok_of_bind₂ h
      rw [compared, List.forall_mem_append] at hpos
      rw [hasStar, Bool.or_eq_false_iff, or_and_left] at hR
      rw [value_simplifyMinus h, value, value, iha hf.2.1 hpos.1 hR.1 ha, ihb hf.2.2 hpos.2 hR.2 hb]
  | div a b iha ihb =>
      obtain ⟨a', ha, b', hb, h⟩ := Fault.ok_of_bind₂ h
      rw [compared, List.forall_mem_append] at hpos
      rw [hasStar, Bool.or_eq_false_iff, or_and_left] at hR
      rw [value_simplifyDiv h, value, value, iha hf.2.1 hpos.1 hR.1 ha, ihb hf.2.2 hpos.2 hR.2 hb]
  | eq a b iha ihb =>
      obtain ⟨a', ha, b', hb, h⟩ := Fault.ok_of_bind₂ h
      obtain ⟨-, l, hka, hkb⟩ := hf
      rw [compared, List.forall_mem_append] at hpos
      rw [hasStar, Bool.or_eq_false_iff, or_and_left] at hR
      rw [value_simplifyEq (hR.1.imp_right (hasStar_simplify ha)) h, value, value,
        iha hka hpos.1 hR.1 ha, ihb hkb hpos.2 hR.2 hb]
  | le a b iha ihb =>
      obtain ⟨a', ha, b', hb, h⟩ := Fault.ok_of_bind₂ h
      simp only [compared, List.forall_mem_append] at hpos
      obtain ⟨⟨⟨hoffa, hoffb⟩, hposa⟩, hposb⟩ := hpos
      rw [hasStar, Bool.or_eq_false_iff, or_and_left] at hR
      rw [value_simplifyLe (hR.1.imp_right (hasStar_simplify ha))
          (fun q hq => (offered_of_simplify hf.2.1 (hq ▸ ha)).elim (hoffa q) id)
          (fun q hq => (offered_of_simplify hf.2.2 (hq ▸ hb)).elim (hoffb q) id) h,
        value, value, iha hf.2.1 hposa hR.1 ha, ihb hf.2.2 hposb hR.2 hb]
  | lt a b iha ihb =>
      obtain ⟨a', ha, b', hb, h⟩ := Fault.ok_of_bind₂ h
      simp only [compared, List.forall_mem_append] at hpos
      obtain ⟨⟨⟨hoffa, hoffb⟩, hposa⟩, hposb⟩ := hpos
      rw [hasStar, Bool.or_eq_false_iff, or_and_left] at hR
      rw [value_simplifyLt (hR.1.imp_right (hasStar_simplify ha))
          (fun q hq => (offered_of_simplify hf.2.1 (hq ▸ ha)).elim (hoffa q) id)
          (fun q hq => (offered_of_simplify hf.2.2 (hq ▸ hb)).elim (hoffb q) id) h,
        value, value, iha hf.2.1 hposa hR.1 ha, ihb hf.2.2 hposb hR.2 hb]
  | ite c a b ihc iha ihb =>
      obtain ⟨c', hc, a', ha, b', hb, h⟩ := Fault.ok_of_bind₃ h
      simp only [compared, List.forall_mem_append] at hpos
      simp only [hasStar, Bool.or_eq_false_iff, or_and_left] at hR
      rw [value_simplifyIte (hR.1.2.imp_right (hasStar_simplify ha)) h, value, value,
        ihc hf.1 hpos.1.1 hR.1.1 hc, iha hf.2.1 hpos.1.2 hR.1.2 ha, ihb hf.2.2 hpos.2 hR.2 hb]
  | not a ih =>
      obtain ⟨a', ha, h⟩ := Fault.ok_of_bind h
      cases h
      rw [value_simplifyNot (typing_ofKind.simplify ha _ hf.2), value, value, ih hf.2 hpos hR ha]
  | func name ts type ih =>
      obtain ⟨us, hus, h⟩ := Fault.ok_of_bind h
      cases h
      rw [value, value, members hus (eachOfKind_iff.mp hf.2) hpos hR ih]
  | star outer inner sides body ih =>
      obtain ⟨body', hbody, h⟩ := Fault.ok_of_bind h
      cases h
      obtain hR | hR := hR
      · simp only [value, hR K body' body, ih hf.2 hpos (.inl hR) hbody]
      · cases hR

/-- **Simplification keeps the meaning of a formula.**  Let values and truths stand in their places,
and let the constants that comparisons may get to see have positive denominators.  Then the
simplified formula is of the same kind and has the same value under every interpretation, whatever
functions and quotients by zero are.  Its free symbols are free in the formula as well. -/
theorem simplify_meaning {f : Formula} {k : Kind} (hf : f.OfKind k)
    (hpos : ∀ q ∈ f.compared, q.Positive) (h : f.simplify = .ok g) :
    g.OfKind k ∧
      (∀ R : Reading, R.Uniform ∨ f.hasStar = false →
        ∀ K ρ, g.value R K ρ = f.value R K ρ) ∧
      ∀ s ∈ g.freeSymbols, s ∈ f.freeSymbols :=
  ⟨typing_ofKind.simplify h k hf, fun _ hR K ρ => value_simplify hf hpos hR h K ρ,
    fun _ hs => (freeSymbols_simplify h).subset hs⟩

/-- A sum with a negative denominator in it is compared with one half, and the body of a star says
the same thing twice. -/
def halfBelow : Formula :=
  .and [.lt (.plus [.sym ⟨"n", .real⟩, .const .minusHalf]) (.const .half),
    .star [⟨"a", .int⟩] [⟨"x", .int⟩] [.left]
      (.and [.eq (.sym ⟨"x", .int⟩) zero, .not (.not (.eq (.sym ⟨"x", .int⟩) (.plus [])))])]

/-- The same with a positive denominator, and with the component of the vector said once. -/
def halfBelowReduced : Formula :=
  .and [.lt (.plus [.sym ⟨"n", .real⟩, .const ⟨-1, 2, Fraction.half.den_ne_zero⟩]) (.const .half),
    .star [⟨"a", .int⟩] [⟨"x", .int⟩] [.left] (.eq (.sym ⟨"x", .int⟩) zero)]

/-- A negative denominator inside of a sum does no harm. -/
theorem simplify_meaning_halfBelow :
    halfBelow.OfKind .truth ∧ (∀ q ∈ halfBelow.compared, q.Positive) ∧
      halfBelow.simplify = .ok halfBelowReduced ∧
      ∀ R : Reading, R.Uniform → ∀ K ρ,
        halfBelowReduced.value R K ρ = halfBelow.value R K ρ := by
  have hf : halfBelow.OfKind .truth := by simp [halfBelow, zero, int]
  have hpos : ∀ q ∈ halfBelow.compared, q.Positive := by decide
  have h : halfBelow.simplify = .ok halfBelowReduced := by decide +kernel
  exact ⟨hf, hpos, h, fun R hR => (simplify_meaning hf hpos h).2.1 R (.inl hR)⟩

/-- One over minus two is compared with one half. -/
def halvesCompared : Formula := .lt (.const .minusHalf) (.const .half)

/-- One over minus two is less than one half, and the comparison is simplified to falsehood: of two
fractions with the numerator one, the one with the smaller denominator counts as the larger. -/
theorem simplify_halvesCompared :
    halvesCompared.OfKind .truth ∧ halvesCompared.simplify = .ok (.bool false) ∧
      ∀ R K ρ, halvesCompared.Holds R K ρ ∧ ¬(Formula.bool false).Holds R K ρ := by
  refine ⟨⟨rfl, rfl, rfl⟩, by decide +kernel, fun R K ρ => ⟨?_, by simp⟩⟩
  rw [halvesCompared, holds_lt, value, value]
  decide +kernel

end Formula

end BagEquiv
