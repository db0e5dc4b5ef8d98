/-
**Simplification reaches a normal form in one pass.**

A formula is in *normal form* if no rule of simplification applies to any of its nodes.  Sums,
products, conjunctions and disjunctions have at least two members and none of their own kind among
them.  Constants are folded, and what has to be compared was compared and is different.  The result
of simplification is in normal form, and a formula in normal form is simplified to itself.  No
comparison that the second pass makes can overflow, since the first pass has made it already, and
the constants of a sum or product are reduced, so folding them again gives the same fraction.

Main definition:

* `Formula.Normal` — **formulas in normal form**.

Main result:

* `Formula.simplify_simplify` — **simplification is idempotent**.
-/

import BagEquiv.Proofs.FractionValues
import BagEquiv.Proofs.Typings

set_option autoImplicit false

namespace BagEquiv.Formula

/-- Two formulas were compared and are different. -/
def Differ (a b : Formula) : Prop := Checked.same a b = .ok false

/-- The operand for a constant that was not left out. -/
def folded : Option Fraction → List Formula
  | none => []
  | some q => [.const q]

/-- No rule of simplification applies. -/
inductive Normal : Formula → Prop
  | const (q : Fraction) : Normal (.const q)
  | bool (b : Bool) : Normal (.bool b)
  | sym (s : Symbol) : Normal (.sym s)
  /-- The only constant of a sum is its last term. -/
  | plus {others : List Formula} {c : Option Fraction} (members : ∀ t ∈ others, Normal t)
      (flat : ∀ t ∈ others, ∀ us, t ≠ .plus us) (rest : ∀ t ∈ others, t.isConstant = false)
      (constant : ∀ q ∈ c, q.Reduced ∧ q.isZero = false)
      (two : 2 ≤ (others ++ folded c).length) :
      Normal (.plus (others ++ folded c))
  /-- The only constant of a product is its first factor. -/
  | mul {others : List Formula} {c : Option Fraction} (members : ∀ t ∈ others, Normal t)
      (flat : ∀ t ∈ others, ∀ us, t ≠ .mul us) (rest : ∀ t ∈ others, t.isConstant = false)
      (constant : ∀ q ∈ c, q.Reduced ∧ q.isZero = false ∧ q.isOne = false)
      (two : 2 ≤ (folded c ++ others).length) :
      Normal (.mul (folded c ++ others))
  | minus {a b : Formula} (left : Normal a) (right : Normal b)
      (constant : ∀ q, b = .const q → a.isConstant = false ∧ q.isZero = false) :
      Normal (.minus a b)
  /-- Only a quotient by zero is left between constants. -/
  | div {a b : Formula} (left : Normal a) (right : Normal b)
      (constant : ∀ q, b = .const q →
        (a.isConstant = true → q.isZero = true) ∧ (a.isConstant = false → q.isOne = false)) :
      Normal (.div a b)
  | ite {c a b : Formula} (condition : Normal c) (left : Normal a) (right : Normal b)
      (undecided : ∀ r, c ≠ .bool r) (differ : Differ a b) : Normal (.ite c a b)
  | eq {a b : Formula} (left : Normal a) (right : Normal b)
      (unfolded : ¬(a.isConstant = true ∧ b.isConstant = true)) (differ : Differ a b) :
      Normal (.eq a b)
  | le {a b : Formula} (left : Normal a) (right : Normal b)
      (unfolded : ¬(a.isConstant = true ∧ b.isConstant = true)) (differ : Differ a b) :
      Normal (.le a b)
  | lt {a b : Formula} (left : Normal a) (right : Normal b)
      (unfolded : ¬(a.isConstant = true ∧ b.isConstant = true)) (differ : Differ a b) :
      Normal (.lt a b)
  | not {a : Formula} (operand : Normal a) (undecided : ∀ r, a ≠ .bool r)
      (single : ∀ b, a ≠ .not b) : Normal (.not a)
  | and {ts : List Formula} (members : ∀ t ∈ ts, Normal t) (flat : ∀ t ∈ ts, ∀ us, t ≠ .and us)
      (undecided : ∀ t ∈ ts, ∀ r, t ≠ .bool r) (distinct : ts.Pairwise Differ)
      (two : 2 ≤ ts.length) : Normal (.and ts)
  | or {ts : List Formula} (members : ∀ t ∈ ts, Normal t) (flat : ∀ t ∈ ts, ∀ us, t ≠ .or us)
      (undecided : ∀ t ∈ ts, ∀ r, t ≠ .bool r) (distinct : ts.Pairwise Differ)
      (two : 2 ≤ ts.length) : Normal (.or ts)
  | func {name : String} {ts : List Formula} {type : SymbolType} (members : ∀ t ∈ ts, Normal t) :
      Normal (.func name ts type)
  | star {outer inner : List Symbol} {sides : List Side} {body : Formula} (operand : Normal body) :
      Normal (.star outer inner sides body)

variable {ts us : List Formula} {a b c g : Formula}

/-! ### Members -/

theorem exists_of_mem_folded {c : Option Fraction} {t : Formula} (h : t ∈ folded c) :
    ∃ q, t = .const q := by
  cases c with
  | none => cases h
  | some q => exact ⟨q, List.mem_singleton.mp h⟩

namespace Normal

theorem of_plus (h : Normal (.plus ts)) : ∀ t ∈ ts, Normal t ∧ ∀ us, t ≠ .plus us := by
  cases h with
  | plus members flat =>
      rw [List.forall_mem_append]
      refine ⟨fun t ht => ⟨members t ht, flat t ht⟩, fun t ht => ?_⟩
      obtain ⟨q, rfl⟩ := exists_of_mem_folded ht
      exact ⟨.const q, nofun⟩

theorem of_mul (h : Normal (.mul ts)) : ∀ t ∈ ts, Normal t ∧ ∀ us, t ≠ .mul us := by
  cases h with
  | mul members flat =>
      rw [List.forall_mem_append]
      refine ⟨fun t ht => ?_, fun t ht => ⟨members t ht, flat t ht⟩⟩
      obtain ⟨q, rfl⟩ := exists_of_mem_folded ht
      exact ⟨.const q, nofun⟩

theorem of_and (h : Normal (.and ts)) : ∀ t ∈ ts, Normal t ∧ ∀ us, t ≠ .and us := by
  cases h with
  | and members flat => exact fun t ht => ⟨members t ht, flat t ht⟩

theorem of_or (h : Normal (.or ts)) : ∀ t ∈ ts, Normal t ∧ ∀ us, t ≠ .or us := by
  cases h with
  | or members flat => exact fun t ht => ⟨members t ht, flat t ht⟩

theorem of_not (h : Normal (.not a)) : Normal a := by
  cases h with
  | not operand => exact operand

theorem of_node {op : Variadic} (h : Normal (op.node ts)) :
    ∀ t ∈ ts, Normal t ∧ ∀ us, t ≠ op.node us := by
  cases op
  exacts [h.of_plus, h.of_mul, h.of_and, h.of_or]

/-- The members of members are in normal form and not of the kind that was flattened. -/
theorem flatten (op : Variadic) (h : ∀ t ∈ ts, Normal t) :
    ∀ t ∈ op.flatten ts, Normal t ∧ ∀ us, t ≠ op.node us :=
  op.forall_mem_flatten h (fun _ => And.intro) fun _ => of_node

/-! ### Results of a node -/

/-- The operands that are not constants. -/
theorem others {p : Formula → Prop} (h : ∀ t ∈ ts, Normal t ∧ p t) :
    (∀ t ∈ ts.filter fun t => !isConstant t, Normal t) ∧
      (∀ t ∈ ts.filter fun t => !isConstant t, p t) ∧
      ∀ t ∈ ts.filter fun t => !isConstant t, t.isConstant = false := by
  simp only [List.mem_filter, Bool.not_eq_true']
  exact ⟨fun t ht => (h t ht.1).1, fun t ht => (h t ht.1).2, fun t ht => ht.2⟩

theorem of_simplifyPlus (hts : ∀ t ∈ ts, Normal t) (h : simplifyPlus ts = .ok g) : Normal g := by
  obtain ⟨c, hc, h⟩ := Fault.ok_of_bind h
  obtain ⟨members, flat, rest⟩ := others (flatten .plus hts)
  refine of_operands h (.const _) ?_ ?_
  · split
    · exact members
    · exact List.forall_mem_append.mpr ⟨members, List.forall_mem_singleton.mpr (.const c)⟩
  · split
    · intro two
      rw [← List.append_nil (List.filter _ _)] at two ⊢
      exact .plus (c := none) members flat rest nofun two
    · next hzero =>
        refine Normal.plus (c := some c) members flat rest fun q hq => ?_
        obtain rfl := Option.mem_some.mp hq
        exact ⟨Fraction.reduced_of_sum hc, Bool.eq_false_of_not_eq_true hzero⟩

theorem of_simplifyMul (hts : ∀ t ∈ ts, Normal t) (h : simplifyMul ts = .ok g) : Normal g := by
  obtain ⟨c, hc, h⟩ := Fault.ok_of_bind h
  obtain ⟨members, flat, rest⟩ := others (flatten .mul hts)
  split at h
  · cases h
    exact .const _
  · next hzero =>
      refine of_operands h (.const _) ?_ ?_
      · split
        · exact members
        · exact List.forall_mem_cons.mpr ⟨.const c, members⟩
      · split
        · exact Normal.mul (c := none) members flat rest nofun
        · next hone =>
            refine Normal.mul (c := some c) members flat rest fun q hq => ?_
            obtain rfl := Option.mem_some.mp hq
            exact ⟨Fraction.reduced_of_product hc, Bool.eq_false_of_not_eq_true hzero,
              Bool.eq_false_of_not_eq_true hone⟩

theorem of_simplifyMinus (ha : Normal a) (hb : Normal b) (h : simplifyMinus a b = .ok g) :
    Normal g := by
  unfold Formula.simplifyMinus at h
  split at h
  · obtain ⟨q, _, h⟩ := Fault.ok_of_bind h
    cases h
    exact .const q
  · next y hnone hy =>
      rw [constant?_eq_some] at hy
      subst hy
      split at h <;> cases h
      · exact ha
      · next hzero =>
          refine .minus ha hb fun q hq => ?_
          cases hq
          exact ⟨by rw [isConstant, hnone]; rfl, Bool.eq_false_of_not_eq_true hzero⟩
  · next hnone =>
      cases h
      refine .minus ha hb fun q hq => ?_
      rw [hq] at hnone
      cases hnone

theorem of_simplifyDiv (ha : Normal a) (hb : Normal b) (h : simplifyDiv a b = .ok g) :
    Normal g := by
  unfold Formula.simplifyDiv at h
  split at h
  · next x y hx hy =>
      rw [constant?_eq_some] at hx hy
      subst hx hy
      split at h
      · next hzero =>
          cases h
          refine .div ha hb fun q hq => ?_
          cases hq
          exact ⟨fun _ => hzero, by simp [isConstant, constant?]⟩
      · obtain ⟨q, _, h⟩ := Fault.ok_of_bind h
        cases h
        exact .const q
  · next y hnone hy =>
      rw [constant?_eq_some] at hy
      subst hy
      split at h <;> cases h
      · exact ha
      · next hone =>
          refine .div ha hb fun q hq => ?_
          cases hq
          rw [isConstant, hnone]
          exact ⟨by simp, fun _ => Bool.eq_false_of_not_eq_true hone⟩
  · next hnone =>
      cases h
      refine .div ha hb fun q hq => ?_
      rw [hq] at hnone
      cases hnone

theorem of_simplifyIte (hc : Normal c) (ha : Normal a) (hb : Normal b)
    (h : simplifyIte c a b = .ok g) : Normal g := by
  unfold Formula.simplifyIte at h
  split at h
  · cases h
    exact ha
  · cases h
    exact hb
  · next htrue hfalse =>
      obtain ⟨r, hr, h⟩ := Fault.ok_of_bind h
      cases h
      cases r with
      | true => exact ha
      | false =>
          refine .ite hc ha hb (fun r hr => ?_) hr
          cases r with
          | true => exact htrue hr
          | false => exact hfalse hr

/-- Two formulas of which not both are constants. -/
theorem not_constants {α : Type} {x y : Option α} (h : ∀ p q, x = some p → y = some q → False) :
    ¬(x.isSome = true ∧ y.isSome = true) := by
  rintro ⟨hx, hy⟩
  obtain ⟨p, hp⟩ := Option.isSome_iff_exists.mp hx
  obtain ⟨q, hq⟩ := Option.isSome_iff_exists.mp hy
  exact h p q hp hq

theorem of_simplifyEq (ha : Normal a) (hb : Normal b) (h : simplifyEq a b = .ok g) :
    Normal g := by
  obtain ⟨r, hr, h⟩ := Fault.ok_of_bind h
  cases r with
  | true =>
      cases h
      exact .bool true
  | false =>
      rw [if_neg Bool.false_ne_true] at h
      split at h <;> cases h
      · exact .bool false
      · next hne => exact .eq ha hb (not_constants hne) hr

theorem of_simplifyLe (ha : Normal a) (hb : Normal b) (h : simplifyLe a b = .ok g) :
    Normal g := by
  unfold Formula.simplifyLe at h
  split at h
  · obtain ⟨o, _, h⟩ := Fault.ok_of_bind h
    cases h
    exact .bool _
  · next hne =>
      obtain ⟨r, hr, h⟩ := Fault.ok_of_bind h
      cases h
      cases r with
      | true => exact .bool true
      | false => exact .le ha hb (not_constants hne) hr

theorem of_simplifyLt (ha : Normal a) (hb : Normal b) (h : simplifyLt a b = .ok g) :
    Normal g := by
  unfold Formula.simplifyLt at h
  split at h
  · obtain ⟨o, _, h⟩ := Fault.ok_of_bind h
    cases h
    exact .bool _
  · next hne =>
      obtain ⟨r, hr, h⟩ := Fault.ok_of_bind h
      cases h
      cases r with
      | true => exact .bool false
      | false => exact .lt ha hb (not_constants hne) hr

theorem of_simplifyNot (ha : Normal a) : Normal (simplifyNot a) := by
  cases a with
  | bool b => exact .bool _
  | not a => exact ha.of_not
  | _ => exact .not ha nofun nofun

end Normal

/-! ### Members that differ -/

theorem mem_eq_false_iff {t : Formula} :
    Checked.mem t us = .ok false ↔ ∀ u ∈ us, Differ u t := by
  induction us with
  | nil => simp [Checked.mem]
  | cons u us ih =>
      rw [List.forall_mem_cons, ← ih, Checked.mem]
      constructor
      · intro h
        obtain ⟨r, hr, h⟩ := Fault.ok_of_bind h
        cases r with
        | true => cases h
        | false => exact ⟨hr, h⟩
      · rintro ⟨hu, h⟩
        rw [hu]
        exact h

/-- The members that are left differ, and none of them is decided. -/
theorem distinctMembers_differ {unit : Bool} {done : List Formula}
    (h : distinctMembers unit done ts = .ok (some us)) (hdone : done.Pairwise Differ)
    (hopen : ∀ t ∈ done, ∀ r, t ≠ .bool r) :
    us.Pairwise Differ ∧ ∀ t ∈ us, ∀ r, t ≠ .bool r := by
  induction ts generalizing done with
  | nil =>
      cases h
      exact ⟨hdone, hopen⟩
  | cons t ts ih =>
      unfold distinctMembers at h
      split at h
      · split at h
        · exact ih h hdone hopen
        · cases h
      · next hbool =>
          obtain ⟨r, hr, h⟩ := Fault.ok_of_bind h
          cases r with
          | true => exact ih h hdone hopen
          | false =>
              refine ih h ?_ ?_
              · rw [List.pairwise_append]
                refine ⟨hdone, List.pairwise_singleton _ _, fun u hu v hv => ?_⟩
                obtain rfl := List.mem_singleton.mp hv
                exact mem_eq_false_iff.mp hr u hu
              · exact List.forall_mem_append.mpr ⟨hopen, List.forall_mem_singleton.mpr hbool⟩

/-- Members that differ are all left. -/
theorem distinctMembers_of_differ {unit : Bool} {done : List Formula}
    (hdistinct : (done ++ ts).Pairwise Differ) (hopen : ∀ t ∈ ts, ∀ r, t ≠ .bool r) :
    distinctMembers unit done ts = .ok (some (done ++ ts)) := by
  induction ts generalizing done with
  | nil => rw [distinctMembers, List.append_nil]
  | cons t ts ih =>
      rw [List.forall_mem_cons] at hopen
      have hmem : Checked.mem t done = .ok false := mem_eq_false_iff.mpr fun u hu =>
        (List.pairwise_append.mp hdistinct).2.2 u hu t List.mem_cons_self
      have hrest : distinctMembers unit (done ++ [t]) ts = .ok (some (done ++ t :: ts)) := by
        simpa using ih (by simpa using hdistinct : (done ++ [t] ++ ts).Pairwise Differ) hopen.2
      unfold distinctMembers
      split
      · next r => exact absurd rfl (hopen.1 r)
      · rw [hmem]
        exact hrest

theorem Normal.of_simplifyAnd (hts : ∀ t ∈ ts, Normal t) (h : simplifyAnd ts = .ok g) :
    Normal g := by
  obtain ⟨o, ho, h⟩ := Fault.ok_of_bind h
  have hflat := Normal.flatten .and hts
  refine of_members h ho .bool (fun t ht => (hflat t ht).1) fun us hsub hus two => ?_
  obtain ⟨distinct, undecided⟩ := distinctMembers_differ hus .nil nofun
  exact .and (fun t ht => (hflat t (hsub ht)).1) (fun t ht => (hflat t (hsub ht)).2) undecided
    distinct two

theorem Normal.of_simplifyOr (hts : ∀ t ∈ ts, Normal t) (h : simplifyOr ts = .ok g) :
    Normal g := by
  obtain ⟨o, ho, h⟩ := Fault.ok_of_bind h
  have hflat := Normal.flatten .or hts
  refine of_members h ho .bool (fun t ht => (hflat t ht).1) fun us hsub hus two => ?_
  obtain ⟨distinct, undecided⟩ := distinctMembers_differ hus .nil nofun
  exact .or (fun t ht => (hflat t (hsub ht)).1) (fun t ht => (hflat t (hsub ht)).2) undecided
    distinct two

/-! ### Simplified formulas -/

/-- The result of simplification is in normal form. -/
theorem normal_of_simplify {f : Formula} (h : f.simplify = .ok g) : Normal g := by
  have members : ∀ {ts us : List Formula}, simplifyAll ts = .ok us →
      (∀ t ∈ ts, ∀ {u : Formula}, t.simplify = .ok u → Normal u) → ∀ u ∈ us, Normal u := by
    intro ts us h ih u hu
    obtain ⟨t, ht, hu⟩ := exists_mem_of_simplifyAll h hu
    exact ih t ht hu
  induction f using Formula.induct generalizing g with
  | const q =>
      cases h
      exact .const q
  | bool b =>
      cases h
      exact .bool b
  | sym s =>
      cases h
      exact .sym s
  | plus ts ih =>
      obtain ⟨us, hus, h⟩ := Fault.ok_of_bind h
      exact .of_simplifyPlus (members hus ih) h
  | mul ts ih =>
      obtain ⟨us, hus, h⟩ := Fault.ok_of_bind h
      exact .of_simplifyMul (members hus ih) h
  | and ts ih =>
      obtain ⟨us, hus, h⟩ := Fault.ok_of_bind h
      exact .of_simplifyAnd (members hus ih) h
  | or ts ih =>
      obtain ⟨us, hus, h⟩ := Fault.ok_of_bind h
      exact .of_simplifyOr (members hus ih) h
  | minus a b iha ihb =>
      obtain ⟨a', ha, b', hb, h⟩ := Fault.ok_of_bind₂ h
      exact .of_simplifyMinus (iha ha) (ihb hb) h
  | div a b iha ihb =>
      obtain ⟨a', ha, b', hb, h⟩ := Fault.ok_of_bind₂ h
      exact .of_simplifyDiv (iha ha) (ihb hb) h
  | eq a b iha ihb =>
      obtain ⟨a', ha, b', hb, h⟩ := Fault.ok_of_bind₂ h
      exact .of_simplifyEq (iha ha) (ihb hb) h
  | le a b iha ihb =>
      obtain ⟨a', ha, b', hb, h⟩ := Fault.ok_of_bind₂ h
      exact .of_simplifyLe (iha ha) (ihb hb) h
  | lt a b iha ihb =>
      obtain ⟨a', ha, b', hb, h⟩ := Fault.ok_of_bind₂ h
      exact .of_simplifyLt (iha ha) (ihb hb) h
  | ite c a b ihc iha ihb =>
      obtain ⟨c', hc, a', ha, b', hb, h⟩ := Fault.ok_of_bind₃ h
      exact .of_simplifyIte (ihc hc) (iha ha) (ihb hb) h
  | not a ih =>
      obtain ⟨a', ha, h⟩ := Fault.ok_of_bind h
      cases h
      exact .of_simplifyNot (ih ha)
  | func name ts type ih =>
      obtain ⟨us, hus, h⟩ := Fault.ok_of_bind h
      cases h
      exact .func (members hus ih)
  | star outer inner sides body ih =>
      obtain ⟨body', hbody, h⟩ := Fault.ok_of_bind h
      cases h
      exact .star (ih hbody)

/-! ### Simplifying a normal form -/

/-- An operator with two operands or more stays. -/
theorem match_of_two {unit : Formula} {node : List Formula → Formula} : 2 ≤ us.length →
    (match us with
      | [] => return unit
      | [t] => return t
      | ts => return node ts : Except Fault Formula) = .ok (node us) := by
  intro two
  match us, two with
  | _ :: _ :: _, _ => rfl

/-- Two constants are needed for a comparison to be decided. -/
theorem match_of_unfolded {α : Type} {x : Fraction → Fraction → α} {y : α} :
    ¬(a.isConstant = true ∧ b.isConstant = true) →
    (match a.constant?, b.constant? with
      | some p, some q => x p q
      | _, _ => y) = y := by
  intro unfolded
  split
  · next hp hq => exact absurd ⟨by rw [isConstant, hp]; rfl, by rw [isConstant, hq]; rfl⟩ unfolded
  · rfl

theorem simplifyIte_of_undecided (h : ∀ r, c ≠ .bool r) :
    simplifyIte c a b = (do return if ← Checked.same a b then a else .ite c a b) := by
  cases c with
  | bool r => exact absurd rfl (h r)
  | _ => rfl

theorem simplifyMinus_of_folded
    (constant : ∀ q, b = .const q → a.isConstant = false ∧ q.isZero = false) :
    simplifyMinus a b = .ok (.minus a b) := by
  unfold simplifyMinus
  split
  · next x y hx hy =>
      have hrest := (constant y (constant?_eq_some.mp hy)).1
      rw [isConstant, hx] at hrest
      cases hrest
  · next y _ hy => rw [(constant y (constant?_eq_some.mp hy)).2, if_neg Bool.false_ne_true]
  · rfl

theorem simplifyDiv_of_folded
    (constant : ∀ q, b = .const q →
      (a.isConstant = true → q.isZero = true) ∧ (a.isConstant = false → q.isOne = false)) :
    simplifyDiv a b = .ok (.div a b) := by
  unfold simplifyDiv
  split
  · next x y hx hy =>
      exact if_pos ((constant y (constant?_eq_some.mp hy)).1 (by rw [isConstant, hx]; rfl))
  · next y hnone hy =>
      have hone := (constant y (constant?_eq_some.mp hy)).2 (by rw [isConstant, hnone]; rfl)
      rw [hone, if_neg Bool.false_ne_true]
  · rfl

/-- The constants and the other operands, where only one list has constants. -/
theorem constants_of_rest (h : ∀ t ∈ ts, t.isConstant = false) :
    ts.filterMap constant? = [] ∧ ts.filter (fun t => !isConstant t) = ts := by
  constructor
  · rw [List.filterMap_eq_nil_iff]
    exact fun t ht => Option.isNone_iff_eq_none.mp (Option.isSome_eq_false_iff.mp (h t ht))
  · rw [List.filter_eq_self]
    exact fun t ht => by rw [h t ht, Bool.not_false]

theorem constants_of_folded (c : Option Fraction) :
    (folded c).filterMap constant? = c.toList ∧
      (folded c).filter (fun t => !isConstant t) = [] := by
  cases c <;> exact ⟨rfl, rfl⟩

theorem simplifyPlus_of_folded {others : List Formula} {c : Option Fraction}
    (flat : ∀ t ∈ others, ∀ us, t ≠ .plus us) (rest : ∀ t ∈ others, t.isConstant = false)
    (constant : ∀ q ∈ c, q.Reduced ∧ q.isZero = false)
    (two : 2 ≤ (others ++ folded c).length) :
    simplifyPlus (others ++ folded c) = .ok (.plus (others ++ folded c)) := by
  have hflat : flattenPlus (others ++ folded c) = others ++ folded c := by
    refine Variadic.plus.flatten_of_flat (List.forall_mem_append.mpr ⟨flat, fun t ht => ?_⟩)
    obtain ⟨q, rfl⟩ := exists_of_mem_folded ht
    exact nofun
  obtain ⟨hnone, hself⟩ := constants_of_rest rest
  obtain ⟨hsome, hnil⟩ := constants_of_folded c
  rw [simplifyPlus, hflat, List.filterMap_append, List.filter_append, hnone, hself, hsome, hnil,
    List.nil_append, List.append_nil]
  cases c with
  | none =>
      rw [folded, List.append_nil] at two ⊢
      exact match_of_two two
  | some q =>
      obtain ⟨hreduced, hzero⟩ := constant q rfl
      rw [Option.toList, hreduced.sum_singleton, Fault.ok_bind, hzero]
      exact match_of_two two

theorem simplifyMul_of_folded {others : List Formula} {c : Option Fraction}
    (flat : ∀ t ∈ others, ∀ us, t ≠ .mul us) (rest : ∀ t ∈ others, t.isConstant = false)
    (constant : ∀ q ∈ c, q.Reduced ∧ q.isZero = false ∧ q.isOne = false)
    (two : 2 ≤ (folded c ++ others).length) :
    simplifyMul (folded c ++ others) = .ok (.mul (folded c ++ others)) := by
  have hflat : flattenMul (folded c ++ others) = folded c ++ others := by
    refine Variadic.mul.flatten_of_flat (List.forall_mem_append.mpr ⟨fun t ht => ?_, flat⟩)
    obtain ⟨q, rfl⟩ := exists_of_mem_folded ht
    exact nofun
  obtain ⟨hnone, hself⟩ := constants_of_rest rest
  obtain ⟨hsome, hnil⟩ := constants_of_folded c
  rw [simplifyMul, hflat, List.filterMap_append, List.filter_append, hnone, hself, hsome, hnil,
    List.append_nil, List.nil_append]
  cases c with
  | none => exact match_of_two two
  | some q =>
      obtain ⟨hreduced, hzero, hone⟩ := constant q rfl
      rw [Option.toList, hreduced.product_singleton, Fault.ok_bind, hzero, hone]
      exact match_of_two two

theorem simplifyAll_of_fixed (h : ∀ t ∈ ts, simplify t = .ok t) : simplifyAll ts = .ok ts := by
  induction ts with
  | nil => rfl
  | cons t ts ih =>
      rw [List.forall_mem_cons] at h
      rw [simplifyAll, h.1, ih h.2]
      rfl

/-- A conjunction or disjunction whose members differ stays. -/
theorem match_of_differ {unit : Bool} {node : List Formula → Formula}
    (distinct : ts.Pairwise Differ) (hopen : ∀ t ∈ ts, ∀ r, t ≠ .bool r) (two : 2 ≤ ts.length) :
    (do
      match ← distinctMembers unit [] ts with
      | none => return .bool (!unit)
      | some [] => return .bool unit
      | some [t] => return t
      | some ts => return node ts : Except Fault Formula) = .ok (node ts) := by
  rw [distinctMembers_of_differ (by rwa [List.nil_append]) hopen, Fault.ok_bind, List.nil_append]
  match ts, two with
  | _ :: _ :: _, _ => rfl

/-- A formula in normal form is simplified to itself. -/
theorem Normal.simplify (h : Normal g) : g.simplify = .ok g := by
  induction h with
  | const q | bool b | sym s => rfl
  | @plus others c members flat rest constant two ih =>
      have hfixed : ∀ t ∈ others ++ folded c, t.simplify = .ok t := by
        refine List.forall_mem_append.mpr ⟨ih, fun t ht => ?_⟩
        obtain ⟨q, rfl⟩ := exists_of_mem_folded ht
        rfl
      rw [Formula.simplify, simplifyAll_of_fixed hfixed, Fault.ok_bind]
      exact simplifyPlus_of_folded flat rest constant two
  | @mul others c members flat rest constant two ih =>
      have hfixed : ∀ t ∈ folded c ++ others, t.simplify = .ok t := by
        refine List.forall_mem_append.mpr ⟨fun t ht => ?_, ih⟩
        obtain ⟨q, rfl⟩ := exists_of_mem_folded ht
        rfl
      rw [Formula.simplify, simplifyAll_of_fixed hfixed, Fault.ok_bind]
      exact simplifyMul_of_folded flat rest constant two
  | minus _ _ constant iha ihb =>
      rw [Formula.simplify, iha, Fault.ok_bind, ihb, Fault.ok_bind]
      exact simplifyMinus_of_folded constant
  | div _ _ constant iha ihb =>
      rw [Formula.simplify, iha, Fault.ok_bind, ihb, Fault.ok_bind]
      exact simplifyDiv_of_folded constant
  | ite _ _ _ undecided differ ihc iha ihb =>
      rw [Formula.simplify, ihc, Fault.ok_bind, iha, Fault.ok_bind, ihb, Fault.ok_bind,
        simplifyIte_of_undecided undecided, differ]
      rfl
  | eq _ _ unfolded differ iha ihb =>
      rw [Formula.simplify, iha, Fault.ok_bind, ihb, Fault.ok_bind, simplifyEq, differ]
      exact match_of_unfolded unfolded
  | le _ _ unfolded differ iha ihb | lt _ _ unfolded differ iha ihb =>
      rw [Formula.simplify, iha, Fault.ok_bind, ihb, Fault.ok_bind]
      refine (match_of_unfolded unfolded).trans ?_
      rw [differ]
      rfl
  | @not a _ undecided single ih =>
      rw [Formula.simplify, ih, Fault.ok_bind]
      cases a with
      | bool r => exact absurd rfl (undecided r)
      | not b => exact absurd rfl (single b)
      | _ => rfl
  | and members flat undecided distinct two ih =>
      rw [Formula.simplify, simplifyAll_of_fixed ih, Fault.ok_bind, simplifyAnd,
        show flattenAnd _ = _ from Variadic.and.flatten_of_flat flat]
      exact match_of_differ distinct undecided two
  | or members flat undecided distinct two ih =>
      rw [Formula.simplify, simplifyAll_of_fixed ih, Fault.ok_bind, simplifyOr,
        show flattenOr _ = _ from Variadic.or.flatten_of_flat flat]
      exact match_of_differ distinct undecided two
  | func members ih =>
      rw [Formula.simplify, simplifyAll_of_fixed ih]
      rfl
  | star operand ih =>
      rw [Formula.simplify, ih]
      rfl

/-- **Simplification is idempotent.**  What it makes of a formula, well sorted or not, is in normal
form, and simplifying it again succeeds and gives the same formula. -/
theorem simplify_simplify {f : Formula} (h : f.simplify = .ok g) :
    Normal g ∧ g.simplify = .ok g :=
  ⟨normal_of_simplify h, (normal_of_simplify h).simplify⟩

/-- An equation that is said twice: once with a sum in a sum, and once under two negations. -/
def saidTwice : Formula :=
  .and [.eq (.plus [.sym ⟨"n", .int⟩, .plus [int 1, int 2]]) (.sym ⟨"m", .int⟩),
    .not (.not (.and [.eq (.plus [int 3, .sym ⟨"n", .int⟩]) (.sym ⟨"m", .int⟩),
      .lt zero (.sym ⟨"n", .int⟩)]))]

/-- The same equation said once. -/
def saidOnce : Formula :=
  .and [.eq (.plus [.sym ⟨"n", .int⟩, int 3]) (.sym ⟨"m", .int⟩), .lt zero (.sym ⟨"n", .int⟩)]

/-- The sums are flattened and folded, the negations go, and the two equations become one; then
nothing is left to do. -/
theorem simplify_simplify_saidTwice :
    saidTwice.simplify = .ok saidOnce ∧ Normal saidOnce ∧ saidOnce.simplify = .ok saidOnce := by
  have h : saidTwice.simplify = .ok saidOnce := by decide +kernel
  exact ⟨h, simplify_simplify h⟩

end BagEquiv.Formula
