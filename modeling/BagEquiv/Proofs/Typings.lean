/-
**Conditions that simplification keeps.**

A *typing* is a family of conditions on formulas, one for every type, that says of a node something
about its operands.  Simplification folds constants, flattens operators, drops operands and replaces
a node by one of them.  If a typing allows for these steps, then the simplified formula has every
type that the formula has.

Main definition:

* `Formula.Typing` — **conditions that allow for the steps of simplification**.

Main results:

* `Formula.of_simplify` — **what every step of simplification keeps, it keeps**;
* `Formula.Typing.simplify` — **simplification keeps types**.
-/

import BagEquiv.Formula.Simplify
import BagEquiv.Proofs.FractionValues

set_option autoImplicit false

namespace BagEquiv.Formula

/-! ### Folded constants -/

/-- Folding an exact operation over fractions. -/
theorem foldlM_ok {op : Fraction → Fraction → Except Fault Fraction} {f : ℚ → ℚ → ℚ}
    (hop : ∀ {a b c : Fraction}, op a b = .ok c → c.toRat = f a.toRat b.toRat ∧ c.Positive)
    {qs : List Fraction} {a c : Fraction} (ha : a.Positive) (h : qs.foldlM op a = .ok c) :
    c.toRat = (qs.map Fraction.toRat).foldl f a.toRat ∧ c.Positive := by
  induction qs generalizing a with
  | nil =>
      cases h
      exact ⟨rfl, ha⟩
  | cons q qs ih =>
      rw [List.foldlM_cons] at h
      obtain ⟨b, hb, h⟩ := Fault.ok_of_bind h
      obtain ⟨hval, hpos⟩ := hop hb
      rw [List.map_cons, List.foldl_cons, ← hval]
      exact ih hpos h

theorem sum_ok {qs : List Fraction} {c : Fraction} (h : Arithmetic.sum qs = .ok c) :
    c.toRat = (qs.map Fraction.toRat).sum ∧ c.Positive := by
  obtain ⟨hval, hpos⟩ := foldlM_ok Fraction.add_ok (Fraction.positive_ofWord 0) h
  refine ⟨?_, hpos⟩
  rw [hval, List.sum_eq_foldl]
  exact congrArg (List.foldl _ · _) Fraction.toRat_zero

theorem product_ok {qs : List Fraction} {c : Fraction} (h : Arithmetic.product qs = .ok c) :
    c.toRat = (qs.map Fraction.toRat).prod ∧ c.Positive := by
  obtain ⟨hval, hpos⟩ := foldlM_ok Fraction.mul_ok (Fraction.positive_ofWord 1) h
  refine ⟨?_, hpos⟩
  rw [hval, List.prod_eq_foldl]
  exact congrArg (List.foldl _ · _) Fraction.toRat_one

theorem constant?_eq_some {t : Formula} {q : Fraction} :
    t.constant? = some q ↔ t = .const q := by
  cases t <;> simp [constant?]

/-! ### Operands -/

theorem same_refl (t : Formula) : t.same t = true :=
  alike_refl (fun q => by simp [Fraction.same]) t

theorem mem_ok {t : Formula} {us : List Formula} (h : Checked.mem t us = .ok true) :
    ∃ u ∈ us, u.same t = true := by
  induction us with
  | nil => cases h
  | cons u us ih =>
      obtain ⟨r, hr, h⟩ := Fault.ok_of_bind h
      cases r with
      | true => exact ⟨u, List.mem_cons_self, Checked.same_of_ok hr⟩
      | false =>
          obtain ⟨w, hw, hsame⟩ := ih h
          exact ⟨w, List.mem_cons_of_mem _ hw, hsame⟩

/-- Nothing is left if there is an absorbing member. -/
theorem distinctMembers_none {unit : Bool} {done ts : List Formula}
    (h : distinctMembers unit done ts = .ok none) : .bool (!unit) ∈ ts := by
  induction ts generalizing done with
  | nil => cases h
  | cons t ts ih =>
      unfold distinctMembers at h
      split at h
      · next b =>
          split at h
          · exact List.mem_cons_of_mem _ (ih h)
          · next hb =>
              rw [← Bool.eq_not_of_ne hb]
              exact List.mem_cons_self
      · obtain ⟨r, _, h⟩ := Fault.ok_of_bind h
        split at h <;> exact List.mem_cons_of_mem _ (ih h)

/-- What is left are members, and every member that is not neutral is left up to the spelling of
constants. -/
theorem distinctMembers_some {unit : Bool} {done ts us : List Formula}
    (h : distinctMembers unit done ts = .ok (some us)) :
    done ⊆ us ∧ us ⊆ done ++ ts ∧ ∀ t ∈ ts, t = .bool unit ∨ ∃ u ∈ us, u.same t = true := by
  induction ts generalizing done with
  | nil =>
      cases h
      simp
  | cons t ts ih =>
      unfold distinctMembers at h
      split at h
      · next b =>
          split at h
          · next hb =>
              obtain ⟨h₁, h₂, h₃⟩ := ih h
              refine ⟨h₁, fun u hu => ?_, List.forall_mem_cons.mpr ⟨.inl (by rw [hb]), h₃⟩⟩
              have := h₂ hu
              rw [List.mem_append] at this ⊢
              exact this.imp_right (List.mem_cons_of_mem _)
          · cases h
      · obtain ⟨r, hr, h⟩ := Fault.ok_of_bind h
        cases r with
        | true =>
            obtain ⟨h₁, h₂, h₃⟩ := ih h
            obtain ⟨w, hw, hsame⟩ := mem_ok hr
            refine ⟨h₁, fun u hu => ?_, List.forall_mem_cons.mpr ⟨.inr ⟨w, h₁ hw, hsame⟩, h₃⟩⟩
            have := h₂ hu
            rw [List.mem_append] at this ⊢
            exact this.imp_right (List.mem_cons_of_mem _)
        | false =>
            obtain ⟨h₁, h₂, h₃⟩ := ih h
            rw [List.append_subset] at h₁
            refine ⟨h₁.1, by simpa using h₂, List.forall_mem_cons.mpr ⟨.inr ⟨t, ?_, ?_⟩, h₃⟩⟩
            · exact h₁.2 List.mem_cons_self
            · exact same_refl t

/-- The members that are left are so in their order. -/
theorem distinctMembers_sublist {unit : Bool} {done ts us : List Formula}
    (h : distinctMembers unit done ts = .ok (some us)) : ∃ vs, us = done ++ vs ∧ vs.Sublist ts := by
  induction ts generalizing done with
  | nil =>
      cases h
      exact ⟨[], (List.append_nil _).symm, List.Sublist.refl _⟩
  | cons t ts ih =>
      unfold distinctMembers at h
      split at h
      · split at h
        · obtain ⟨vs, hus, hvs⟩ := ih h
          exact ⟨vs, hus, hvs.cons _⟩
        · cases h
      · obtain ⟨r, _, h⟩ := Fault.ok_of_bind h
        cases r with
        | true =>
            obtain ⟨vs, hus, hvs⟩ := ih h
            exact ⟨vs, hus, hvs.cons _⟩
        | false =>
            obtain ⟨vs, hus, hvs⟩ := ih h
            exact ⟨t :: vs, by rw [hus, List.append_assoc]; rfl, hvs.cons_cons _⟩

theorem simplifyAll_ok {ts us : List Formula} (h : simplifyAll ts = .ok us) :
    List.Forall₂ (fun t u => simplify t = .ok u) ts us := by
  induction ts generalizing us with
  | nil =>
      cases h
      exact .nil
  | cons t ts ih =>
      obtain ⟨u, hu, us, hus, h⟩ := Fault.ok_of_bind₂ h
      cases h
      exact .cons hu (ih hus)

theorem exists_mem_of_simplifyAll {ts us : List Formula} (h : simplifyAll ts = .ok us)
    {u : Formula} (hu : u ∈ us) : ∃ t ∈ ts, t.simplify = .ok u := by
  have hall := simplifyAll_ok h
  clear h
  induction hall with
  | nil => cases hu
  | cons ht _ ih =>
      rcases List.mem_cons.mp hu with rfl | hu
      · exact ⟨_, List.mem_cons_self, ht⟩
      · obtain ⟨t, hmem, ht⟩ := ih hu
        exact ⟨t, List.mem_cons_of_mem _ hmem, ht⟩

variable {ts us : List Formula} {a b c a' b' c' f g : Formula}

/-- An operator with fewer than two operands is left out. -/
theorem of_operands {p : Formula → Prop} {unit : Formula} {node : List Formula → Formula}
    (h : (match us with
      | [] => return unit
      | [t] => return t
      | ts => return node ts : Except Fault Formula) = .ok g) (hunit : p unit)
    (hus : ∀ t ∈ us, p t) (hnode : 2 ≤ us.length → p (node us)) : p g := by
  match us, h with
  | [], h =>
      cases h
      exact hunit
  | [t], h =>
      cases h
      exact hus _ (List.mem_singleton_self _)
  | t :: u :: us, h =>
      cases h
      exact hnode (by simp)

/-- A conjunction or disjunction of the members that are left. -/
theorem of_members {p : Formula → Prop} {unit : Bool} {node : List Formula → Formula}
    {o : Option (List Formula)}
    (h : (match o with
      | none => return .bool (!unit)
      | some [] => return .bool unit
      | some [t] => return t
      | some ts => return node ts : Except Fault Formula) = .ok g)
    (ho : distinctMembers unit [] ts = .ok o) (hbool : ∀ r, p (.bool r)) (hts : ∀ t ∈ ts, p t)
    (hnode : ∀ us ⊆ ts, distinctMembers unit [] ts = .ok (some us) → 2 ≤ us.length →
      p (node us)) : p g := by
  match o, h, ho with
  | none, h, _ =>
      cases h
      exact hbool _
  | some us, h, ho =>
      obtain ⟨-, hsub, -⟩ := distinctMembers_some ho
      rw [List.nil_append] at hsub
      match us, h with
      | [], h =>
          cases h
          exact hbool _
      | [t], h =>
          cases h
          exact hts _ (hsub (List.mem_singleton_self _))
      | t :: u :: us, h =>
          cases h
          exact hnode _ hsub ho (by simp)

/-! ### Steps of simplification -/

/-- The operators with any number of operands. -/
inductive Variadic
  | plus
  | mul
  | and
  | or

namespace Variadic

def node : Variadic → List Formula → Formula
  | plus => .plus
  | mul => .mul
  | and => .and
  | or => .or

/-- The operands, with those of the operands that have the same operator. -/
def flatten : Variadic → List Formula → List Formula
  | plus => flattenPlus
  | mul => flattenMul
  | and => flattenAnd
  | or => flattenOr

theorem flatten_eq (op : Variadic) (ts : List Formula) : ∃ part : Formula → List Formula,
    op.flatten ts = ts.flatMap part ∧
      ∀ t, part t = [t] ∧ (∀ us, t ≠ op.node us) ∨ t = op.node (part t) := by
  cases op <;> refine ⟨_, rfl, fun t => ?_⟩ <;> cases t <;>
    first | exact .inr rfl | exact .inl ⟨rfl, nofun⟩

/-- What holds of the operands, and of the operands of those with the same operator, holds of the
flattened operands. -/
theorem forall_mem_flatten {op : Variadic} {p q : Formula → Prop} {ts : List Formula}
    (h : ∀ t ∈ ts, p t) (hsingle : ∀ t, p t → (∀ us, t ≠ op.node us) → q t)
    (hnode : ∀ us, p (op.node us) → ∀ u ∈ us, q u) : ∀ u ∈ op.flatten ts, q u := by
  obtain ⟨part, hflat, hpart⟩ := op.flatten_eq ts
  intro u hu
  rw [hflat] at hu
  obtain ⟨t, ht, hu⟩ := List.mem_flatMap.mp hu
  rcases hpart t with ⟨hone, hother⟩ | hself
  · rw [hone] at hu
    exact List.mem_singleton.mp hu ▸ hsingle t (h t ht) hother
  · exact hnode _ (hself ▸ h t ht) u hu

theorem flatten_of_flat {op : Variadic} {ts : List Formula}
    (h : ∀ t ∈ ts, ∀ us, t ≠ op.node us) : op.flatten ts = ts := by
  obtain ⟨part, hflat, hpart⟩ := op.flatten_eq ts
  rw [hflat]
  refine (List.flatMap_congr fun t ht => ?_).trans (List.flatMap_singleton' ts)
  exact (hpart t).elim And.left fun hself => absurd hself (h t ht _)

end Variadic

/-- The formula is an arithmetic operation. -/
def isArithmetic : Formula → Bool
  | .plus _ | .minus _ _ | .mul _ | .div _ _ => true
  | _ => false

/-- The formula is a comparison or a connective. -/
def isCondition : Formula → Bool
  | .eq _ _ | .le _ _ | .lt _ _ | .not _ | .and _ | .or _ => true
  | _ => false

/-- What simplification may make of a node with simplified operands. -/
inductive Folds : Formula → Formula → Prop
  | refl (f : Formula) : Folds f f
  | const {f : Formula} {q : Fraction} (hf : f.isArithmetic = true) (hq : q.Positive) :
      Folds f (.const q)
  | bool {f : Formula} (hf : f.isCondition = true) (r : Bool) : Folds f (.bool r)
  | member (op : Variadic) {ts : List Formula} {t : Formula} (ht : t ∈ op.flatten ts)
      (hrest : (op.node ts).isArithmetic = true → t.isConstant = false) : Folds (op.node ts) t
  | fewer (op : Variadic) {ts us : List Formula} (hus : us.Sublist (op.flatten ts)) :
      Folds (op.node ts) (op.node us)
  | plus {ts us : List Formula} {q : Fraction} (hus : us.Sublist (flattenPlus ts))
      (hq : q.Positive) : Folds (.plus ts) (.plus (us ++ [.const q]))
  | mul {ts us : List Formula} {q : Fraction} (hus : us.Sublist (flattenMul ts))
      (hq : q.Positive) : Folds (.mul ts) (.mul (.const q :: us))
  | minus {a b : Formula} (ha : a.isConstant = false) : Folds (.minus a b) a
  | div {a b : Formula} (ha : a.isConstant = false) : Folds (.div a b) a
  | left {c a b : Formula} : Folds (.ite c a b) a
  | right {c a b : Formula} : Folds (.ite c a b) b
  | not {a : Formula} : Folds (.not (.not a)) a

theorem folds_simplifyPlus (h : simplifyPlus ts = .ok g) : Folds (.plus ts) g := by
  obtain ⟨c, hc, h⟩ := Fault.ok_of_bind h
  have hothers : ((flattenPlus ts).filter fun t => !isConstant t).Sublist (flattenPlus ts) :=
    List.filter_sublist
  have hmember : ∀ t ∈ (flattenPlus ts).filter fun t => !isConstant t, Folds (.plus ts) t :=
    fun t ht => .member .plus (hothers.subset ht) fun _ => by simpa using (List.mem_filter.mp ht).2
  refine of_operands h (.const rfl (Fraction.positive_ofWord 0)) ?_ fun _ => ?_ <;> split
  · exact hmember
  · exact List.forall_mem_append.mpr
      ⟨hmember, List.forall_mem_singleton.mpr (.const rfl (sum_ok hc).2)⟩
  · exact .fewer .plus hothers
  · exact .plus hothers (sum_ok hc).2

theorem folds_simplifyMul (h : simplifyMul ts = .ok g) : Folds (.mul ts) g := by
  obtain ⟨c, hc, h⟩ := Fault.ok_of_bind h
  split at h
  · cases h
    exact .const rfl (Fraction.positive_ofWord 0)
  · have hothers : ((flattenMul ts).filter fun t => !isConstant t).Sublist (flattenMul ts) :=
      List.filter_sublist
    have hmember : ∀ t ∈ (flattenMul ts).filter fun t => !isConstant t, Folds (.mul ts) t :=
      fun t ht => .member .mul (hothers.subset ht) fun _ => by
        simpa using (List.mem_filter.mp ht).2
    refine of_operands h (.const rfl (Fraction.positive_ofWord 1)) ?_ fun _ => ?_ <;> split
    · exact hmember
    · exact List.forall_mem_cons.mpr ⟨.const rfl (product_ok hc).2, hmember⟩
    · exact .fewer .mul hothers
    · exact .mul hothers (product_ok hc).2

theorem folds_simplifyMinus (h : simplifyMinus a b = .ok g) : Folds (.minus a b) g := by
  unfold Formula.simplifyMinus at h
  split at h
  · obtain ⟨c, hc, h⟩ := Fault.ok_of_bind h
    cases h
    exact .const rfl (Fraction.sub_ok hc).2
  · next hnone _ =>
      split at h <;> cases h
      · exact .minus (by rw [isConstant, hnone]; rfl)
      · exact .refl _
  · cases h
    exact .refl _

theorem folds_simplifyDiv (h : simplifyDiv a b = .ok g) : Folds (.div a b) g := by
  unfold Formula.simplifyDiv at h
  split at h
  · split at h
    · cases h
      exact .refl _
    · next hzero =>
        obtain ⟨c, hc, h⟩ := Fault.ok_of_bind h
        cases h
        exact .const rfl (Fraction.div_ok (Bool.eq_false_of_not_eq_true hzero) hc).2
  · next hnone _ =>
      split at h <;> cases h
      · exact .div (by rw [isConstant, hnone]; rfl)
      · exact .refl _
  · cases h
    exact .refl _

theorem folds_simplifyIte (h : simplifyIte c a b = .ok g) : Folds (.ite c a b) g := by
  unfold Formula.simplifyIte at h
  split at h
  · cases h
    exact .left
  · cases h
    exact .right
  · obtain ⟨r, _, h⟩ := Fault.ok_of_bind h
    cases h
    cases r with
    | true => exact .left
    | false => exact .refl _

theorem folds_simplifyEq (h : simplifyEq a b = .ok g) : Folds (.eq a b) g := by
  obtain ⟨r, _, h⟩ := Fault.ok_of_bind h
  cases r with
  | true =>
      cases h
      exact .bool rfl _
  | false =>
      rw [if_neg Bool.false_ne_true] at h
      split at h <;> cases h
      · exact .bool rfl _
      · exact .refl _

theorem folds_simplifyLe (h : simplifyLe a b = .ok g) : Folds (.le a b) g := by
  unfold Formula.simplifyLe at h
  split at h
  · obtain ⟨o, _, h⟩ := Fault.ok_of_bind h
    cases h
    exact .bool rfl _
  · obtain ⟨r, _, h⟩ := Fault.ok_of_bind h
    cases h
    cases r with
    | true => exact .bool rfl _
    | false => exact .refl _

theorem folds_simplifyLt (h : simplifyLt a b = .ok g) : Folds (.lt a b) g := by
  unfold Formula.simplifyLt at h
  split at h
  · obtain ⟨o, _, h⟩ := Fault.ok_of_bind h
    cases h
    exact .bool rfl _
  · obtain ⟨r, _, h⟩ := Fault.ok_of_bind h
    cases h
    cases r with
    | true => exact .bool rfl _
    | false => exact .refl _

theorem folds_simplifyNot (a : Formula) : Folds (.not a) (simplifyNot a) := by
  cases a with
  | bool r => exact .bool rfl _
  | not a => exact .not
  | _ => exact .refl _

theorem folds_simplifyAnd (h : simplifyAnd ts = .ok g) : Folds (.and ts) g := by
  obtain ⟨o, ho, h⟩ := Fault.ok_of_bind h
  refine of_members h ho (.bool rfl) (fun t ht => .member .and ht nofun) fun us _ hus _ => ?_
  obtain ⟨vs, rfl, hvs⟩ := distinctMembers_sublist hus
  exact .fewer .and hvs

theorem folds_simplifyOr (h : simplifyOr ts = .ok g) : Folds (.or ts) g := by
  obtain ⟨o, ho, h⟩ := Fault.ok_of_bind h
  refine of_members h ho (.bool rfl) (fun t ht => .member .or ht nofun) fun us _ hus _ => ?_
  obtain ⟨vs, rfl, hvs⟩ := distinctMembers_sublist hus
  exact .fewer .or hvs

/-- A constant that an arithmetic operation becomes has a positive denominator. -/
theorem Folds.positive {q : Fraction} (h : Folds f g) (hf : f.isArithmetic = true)
    (hg : g = .const q) : q.Positive := by
  cases h with
  | refl => cases hg; cases hf
  | const _ hq => exact Formula.const.inj hg ▸ hq
  | bool => cases hg
  | member op _ hrest => cases hg ▸ hrest hf
  | fewer op => cases op <;> cases hg
  | plus | mul => cases hg
  | minus ha | div ha => cases hg ▸ ha
  | left | right | not => cases hf

variable {R : Formula → Formula → Prop}

/-- The operands of a node are replaced by related ones. -/
inductive Congruent (R : Formula → Formula → Prop) : Formula → Formula → Prop
  | refl (f : Formula) : Congruent R f f
  | variadic (op : Variadic) {ts us : List Formula} (h : List.Forall₂ R ts us) :
      Congruent R (op.node ts) (op.node us)
  | minus {a b a' b' : Formula} (ha : R a a') (hb : R b b') :
      Congruent R (.minus a b) (.minus a' b')
  | div {a b a' b' : Formula} (ha : R a a') (hb : R b b') : Congruent R (.div a b) (.div a' b')
  | ite {c a b c' a' b' : Formula} (hc : R c c') (ha : R a a') (hb : R b b') :
      Congruent R (.ite c a b) (.ite c' a' b')
  | eq {a b a' b' : Formula} (ha : R a a') (hb : R b b') : Congruent R (.eq a b) (.eq a' b')
  | le {a b a' b' : Formula} (ha : R a a') (hb : R b b') : Congruent R (.le a b) (.le a' b')
  | lt {a b a' b' : Formula} (ha : R a a') (hb : R b b') : Congruent R (.lt a b) (.lt a' b')
  | not {a a' : Formula} (ha : R a a') : Congruent R (.not a) (.not a')
  | func {name : String} {ts us : List Formula} {type : SymbolType} (h : List.Forall₂ R ts us) :
      Congruent R (.func name ts type) (.func name us type)
  | star {outer inner : List Symbol} {sides : List Side} {a a' : Formula} (ha : R a a') :
      Congruent R (.star outer inner sides a) (.star outer inner sides a')

/-- The members of a list are simplified one by one. -/
theorem forall₂_of_simplifyAll (h : simplifyAll ts = .ok us)
    (ih : ∀ t ∈ ts, ∀ {u : Formula}, t.simplify = .ok u → R t u) : List.Forall₂ R ts us :=
  (List.forall₂_iff_zip.mp (simplifyAll_ok h)).elim fun hlen hzip =>
    List.forall₂_iff_zip.mpr ⟨hlen, fun hm => ih _ (List.of_mem_zip hm).1 (hzip hm)⟩

/-- A formula is related to the simplified one if every step may be made: operands are replaced by
related ones, and the node is folded. -/
theorem of_simplify (step : ∀ {f f' g : Formula}, Congruent R f f' → Folds f' g → R f g)
    (h : f.simplify = .ok g) : R f g := by
  induction f using Formula.induct generalizing g with
  | const | bool | sym =>
      cases h
      exact step (.refl _) (.refl _)
  | plus ts ih =>
      obtain ⟨us, hus, h⟩ := Fault.ok_of_bind h
      exact step (.variadic .plus (forall₂_of_simplifyAll hus ih)) (folds_simplifyPlus h)
  | mul ts ih =>
      obtain ⟨us, hus, h⟩ := Fault.ok_of_bind h
      exact step (.variadic .mul (forall₂_of_simplifyAll hus ih)) (folds_simplifyMul h)
  | and ts ih =>
      obtain ⟨us, hus, h⟩ := Fault.ok_of_bind h
      exact step (.variadic .and (forall₂_of_simplifyAll hus ih)) (folds_simplifyAnd h)
  | or ts ih =>
      obtain ⟨us, hus, h⟩ := Fault.ok_of_bind h
      exact step (.variadic .or (forall₂_of_simplifyAll hus ih)) (folds_simplifyOr h)
  | minus a b iha ihb =>
      obtain ⟨a', ha, b', hb, h⟩ := Fault.ok_of_bind₂ h
      exact step (.minus (iha ha) (ihb hb)) (folds_simplifyMinus h)
  | div a b iha ihb =>
      obtain ⟨a', ha, b', hb, h⟩ := Fault.ok_of_bind₂ h
      exact step (.div (iha ha) (ihb hb)) (folds_simplifyDiv h)
  | eq a b iha ihb =>
      obtain ⟨a', ha, b', hb, h⟩ := Fault.ok_of_bind₂ h
      exact step (.eq (iha ha) (ihb hb)) (folds_simplifyEq h)
  | le a b iha ihb =>
      obtain ⟨a', ha, b', hb, h⟩ := Fault.ok_of_bind₂ h
      exact step (.le (iha ha) (ihb hb)) (folds_simplifyLe h)
  | lt a b iha ihb =>
      obtain ⟨a', ha, b', hb, h⟩ := Fault.ok_of_bind₂ h
      exact step (.lt (iha ha) (ihb hb)) (folds_simplifyLt h)
  | ite c a b ihc iha ihb =>
      obtain ⟨c', hc, a', ha, b', hb, h⟩ := Fault.ok_of_bind₃ h
      exact step (.ite (ihc hc) (iha ha) (ihb hb)) (folds_simplifyIte h)
  | not a ih =>
      obtain ⟨a', ha, h⟩ := Fault.ok_of_bind h
      cases h
      exact step (.not (ih ha)) (folds_simplifyNot a')
  | func name ts type ih =>
      obtain ⟨us, hus, h⟩ := Fault.ok_of_bind h
      cases h
      exact step (.func (forall₂_of_simplifyAll hus ih)) (.refl _)
  | star outer inner sides body ih =>
      obtain ⟨body', hbody, h⟩ := Fault.ok_of_bind h
      cases h
      exact step (.star (ih hbody)) (.refl _)

/-! ### Typings -/

variable {ι : Type} {isValue isTruth : ι → Prop} {P : ι → Formula → Prop}

/-- The second formula has every type that the first one has. -/
def Keeps (P : ι → Formula → Prop) (f g : Formula) : Prop := ∀ i, P i f → P i g

/-- A family of conditions on formulas that allows for the steps of simplification.  Some types are
types of values, and some are types of truths.  Constants that come in have positive denominators.
An operand that takes the place of its node has the type of the node, and an operand may be replaced
by one that has all of its types. -/
structure Typing (isValue isTruth : ι → Prop) (P : ι → Formula → Prop) : Prop where
  const : ∀ {i q}, isValue i → q.Positive → P i (.const q)
  bool : ∀ {i r}, isTruth i → P i (.bool r)
  plus : ∀ {i ts}, P i (.plus ts) ↔ isValue i ∧ ∀ t ∈ ts, P i t
  mul : ∀ {i ts}, P i (.mul ts) ↔ isValue i ∧ ∀ t ∈ ts, P i t
  minus : ∀ {i a b}, P i (.minus a b) ↔ isValue i ∧ P i a ∧ P i b
  div : ∀ {i a b}, P i (.div a b) ↔ isValue i ∧ P i a ∧ P i b
  not : ∀ {i a}, P i (.not a) ↔ isTruth i ∧ P i a
  and : ∀ {i ts}, P i (.and ts) ↔ isTruth i ∧ ∀ t ∈ ts, P i t
  or : ∀ {i ts}, P i (.or ts) ↔ isTruth i ∧ ∀ t ∈ ts, P i t
  ite : ∀ {i c a b}, P i (.ite c a b) → P i a ∧ P i b
  eq : ∀ {i a b}, P i (.eq a b) → isTruth i
  le : ∀ {i a b}, P i (.le a b) → isTruth i
  lt : ∀ {i a b}, P i (.lt a b) → isTruth i
  ite_congr : ∀ {c a b c' a' b'}, Keeps P c c' → Keeps P a a' → Keeps P b b' →
    Keeps P (.ite c a b) (.ite c' a' b')
  eq_congr : ∀ {a b a' b'}, Keeps P a a' → Keeps P b b' → Keeps P (.eq a b) (.eq a' b')
  le_congr : ∀ {a b a' b'}, Keeps P a a' → Keeps P b b' → Keeps P (.le a b) (.le a' b')
  lt_congr : ∀ {a b a' b'}, Keeps P a a' → Keeps P b b' → Keeps P (.lt a b) (.lt a' b')
  func_congr : ∀ {name ts us type}, List.Forall₂ (Keeps P) ts us →
    Keeps P (.func name ts type) (.func name us type)
  star_congr : ∀ {outer inner sides a a'}, Keeps P a a' →
    Keeps P (.star outer inner sides a) (.star outer inner sides a')

namespace Typing

/-- The members of a list are replaced one by one. -/
theorem all (h : List.Forall₂ (Keeps P) ts us) {i : ι} (hts : ∀ t ∈ ts, P i t) :
    ∀ u ∈ us, P i u := by
  induction h with
  | nil => exact nofun
  | cons h _ ih =>
      rw [List.forall_mem_cons] at hts ⊢
      exact ⟨h i hts.1, ih hts.2⟩

/-- The types of an operator with any number of operands. -/
def kind (isValue isTruth : ι → Prop) : Variadic → ι → Prop
  | .plus | .mul => isValue
  | .and | .or => isTruth

theorem variadic (hP : Typing isValue isTruth P) (op : Variadic) {i : ι} :
    P i (op.node ts) ↔ kind isValue isTruth op i ∧ ∀ t ∈ ts, P i t := by
  cases op
  exacts [hP.plus, hP.mul, hP.and, hP.or]

theorem flatten (hP : Typing isValue isTruth P) (op : Variadic) {i : ι} (h : ∀ t ∈ ts, P i t) :
    ∀ t ∈ op.flatten ts, P i t :=
  op.forall_mem_flatten h (fun _ ht _ => ht) fun _ hus => ((hP.variadic op).mp hus).2

/-- Folding a node keeps its types. -/
theorem folds (hP : Typing isValue isTruth P) (h : Folds f g) : Keeps P f g := by
  intro i hi
  cases h with
  | refl => exact hi
  | const hf hq =>
      refine hP.const ?_ hq
      cases f with
      | plus => exact (hP.plus.mp hi).1
      | minus => exact (hP.minus.mp hi).1
      | mul => exact (hP.mul.mp hi).1
      | div => exact (hP.div.mp hi).1
      | _ => cases hf
  | bool hf r =>
      refine hP.bool ?_
      cases f with
      | eq => exact hP.eq hi
      | le => exact hP.le hi
      | lt => exact hP.lt hi
      | not => exact (hP.not.mp hi).1
      | and => exact (hP.and.mp hi).1
      | or => exact (hP.or.mp hi).1
      | _ => cases hf
  | member op ht _ => exact hP.flatten op ((hP.variadic op).mp hi).2 _ ht
  | fewer op hus =>
      obtain ⟨hkind, hts⟩ := (hP.variadic op).mp hi
      exact (hP.variadic op).mpr ⟨hkind, fun t ht => hP.flatten op hts t (hus.subset ht)⟩
  | plus hus hq =>
      obtain ⟨hvalue, hts⟩ := hP.plus.mp hi
      exact hP.plus.mpr ⟨hvalue, List.forall_mem_append.mpr
        ⟨fun t ht => hP.flatten .plus hts t (hus.subset ht),
          List.forall_mem_singleton.mpr (hP.const hvalue hq)⟩⟩
  | mul hus hq =>
      obtain ⟨hvalue, hts⟩ := hP.mul.mp hi
      exact hP.mul.mpr ⟨hvalue, List.forall_mem_cons.mpr
        ⟨hP.const hvalue hq, fun t ht => hP.flatten .mul hts t (hus.subset ht)⟩⟩
  | minus => exact (hP.minus.mp hi).2.1
  | div => exact (hP.div.mp hi).2.1
  | left => exact (hP.ite hi).1
  | right => exact (hP.ite hi).2
  | not => exact (hP.not.mp (hP.not.mp hi).2).2

/-- So does replacing the operands by ones that have all of their types. -/
theorem congruent (hP : Typing isValue isTruth P) (h : Congruent (Keeps P) f g) : Keeps P f g := by
  intro i hi
  cases h with
  | refl => exact hi
  | variadic op h =>
      obtain ⟨hkind, hts⟩ := (hP.variadic op).mp hi
      exact (hP.variadic op).mpr ⟨hkind, all h hts⟩
  | minus ha hb =>
      obtain ⟨hvalue, hta, htb⟩ := hP.minus.mp hi
      exact hP.minus.mpr ⟨hvalue, ha i hta, hb i htb⟩
  | div ha hb =>
      obtain ⟨hvalue, hta, htb⟩ := hP.div.mp hi
      exact hP.div.mpr ⟨hvalue, ha i hta, hb i htb⟩
  | ite hc ha hb => exact hP.ite_congr hc ha hb i hi
  | eq ha hb => exact hP.eq_congr ha hb i hi
  | le ha hb => exact hP.le_congr ha hb i hi
  | lt ha hb => exact hP.lt_congr ha hb i hi
  | not ha =>
      obtain ⟨htruth, hta⟩ := hP.not.mp hi
      exact hP.not.mpr ⟨htruth, ha i hta⟩
  | func h => exact hP.func_congr h i hi
  | star ha => exact hP.star_congr ha i hi

/-- **Simplification keeps types.** -/
theorem simplify (hP : Typing isValue isTruth P) (h : f.simplify = .ok g) : Keeps P f g :=
  of_simplify (fun hcongr hfolds i hi => hP.folds hfolds i (hP.congruent hcongr i hi)) h

/-- Simplification keeps the types of the members of a list. -/
theorem members (hP : Typing isValue isTruth P) (h : Formula.simplifyAll ts = .ok us) {i : ι}
    (hts : ∀ t ∈ ts, P i t) : ∀ u ∈ us, P i u :=
  all (forall₂_of_simplifyAll h fun _ _ _ hu => hP.simplify hu) hts

end Typing

end BagEquiv.Formula
