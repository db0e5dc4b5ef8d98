/-
**Equality of formulas with words.**

Formulas are compared from left to right up to the first difference, their constants as numbers.
Comparing two constants can overflow, and then the comparison has no result; a difference further
left saves it.

Main definitions:

* `Formula.Checked.same` — equality of formulas;
* `Formula.Checked.mem` — whether a formula equals a member of a list.

Main result:

* `Formula.Checked.same_of_ok` — a comparison that succeeds is right.
-/

import BagEquiv.Formula

set_option autoImplicit false

namespace BagEquiv.Formula

theorem alikeAll_eq_and (eqConst : Fraction → Fraction → Bool) : ∀ ts us : List Formula,
    alikeAll eqConst ts us = (decide (ts.length = us.length) && alikeAll eqConst ts us)
  | [], [] => rfl
  | [], _ :: _ => rfl
  | _ :: _, [] => rfl
  | t :: ts, u :: us => by
      rw [alikeAll, alikeAll_eq_and eqConst ts us]
      cases alike eqConst t u <;> simp

theorem list_beq_eq {α : Type} [DecidableEq α] (as bs : List α) :
    (as == bs) = decide (as = bs) := by
  rw [Bool.eq_iff_iff]
  simp

namespace Checked

/-- The second test, if the first one succeeds. -/
def both (x : Except Fault Bool) (y : Except Fault Bool) : Except Fault Bool := do
  if ← x then y else return false

theorem and_of_both {x y : Except Fault Bool} {s t r : Bool} (h : both x y = .ok r)
    (hx : ∀ r, x = .ok r → s = r) (hy : ∀ r, y = .ok r → t = r) : (s && t) = r := by
  obtain ⟨b, hb, h⟩ := Fault.ok_of_bind h
  rw [hx b hb]
  cases b with
  | true => exact hy r h
  | false => cases h; rfl

mutual

/-- Equality of formulas, with constants compared as numbers.  Lists are compared only if they have
the same length. -/
def same : Formula → Formula → Except Fault Bool
  | .const p, .const q => Fraction.Checked.same p q
  | .bool a, .bool b => .ok (a == b)
  | .sym s, .sym t => .ok (s == t)
  | .plus ts, .plus us => if ts.length = us.length then sameAll ts us else .ok false
  | .minus a b, .minus c d => both (same a c) (same b d)
  | .mul ts, .mul us => if ts.length = us.length then sameAll ts us else .ok false
  | .div a b, .div c d => both (same a c) (same b d)
  | .ite c a b, .ite d e f => both (both (same c d) (same a e)) (same b f)
  | .eq a b, .eq c d => both (same a c) (same b d)
  | .le a b, .le c d => both (same a c) (same b d)
  | .lt a b, .lt c d => both (same a c) (same b d)
  | .not a, .not b => same a b
  | .and ts, .and us => if ts.length = us.length then sameAll ts us else .ok false
  | .or ts, .or us => if ts.length = us.length then sameAll ts us else .ok false
  | .func n ts s, .func m us t =>
      if n = m then
        both (if ts.length = us.length then sameAll ts us else .ok false) (.ok (s == t))
      else .ok false
  | .star o i s a, .star p j t b =>
      if o = p then if i = j then if s = t then same a b else .ok false else .ok false
      else .ok false
  | _, _ => .ok false

def sameAll : List Formula → List Formula → Except Fault Bool
  | [], [] => .ok true
  | t :: ts, u :: us => both (same t u) (sameAll ts us)
  | _, _ => .ok false

end

mutual

theorem alike_of_ok : ∀ (a b : Formula) (r : Bool), same a b = .ok r →
    alike Fraction.same a b = r
  | .const _, b, r, h => by
      cases b <;> simp only [same] at h <;> try cases h <;> rfl
      exact Fraction.Checked.same_of_ok h
  | .bool _, b, r, h | .sym _, b, r, h => by
      cases b <;> simp only [same] at h <;> cases h <;> rfl
  | .plus ts, b, r, h | .mul ts, b, r, h | .and ts, b, r, h | .or ts, b, r, h => by
      cases b <;> simp only [same] at h <;> try cases h <;> rfl
      rw [alike, alikeAll_eq_and]
      exact Fault.and_of_ok h (alikeAll_of_ok ts _ r)
  | .minus a c, b, r, h | .div a c, b, r, h | .eq a c, b, r, h | .le a c, b, r, h
  | .lt a c, b, r, h => by
      cases b <;> simp only [same] at h <;> try cases h <;> rfl
      exact and_of_both h (alike_of_ok a _) (alike_of_ok c _)
  | .ite c a e, b, r, h => by
      cases b <;> simp only [same] at h <;> try cases h <;> rfl
      exact and_of_both h (fun _ h => and_of_both h (alike_of_ok c _) (alike_of_ok a _))
        (alike_of_ok e _)
  | .not a, b, r, h => by
      cases b <;> simp only [same] at h <;> try cases h <;> rfl
      exact alike_of_ok a _ r h
  | .func _ ts _, b, r, h => by
      cases b <;> simp only [same] at h <;> try cases h <;> rfl
      rw [alike, Bool.and_assoc, alikeAll_eq_and]
      exact Fault.and_of_ok h fun h => and_of_both h
        (fun _ h => Fault.and_of_ok h (alikeAll_of_ok ts _ _)) fun _ h => by cases h; rfl
  | .star _ _ _ a, b, r, h => by
      cases b <;> simp only [same] at h <;> try cases h <;> rfl
      rw [alike, Bool.and_assoc, Bool.and_assoc, list_beq_eq, list_beq_eq, list_beq_eq]
      exact Fault.and_of_ok h fun h => Fault.and_of_ok h fun h => Fault.and_of_ok h
        (alike_of_ok a _ r)

theorem alikeAll_of_ok : ∀ (ts us : List Formula) (r : Bool), sameAll ts us = .ok r →
    alikeAll Fraction.same ts us = r
  | [], us, r, h => by
      cases us <;> simp only [sameAll] at h <;> cases h <;> rfl
  | t :: ts, [], r, h => by
      simp only [sameAll] at h
      cases h
      rfl
  | t :: ts, u :: us, r, h => by
      rw [sameAll] at h
      exact and_of_both h (alike_of_ok t u) (alikeAll_of_ok ts us)

end

/-- A comparison that succeeds is right. -/
theorem same_of_ok {a b : Formula} {r : Bool} (h : same a b = .ok r) : a.same b = r :=
  alike_of_ok a b r h

/-- Whether a formula equals a member of a list; the members are compared in order up to the first
that does. -/
def mem (t : Formula) : List Formula → Except Fault Bool
  | [] => .ok false
  | u :: us => do if ← same u t then return true else mem t us

end Checked

end BagEquiv.Formula
