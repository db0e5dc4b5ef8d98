/-
**Arithmetic on fractions is exact.**

Every operation on fractions of words either overflows or gives the exact result, in lowest terms
and with a positive denominator.  Fractions with positive denominators are compared by value.  Zero
is neutral for the addition of a fraction in lowest terms and one for the multiplication, not only
in value: the sum has the same numerator and the same denominator, and it does not overflow.

Main definition:

* `Fraction.Positive` — the denominator is positive.

Main results:

* `Fraction.add_ok`, `sub_ok`, `mul_ok`, `div_ok` — **the value of a result**;
* `Fraction.reduced_of_sum`, `Fraction.reduced_of_product` — **results are reduced**.
-/

import Mathlib.Algebra.Order.Ring.Abs
import Mathlib.Tactic.FieldSimp
import Mathlib.Tactic.Linarith
import Mathlib.Tactic.Ring
import BagEquiv.Proofs.ExactRows

set_option autoImplicit false

namespace BagEquiv

/-! ### Words -/

namespace Word

theorem toInt_of_gcd {a b g : Int64} (h : gcd a b = .ok g) :
    g.toInt ∣ a.toInt ∧ g.toInt ∣ b.toInt ∧ (a.toInt ≠ 0 ∨ b.toInt ≠ 0 → 0 < g.toInt) := by
  rw [toInt_of_narrow h]
  refine ⟨Int.gcd_dvd_left _ _, Int.gcd_dvd_right _ _, fun hab => ?_⟩
  exact_mod_cast Int.gcd_pos_iff.mpr hab

/-- Division by a divisor that is not zero leaves no rest. -/
theorem cast_of_div {a b c : Int64} (h : div a b = .ok c) (hdvd : b.toInt ∣ a.toInt)
    (hb : b.toInt ≠ 0) : (c.toInt : ℚ) = a.toInt / b.toInt := by
  rw [toInt_of_narrow h, eq_div_iff (by exact_mod_cast hb)]
  exact_mod_cast Int.tdiv_mul_cancel hdvd

theorem cast_of_mul {a b c : Int64} (h : mul a b = .ok c) :
    (c.toInt : ℚ) = a.toInt * b.toInt := by
  rw [toInt_of_narrow h]
  exact Int.cast_mul _ _

theorem cast_of_neg {a b : Int64} (h : neg a = .ok b) : (b.toInt : ℚ) = -a.toInt := by
  rw [toInt_of_narrow h]
  exact Int.cast_neg _

/-- The least common multiple of two words is a multiple of both. -/
theorem dvd_of_lcm {a b l : Int64} (ha : a.toInt ≠ 0) (hb : b.toInt ≠ 0) (h : lcm a b = .ok l) :
    a.toInt ∣ l.toInt ∧ b.toInt ∣ l.toInt ∧ l.toInt ≠ 0 := by
  obtain ⟨g, hg, q, hq, p, hp, h⟩ := Fault.ok_of_bind₃ h
  obtain ⟨hga, hgb, hpos⟩ := toInt_of_gcd hg
  have hg0 := (hpos (.inr hb)).ne'
  have hq := toInt_of_narrow hq
  have hp := toInt_of_narrow hp
  have hqg : q.toInt * g.toInt = b.toInt := by rw [hq, Int.tdiv_mul_cancel hgb]
  rw [toInt_of_narrow h, Int.natCast_natAbs, dvd_abs, dvd_abs, hp]
  refine ⟨Dvd.intro _ rfl, ?_, ?_⟩
  · obtain ⟨k, hk⟩ := hga
    exact ⟨k, by rw [hk, ← hqg]; ring⟩
  · refine abs_ne_zero.mpr (mul_ne_zero ha fun hq0 => hb ?_)
    rw [← hqg, hq0, zero_mul]

end Word

namespace Fraction

theorem toRat_eq (q : Fraction) : q.toRat = q.num.toInt / q.den.toInt := by
  rw [toRat, Rat.divInt_eq_div]

theorem cast_den_ne_zero (q : Fraction) : (q.den.toInt : ℚ) ≠ 0 := by
  exact_mod_cast q.toInt_den_ne_zero

/-- The denominator is positive. -/
def Positive (q : Fraction) : Prop := 0 < q.den.toInt

instance (q : Fraction) : Decidable q.Positive := inferInstanceAs (Decidable (0 < _))

theorem positive_ofWord (n : Int64) : (ofWord n).Positive :=
  show 0 < (1 : Int64).toInt by decide

theorem toRat_zero : zero.toRat = 0 := by
  rw [zero, toRat_ofWord]
  rfl

theorem toRat_one : one.toRat = 1 := by
  rw [one, toRat_ofWord]
  rfl

theorem build_ok {n d : Int64} {q : Fraction} (h : reduce.build n d = .ok q) :
    q.num = n ∧ q.den = d := by
  unfold reduce.build make? at h
  split at h
  · next hmake =>
      cases h
      split at hmake
      · cases hmake
        exact ⟨rfl, rfl⟩
      · cases hmake
  · cases h

/-- Reducing a fraction keeps its value. -/
theorem reduce_ok {n d : Int64} {q : Fraction} (hd : d.toInt ≠ 0) (h : reduce n d = .ok q) :
    q.toRat = n.toInt / d.toInt ∧ q.Positive := by
  have hd' : (d.toInt : ℚ) ≠ 0 := by exact_mod_cast hd
  unfold reduce at h
  split at h
  · next hn =>
      cases h
      rw [toRat_zero, hn]
      exact ⟨by simp, positive_ofWord 0⟩
  · split at h
    · next hn =>
        cases h
        rw [toRat_one, hn]
        exact ⟨(div_self hd').symm, positive_ofWord 1⟩
    · obtain ⟨g, hg, n', hn', d', hd'', h⟩ := Fault.ok_of_bind₃ h
      obtain ⟨hgn, hgd, hpos⟩ := Word.toInt_of_gcd hg
      have hg0 : g.toInt ≠ 0 := (hpos (.inr hd)).ne'
      have hcn := Word.cast_of_div hn' hgn hg0
      have hcd := Word.cast_of_div hd'' hgd hg0
      have hg0' : (g.toInt : ℚ) ≠ 0 := by exact_mod_cast hg0
      have hd0 : d'.toInt ≠ 0 := by
        intro h0
        rw [h0, eq_comm, Int.cast_zero, div_eq_zero_iff] at hcd
        exact hcd.elim hd' hg0'
      split at h
      · next hneg =>
          obtain ⟨m, hm, e, he, h⟩ := Fault.ok_of_bind₂ h
          obtain ⟨rfl, rfl⟩ := build_ok h
          have hneg := Int64.lt_iff_toInt_lt.mp hneg
          refine ⟨?_, ?_⟩
          · rw [toRat_eq, Word.cast_of_neg hm, Word.cast_of_neg he, neg_div_neg_eq, hcn, hcd,
              div_div_div_cancel_right₀ hg0']
          · rw [Positive, Word.toInt_of_narrow he]
            exact Int.neg_pos_of_neg hneg
      · next hneg =>
          obtain ⟨rfl, rfl⟩ := build_ok h
          refine ⟨by rw [toRat_eq, hcn, hcd, div_div_div_cancel_right₀ hg0'], ?_⟩
          have := mt Int64.lt_iff_toInt_lt.mpr hneg
          exact lt_of_le_of_ne (not_lt.mp this) hd0.symm

/-- The numerator over a multiple of the denominator. -/
theorem cast_scaled {q : Fraction} {l f m : Int64} (hl : l.toInt ≠ 0)
    (hdvd : q.den.toInt ∣ l.toInt) (hf : Word.div l q.den = .ok f)
    (hm : Word.mul q.num f = .ok m) : (m.toInt : ℚ) / l.toInt = q.toRat := by
  have hl' : (l.toInt : ℚ) ≠ 0 := by exact_mod_cast hl
  have hq := q.cast_den_ne_zero
  rw [Word.cast_of_mul hm, Word.cast_of_div hf hdvd q.toInt_den_ne_zero, toRat_eq]
  field_simp

/-- Combining fractions over a common denominator. -/
theorem combine_ok {op : Int64 → Int64 → Except Fault Int64} {f : ℚ → ℚ → ℚ}
    (hop : ∀ {a b c : Int64}, op a b = .ok c → (c.toInt : ℚ) = f a.toInt b.toInt)
    (hf : ∀ x y d : ℚ, f x y / d = f (x / d) (y / d)) {a b c : Fraction}
    (h : combine op a b = .ok c) : c.toRat = f a.toRat b.toRat ∧ c.Positive := by
  unfold combine at h
  split at h
  · next hden =>
      obtain ⟨n, hn, h⟩ := Fault.ok_of_bind h
      obtain ⟨hval, hpos⟩ := reduce_ok a.toInt_den_ne_zero h
      refine ⟨?_, hpos⟩
      rw [hval, hop hn, hf, toRat_eq a, toRat_eq b, hden]
  · obtain ⟨l, hl, k, hk, m, hm, h⟩ := Fault.ok_of_bind₃ h
    obtain ⟨k', hk', n, hn, p, hp, h⟩ := Fault.ok_of_bind₃ h
    obtain ⟨hal, hbl, hl0⟩ := Word.dvd_of_lcm a.toInt_den_ne_zero b.toInt_den_ne_zero hl
    obtain ⟨hval, hpos⟩ := reduce_ok hl0 h
    refine ⟨?_, hpos⟩
    rw [hval, hop hp, hf, cast_scaled hl0 hal hk hm, cast_scaled hl0 hbl hk' hn]

theorem add_ok {a b c : Fraction} (h : a.add b = .ok c) :
    c.toRat = a.toRat + b.toRat ∧ c.Positive :=
  combine_ok (f := (· + ·)) (fun h => by rw [Word.toInt_of_narrow h, Int.cast_add])
    (fun x y d => add_div x y d) h

theorem sub_ok {a b c : Fraction} (h : a.sub b = .ok c) :
    c.toRat = a.toRat - b.toRat ∧ c.Positive :=
  combine_ok (f := (· - ·)) (fun h => by rw [Word.toInt_of_narrow h, Int.cast_sub])
    (fun x y d => sub_div x y d) h

/-- A product of two quotients, where each numerator is reduced with the other denominator. -/
theorem cross_ok {x y z t g h x' y' z' t' n d : Int64} (hy0 : y.toInt ≠ 0) (ht0 : t.toInt ≠ 0)
    (hg : Word.gcd x t = .ok g) (hh : Word.gcd y z = .ok h) (hx : Word.div x g = .ok x')
    (hz : Word.div z h = .ok z') (hy : Word.div y h = .ok y') (ht : Word.div t g = .ok t')
    (hn : (n.toInt : ℚ) = x'.toInt * z'.toInt) (hd : (d.toInt : ℚ) = y'.toInt * t'.toInt) :
    d.toInt ≠ 0 ∧ (n.toInt : ℚ) / d.toInt = x.toInt / y.toInt * (z.toInt / t.toInt) := by
  obtain ⟨hgx, hgt, hgpos⟩ := Word.toInt_of_gcd hg
  obtain ⟨hhy, hhz, hhpos⟩ := Word.toInt_of_gcd hh
  have hg0 := (hgpos (.inr ht0)).ne'
  have hh0 := (hhpos (.inl hy0)).ne'
  have hg' : (g.toInt : ℚ) ≠ 0 := by exact_mod_cast hg0
  have hh' : (h.toInt : ℚ) ≠ 0 := by exact_mod_cast hh0
  have hy' : (y.toInt : ℚ) ≠ 0 := by exact_mod_cast hy0
  have ht' : (t.toInt : ℚ) ≠ 0 := by exact_mod_cast ht0
  rw [Word.cast_of_div hy hhy hh0, Word.cast_of_div ht hgt hg0] at hd
  rw [Word.cast_of_div hx hgx hg0, Word.cast_of_div hz hhz hh0] at hn
  have hd0 : (d.toInt : ℚ) ≠ 0 := by
    rw [hd]
    exact mul_ne_zero (div_ne_zero hy' hh') (div_ne_zero ht' hg')
  refine ⟨by exact_mod_cast hd0, ?_⟩
  rw [hn, hd]
  field_simp

theorem mul_ok {a b c : Fraction} (h : a.mul b = .ok c) :
    c.toRat = a.toRat * b.toRat ∧ c.Positive := by
  obtain ⟨g, hg, k, hk, x, hx, h⟩ := Fault.ok_of_bind₃ h
  obtain ⟨z, hz, n, hn, t, ht, h⟩ := Fault.ok_of_bind₃ h
  obtain ⟨y, hy, d, hd, h⟩ := Fault.ok_of_bind₂ h
  have hd := Word.cast_of_mul hd
  rw [mul_comm] at hd
  obtain ⟨hd0, hval⟩ := cross_ok a.toInt_den_ne_zero b.toInt_den_ne_zero hg hk hx hz hy ht
    (Word.cast_of_mul hn) hd
  obtain ⟨hreduce, hpos⟩ := reduce_ok hd0 h
  exact ⟨by rw [hreduce, hval, toRat_eq a, toRat_eq b], hpos⟩

theorem div_ok {a b c : Fraction} (hb : b.isZero = false) (h : a.div b = .ok c) :
    c.toRat = a.toRat / b.toRat ∧ c.Positive := by
  have hnum : b.num.toInt ≠ 0 := by
    intro h0
    have : b.num = 0 := Int64.toInt_inj.mp h0
    simp [isZero, this] at hb
  obtain ⟨g, hg, k, hk, x, hx, h⟩ := Fault.ok_of_bind₃ h
  obtain ⟨z, hz, n, hn, y, hy, h⟩ := Fault.ok_of_bind₃ h
  obtain ⟨t, ht, d, hd, h⟩ := Fault.ok_of_bind₂ h
  obtain ⟨hd0, hval⟩ := cross_ok a.toInt_den_ne_zero hnum hg hk hx hz hy ht
    (Word.cast_of_mul hn) (Word.cast_of_mul hd)
  obtain ⟨hreduce, hpos⟩ := reduce_ok hd0 h
  exact ⟨by rw [hreduce, hval, toRat_eq a, toRat_eq b, div_eq_mul_inv (_ / _) (_ / _), inv_div],
    hpos⟩

/-! ### Tests -/

theorem isZero_iff (q : Fraction) : q.isZero = true ↔ q.toRat = 0 := by
  rw [toRat_eq, div_eq_zero_iff, or_iff_left q.cast_den_ne_zero, isZero, beq_iff_eq,
    Int.cast_eq_zero]
  exact ⟨fun h => by rw [h]; rfl, fun h => Int64.toInt_inj.mp h⟩

theorem isOne_iff (q : Fraction) : q.isOne = true ↔ q.toRat = 1 := by
  rw [toRat_eq, div_eq_one_iff_eq q.cast_den_ne_zero, isOne, beq_iff_eq, Int.cast_inj,
    Int64.toInt_inj]

/-! ### Order -/

theorem compare_of_iff {x y : ℤ} {p q : ℚ} (hlt : x < y ↔ p < q) (heq : x = y ↔ p = q) :
    Ord.compare x y = if p < q then .lt else if p = q then .eq else .gt := by
  simp only [← hlt, ← heq]
  rfl

/-- Cross multiplication with positive denominators. -/
theorem toRat_lt_iff {a b : Fraction} (ha : a.Positive) (hb : b.Positive) :
    a.num.toInt * b.den.toInt < b.num.toInt * a.den.toInt ↔ a.toRat < b.toRat := by
  have ha' : (0 : ℚ) < a.den.toInt := by exact_mod_cast ha
  have hb' : (0 : ℚ) < b.den.toInt := by exact_mod_cast hb
  rw [toRat_eq, toRat_eq, div_lt_div_iff₀ ha' hb']
  exact_mod_cast Iff.rfl

theorem toRat_eq_iff (a b : Fraction) :
    a.num.toInt * b.den.toInt = b.num.toInt * a.den.toInt ↔ a.toRat = b.toRat := by
  rw [← same_iff_toRat_eq, same, beq_iff_eq]

/-- Fractions with positive denominators are compared by value. -/
theorem compare_of_positive {a b : Fraction} (ha : a.Positive) (hb : b.Positive) :
    a.compare b = if a.toRat < b.toRat then .lt else if a.toRat = b.toRat then .eq else .gt := by
  have hlt := toRat_lt_iff ha hb
  have heq := toRat_eq_iff a b
  have hzero : Int64.toInt 0 = 0 := rfl
  unfold Positive at ha hb
  unfold compare
  split
  · next hden =>
      rw [if_neg fun h => absurd (Int64.lt_iff_toInt_lt.mp h) (by rw [hzero]; omega)]
      rw [hden] at hlt heq
      refine compare_of_iff ?_ ?_
      · rw [← hlt, mul_lt_mul_iff_left₀ hb]
      · rw [← heq, mul_left_inj' hb.ne']
  · split
    · next hnum =>
        rw [hnum] at hlt heq ⊢
        split
        · next h0 =>
            rw [h0, hzero] at hlt heq
            simp only [zero_mul, lt_self_iff_false, false_iff, true_iff] at hlt heq
            rw [if_neg hlt, if_pos heq]
        · next h0 =>
            have h0 : b.num.toInt ≠ 0 := fun h => h0 (Int64.toInt_inj.mp h)
            split
            · next hneg =>
                have hneg := Int64.lt_iff_toInt_lt.mp hneg
                rw [hzero] at hneg
                refine compare_of_iff ?_ ?_
                · rw [← hlt, mul_lt_mul_left_of_neg hneg]
                · rw [← heq, mul_right_inj' h0, eq_comm]
            · next hneg =>
                have hpos : 0 < b.num.toInt := by
                  have := mt Int64.lt_iff_toInt_lt.mpr hneg
                  rw [hzero] at this
                  omega
                refine compare_of_iff ?_ ?_
                · rw [← hlt, mul_lt_mul_iff_right₀ hpos]
                · rw [← heq, mul_right_inj' h0]
    · have hsign : (a.den.toInt * b.den.toInt).sign = 1 := Int.sign_eq_one_of_pos (mul_pos ha hb)
      rw [compareValues, hsign]
      simp only [one_mul]
      exact compare_of_iff hlt heq

/-! ### Fractions to try things on -/

/-- One half. -/
def half : Fraction := ⟨1, 2, by decide⟩

/-- Minus one half, with the sign below. -/
def minusHalf : Fraction := ⟨1, -2, by decide⟩

end Fraction

/-! ### Lowest terms -/

namespace Word

theorem gcd_one_left (b : Int64) : gcd 1 b = .ok 1 := by
  rw [gcd, show (1 : Int64).toInt = 1 from rfl, Int.one_gcd]
  rfl

theorem div_one (a : Int64) : div a 1 = .ok a := by
  rw [div, show (1 : Int64).toInt = 1 from rfl, Int.tdiv_one, narrow_toInt]

theorem div_self {a : Int64} (h : a.toInt ≠ 0) : div a a = .ok 1 := by
  rw [div, Int.tdiv_self h]
  rfl

theorem mul_one (a : Int64) : mul a 1 = .ok a := by
  rw [mul, show (1 : Int64).toInt = 1 from rfl, Int.mul_one, narrow_toInt]

theorem one_mul (a : Int64) : mul 1 a = .ok a := by
  rw [mul, show (1 : Int64).toInt = 1 from rfl, Int.one_mul, narrow_toInt]

theorem zero_mul (a : Int64) : mul 0 a = .ok 0 := by
  rw [mul, show (0 : Int64).toInt = 0 from rfl, Int.zero_mul]
  rfl

theorem zero_add (a : Int64) : add 0 a = .ok a := by
  rw [add, show (0 : Int64).toInt = 0 from rfl, Int.zero_add, narrow_toInt]

theorem abs_of_pos {a : Int64} (h : 0 < a.toInt) : abs a = .ok a := by
  rw [abs, Int.natAbs_of_nonneg h.le, narrow_toInt]

end Word

namespace Fraction

/-- In lowest terms, and the denominator is positive. -/
structure Reduced (q : Fraction) : Prop where
  positive : q.Positive
  coprime : Int.gcd q.num.toInt q.den.toInt = 1

theorem reduced_ofWord (n : Int64) : (ofWord n).Reduced :=
  ⟨positive_ofWord n, Int.gcd_one⟩

/-! ### Results -/

theorem reduced_of_reduce {n d : Int64} {q : Fraction} (h : reduce n d = .ok q) : q.Reduced := by
  unfold reduce at h
  split at h
  · cases h
    exact reduced_ofWord 0
  · next hn =>
      split at h
      · cases h
        exact reduced_ofWord 1
      · obtain ⟨g, hg, n', hn', d', hd', h⟩ := Fault.ok_of_bind₃ h
        have hcoprime : Int.gcd n'.toInt d'.toInt = 1 := by
          have hn0 : n.toInt ≠ 0 := fun h0 => hn (Int64.toInt_inj.mp h0)
          obtain ⟨hgn, hgd, -⟩ := Word.toInt_of_gcd hg
          rw [Word.toInt_of_narrow hn', Word.toInt_of_narrow hd', Int.tdiv_eq_ediv_of_dvd hgn,
            Int.tdiv_eq_ediv_of_dvd hgd, Word.toInt_of_narrow hg]
          exact Int.gcd_div_gcd_div_gcd (Int.gcd_pos_of_ne_zero_left _ hn0)
        split at h
        · next hneg =>
            obtain ⟨m, hm, e, he, h⟩ := Fault.ok_of_bind₂ h
            obtain ⟨rfl, rfl⟩ := build_ok h
            refine ⟨?_, ?_⟩
            · rw [Positive, Word.toInt_of_narrow he]
              exact Int.neg_pos_of_neg (Int64.lt_iff_toInt_lt.mp hneg)
            · rw [Word.toInt_of_narrow hm, Word.toInt_of_narrow he, Int.neg_gcd, Int.gcd_neg]
              exact hcoprime
        · next hneg =>
            obtain ⟨rfl, rfl⟩ := build_ok h
            have hle := mt Int64.lt_iff_toInt_lt.mpr hneg
            exact ⟨lt_of_le_of_ne (not_lt.mp hle) q.toInt_den_ne_zero.symm, hcoprime⟩

theorem reduced_of_add {a b c : Fraction} (h : a.add b = .ok c) : c.Reduced := by
  unfold add combine at h
  split at h
  · obtain ⟨_, _, h⟩ := Fault.ok_of_bind h
    exact reduced_of_reduce h
  · obtain ⟨_, _, _, _, _, _, h⟩ := Fault.ok_of_bind₃ h
    obtain ⟨_, _, _, _, _, _, h⟩ := Fault.ok_of_bind₃ h
    exact reduced_of_reduce h

theorem reduced_of_mul {a b c : Fraction} (h : a.mul b = .ok c) : c.Reduced := by
  obtain ⟨_, _, _, _, _, _, h⟩ := Fault.ok_of_bind₃ h
  obtain ⟨_, _, _, _, _, _, h⟩ := Fault.ok_of_bind₃ h
  obtain ⟨_, _, _, _, h⟩ := Fault.ok_of_bind₂ h
  exact reduced_of_reduce h

/-- What an operation makes of every result holds of a fold that starts with such a fraction. -/
theorem reduced_of_foldlM {op : Fraction → Fraction → Except Fault Fraction}
    (hop : ∀ {a b c : Fraction}, op a b = .ok c → c.Reduced) {qs : List Fraction} {a c : Fraction}
    (ha : a.Reduced) (h : qs.foldlM op a = .ok c) : c.Reduced := by
  induction qs generalizing a with
  | nil =>
      cases h
      exact ha
  | cons q qs ih =>
      rw [List.foldlM_cons] at h
      obtain ⟨b, hb, h⟩ := Fault.ok_of_bind h
      exact ih (hop hb) h

theorem reduced_of_sum {qs : List Fraction} {c : Fraction} (h : Arithmetic.sum qs = .ok c) :
    c.Reduced := reduced_of_foldlM reduced_of_add (reduced_ofWord 0) h

theorem reduced_of_product {qs : List Fraction} {c : Fraction}
    (h : Arithmetic.product qs = .ok c) : c.Reduced :=
  reduced_of_foldlM reduced_of_mul (reduced_ofWord 1) h

/-! ### Neutral operands -/

theorem zero_num : zero.num = 0 := rfl

theorem zero_den : zero.den = 1 := rfl

theorem one_num : one.num = 1 := rfl

theorem one_den : one.den = 1 := rfl

namespace Reduced

variable {q : Fraction}

/-- The denominator is one if it is the greatest common divisor. -/
theorem eq_ofWord (h : q.Reduced) (hgcd : (Int.gcd q.num.toInt q.den.toInt : Int) = q.den.toInt) :
    q = ofWord q.num := by
  have hden : q.den = 1 := by
    rw [h.coprime] at hgcd
    exact Int64.toInt_inj.mp hgcd.symm
  cases q
  cases hden
  rfl

/-- Nothing is left to reduce. -/
theorem reduce (h : q.Reduced) : Fraction.reduce q.num q.den = .ok q := by
  have hnonneg : 0 ≤ q.den.toInt := le_of_lt h.positive
  unfold Fraction.reduce
  split
  · next hn =>
      have hq := h.eq_ofWord (by
        rw [hn, show (0 : Int64).toInt = 0 from rfl, Int.zero_gcd, Int.natAbs_of_nonneg hnonneg])
      rw [hq, hn]
      rfl
  · split
    · next hn =>
        have hq := h.eq_ofWord (by rw [hn, Int.gcd_self, Int.natAbs_of_nonneg hnonneg])
        have hone : q.num = 1 := by rw [hn, hq]; rfl
        rw [hq, hone]
        rfl
    · have hgcd : Word.gcd q.num q.den = .ok 1 := by
        rw [Word.gcd, h.coprime]
        rfl
      have hneg : ¬q.den < 0 := fun hlt => (Int64.lt_iff_toInt_lt.mp hlt).not_ge hnonneg
      have hbuild : reduce.build q.num q.den = .ok q := by
        rw [reduce.build, make?, dif_pos q.den_ne_zero]
      rw [hgcd]
      simp only [Word.div_one, bind, Except.bind, if_neg hneg, hbuild]

theorem zero_add (h : q.Reduced) : zero.add q = .ok q := by
  have hden := q.toInt_den_ne_zero
  unfold add combine
  split
  · next hone =>
      rw [zero_num, Word.zero_add, Fault.ok_bind, hone]
      exact h.reduce
  · have hlcm : Word.lcm zero.den q.den = .ok q.den := by
      rw [Word.lcm, zero_den, Word.gcd_one_left, Fault.ok_bind, Word.div_one, Fault.ok_bind,
        Word.one_mul, Fault.ok_bind, Word.abs_of_pos h.positive]
    rw [hlcm, Fault.ok_bind, zero_num, zero_den, Word.div_one, Fault.ok_bind, Word.zero_mul,
      Fault.ok_bind, Word.div_self hden, Fault.ok_bind, Word.mul_one, Fault.ok_bind,
      Word.zero_add, Fault.ok_bind, h.reduce]

theorem one_mul (h : q.Reduced) : one.mul q = .ok q := by
  rw [mul, one_num, one_den, Word.gcd_one_left, Fault.ok_bind, Word.gcd_one_left, Fault.ok_bind,
    Word.div_one, Fault.ok_bind, Word.div_one, Fault.ok_bind, Word.one_mul, Fault.ok_bind,
    Word.div_one, Fault.ok_bind, Fault.ok_bind, Word.mul_one, Fault.ok_bind, h.reduce]

theorem sum_singleton (h : q.Reduced) : Arithmetic.sum [q] = .ok q := by
  rw [Arithmetic.sum, List.foldlM_cons]
  exact congrArg (· >>= _) h.zero_add

theorem product_singleton (h : q.Reduced) : Arithmetic.product [q] = .ok q := by
  rw [Arithmetic.product, List.foldlM_cons]
  exact congrArg (· >>= _) h.one_mul

end Reduced

end Fraction

end BagEquiv
