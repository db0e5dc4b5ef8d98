/-
**Continued fractions of constants.**

A constant is hashed as the whole parts of its continued fraction.  They depend on its value alone
and determine it, however the constant is written.  With words they can all be computed, except for
the three fractions among whose whole parts is `2 ^ 63`, and a term has a key unless it holds one of
these.

Main definition:

* `Term.Expands` — the whole parts of all constants of a term are words.

Main result:

* `Fraction.wholeParts_eq_iff` — **two fractions have the same whole parts exactly if they
  have the same value**.
-/

import Mathlib.Algebra.Order.Floor.Ring
import Mathlib.Data.Rat.Floor
import BagEquiv.Term.Stream
import BagEquiv.Proofs.Subterms

set_option autoImplicit false

namespace BagEquiv

namespace Fraction

/-! ### Whole parts and values -/

theorem wholeParts_zero (n : ℤ) : wholeParts n 0 = [0] := by
  rw [wholeParts, dif_pos rfl]

theorem wholeParts_of_ne {n d : ℤ} (hd : d ≠ 0) :
    wholeParts n d = n.fdiv d :: wholeParts d (n.fmod d) := by
  rw [wholeParts, dif_neg hd]

theorem wholeParts_ne_nil (n d : ℤ) : wholeParts n d ≠ [] := by
  by_cases hd : d = 0
  · rw [hd, wholeParts_zero]
    exact List.cons_ne_nil _ _
  · rw [wholeParts_of_ne hd]
    exact List.cons_ne_nil _ _

/-- A quotient is its whole part and a rest below one. -/
theorem div_eq_fdiv_add {n d : ℤ} (hd : d ≠ 0) :
    (n : ℚ) / d = n.fdiv d + (n.fmod d : ℚ) / d := by
  have hd' : (d : ℚ) ≠ 0 := by exact_mod_cast hd
  rw [div_eq_iff hd', add_mul, div_mul_cancel₀ _ hd']
  exact_mod_cast (Int.fdiv_mul_add_fmod n d).symm

theorem fmod_div_nonneg (n d : ℤ) : 0 ≤ (n.fmod d : ℚ) / d := by
  rcases lt_trichotomy d 0 with hd | rfl | hd
  · have hrest := ((Int.fdiv_fmod_unique' hd).mp ⟨rfl, rfl⟩ : _ ∧ d < n.fmod d ∧ n.fmod d ≤ 0).2.2
    exact div_nonneg_of_nonpos (by exact_mod_cast hrest) (by exact_mod_cast hd.le)
  · simp
  · exact div_nonneg (by exact_mod_cast Int.fmod_nonneg_of_pos n hd) (by exact_mod_cast hd.le)

theorem fmod_div_lt_one (n : ℤ) {d : ℤ} (hd : d ≠ 0) : (n.fmod d : ℚ) / d < 1 := by
  rcases lt_or_gt_of_ne hd with hd | hd
  · have hrest := ((Int.fdiv_fmod_unique' hd).mp ⟨rfl, rfl⟩ : _ ∧ d < n.fmod d ∧ n.fmod d ≤ 0).2.1
    rw [div_lt_one_of_neg (by exact_mod_cast hd)]
    exact_mod_cast hrest
  · rw [div_lt_one (by exact_mod_cast hd)]
    exact_mod_cast Int.fmod_lt_of_pos n hd

theorem floor_div {n d : ℤ} (hd : d ≠ 0) : ⌊(n : ℚ) / d⌋ = n.fdiv d := by
  rw [div_eq_fdiv_add hd, Int.floor_intCast_add,
    Int.floor_eq_zero_iff.mpr ⟨fmod_div_nonneg n d, fmod_div_lt_one n hd⟩, add_zero]

/-- Two quotients agree if their whole parts do, and what is left of them. -/
theorem div_eq_div_iff_parts {n d n' d' : ℤ} (hd : d ≠ 0) (hd' : d' ≠ 0) :
    (n : ℚ) / d = n' / d' ↔
      n.fdiv d = n'.fdiv d' ∧ (n.fmod d : ℚ) / d = (n'.fmod d' : ℚ) / d' := by
  constructor
  · intro h
    have hwhole : n.fdiv d = n'.fdiv d' := by rw [← floor_div hd, h, floor_div hd']
    rw [div_eq_fdiv_add hd, div_eq_fdiv_add hd', hwhole] at h
    exact ⟨hwhole, add_left_cancel h⟩
  · rintro ⟨hwhole, hrest⟩
    rw [div_eq_fdiv_add hd, div_eq_fdiv_add hd', hwhole, hrest]

/-- The whole parts of a continued fraction determine its value, and depend on it alone. -/
theorem wholeParts_eq_iff {n d n' d' : ℤ} (hd : d ≠ 0) (hd' : d' ≠ 0) :
    wholeParts n d = wholeParts n' d' ↔ (n : ℚ) / d = n' / d' := by
  induction n, d using wholeParts.induct generalizing n' d' with
  | case1 => exact absurd rfl hd
  | case2 n d hd ih =>
      rw [wholeParts_of_ne hd, wholeParts_of_ne hd', List.cons.injEq, div_eq_div_iff_parts hd hd']
      refine and_congr_right fun _ => ?_
      have hd0 : (d : ℚ) ≠ 0 := by exact_mod_cast hd
      have hd0' : (d' : ℚ) ≠ 0 := by exact_mod_cast hd'
      -- The expansion goes on with the reciprocals, unless nothing is left.
      by_cases hr : n.fmod d = 0 <;> by_cases hr' : n'.fmod d' = 0
      · simp [hr, hr', wholeParts_zero]
      · rw [hr, wholeParts_zero, wholeParts_of_ne hr', Int.cast_zero, zero_div, eq_comm (a := 0),
          div_eq_zero_iff]
        simp [(wholeParts_ne_nil _ _).symm, hr', hd']
      · rw [hr', wholeParts_zero, wholeParts_of_ne hr, Int.cast_zero, zero_div, div_eq_zero_iff]
        simp [wholeParts_ne_nil, hr, hd]
      · rw [ih hr hr', ← inv_inj, inv_div, inv_div]

/-! ### Whole parts that are words -/

/-- The quotient of two words, rounded down, is a word with one exception. -/
theorem fits_fdiv_iff {n d : ℤ} (hn : Word.Fits n) (hd : d ≠ 0) :
    Word.Fits (n.fdiv d) ↔ quotientFits n d = true := by
  have hle := Int.natAbs_fdiv_le_natAbs n d
  have hparts := Int.fdiv_mul_add_fmod n d
  have hrest := natAbs_fmod_lt n hd
  have htest : quotientFits n d = true ↔ ¬(n = -2 ^ 63 ∧ d = -1) := by
    rw [quotientFits, Bool.not_eq_true', ← Bool.not_eq_true, Bool.and_eq_true, beq_iff_eq,
      beq_iff_eq]
  rw [htest]
  unfold Word.Fits at hn ⊢
  constructor
  · rintro hfits ⟨rfl, rfl⟩
    exact absurd hfits (by decide)
  · intro hexcept
    refine ⟨by omega, ?_⟩
    by_contra hlarge
    -- The quotient is `2 ^ 63`, so the dividend is the least word and the divisor minus one.
    have hquot : n.fdiv d = 2 ^ 63 := by omega
    rw [hquot] at hparts hle
    omega

/-- Numbers above the least word have words as whole parts. -/
theorem fits_of_mem_wholeParts {n d : ℤ} (hn : n.natAbs < 2 ^ 63) (hd : d.natAbs < 2 ^ 63) :
    ∀ w ∈ wholeParts n d, Word.Fits w := by
  induction n, d using wholeParts.induct with
  | case1 n =>
      rw [wholeParts_zero, List.forall_mem_singleton]
      decide
  | case2 n d hd0 ih =>
      have hle := Int.natAbs_fdiv_le_natAbs n d
      have hlt := natAbs_fmod_lt n hd0
      rw [wholeParts_of_ne hd0, List.forall_mem_cons]
      refine ⟨?_, ih hd (by omega)⟩
      unfold Word.Fits
      omega

/-- The test looks at the first two whole parts only, and that is enough. -/
theorem expands_iff (q : Fraction) :
    q.expands = true ↔ ∀ w ∈ wholeParts q.num.toInt q.den.toInt, Word.Fits w := by
  have hd := q.toInt_den_ne_zero
  have hden := Word.fits_toInt q.den
  rw [wholeParts_of_ne hd, List.forall_mem_cons, fits_fdiv_iff (Word.fits_toInt q.num) hd, expands,
    Bool.and_eq_true, rest]
  refine and_congr_right fun _ => ?_
  have hrest := natAbs_fmod_lt q.num.toInt hd
  unfold Word.Fits at hden
  by_cases hr : q.num.toInt.fmod q.den.toInt = 0
  · simp [hr, wholeParts_zero, quotientFits, Word.Fits]
  · have hnext := natAbs_fmod_lt q.den.toInt hr
    rw [wholeParts_of_ne hr, List.forall_mem_cons, fits_fdiv_iff hden hr,
      and_iff_left (fits_of_mem_wholeParts (by omega) (by omega))]

/-- Whether the continued fraction can be computed depends on the value only. -/
theorem expands_congr {p q : Fraction} (h : p.toRat = q.toRat) : p.expands = q.expands := by
  rw [toRat_eq, toRat_eq, ← wholeParts_eq_iff p.toInt_den_ne_zero q.toInt_den_ne_zero] at h
  rw [Bool.eq_iff_iff, expands_iff, expands_iff, h]

end Fraction

/-! ### Terms that have keys -/

namespace Term

/-- The continued fractions of all constants can be computed with words. -/
def Expands (t : Term) : Prop :=
  ∀ q, .const q ∈ t.subterms → ∀ w ∈ Fraction.wholeParts q.num.toInt q.den.toInt, Word.Fits w

theorem hasKey_eq_true_iff (t : Term) :
    t.hasKey = true ↔ (∀ q, t = .const q → q.expands = true) ∧
      ∀ c ∈ t.children, c.hasKey = true := by
  cases t <;> simp [hasKey, allKeyed_eq, children]

/-- A term has a key exactly if the continued fractions of its constants can be computed. -/
theorem hasKey_iff (t : Term) : t.hasKey = true ↔ t.Expands := by
  induction t using Term.induct_children with
  | step t ih =>
      rw [hasKey_eq_true_iff]
      constructor
      · rintro ⟨hself, hparts⟩ q hq
        rcases mem_subterms.mp hq with hq | ⟨c, hc, hq⟩
        · exact (Fraction.expands_iff q).mp (hself q hq.symm)
        · exact (ih c hc).mp (hparts c hc) q hq
      · intro h
        constructor
        · intro q hq
          exact (Fraction.expands_iff q).mpr (h q (mem_subterms.mpr (.inl hq.symm)))
        · intro c hc
          exact (ih c hc).mpr fun q hq => h q (mem_subterms.mpr (.inr ⟨c, hc, hq⟩))

variable {α : Type} {ts : List Term} {x : α}

theorem requireKeys_eq (ts : List Term) [Decidable (∀ t ∈ ts, t.Expands)] :
    requireKeys ts = if ∀ t ∈ ts, t.Expands then .ok () else .error .overflow := by
  simp only [requireKeys, List.all_eq_true, hasKey_iff]

/-- What needs keys is computed if all constants can be expanded, -/
theorem requireKeys_ok_iff {r : α} :
    (do requireKeys ts; return x) = .ok r ↔ (∀ t ∈ ts, t.Expands) ∧ x = r := by
  classical
  rw [requireKeys_eq]
  split
  · next h => exact ⟨fun hx => ⟨h, Except.ok.inj hx⟩, fun hx => congrArg Except.ok hx.2⟩
  · next h => exact ⟨nofun, fun hx => absurd hx.1 h⟩

/-- and overflows if not. -/
theorem requireKeys_error_iff :
    (do requireKeys ts; return x) = .error .overflow ↔ ∃ t ∈ ts, ¬ t.Expands := by
  classical
  rw [requireKeys_eq]
  split
  · next h => exact ⟨nofun, fun ⟨t, ht, hx⟩ => absurd (h t ht) hx⟩
  · next h => exact ⟨fun _ => by simpa using h, fun _ => rfl⟩

end Term

end BagEquiv
