/-
**Encoding can only fault by an overflow.**

A computation with words ends in a fault where a number is no word, where a denominator would be
zero, or where a sort meets an order that contradicts itself.  Encoding sorts nothing, and the
denominators that come up when fractions are combined or reduced are never zero.  So what aligning
a matching, looking up a term and simplifying a formula can fault with is an overflow, and the same
holds of comparing two terms and of giving them fresh names.

Main definition:

* `MayOverflow` — a computation whose only fault is an overflow.

Main result:

* `Formula.mayOverflow_simplify` — **simplifying a formula**.
-/

import BagEquiv.Formula.Simplify
import BagEquiv.Matching.Alignment
import BagEquiv.Proofs.FractionValues
import BagEquiv.SearchTree
import BagEquiv.Term.Order

set_option autoImplicit false

namespace BagEquiv

variable {α β : Type}

/-- The only fault of the computation is an overflow. -/
def MayOverflow (x : Except Fault α) : Prop := ∀ f, x = .error f → f = .overflow

theorem mayOverflow_ok (a : α) : MayOverflow (.ok a : Except Fault α) := fun _ h => by cases h

theorem mayOverflow_overflow : MayOverflow (.error .overflow : Except Fault α) := fun _ h => by
  cases h
  rfl

theorem MayOverflow.bind {x : Except Fault α} {f : α → Except Fault β} (hx : MayOverflow x)
    (hf : ∀ a, x = .ok a → MayOverflow (f a)) : MayOverflow (x >>= f) := by
  cases x with
  | error e =>
      intro e' h
      cases h
      exact hx e rfl
  | ok a => exact hf a rfl

theorem MayOverflow.ite {c : Prop} [Decidable c] {x y : Except Fault α} (hx : MayOverflow x)
    (hy : MayOverflow y) : MayOverflow (if c then x else y) := by
  split
  · exact hx
  · exact hy

theorem mayOverflow_foldlM {f : β → α → Except Fault β} (hf : ∀ b a, MayOverflow (f b a)) :
    ∀ (as : List α) (b : β), MayOverflow (as.foldlM f b)
  | [], b => mayOverflow_ok b
  | a :: as, b => by
      rw [List.foldlM_cons]
      exact (hf b a).bind fun b' _ => mayOverflow_foldlM hf as b'

/-! ### Fractions -/

theorem Word.mayOverflow_narrow (n : ℤ) : MayOverflow (narrow n) :=
  (mayOverflow_ok _).ite mayOverflow_overflow

/-- A step whose result has to be a word. -/
theorem MayOverflow.narrow {n : ℤ} {f : Int64 → Except Fault α}
    (hf : ∀ a, Word.narrow n = .ok a → MayOverflow (f a)) : MayOverflow (Word.narrow n >>= f) :=
  (Word.mayOverflow_narrow n).bind hf

namespace Word

theorem mayOverflow_lcm (a b : Int64) : MayOverflow (lcm a b) :=
  .narrow fun _ _ => .narrow fun _ _ => .narrow fun _ _ => mayOverflow_narrow _

/-- Division by a divisor does not give zero. -/
theorem ne_zero_of_div {a b c : Int64} (ha : a.toInt ≠ 0) (hdvd : b.toInt ∣ a.toInt)
    (h : div a b = .ok c) : c.toInt ≠ 0 := by
  intro h0
  rw [toInt_of_narrow h] at h0
  exact ha (by rw [← Int.tdiv_mul_cancel hdvd, h0, Int.zero_mul])

end Word

namespace Fraction

theorem mayOverflow_build {n d : Int64} (hd : d.toInt ≠ 0) : MayOverflow (reduce.build n d) := by
  have hd' : d ≠ 0 := by
    rintro rfl
    exact hd rfl
  unfold reduce.build make?
  rw [dif_pos hd']
  exact mayOverflow_ok _

/-- A fraction whose denominator is not zero can be reduced. -/
theorem mayOverflow_reduce {n d : Int64} (hd : d.toInt ≠ 0) : MayOverflow (reduce n d) := by
  refine (mayOverflow_ok _).ite ((mayOverflow_ok _).ite ?_)
  refine .narrow fun g hg => .narrow fun n' _ => .narrow fun d' hd' => ?_
  have hd0 := Word.ne_zero_of_div hd (Word.toInt_of_gcd hg).2.1 hd'
  refine .ite (.narrow fun m _ => .narrow fun k hk => mayOverflow_build ?_) (mayOverflow_build hd0)
  rw [Word.toInt_of_narrow hk]
  exact neg_ne_zero.mpr hd0

theorem mayOverflow_combine {op : Int64 → Int64 → Except Fault Int64}
    (hop : ∀ a b, MayOverflow (op a b)) (a b : Fraction) : MayOverflow (combine op a b) := by
  refine .ite ((hop _ _).bind fun n _ => mayOverflow_reduce a.toInt_den_ne_zero) ?_
  refine (Word.mayOverflow_lcm _ _).bind fun l hl => .narrow fun _ _ => .narrow fun _ _ =>
    .narrow fun _ _ => .narrow fun _ _ => (hop _ _).bind fun _ _ => mayOverflow_reduce ?_
  exact (Word.dvd_of_lcm a.toInt_den_ne_zero b.toInt_den_ne_zero hl).2.2

theorem mayOverflow_add (a b : Fraction) : MayOverflow (a.add b) :=
  mayOverflow_combine (fun _ _ => Word.mayOverflow_narrow _) a b

theorem mayOverflow_sub (a b : Fraction) : MayOverflow (a.sub b) :=
  mayOverflow_combine (fun _ _ => Word.mayOverflow_narrow _) a b

/-- The product of two words that are not zero is not, and neither if they are reduced first. -/
theorem product_ne_zero {x y z t g h x' y' d : Int64} (hx : x.toInt ≠ 0) (hy : y.toInt ≠ 0)
    (hg : Word.gcd z x = .ok g) (hh : Word.gcd y t = .ok h) (hx' : Word.div x g = .ok x')
    (hy' : Word.div y h = .ok y') (hd : Word.mul x' y' = .ok d) : d.toInt ≠ 0 := by
  rw [Word.toInt_of_narrow hd]
  exact mul_ne_zero (Word.ne_zero_of_div hx (Word.toInt_of_gcd hg).2.1 hx')
    (Word.ne_zero_of_div hy (Word.toInt_of_gcd hh).1 hy')

theorem mayOverflow_mul (a b : Fraction) : MayOverflow (a.mul b) := by
  refine .narrow fun g hg => .narrow fun h hh => .narrow fun _ _ => .narrow fun _ _ =>
    .narrow fun _ _ => .narrow fun x hx => .narrow fun y hy => .narrow fun d hd => ?_
  exact mayOverflow_reduce
    (product_ne_zero b.toInt_den_ne_zero a.toInt_den_ne_zero hg hh hx hy hd)

theorem mayOverflow_div (a : Fraction) {b : Fraction} (hb : b.isZero = false) :
    MayOverflow (a.div b) := by
  have hnum : b.num.toInt ≠ 0 := by
    intro h0
    have : b.num = 0 := Int64.toInt_inj.mp h0
    simp [isZero, this] at hb
  refine .narrow fun g hg => .narrow fun h hh => .narrow fun _ _ => .narrow fun _ _ =>
    .narrow fun _ _ => .narrow fun y hy => .narrow fun x hx => .narrow fun d hd => ?_
  refine mayOverflow_reduce (product_ne_zero hnum a.toInt_den_ne_zero hg hh hx hy ?_)
  unfold Word.mul at hd ⊢
  rw [mul_comm]
  exact hd

theorem Checked.mayOverflow_same (a b : Fraction) : MayOverflow (Checked.same a b) :=
  (mayOverflow_ok _).ite mayOverflow_overflow

theorem Checked.mayOverflow_compare (a b : Fraction) : MayOverflow (Checked.compare a b) :=
  (mayOverflow_ok _).ite mayOverflow_overflow

end Fraction

/-! ### Terms -/

namespace Term

theorem mayOverflow_refine (o : Ordering) {x : Except Fault Ordering} (hx : MayOverflow x) :
    MayOverflow (refine o x) := hx.ite (mayOverflow_ok o)

theorem mayOverflow_compareLists {ts : List Term}
    (hts : ∀ t ∈ ts, ∀ u, MayOverflow (compare t u)) (us : List Term) :
    MayOverflow (compareLists ts us) := by
  induction ts generalizing us with
  | nil => cases us <;> exact mayOverflow_ok _
  | cons t ts ih =>
      rw [List.forall_mem_cons] at hts
      cases us with
      | nil => exact mayOverflow_ok _
      | cons u us => exact (hts.1 u).bind fun o _ => mayOverflow_refine o (ih hts.2 us)

/-- Terms can be compared as long as their constants can. -/
theorem mayOverflow_compare (t u : Term) : MayOverflow (compare t u) := by
  induction t using Term.induct generalizing u with
  | sum vars body ih =>
      cases u <;> first | exact mayOverflow_refine _ (ih _) | exact mayOverflow_ok _
  | add ts ih | mul ts ih =>
      cases u <;> first | exact mayOverflow_compareLists ih _ | exact mayOverflow_ok _
  | neg t ih | squash t ih => cases u <;> first | exact ih _ | exact mayOverflow_ok _
  | pred kind ts ih | func name ts ih =>
      have hargs := mayOverflow_compareLists ih
      cases u <;> first | exact mayOverflow_refine _ (hargs _) | exact mayOverflow_ok _
  | const q =>
      cases u <;> first | exact Fraction.Checked.mayOverflow_compare _ _ | exact mayOverflow_ok _
  | var | table | str => cases u <;> exact mayOverflow_ok _

theorem Checked.mayOverflow_sameAll {ts : List Term}
    (hts : ∀ t ∈ ts, ∀ u, MayOverflow (Checked.same t u)) (us : List Term) :
    MayOverflow (Checked.sameAll ts us) := by
  induction ts generalizing us with
  | nil => cases us <;> exact mayOverflow_ok _
  | cons t ts ih =>
      rw [List.forall_mem_cons] at hts
      cases us with
      | nil => exact mayOverflow_ok _
      | cons u us => exact (hts.1 u).bind fun _ _ => (ih hts.2 us).ite (mayOverflow_ok false)

/-- Whether terms are equal can be told as long as it can of their constants. -/
theorem Checked.mayOverflow_same (t u : Term) : MayOverflow (Checked.same t u) := by
  have members : ∀ {ts us : List Term}, (∀ t ∈ ts, ∀ u, MayOverflow (Checked.same t u)) →
      MayOverflow (if ts.length = us.length then Checked.sameAll ts us else .ok false) :=
    fun hts => (Checked.mayOverflow_sameAll hts _).ite (mayOverflow_ok false)
  induction t using Term.induct generalizing u with
  | sum vars body ih =>
      cases u <;> first | exact (ih _).ite (mayOverflow_ok false) | exact mayOverflow_ok _
  | add ts ih | mul ts ih => cases u <;> first | exact members ih | exact mayOverflow_ok _
  | neg t ih | squash t ih => cases u <;> first | exact ih _ | exact mayOverflow_ok _
  | pred kind ts ih | func name ts ih =>
      cases u <;> first | exact (members ih).ite (mayOverflow_ok false) | exact mayOverflow_ok _
  | const q =>
      cases u <;> first | exact Fraction.Checked.mayOverflow_same _ _ | exact mayOverflow_ok _
  | var | table | str => cases u <;> exact mayOverflow_ok _

theorem mayOverflow_freshNames (vs : List Var) (s : Supply) : MayOverflow (freshNames vs s) := by
  induction vs generalizing s with
  | nil => exact mayOverflow_ok _
  | cons v vs ih =>
      have hfresh : MayOverflow (s.fresh v.tuple) := .ite (mayOverflow_ok _) mayOverflow_overflow
      exact hfresh.bind fun p _ => (ih p.2).bind fun _ _ => mayOverflow_ok _

theorem mayOverflow_freshenList {ts : List Term}
    (hts : ∀ t ∈ ts, ∀ ρ s, MayOverflow (freshenWith ρ t s)) (ρ : Renaming) (s : Supply) :
    MayOverflow (freshenList ρ ts s) := by
  induction ts generalizing s with
  | nil => exact mayOverflow_ok _
  | cons t ts ih =>
      rw [List.forall_mem_cons] at hts
      exact (hts.1 ρ s).bind fun p _ => (ih hts.2 p.2).bind fun _ _ => mayOverflow_ok _

/-- Fresh names run out by an overflow of their number only. -/
theorem mayOverflow_freshenWith (ρ : Renaming) (t : Term) (s : Supply) :
    MayOverflow (freshenWith ρ t s) := by
  induction t using Term.induct generalizing ρ s with
  | sum vars body ih =>
      exact (mayOverflow_freshNames _ s).bind fun p _ =>
        (ih _ p.2).bind fun _ _ => mayOverflow_ok _
  | add ts ih | mul ts ih | pred kind ts ih | func name ts ih =>
      exact (mayOverflow_freshenList ih ρ s).bind fun _ _ => mayOverflow_ok _
  | neg t ih | squash t ih => exact (ih ρ s).bind fun _ _ => mayOverflow_ok _
  | var | const | table | str => exact mayOverflow_ok _

end Term

namespace SearchTree

variable {order : α → Except Fault Ordering}

theorem mayOverflow_locate (h : ∀ x, MayOverflow (order x)) :
    ∀ xs : List α, MayOverflow (locate order xs)
  | [] => mayOverflow_ok _
  | x :: xs => by
      refine (h x).bind fun o _ => ?_
      cases o with
      | lt | eq => exact mayOverflow_ok _
      | gt =>
          refine (mayOverflow_locate h xs).bind fun p _ => ?_
          cases p <;> exact mayOverflow_ok _

mutual

theorem mayOverflow_find (h : ∀ x, MayOverflow (order x)) :
    ∀ t : SearchTree α, MayOverflow (find order t)
  | .node entries children => by
      rw [find]
      refine (mayOverflow_locate h entries).bind fun p _ => ?_
      cases p with
      | found x => exact mayOverflow_ok _
      | below i => exact mayOverflow_findBelow h i children

theorem mayOverflow_findBelow (h : ∀ x, MayOverflow (order x)) :
    ∀ (i : ℕ) (ts : List (SearchTree α)), MayOverflow (findBelow order i ts)
  | i, [] => by
      rw [findBelow]
      exact mayOverflow_ok _
  | 0, t :: ts => by
      rw [findBelow]
      exact mayOverflow_find h t
  | i + 1, t :: ts => by
      rw [findBelow]
      exact mayOverflow_findBelow h i ts

end

theorem mayOverflow_edge (h : ∀ x, MayOverflow (order x)) :
    ∀ xs : List α, MayOverflow (edge order xs)
  | [] => mayOverflow_ok _
  | x :: xs => by
      refine (h x).bind fun o _ => ?_
      cases o with
      | lt | eq => exact mayOverflow_ok _
      | gt => exact (mayOverflow_edge h xs).bind fun i _ => mayOverflow_ok _

mutual

theorem mayOverflow_grow (h : ∀ x, MayOverflow (order x)) (x : α) :
    ∀ t : SearchTree α, MayOverflow (grow order x t)
  | .node entries children => by
      rw [grow]
      refine (mayOverflow_edge h entries).bind fun i _ =>
        (mayOverflow_growBelow h x i children).bind fun p _ => ?_
      obtain ⟨children', _ | y⟩ := p <;> exact mayOverflow_ok _

theorem mayOverflow_growBelow (h : ∀ x, MayOverflow (order x)) (x : α) :
    ∀ (i : ℕ) (ts : List (SearchTree α)), MayOverflow (growBelow order x i ts)
  | i, [] => by
      rw [growBelow]
      exact mayOverflow_ok _
  | 0, t :: ts => by
      rw [growBelow]
      refine (mayOverflow_grow h x t).bind fun g _ => ?_
      cases g <;> exact mayOverflow_ok _
  | i + 1, t :: ts => by
      rw [growBelow]
      exact (mayOverflow_growBelow h x i ts).bind fun _ _ => mayOverflow_ok _

end

theorem mayOverflow_insert (h : ∀ x, MayOverflow (order x)) (x : α) (t : SearchTree α) :
    MayOverflow (insert order x t) := by
  refine (mayOverflow_grow h x t).bind fun g _ => ?_
  cases g <;> exact mayOverflow_ok _

end SearchTree

/-! ### Matchings -/

namespace Matching

theorem mayOverflow_alignTo (m : Matching) (left right : Term) (rdepths : List ℕ)
    (rvars : List Var) (rbody : Term) : ∀ ls : List (List Var × Term),
      MayOverflow (m.alignTo left right rdepths rvars rbody ls)
  | [] => mayOverflow_ok m
  | (lvars, lbody) :: others => by
      have hothers := mayOverflow_alignTo m left right rdepths rvars rbody others
      rw [alignTo]
      split
      · exact hothers
      · refine .ite (.bind ((mayOverflow_ok ()).ite mayOverflow_overflow) fun _ _ =>
          (mayOverflow_ok m).ite ?_) hothers
        split
        · exact mayOverflow_ok _
        · exact hothers

/-- A matching can be aligned unless the key of a body overflows. -/
theorem mayOverflow_aligned (m : Matching) (left right : Term) :
    MayOverflow (m.aligned left right) := by
  refine mayOverflow_foldlM (fun m r => (mayOverflow_ok m).ite ?_) _ _
  split
  · exact mayOverflow_ok m
  · exact m.mayOverflow_alignTo left right _ _ _ _

end Matching

/-! ### Formulas -/

namespace Formula

namespace Checked

theorem mayOverflow_both {x y : Except Fault Bool} (hx : MayOverflow x) (hy : MayOverflow y) :
    MayOverflow (both x y) := hx.bind fun _ _ => hy.ite (mayOverflow_ok false)

theorem mayOverflow_sameAll {ts : List Formula} (hts : ∀ t ∈ ts, ∀ u, MayOverflow (same t u))
    (us : List Formula) : MayOverflow (sameAll ts us) := by
  induction ts generalizing us with
  | nil => cases us <;> exact mayOverflow_ok _
  | cons t ts ih =>
      rw [List.forall_mem_cons] at hts
      cases us with
      | nil => exact mayOverflow_ok _
      | cons u us => exact mayOverflow_both (hts.1 u) (ih hts.2 us)

/-- Formulas can be compared as long as their constants can. -/
theorem mayOverflow_same (a b : Formula) : MayOverflow (same a b) := by
  have members : ∀ {ts us : List Formula}, (∀ t ∈ ts, ∀ u, MayOverflow (same t u)) →
      MayOverflow (if ts.length = us.length then sameAll ts us else .ok false) :=
    fun hts => (mayOverflow_sameAll hts _).ite (mayOverflow_ok false)
  induction a using Formula.induct generalizing b with
  | const p =>
      cases b <;> first | exact Fraction.Checked.mayOverflow_same p _ | exact mayOverflow_ok _
  | bool | sym => cases b <;> exact mayOverflow_ok _
  | plus ts ih | mul ts ih | and ts ih | or ts ih =>
      cases b <;> first | exact members ih | exact mayOverflow_ok _
  | minus a c iha ihc | div a c iha ihc | eq a c iha ihc | le a c iha ihc | lt a c iha ihc =>
      cases b <;> first | exact mayOverflow_both (iha _) (ihc _) | exact mayOverflow_ok _
  | ite c a d ihc iha ihd =>
      have hfirst := fun c a => mayOverflow_both (ihc c) (iha a)
      cases b <;> first | exact mayOverflow_both (hfirst _ _) (ihd _) | exact mayOverflow_ok _
  | not a ih => cases b <;> first | exact ih _ | exact mayOverflow_ok _
  | func name ts type ih =>
      cases b with
      | func => exact .ite (mayOverflow_both (members ih) (mayOverflow_ok _)) (mayOverflow_ok _)
      | _ => exact mayOverflow_ok _
  | star outer inner sides body ih =>
      cases b with
      | star =>
          exact .ite (.ite (.ite (ih _) (mayOverflow_ok _)) (mayOverflow_ok _)) (mayOverflow_ok _)
      | _ => exact mayOverflow_ok _

theorem mayOverflow_mem (t : Formula) (us : List Formula) : MayOverflow (mem t us) := by
  induction us with
  | nil => exact mayOverflow_ok _
  | cons u us ih => exact (mayOverflow_same u t).bind fun _ _ => (mayOverflow_ok true).ite ih

end Checked

theorem mayOverflow_distinctMembers (unit : Bool) : ∀ ts done : List Formula,
    MayOverflow (distinctMembers unit done ts)
  | [], done => mayOverflow_ok _
  | t :: ts, done => by
      rw [distinctMembers.eq_def]
      dsimp only
      split
      · exact .ite (mayOverflow_distinctMembers unit ts done) (mayOverflow_ok _)
      · exact (Checked.mayOverflow_mem t done).bind fun _ _ =>
          .ite (mayOverflow_distinctMembers unit ts done) (mayOverflow_distinctMembers unit ts _)

theorem mayOverflow_simplifyAll {ts : List Formula} (hts : ∀ t ∈ ts, MayOverflow (simplify t)) :
    MayOverflow (simplifyAll ts) := by
  induction ts with
  | nil => exact mayOverflow_ok _
  | cons t ts ih =>
      rw [List.forall_mem_cons] at hts
      exact hts.1.bind fun _ _ => (ih hts.2).bind fun _ _ => mayOverflow_ok _

/-- A formula can be simplified unless its constants overflow. -/
theorem mayOverflow_simplify (f : Formula) : MayOverflow (simplify f) := by
  induction f using Formula.induct with
  | const | bool | sym => exact mayOverflow_ok _
  | plus ts ih =>
      refine (mayOverflow_simplifyAll ih).bind fun us _ =>
        (mayOverflow_foldlM Fraction.mayOverflow_add _ _).bind fun c _ => ?_
      dsimp only
      generalize ite _ _ _ = vs
      split <;> exact mayOverflow_ok _
  | mul ts ih =>
      refine (mayOverflow_simplifyAll ih).bind fun us _ =>
        (mayOverflow_foldlM Fraction.mayOverflow_mul _ _).bind fun c _ => .ite (mayOverflow_ok _) ?_
      dsimp only
      generalize ite _ _ _ = vs
      split <;> exact mayOverflow_ok _
  | minus a b iha ihb =>
      refine iha.bind fun a' _ => ihb.bind fun b' _ => ?_
      unfold simplifyMinus
      split
      · exact (Fraction.mayOverflow_sub _ _).bind fun _ _ => mayOverflow_ok _
      · exact (mayOverflow_ok _).ite (mayOverflow_ok _)
      · exact mayOverflow_ok _
  | div a b iha ihb =>
      refine iha.bind fun a' _ => ihb.bind fun b' _ => ?_
      unfold simplifyDiv
      split
      · split
        · exact mayOverflow_ok _
        · next hzero =>
            rw [Bool.not_eq_true] at hzero
            exact (Fraction.mayOverflow_div _ hzero).bind fun _ _ => mayOverflow_ok _
      · exact (mayOverflow_ok _).ite (mayOverflow_ok _)
      · exact mayOverflow_ok _
  | ite c a b ihc iha ihb =>
      refine ihc.bind fun c' _ => iha.bind fun a' _ => ihb.bind fun b' _ => ?_
      unfold simplifyIte
      split
      · exact mayOverflow_ok _
      · exact mayOverflow_ok _
      · exact (Checked.mayOverflow_same _ _).bind fun _ _ => mayOverflow_ok _
  | eq a b iha ihb =>
      refine iha.bind fun a' _ => ihb.bind fun b' _ =>
        (Checked.mayOverflow_same _ _).bind fun _ _ => .ite (mayOverflow_ok _) ?_
      split <;> exact mayOverflow_ok _
  | le a b iha ihb =>
      refine iha.bind fun a' _ => ihb.bind fun b' _ => ?_
      unfold simplifyLe
      split
      · exact (Fraction.Checked.mayOverflow_compare _ _).bind fun _ _ => mayOverflow_ok _
      · exact (Checked.mayOverflow_same _ _).bind fun _ _ => mayOverflow_ok _
  | lt a b iha ihb =>
      refine iha.bind fun a' _ => ihb.bind fun b' _ => ?_
      unfold simplifyLt
      split
      · exact (Fraction.Checked.mayOverflow_compare _ _).bind fun _ _ => mayOverflow_ok _
      · exact (Checked.mayOverflow_same _ _).bind fun _ _ => mayOverflow_ok _
  | not a ih | star outer inner sides body ih => exact ih.bind fun _ _ => mayOverflow_ok _
  | and ts ih =>
      refine (mayOverflow_simplifyAll ih).bind fun us _ =>
        (mayOverflow_distinctMembers true _ _).bind fun o _ => ?_
      split <;> exact mayOverflow_ok _
  | or ts ih =>
      refine (mayOverflow_simplifyAll ih).bind fun us _ =>
        (mayOverflow_distinctMembers false _ _).bind fun o _ => ?_
      split <;> exact mayOverflow_ok _
  | func name ts type ih => exact (mayOverflow_simplifyAll ih).bind fun _ _ => mayOverflow_ok _

end Formula

end BagEquiv
