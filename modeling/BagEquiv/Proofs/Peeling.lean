/-
**Sums over rows, one variable at a time.**

A summation over several variables adds up the numbers of all choices of rows.  Which variable is
summed over first does not matter, so a variable can be taken out of a summation: its rows are gone
through outside, and the others inside.  The variable may get another name on the way, since a term
does not depend on what its tuples are called.

Main definition:

* `LessDefined` — a number is missing, or it is the other one.

Main result:

* `OpenSum.number_eq_sum_rest` — **a variable can be taken out of a summation**.
-/

import Mathlib.Algebra.BigOperators.Ring.List
import BagEquiv.Proofs.Binders
import BagEquiv.Proofs.Meaning

set_option autoImplicit false

namespace BagEquiv

/-! ### Numbers that are better known -/

/-- The first number is missing, or it is the second one. -/
def LessDefined (a b : WithTop ℚ) : Prop := a = ⊤ ∨ a = b

namespace LessDefined

theorem refl (a : WithTop ℚ) : LessDefined a a := .inr rfl

theorem eq_of_coe {a b : WithTop ℚ} (h : LessDefined a b) {q : ℚ} (ha : a = q) : b = q := by
  rcases h with rfl | rfl
  · exact absurd ha (WithTop.coe_ne_top (a := q)).symm
  · exact ha

theorem trans {a b c : WithTop ℚ} (h : LessDefined a b) (h' : LessDefined b c) :
    LessDefined a c := by
  rcases h with rfl | rfl
  · exact .inl rfl
  · exact h'

theorem map {a b : WithTop ℚ} (h : LessDefined a b) (f : ℚ → ℚ) :
    LessDefined (a.map f) (b.map f) := by
  rcases h with rfl | rfl
  · exact .inl rfl
  · exact refl _

theorem add {a b a' b' : WithTop ℚ} (ha : LessDefined a a') (hb : LessDefined b b') :
    LessDefined (a + b) (a' + b') := by
  rcases ha with rfl | rfl
  · exact .inl (top_add _)
  · rcases hb with rfl | rfl
    · exact .inl (add_top _)
    · exact refl _

/-- A factor of zero decides a product, and any other has to be known anyway. -/
theorem mul {a b a' b' : WithTop ℚ} (ha : LessDefined a a') (hb : LessDefined b b') :
    LessDefined (a * b) (a' * b') := by
  by_cases ha0 : a = 0
  · rcases ha with rfl | rfl
    · exact absurd ha0 WithTop.top_ne_zero
    · exact .inr (by rw [ha0, zero_mul, zero_mul])
  · rcases hb with rfl | rfl
    · exact .inl (WithTop.mul_top ha0)
    · rcases ha with rfl | rfl
      · by_cases hb0 : b = 0
        · exact .inr (by rw [hb0, mul_zero, mul_zero])
        · exact .inl (WithTop.top_mul hb0)
      · exact refl _

/-- Sums are as well known as their summands. -/
theorem sum {as bs : List (WithTop ℚ)} (h : List.Forall₂ LessDefined as bs) :
    LessDefined as.sum bs.sum := by
  induction h with
  | nil => exact refl _
  | cons h _ ih =>
      rw [List.sum_cons, List.sum_cons]
      exact h.add ih

/-- Products are as well known as their factors. -/
theorem prod {as bs : List (WithTop ℚ)} (h : List.Forall₂ LessDefined as bs) :
    LessDefined as.prod bs.prod := by
  induction h with
  | nil => exact refl _
  | cons h _ ih =>
      rw [List.prod_cons, List.prod_cons]
      exact h.mul ih

end LessDefined

/-- A scalar that may be missing is missing, or it is the other one. -/
def Scalar.LessDefined (a b : Option (Scalar ℚ)) : Prop := a = none ∨ a = b

namespace Scalar.LessDefined

variable {a b : Option (Scalar ℚ)}

theorem toNumber (h : LessDefined a b) :
    BagEquiv.LessDefined (Scalar.toNumber a) (Scalar.toNumber b) := by
  rcases h with rfl | rfl
  · exact .inl rfl
  · exact .inr rfl

theorem ofNumber {m n : WithTop ℚ} (h : BagEquiv.LessDefined m n) :
    LessDefined (Scalar.ofNumber m) (Scalar.ofNumber n) := by
  rcases h with rfl | rfl
  · exact .inl rfl
  · exact .inr rfl

theorem mapM_number? {as bs : List (Option (Scalar ℚ))} (h : List.Forall₂ LessDefined as bs) :
    (as.mapM fun s => s.bind Scalar.number?) = none ∨
      (as.mapM fun s => s.bind Scalar.number?) = bs.mapM fun s => s.bind Scalar.number? := by
  induction h with
  | nil => exact .inr rfl
  | cons h _ ih =>
      rw [List.mapM_cons, List.mapM_cons]
      rcases h with rfl | rfl
      · exact .inl rfl
      · rcases ih with ih | ih
        · left
          rw [ih]
          cases Option.bind _ Scalar.number? <;> rfl
        · right
          rw [ih]

end Scalar.LessDefined

/-! ### Totals -/

namespace World

theorem bind_comm (w : World) {x y : String} (h : x ≠ y) (r s : ExactRow) :
    (w.bind x r).bind y s = (w.bind y s).bind x r := by
  simp only [bind, Function.update_comm h]

/-- Totals of two functions are related if the functions are related in worlds that are. -/
theorem total_rel {Q : World → World → Prop} {V : WithTop ℚ → WithTop ℚ → Prop}
    (hV : ∀ {as bs : List (WithTop ℚ)}, List.Forall₂ V as bs → V as.sum bs.sum)
    {f g : World → WithTop ℚ} {ranges : List (String × List ExactRow)}
    (hbind : ∀ range ∈ ranges, ∀ r w w', Q w w' → Q (w.bind range.1 r) (w'.bind range.1 r))
    (hf : ∀ w w', Q w w' → V (f w) (g w')) {w w' : World} (h : Q w w') :
    V (w.total f ranges) (w'.total g ranges) := by
  induction ranges generalizing w w' with
  | nil => exact hf w w' h
  | cons range ranges ih =>
      rw [List.forall_mem_cons] at hbind
      obtain ⟨x, rs⟩ := range
      rw [total, total]
      apply hV
      rw [List.forall₂_map_left_iff, List.forall₂_map_right_iff, List.forall₂_same]
      exact fun r _ => ih hbind.2 (hbind.1 r w w' h)

theorem sum_of_forall₂_eq {as bs : List (WithTop ℚ)} (h : List.Forall₂ Eq as bs) :
    as.sum = bs.sum := by
  rw [List.forall₂_eq_eq_eq] at h
  rw [h]

/-- A total is zero if every number in it is. -/
theorem total_eq_zero {P : World → Prop} {f : World → WithTop ℚ}
    {ranges : List (String × List ExactRow)}
    (hbind : ∀ range ∈ ranges, ∀ r w, P w → P (w.bind range.1 r)) (hf : ∀ w, P w → f w = 0)
    {w : World} (h : P w) : w.total f ranges = 0 := by
  induction ranges generalizing w with
  | nil => exact hf w h
  | cons range ranges ih =>
      rw [List.forall_mem_cons] at hbind
      obtain ⟨x, rs⟩ := range
      rw [total]
      refine List.sum_eq_zero fun n hn => ?_
      obtain ⟨r, _, rfl⟩ := List.mem_map.mp hn
      exact ih hbind.2 (hbind.1 r w h)

theorem sum_sum_comm {α β : Type} (as : List α) (bs : List β) (f : α → β → WithTop ℚ) :
    (as.map fun a => (bs.map fun b => f a b).sum).sum =
      (bs.map fun b => (as.map fun a => f a b).sum).sum := by
  induction as with
  | nil => simp
  | cons a as ih => simp only [List.map_cons, List.sum_cons, ih, List.sum_map_add]

/-- The order in which tuples are bound does not matter, if their names are different. -/
theorem total_perm (f : World → WithTop ℚ) {ranges ranges' : List (String × List ExactRow)}
    (h : ranges.Perm ranges') (hnodup : (ranges.map Prod.fst).Nodup) (w : World) :
    w.total f ranges = w.total f ranges' := by
  induction h generalizing w with
  | nil => rfl
  | cons range _ ih =>
      rw [List.map_cons, List.nodup_cons] at hnodup
      obtain ⟨x, rs⟩ := range
      simp only [total, ih hnodup.2]
  | swap range range' ranges =>
      obtain ⟨x, rs⟩ := range
      obtain ⟨y, ss⟩ := range'
      have hne : y ≠ x := by
        simp only [List.map_cons, List.nodup_cons, List.mem_cons, not_or] at hnodup
        exact hnodup.1.1
      simp only [total]
      rw [sum_sum_comm]
      simp only [w.bind_comm hne]
  | trans h₁ _ ih₁ ih₂ => rw [ih₁ hnodup, ih₂ ((h₁.map _).nodup_iff.mp hnodup)]

/-- What a tuple was bound to does not matter where it is bound again. -/
theorem total_bind (f : World → WithTop ℚ) {ranges : List (String × List ExactRow)} {x : String}
    (hx : x ∈ ranges.map Prod.fst) (w : World) (r : ExactRow) :
    (w.bind x r).total f ranges = w.total f ranges := by
  induction ranges generalizing w with
  | nil => exact absurd hx List.not_mem_nil
  | cons range ranges ih =>
      obtain ⟨y, rs⟩ := range
      simp only [total]
      by_cases hxy : x = y
      · subst hxy
        simp [bind]
      · have hx' : x ∈ ranges.map Prod.fst := (List.mem_cons.mp hx).resolve_left hxy
        simp only [w.bind_comm hxy, ih hx']

end World

/-! ### More tuples -/

namespace World

/-- The second world has the tuples of the first one, and perhaps more. -/
structure Extends (w w' : World) : Prop where
  rows : w'.rows = w.rows
  count : w'.count = w.count
  schemas : w'.schemas = w.schemas
  placeholders : w'.placeholders = w.placeholders
  tuples : ∀ x r, w.tuples x = some r → w'.tuples x = some r

namespace Extends

variable {w w' : World}

theorem bind (h : Extends w w') (x : String) (r : ExactRow) :
    Extends (w.bind x r) (w'.bind x r) where
  rows := h.rows
  count := h.count
  schemas := h.schemas
  placeholders := h.placeholders
  tuples y s hs := by
    by_cases hy : y = x
    · subst hy
      simpa using hs
    · rw [tuples_bind_of_ne _ hy] at hs ⊢
      exact h.tuples y s hs

theorem tuples_eq (h : Extends w w') (x : String) :
    w.tuples x = none ∨ w.tuples x = w'.tuples x := by
  cases hx : w.tuples x with
  | none => exact .inl rfl
  | some r => exact .inr (h.tuples x r hx).symm

theorem cell?_eq (h : Extends w w') (x attr : String) :
    w.cell? x attr = none ∨ w.cell? x attr = w'.cell? x attr := by
  unfold cell?
  rcases h.tuples_eq x with hx | hx
  · exact .inl (by rw [hx]; rfl)
  · exact .inr (by rw [hx])

theorem compareTuples?_eq (h : Extends w w') (kind : Pred) (x y : String) :
    w.compareTuples? kind x y = none ∨ w.compareTuples? kind x y = w'.compareTuples? kind x y := by
  have hsame : w.same? x y = none ∨ w.same? x y = w'.same? x y := by
    unfold same?
    rw [h.schemas]
    rcases h.tuples_eq x with hx | hx
    · exact .inl (by rw [hx])
    · rcases h.tuples_eq y with hy | hy
      · left
        rw [hy]
        cases w.tuples x <;> rfl
      · exact .inr (by rw [hx, hy])
  unfold compareTuples?
  rcases hsame with hsame | hsame
  · left
    rw [hsame]
    cases kind <;> rfl
  · exact .inr (by rw [hsame])

/-- A predicate that can be judged can be judged when more is known. -/
theorem judge_eq (h : Extends w w') (kind : Pred) (args : List Term)
    {values values' : List (Option (Scalar ℚ))}
    (hv : List.Forall₂ Scalar.LessDefined values values') :
    w.judge kind args values = none ∨ w.judge kind args values = w'.judge kind args values' := by
  have hcompare : w.compareAll? kind args values = none ∨
      w.compareAll? kind args values = w'.compareAll? kind args values' := by
    have hpair : w'.pair? args = w.pair? args := by
      simp only [pair?, named?, h.placeholders]
    unfold compareAll?
    rw [hpair]
    cases w.pair? args with
    | some p => exact h.compareTuples?_eq kind p.1 p.2
    | none =>
        rcases hv with _ | ⟨h₁, _ | ⟨h₂, _ | _⟩⟩
        case cons.cons.nil =>
          rcases h₁ with rfl | rfl
          · exact .inl rfl
          · rcases h₂ with rfl | rfl
            · exact .inl (by simp [compareValues?, compare?])
            · exact .inr rfl
        all_goals exact .inl rfl
  cases kind with
  | isNull =>
      rcases args with _ | ⟨arg, _ | _⟩
      case cons.nil =>
        simp only [judge]
        cases arg.column? with
        | none => exact .inl rfl
        | some p =>
            rcases h.cell?_eq p.2 p.1 with heq | heq
            · exact .inl (by simp [heq])
            · exact .inr (by simp [heq])
      all_goals exact .inl rfl
  | named name => exact .inl rfl
  | eq | ne | lt | le | gt | ge => exact hcompare

end Extends

end World

namespace Term

/-- A term that stands for something does so when more tuples are bound. -/
theorem meaning_of_extends (t : Term) {w w' : World} (h : w.Extends w') :
    Scalar.LessDefined (t.meaning w) (t.meaning w') := by
  have members : ∀ {ts : List Term} {w w' : World}, w.Extends w' →
      (∀ t ∈ ts, ∀ {w w' : World}, w.Extends w' →
        Scalar.LessDefined (t.meaning w) (t.meaning w')) →
      List.Forall₂ Scalar.LessDefined (meanings ts w) (meanings ts w') := by
    intro ts w w' h ih
    rw [meanings_eq_map, meanings_eq_map, List.forall₂_map_left_iff, List.forall₂_map_right_iff,
      List.forall₂_same]
    exact fun t ht => ih t ht h
  have numbers : ∀ {ts : List Term} {w w' : World}, w.Extends w' →
      (∀ t ∈ ts, ∀ {w w' : World}, w.Extends w' →
        Scalar.LessDefined (t.meaning w) (t.meaning w')) →
      List.Forall₂ LessDefined ((meanings ts w).map Scalar.toNumber)
        ((meanings ts w').map Scalar.toNumber) := by
    intro ts w w' h ih
    rw [List.forall₂_map_left_iff, List.forall₂_map_right_iff]
    exact (members h ih).imp fun _ _ h => h.toNumber
  induction t using Term.induct generalizing w w' with
  | sum vars body ih =>
      rw [meaning, meaning]
      apply Scalar.LessDefined.ofNumber
      unfold World.summation World.ranges
      rw [h.rows]
      split
      · exact World.total_rel (Q := World.Extends) LessDefined.sum
          (fun range _ r _ _ hw => hw.bind range.1 r) (fun _ _ hw => (ih hw).toNumber) h
      · exact .inl rfl
  | add ts ih =>
      rw [meaning, meaning]
      exact .ofNumber (.sum (numbers h ih))
  | mul ts ih =>
      rw [meaning, meaning]
      exact .ofNumber (.prod (numbers h ih))
  | neg t ih | squash t ih =>
      rw [meaning, meaning]
      exact .ofNumber ((ih h).toNumber.map _)
  | pred kind ts ih =>
      rw [meaning, meaning]
      rcases h.judge_eq kind ts (members h ih) with heq | heq
      · exact .inl (by rw [heq]; rfl)
      · exact .inr (by rw [heq])
  | var v =>
      cases v with
      | base x => exact .inr (by rw [meaning, meaning, h.placeholders])
      | proj attr x =>
          rw [meaning, meaning]
          rcases h.cell?_eq x attr with heq | heq
          · exact .inl (by rw [heq]; rfl)
          · exact .inr (by rw [heq])
  | const q | str s => exact .inr rfl
  | table name v =>
      cases v with
      | base x =>
          rw [meaning, meaning, h.count]
          rcases h.tuples_eq x with heq | heq
          · exact .inl (by rw [heq]; rfl)
          · exact .inr (by rw [heq])
      | proj attr x => exact .inr rfl
  | func name ts ih =>
      rw [meaning, meaning]
      unfold World.applied?
      rcases Scalar.LessDefined.mapM_number? (members h ih) with heq | heq
      · left
        rw [heq]
        cases Operation.ofName? name.toLower <;> rfl
      · exact .inr (by rw [heq])

end Term

/-! ### Other names -/

namespace World

/-- The name that a tuple has after a renaming. -/
def renamed (source target x : String) : String := if x = source then target else x

/-- What the second world knows under the name `target` is what the first one knows under the name
`source`; the other names mean the same in both.  A tuple with the name `source` that is bound
inside a term keeps its schema. -/
structure Renames (source target : String) (w w' : World) : Prop where
  rows : w'.rows = w.rows
  count : w'.count = w.count
  schemas : ∀ x, x ≠ target → w'.schemas (renamed source target x) = w.schemas x
  tuples : ∀ x, x ≠ target → w'.tuples (renamed source target x) = w.tuples x
  placeholders : ∀ x, x ≠ target →
    w'.placeholders (renamed source target x) = w.placeholders x
  shadowed : source ≠ target → w'.schemas source = w.schemas source ∧
    w'.placeholders source = w.placeholders source

namespace Renames

variable {source target : String} {w w' : World}

theorem bind (h : Renames source target w w') {x : String} (hs : x ≠ source) (ht : x ≠ target)
    (r : ExactRow) : Renames source target (w.bind x r) (w'.bind x r) where
  rows := h.rows
  count := h.count
  schemas := h.schemas
  placeholders := h.placeholders
  shadowed := h.shadowed
  tuples y hy := by
    by_cases hyx : y = x
    · subst hyx
      simp [World.bind, renamed, hs]
    · have hne : renamed source target y ≠ x := by
        unfold renamed
        split
        · exact Ne.symm ht
        · exact hyx
      rw [tuples_bind_of_ne _ hyx, tuples_bind_of_ne _ hne]
      exact h.tuples y hy

/-- Where the old name is bound again, all names mean the same. -/
theorem bind_source (h : Renames source target w w') (hne : source ≠ target) (r : ExactRow) :
    Renames target target (w.bind source r) (w'.bind source r) := by
  have hself : ∀ x, renamed target target x = x := fun x => ite_eq_right_iff.mpr Eq.symm
  refine ⟨h.rows, h.count, fun x hx => ?_, fun x hx => ?_, fun x hx => ?_, fun h => absurd rfl h⟩
  all_goals
    rw [hself]
    by_cases hxs : x = source
  · exact hxs ▸ (h.shadowed hne).1
  · simpa [World.bind, renamed, hxs] using h.schemas x hx
  · simp [World.bind, hxs]
  · simpa [World.bind, renamed, hxs] using h.tuples x hx
  · exact hxs ▸ (h.shadowed hne).2
  · simpa [World.bind, renamed, hxs] using h.placeholders x hx

theorem cell?_eq (h : Renames source target w w') {x : String} (hx : x ≠ target) (attr : String) :
    w'.cell? (renamed source target x) attr = w.cell? x attr := by
  rw [cell?, cell?, h.tuples x hx]

theorem compareTuples?_eq (h : Renames source target w w') (kind : Pred) {x y : String}
    (hx : x ≠ target) (hy : y ≠ target) :
    w'.compareTuples? kind (renamed source target x) (renamed source target y) =
      w.compareTuples? kind x y := by
  simp only [compareTuples?, same?, h.tuples x hx, h.tuples y hy, h.schemas x hx, h.schemas y hy]

end Renames

end World

namespace Term

theorem renamed_base (source target x : String) :
    (Var.base x).renamed source target = .base (World.renamed source target x) := by
  by_cases h : x = source <;> simp [Var.renamed, World.renamed, h]

theorem renamed_proj (source target attr x : String) :
    (Var.proj attr x).renamed source target = .proj attr (World.renamed source target x) := by
  by_cases h : x = source <;> simp [Var.renamed, World.renamed, h]

theorem tuple_renamed (source target : String) (v : Var) :
    (v.renamed source target).tuple = World.renamed source target v.tuple := by
  cases v with
  | base x => rw [renamed_base]; rfl
  | proj attr x => rw [renamed_proj]; rfl

theorem mentionsAny_eq (x : String) (ts : List Term) : mentionsAny x ts = ts.any (mentions x) := by
  induction ts with
  | nil => rfl
  | cons t ts ih => rw [mentionsAny, ih, List.any_cons]

theorem tuple?_rename (source target : String) (t : Term) :
    (t.rename source target).tuple? = t.tuple?.map (World.renamed source target) := by
  cases t with
  | var v =>
      cases v with
      | base x => simp [rename, renamed_base, tuple?]
      | proj attr x => simp [rename, renamed_proj, tuple?]
  | sum vars body =>
      rw [rename]
      split <;> rfl
  | add | mul | neg | squash | pred | const | table | func | str => rfl

theorem column?_rename (source target : String) (t : Term) :
    (t.rename source target).column? =
      t.column?.map fun p => (p.1, World.renamed source target p.2) := by
  cases t with
  | var v =>
      cases v with
      | base x => simp [rename, renamed_base, column?]
      | proj attr x => simp [rename, renamed_proj, column?]
  | sum vars body =>
      rw [rename]
      split <;> rfl
  | add | mul | neg | squash | pred | const | table | func | str => rfl

/-- Renaming a tuple does not put one where a value is asked for. -/
theorem evaluable_rename (source target : String) (t : Term) :
    (t.rename source target).evaluable = t.evaluable := by
  have members : ∀ {ts : List Term},
      (∀ t ∈ ts, (t.rename source target).evaluable = t.evaluable) →
      evaluableAll (renameList source target ts) = evaluableAll ts := by
    intro ts ih
    refine evaluableAll_congr ?_
    rw [renameList_eq, List.map_map]
    exact List.map_congr_left ih
  induction t using Term.induct with
  | sum vars body ih =>
      rw [rename]
      split
      · rfl
      · rw [evaluable, evaluable, ih]
  | add ts ih | mul ts ih | func _ ts ih => rw [rename, evaluable, evaluable, members ih]
  | neg t ih | squash t ih => rw [rename, evaluable, evaluable, ih]
  | pred kind ts ih =>
      have htuples : kind.evaluates (renameList source target ts) = kind.evaluates ts := by
        refine kind.evaluates_congr ?_
        simp only [renameList_eq, List.map_map, Function.comp_def, tuple?_rename, Option.isNone_map]
      rw [rename, evaluable, evaluable, members ih, htuples]
  | var v =>
      cases v with
      | base x => rw [rename, renamed_base, evaluable, evaluable]
      | proj attr x => rw [rename, renamed_proj, evaluable, evaluable]
  | const | table | str => rfl

/-- The tuple that a term names after a renaming. -/
theorem named?_rename {source target : String} {w w' : World}
    (h : World.Renames source target w w') {t : Term} (ht : t.mentions target = false) :
    w'.named? (t.rename source target) = (w.named? t).map (World.renamed source target) := by
  rw [World.named?, World.named?, tuple?_rename]
  cases hx : t.tuple? with
  | none => rfl
  | some x =>
      rw [tuple?_eq_some.mp hx] at ht
      have hne : x ≠ target := of_decide_eq_false ht
      simp only [Option.map_some, Option.filter_some, h.placeholders x hne]
      split <;> rfl

/-- A predicate holds of renamed arguments if it holds of the arguments. -/
theorem judge_renameList {source target : String} {w w' : World}
    (h : World.Renames source target w w') (kind : Pred) {ts : List Term}
    (hts : ∀ t ∈ ts, t.mentions target = false) (values : List (Option (Scalar ℚ))) :
    w'.judge kind (renameList source target ts) values = w.judge kind ts values := by
  have hcompare : w'.compareAll? kind (renameList source target ts) values =
      w.compareAll? kind ts values := by
    have hpair : w'.pair? (renameList source target ts) =
        (w.pair? ts).map fun p =>
          (World.renamed source target p.1, World.renamed source target p.2) := by
      rcases ts with _ | ⟨a, _ | ⟨b, _ | _⟩⟩
      case cons.cons.nil =>
        simp only [List.forall_mem_cons] at hts
        simp only [renameList, World.pair?, named?_rename h hts.1, named?_rename h hts.2.1]
        cases w.named? a <;> cases w.named? b <;> rfl
      all_goals rfl
    have htuples : ∀ p, w.pair? ts = some p →
        w'.compareTuples? kind (World.renamed source target p.1) (World.renamed source target p.2) =
          w.compareTuples? kind p.1 p.2 := by
      intro p hp
      obtain ⟨rfl, _⟩ := World.pair?_eq_some hp
      simp only [List.forall_mem_cons] at hts
      exact h.compareTuples?_eq kind (of_decide_eq_false hts.1) (of_decide_eq_false hts.2.1)
    unfold World.compareAll?
    rw [hpair]
    cases hp : w.pair? ts with
    | none => rfl
    | some p => exact htuples p hp
  cases kind with
  | isNull =>
      rcases ts with _ | ⟨t, _ | _⟩
      · rfl
      · simp only [renameList, World.judge, column?_rename]
        cases ht : t.column? with
        | none => rfl
        | some p =>
            rw [column?_eq_some.mp ht, List.forall_mem_singleton] at hts
            have hp : p.2 ≠ target := of_decide_eq_false hts
            simp only [Option.map_some, Option.bind_some, h.cell?_eq hp]
      · rfl
  | named name => rfl
  | eq | ne | lt | le | gt | ge => exact hcompare

/-- The meaning of a term in which a tuple is renamed.  The new name does not occur in the term. -/
theorem meaning_rename {source target : String} (t : Term)
    (hbound : ∀ b ∈ t.boundVars, b.var.tuple ≠ target) (hfree : t.mentions target = false)
    {w w' : World} (h : World.Renames source target w w') :
    (t.rename source target).meaning w' = t.meaning w := by
  have members : ∀ {ts : List Term} {source : String} {w w' : World},
      World.Renames source target w w' → (∀ b ∈ ts.flatMap boundVars, b.var.tuple ≠ target) →
      mentionsAny target ts = false →
      (∀ t ∈ ts, ∀ {source : String}, (∀ b ∈ t.boundVars, b.var.tuple ≠ target) →
        t.mentions target = false → ∀ {w w' : World}, World.Renames source target w w' →
        (t.rename source target).meaning w' = t.meaning w) →
      meanings (renameList source target ts) w' = meanings ts w := by
    intro ts source w w' h hbound hfree ih
    rw [mentionsAny_eq, List.any_eq_false] at hfree
    rw [meanings_eq_map, meanings_eq_map, renameList_eq, List.map_map]
    refine List.map_congr_left fun t ht => ih t ht (fun b hb => ?_) (by simpa using hfree t ht) h
    exact hbound b (List.mem_flatMap.mpr ⟨t, ht, hb⟩)
  induction t using Term.induct generalizing source w w' with
  | sum vars body ih =>
      rw [boundVars_sum, List.forall_mem_append] at hbound
      have htarget : ∀ v ∈ vars.toList, v.tuple ≠ target :=
        fun v hv => hbound.1 _ (OpenSum.mem_ofBinder_self hv)
      rw [mentions, bound_eq_false htarget] at hfree
      have key : ∀ {source : String} {w w' : World}, (∀ v ∈ vars.toList, v.tuple ≠ source) →
          World.Renames source target w w' →
          (Term.sum vars (body.rename source target)).meaning w' =
            (Term.sum vars body).meaning w := by
        intro source w w' hsource h
        have htables : ∀ v ∈ vars.toList,
            (body.rename source target).tableOf? v.tuple = body.tableOf? v.tuple :=
          fun v hv => tableOf?_rename (hsource v hv) (htarget v hv) body
        have hranges : w'.ranges vars (body.rename source target) = w.ranges vars body := by
          refine List.map_congr_left fun v hv => ?_
          rw [htables v hv, h.rows]
        have hall : (∀ v ∈ vars.toList, ((body.rename source target).tableOf? v.tuple).isSome) ↔
            ∀ v ∈ vars.toList, (body.tableOf? v.tuple).isSome :=
          forall₂_congr fun v hv => by rw [htables v hv]
        rw [meaning, meaning, World.summation, World.summation, hranges]
        simp only [hall]
        split
        · refine congrArg Scalar.ofNumber (World.total_rel (Q := World.Renames source target)
            World.sum_of_forall₂_eq ?_ ?_ h).symm
          · intro range hrange r w w' hw
            obtain ⟨v, hv, rfl⟩ := List.mem_map.mp hrange
            exact hw.bind (hsource v hv) (htarget v hv) r
          · exact fun w w' hw => congrArg Scalar.toNumber (ih hbound.2 hfree hw).symm
        · rfl
      rw [rename]
      split
      · -- The summation binds the old name again, so what it stood for outside does not matter.
        next hsource =>
          obtain ⟨v, hv, heq⟩ := List.any_eq_true.mp hsource
          obtain rfl := of_decide_eq_true heq
          have hrebound : ∀ w : World, (Term.sum vars body).meaning (w.bind v.tuple fun _ => none) =
              (Term.sum vars body).meaning w := by
            intro w
            rw [meaning, meaning, World.summation, World.summation]
            have hmem : v.tuple ∈ (w.ranges vars body).map Prod.fst := by
              rw [World.ranges, List.map_map]
              exact List.mem_map_of_mem hv
            exact congrArg Scalar.ofNumber (if_congr Iff.rfl (World.total_bind _ hmem w _) rfl)
          have := key htarget (h.bind_source (htarget v hv) fun _ => none)
          rwa [rename_self, hrebound, hrebound] at this
      · next hsource =>
          refine key (fun v hv heq => hsource (List.any_eq_true.mpr ⟨v, hv, decide_eq_true heq⟩)) h
  | add ts ih | mul ts ih | func _ ts ih =>
      rw [boundVars, forest, flatten_nodes_forestAll] at hbound
      simp only [rename, meaning, members h hbound hfree ih]
  | neg t ih | squash t ih => simp only [rename, meaning, ih hbound hfree h]
  | pred kind ts ih =>
      rw [boundVars_pred] at hbound
      have hargs : ∀ t ∈ ts, t.mentions target = false := by
        rw [mentions, mentionsAny_eq, List.any_eq_false] at hfree
        exact fun t ht => by simpa using hfree t ht
      simp only [rename, meaning, members h hbound hfree ih, judge_renameList h kind hargs]
  | var v =>
      have hv : v.tuple ≠ target := of_decide_eq_false hfree
      cases v with
      | base x => simp only [rename, renamed_base, meaning, h.placeholders x hv]
      | proj attr x => simp only [rename, renamed_proj, meaning, h.cell?_eq (x := x) hv]
  | const q | str s => rfl
  | table name v =>
      have hv : v.tuple ≠ target := of_decide_eq_false hfree
      cases v with
      | base x => simp only [rename, renamed_base, meaning, h.tuples x hv, h.count]
      | proj attr x => simp only [rename, renamed_proj, meaning]

end Term

/-! ### Taking a variable out of a summation -/

/-- A tuple with a row that does not occur in the table that a term puts it in makes the term
zero. -/
theorem Term.number_of_count_eq_zero {t : Term} {x name : String} (ht : t.tableOf? x = some name)
    {w : World} {r : ExactRow} (hx : w.tuples x = some r) (hr : w.count name r = 0) :
    t.number w = 0 := by
  induction t using Term.induct with
  | mul ts ih =>
      rw [tableOf?] at ht
      rw [number, meaning, Scalar.toNumber_ofNumber, meanings_eq_map, List.map_map]
      apply List.prod_eq_zero
      induction ts with
      | nil => cases ht
      | cons t ts ihs =>
          rw [List.forall_mem_cons] at ih
          rw [tableOfAny?, Option.or_eq_some_iff] at ht
          rcases ht with ht | ⟨_, ht⟩
          · exact List.mem_cons.mpr (.inl (ih.1 ht).symm)
          · exact List.mem_cons_of_mem _ (ihs ih.2 ht)
  | table name v =>
      cases v with
      | base y =>
          rw [tableOf?] at ht
          split at ht
          · next hy =>
              obtain rfl := Option.some.inj ht
              simp [number, hy, hx, hr]
          · cases ht
      | proj attr y => cases ht
  | sum | add | neg | squash | pred | var | const | func | str => cases ht

/-- The world in which a new tuple with a schema is bound to a row. -/
def World.enter (w : World) (x : String) (schema : Option Schema) (r : ExactRow) : World :=
  { w with
    schemas := Function.update w.schemas x schema
    tuples := Function.update w.tuples x (some r) }

namespace OpenSum

/-- The number that a summation stands for, if it stands for one. -/
def number (s : OpenSum) (w : World) : WithTop ℚ := (Term.sum s.vars s.body).number w

theorem number_eq (s : OpenSum) (w : World) :
    s.number w = w.summation s.vars s.body s.body.number := by
  rw [number, Term.number, Term.meaning, Scalar.toNumber_ofNumber]
  rfl

/-- A summation without one of its variables. -/
def without (s : OpenSum) (v : Var) : Term :=
  if (s.vars.erase v).isEmpty then s.body else .sum (s.vars.erase v) s.body

variable {s : OpenSum} {v : Var} {tuple : String}

theorem bound_erase (hne : ∀ u ∈ s.vars, u ≠ v → u.tuple ≠ v.tuple) :
    Term.bound v.tuple (s.vars.erase v) = false := by
  refine Term.bound_eq_false fun u hu => ?_
  obtain ⟨hu, huv⟩ := VarSet.mem_erase.mp hu
  exact hne u hu huv

/-- What is left below a layer is the summation without a variable, which gets the name of the tuple
of the layer. -/
theorem rest_eq_rename (hne : ∀ u ∈ s.vars, u ≠ v → u.tuple ≠ v.tuple) (tuple : String) :
    s.rest (some v) tuple = (s.without v).rename v.tuple tuple := by
  rw [rest_some, without]
  split
  · rfl
  · rw [Term.rename, if_neg (by simp [bound_erase hne])]

theorem boundVars_without {b : BoundVar} (h : b ∈ (s.without v).boundVars) :
    b ∈ s.boundVars := by
  rw [without] at h
  split at h
  · exact List.mem_append_right _ h
  · rw [Term.boundVars_sum] at h
    refine List.mem_append.mpr ((List.mem_append.mp h).imp_left fun hb => ?_)
    obtain ⟨hb, htable⟩ := mem_ofBinder.mp hb
    exact mem_ofBinder.mpr ⟨(VarSet.mem_erase.mp hb).1, htable⟩

/-- What is left below a layer, in terms of the name that the tuple had. -/
theorem number_rest_of_renames (hne : ∀ u ∈ s.vars, u ≠ v → u.tuple ≠ v.tuple)
    (hfresh : ∀ b ∈ s.boundVars, b.var.tuple ≠ tuple) (hfree : s.body.mentions tuple = false)
    {w w' : World} (h : World.Renames v.tuple tuple w w') :
    (s.rest (some v) tuple).number w' = (s.without v).number w := by
  have hmentions : (s.without v).mentions tuple = false := by
    rw [without]
    split
    · exact hfree
    · rw [Term.mentions, hfree, Bool.and_false]
  rw [Term.number, rest_eq_rename hne,
    Term.meaning_rename _ (fun b hb => hfresh b (boundVars_without hb)) hmentions h, Term.number]

theorem number_rest (h : s.Admits tuple) (hv : v ∈ s.vars) (hfree : s.body.mentions tuple = false)
    {w : World} (hp : w.placeholders tuple = w.placeholders v.tuple) (r : ExactRow) :
    (s.rest (some v) tuple).number (w.enter tuple (w.schemas v.tuple) r) =
      (s.without v).number (w.bind v.tuple r) := by
  have hrenames : World.Renames v.tuple tuple (w.bind v.tuple r)
      (w.enter tuple (w.schemas v.tuple) r) := by
    refine ⟨rfl, rfl, fun x hx => ?_, fun x hx => ?_, fun x hx => ?_, fun hne => ⟨?_, rfl⟩⟩
    · by_cases hxv : x = v.tuple <;> simp [World.renamed, World.enter, World.bind, hxv, hx]
    · by_cases hxv : x = v.tuple <;> simp [World.renamed, World.enter, World.bind, hxv, hx]
    · by_cases hxv : x = v.tuple <;> simp [World.renamed, World.enter, World.bind, hxv, hp]
    · simp [World.enter, World.bind, hne]
  exact number_rest_of_renames (fun _ => h.ne_of_mem_vars hv) h.fresh hfree hrenames

/-- The number of a summation without a variable is the total over the other variables. -/
theorem number_without (hall : ∀ u ∈ s.vars.toList, (s.body.tableOf? u.tuple).isSome) (w : World) :
    (s.without v).number w = w.total s.body.number (w.ranges (s.vars.erase v) s.body) := by
  rw [without]
  split
  · next hempty =>
      rw [World.ranges, List.isEmpty_iff.mp hempty]
      rfl
  · rw [Term.number, Term.meaning, Scalar.toNumber_ofNumber, World.summation, if_pos]
    · rfl
    · exact fun u hu => hall u (VarSet.mem_erase.mp hu).1

/-- A variable can be taken out of a summation whose variables belong to different tuples: the
summation without it is added up over its rows. -/
theorem number_eq_sum_without (hnodup : (s.vars.toList.map Var.tuple).Nodup) (hv : v ∈ s.vars)
    (hall : ∀ u ∈ s.vars.toList, (s.body.tableOf? u.tuple).isSome) {name : String}
    (hname : s.body.tableOf? v.tuple = some name) (w : World) :
    s.number w = ((w.rows name).map fun r => (s.without v).number (w.bind v.tuple r)).sum := by
  have hperm : (w.ranges s.vars s.body).Perm
      ((v.tuple, w.rows name) :: w.ranges (s.vars.erase v) s.body) := by
    have herase : (s.vars.erase v).toList = s.vars.toList.erase v := by
      rw [s.vars.nodup.erase_eq_filter]
      exact List.filter_congr fun u _ => by simp [bne, beq_eq_decide]
    have := (List.perm_cons_erase hv).map fun u : Var =>
      (u.tuple, (s.body.tableOf? u.tuple).elim [] w.rows)
    rwa [List.map_cons, hname, ← herase] at this
  have hranges : ((w.ranges s.vars s.body).map Prod.fst).Nodup := by
    rw [World.ranges, List.map_map]
    exact hnodup
  rw [number_eq, World.summation, if_pos hall, World.total_perm _ hperm hranges, World.total]
  refine congrArg List.sum (List.map_congr_left fun r _ => ?_)
  rw [number_without hall]
  rfl

/-- A variable can be taken out of a summation: what is left of it below a layer, with the tuple of
the layer bound to a row, is added up over the rows of the variable. -/
theorem number_eq_sum_rest (h : s.Admits tuple) (hv : v ∈ s.vars)
    (hall : ∀ u ∈ s.vars.toList, (s.body.tableOf? u.tuple).isSome) {name : String}
    (hname : s.body.tableOf? v.tuple = some name) (hfree : s.body.mentions tuple = false)
    {w : World} (hp : w.placeholders tuple = w.placeholders v.tuple) :
    s.number w = ((w.rows name).map fun r =>
      (s.rest (some v) tuple).number (w.enter tuple (w.schemas v.tuple) r)).sum := by
  have hnodup : (s.vars.toList.map Var.tuple).Nodup := by
    have := h.nodup
    rw [boundVars, List.map_append, List.nodup_append, BoundVar.ofBinder, List.map_map] at this
    exact this.1
  rw [number_eq_sum_without hnodup hv hall hname]
  exact congrArg List.sum (List.map_congr_left fun r _ => (number_rest h hv hfree hp r).symm)

/-- A row that does not occur in the table of a variable counts for nothing. -/
theorem number_rest_of_count_eq_zero (h : s.Admits tuple) (hv : v ∈ s.vars)
    (hall : ∀ u ∈ s.vars.toList, (s.body.tableOf? u.tuple).isSome) {name : String}
    (hname : s.body.tableOf? v.tuple = some name) (hfree : s.body.mentions tuple = false)
    {w : World} (hp : w.placeholders tuple = w.placeholders v.tuple) {r : ExactRow}
    (hr : w.count name r = 0) :
    (s.rest (some v) tuple).number (w.enter tuple (w.schemas v.tuple) r) = 0 := by
  rw [number_rest h hv hfree hp, number_without hall]
  refine World.total_eq_zero (P := fun w => w.tuples v.tuple = some r ∧ w.count name r = 0) ?_
    (fun w hw => Term.number_of_count_eq_zero hname hw.1 hw.2) ⟨by simp [World.bind], hr⟩
  intro range hrange q w hw
  obtain ⟨u, hu, rfl⟩ := List.mem_map.mp hrange
  obtain ⟨hu, hne⟩ := VarSet.mem_erase.mp hu
  refine ⟨?_, hw.2⟩
  rw [World.tuples_bind_of_ne _ (h.ne_of_mem_vars hv hu hne).symm]
  exact hw.1

end OpenSum

end BagEquiv
