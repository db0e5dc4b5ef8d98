/-
**Counts of rows.**

A term that is made of tables, tests, sums and products counts rows, and values come up inside tests
only.  Its number is in every set of numbers that holds zero, one and the multiplicities and that no
sum or product leaves.  So in exact arithmetic it is a natural number, and in checked arithmetic it
is whole.  It is not negative either if signed words can count the rows of the tables; a row that
occurs more often is read as occurring a negative number of times.

Main definition:

* `Arithmetic.Closed` — a set of numbers that no sum or product leaves.

Main result:

* `Term.Counts.within` — **the number of a term that counts rows is in every closed set
  that the multiplicities are in**.
-/

import BagEquiv.Proofs.FractionValues
import BagEquiv.Proofs.TermAgreement

set_option autoImplicit false

namespace BagEquiv

/-! ### Closed sets of numbers -/

/-- A set of numbers with zero and one that no sum or product leaves. -/
structure Arithmetic.Closed {ν : Type} [Arithmetic ν] (S : Set ν) : Prop where
  zero : Arithmetic.zero ∈ S
  one : Arithmetic.one ∈ S
  add : ∀ {a b c : ν}, a ∈ S → b ∈ S → Arithmetic.add a b = .ok c → c ∈ S
  mul : ∀ {a b c : ν}, a ∈ S → b ∈ S → Arithmetic.mul a b = .ok c → c ∈ S

theorem Arithmetic.Closed.indicator {ν : Type} [Arithmetic ν] {S : Set ν} (hS : Closed S)
    (b : Bool) : Arithmetic.indicator b ∈ S := by
  cases b
  · exact hS.zero
  · exact hS.one

namespace Fraction

theorem toRat_of_den {q : Fraction} (h : q.den = 1) : q.toRat = q.num.toInt := by
  rw [toRat_eq, h]
  exact div_one _

/-- A reduced fraction of whole value is a whole number. -/
theorem Reduced.den_eq_one {q : Fraction} (h : q.Reduced) {n : ℤ} (hn : q.toRat = n) :
    q.den = 1 := by
  have hnum : q.num.toInt = n * q.den.toInt := by
    rw [toRat_eq, div_eq_iff q.cast_den_ne_zero] at hn
    exact_mod_cast hn
  rw [h.eq_ofWord (by rw [hnum, Int.gcd_mul_left_left, Int.natAbs_of_nonneg (le_of_lt h.positive)])]
  rfl

theorem closed_whole : Arithmetic.Closed {q : Fraction | q.den = 1} where
  zero := rfl
  one := rfl
  add {a b c} ha hb h := by
    refine (reduced_of_add h).den_eq_one (n := a.num.toInt + b.num.toInt) ?_
    rw [(add_ok h).1, toRat_of_den ha, toRat_of_den hb, Int.cast_add]
  mul {a b c} ha hb h := by
    refine (reduced_of_mul h).den_eq_one (n := a.num.toInt * b.num.toInt) ?_
    rw [(mul_ok h).1, toRat_of_den ha, toRat_of_den hb, Int.cast_mul]

theorem closed_nonneg : Arithmetic.Closed {q : Fraction | 0 ≤ q.toRat} where
  zero := toRat_zero.ge
  one := zero_le_one.trans toRat_one.ge
  add ha hb h := (add_nonneg ha hb).trans (add_ok h).1.ge
  mul ha hb h := (mul_nonneg ha hb).trans (mul_ok h).1.ge

end Fraction

theorem Arithmetic.closed_natural : Closed (Set.range (Nat.cast : ℕ → ℚ)) where
  zero := ⟨0, by rw [zero_rat, Nat.cast_zero]⟩
  one := ⟨1, by rw [one_rat, Nat.cast_one]⟩
  add := by
    rintro _ _ _ ⟨m, rfl⟩ ⟨n, rfl⟩ ⟨⟩
    exact ⟨m + n, Nat.cast_add m n⟩
  mul := by
    rintro _ _ _ ⟨m, rfl⟩ ⟨n, rfl⟩ ⟨⟩
    exact ⟨m * n, Nat.cast_mul m n⟩

/-! ### Readers -/

theorem Environment.database_bindAll (env : Environment) (choice : List (String × Row)) :
    (env.bindAll choice).database = env.database := by
  induction choice generalizing env with
  | nil => rfl
  | cons c choice ih => exact ih (env.bind c.1 c.2)

namespace Reader

theorem number?_asScalar {ν : Type} (f : Environment → Except Fault (Option ν))
    (env : Environment) :
    number? (fun env => Term.asScalar (f env)) env = f env := by
  change (do return (← Term.asScalar (f env)).bind Scalar.number?) = f env
  rcases f env with e | _ | n <;> rfl

variable {ν : Type} [Arithmetic ν] {S : Set ν} {env : Environment}

/-- A number that is computed is in the set. -/
def Within (S : Set ν) (x : Except Fault (Option ν)) : Prop := ∀ n, x = .ok (some n) → n ∈ S

theorem within_sumFrom (hS : Arithmetic.Closed S) {xs : List (Unit → Except Fault (Option ν))}
    (hxs : ∀ x ∈ xs, Within S (x ())) {total : ν} (htotal : total ∈ S) :
    Within S (sumFrom total xs) := by
  induction xs generalizing total with
  | nil =>
      rintro _ ⟨⟩
      exact htotal
  | cons x xs ih =>
      rw [List.forall_mem_cons] at hxs
      intro n hn
      obtain ⟨_ | m, hm, hn⟩ := Fault.ok_of_bind hn
      · cases hn
      · obtain ⟨total', hadd, hn⟩ := Fault.ok_of_bind hn
        exact ih hxs.2 (hS.add htotal (hxs.1 m hm) hadd) n hn

theorem within_productFrom (hS : Arithmetic.Closed S) {rs : List (Reader ν)}
    (hrs : ∀ r ∈ rs, Within S (r.number? env)) {total : ν} (htotal : total ∈ S) (unknown : Bool) :
    Within S (productFrom env total unknown rs) := by
  induction rs generalizing total unknown with
  | nil =>
      cases unknown
      · rintro _ ⟨⟩
        exact htotal
      · exact nofun
  | cons r rs ih =>
      rw [List.forall_mem_cons] at hrs
      intro n hn
      obtain ⟨_ | m, hm, hn⟩ := Fault.ok_of_bind hn
      · exact ih hrs.2 htotal true n hn
      · dsimp only at hn
        split at hn
        · cases hn
          exact hrs.1 _ hm
        · obtain ⟨total', hmul, hn⟩ := Fault.ok_of_bind hn
          exact ih hrs.2 (hS.mul htotal (hrs.1 m hm) hmul) unknown n hn

theorem within_test (hS : Arithmetic.Closed S) (condition : ν → Bool) (r : Reader ν) :
    Within S (r.test condition env) := by
  intro n hn
  obtain ⟨_ | m, hm, hn⟩ := Fault.ok_of_bind hn
  · cases hn
  · cases hn
    exact hS.indicator _

theorem within_summation (hS : Arithmetic.Closed S) {r : Reader ν}
    (hr : ∀ env', env'.database = env.database → Within S (r.number? env')) (vars : VarSet)
    (body : Term) : Within S (summation vars body r env) := by
  unfold summation
  split
  · exact nofun
  · split
    · rintro _ ⟨⟩
      exact hS.zero
    · rw [throughChoices_eq]
      refine within_sumFrom hS (List.forall_mem_map.mpr fun choice _ => ?_) hS.zero
      exact hr _ (env.database_bindAll choice)

end Reader

/-! ### Terms that count rows -/

namespace Term

/-- The term adds and multiplies multiplicities of rows in some tables, and the results of tests.
What is tested may be any term. -/
inductive Counts (tables : String → Prop) : Term → Prop
  | table {name : String} (h : tables name) (v : Var) : Counts tables (.table name v)
  | sum (vars : VarSet) {body : Term} (h : Counts tables body) : Counts tables (.sum vars body)
  | add {ts : List Term} (h : ∀ t ∈ ts, Counts tables t) : Counts tables (.add ts)
  | mul {ts : List Term} (h : ∀ t ∈ ts, Counts tables t) : Counts tables (.mul ts)
  | neg (t : Term) : Counts tables (.neg t)
  | squash (t : Term) : Counts tables (.squash t)
  | pred (kind : Pred) (args : List Term) : Counts tables (.pred kind args)

namespace Counts

variable {t : Term} {tables tables' : String → Prop}

theorem mono (h : t.Counts tables) (htables : ∀ name, tables name → tables' name) :
    t.Counts tables' := by
  induction h with
  | table h v => exact .table (htables _ h) v
  | sum vars _ ih => exact .sum vars ih
  | add _ ih => exact .add ih
  | mul _ ih => exact .mul ih
  | neg t => exact .neg t
  | squash t => exact .squash t
  | pred kind args => exact .pred kind args

/-- The number of a term that counts rows is in every closed set that the multiplicities are in. -/
theorem within {ν : Type} [Arithmetic ν] {S : Set ν} (hS : Arithmetic.Closed S) {db : Database}
    (h : t.Counts fun name => ∀ r n,
      db.multiplicityBy (Arithmetic.sameFraction ν) name r = .ok n → Arithmetic.ofCount n ∈ S)
    (env : Environment) (henv : env.database = db) : Reader.Within S (t.read.number? env) := by
  induction h generalizing env with
  | @table name h v =>
      rw [read, Reader.number?_asScalar]
      intro n hn
      unfold Reader.membership at hn
      split at hn
      · split at hn
        · cases hn
        · obtain ⟨count, hcount, hn⟩ := Fault.ok_of_bind hn
          cases hn
          exact h _ _ (henv ▸ hcount)
      · cases hn
  | sum vars _ ih =>
      rw [read, Reader.number?_asScalar]
      exact Reader.within_summation hS (fun env' henv' => ih env' (henv'.trans henv)) vars _
  | add _ ih =>
      rw [read, Reader.number?_asScalar, readAll_eq_map, Reader.addition]
      refine Reader.within_sumFrom hS ?_ hS.zero
      exact List.forall_mem_map.mpr (List.forall_mem_map.mpr fun t ht => ih t ht env henv)
  | mul _ ih =>
      rw [read, Reader.number?_asScalar, readAll_eq_map]
      exact Reader.within_productFrom hS (List.forall_mem_map.mpr fun t ht => ih t ht env henv)
        hS.one false
  | neg t | squash t =>
      rw [read, Reader.number?_asScalar]
      exact Reader.within_test hS _ _
  | pred kind args =>
      intro n hn
      obtain ⟨s, hs, hn⟩ := Fault.ok_of_bind hn
      obtain ⟨_ | b, -, hs⟩ := Fault.ok_of_bind hs
      · cases hs
        cases hn
      · cases hs
        cases hn
        exact hS.indicator b

theorem twoRows {tables : String → Prop} (h : tables "r") (x y : String) (bound : Fraction) :
    (Term.twoRows x y bound).Counts tables := by
  refine .sum _ (.mul ?_)
  simp only [List.forall_mem_cons, List.not_mem_nil, false_implies, implies_true, and_true]
  exact ⟨.table h _, .table h _, .pred _ _⟩

/-- The number of a term that counts rows is natural in exact arithmetic.  In checked arithmetic it
is whole, and it is not negative if signed words can count the rows of the tables. -/
theorem valueOver_natural (h : t.Counts fun _ => True) (db : Database) (schemas : SchemaMap)
    (output : String) :
    (∀ q : Fraction, t.valueOver db schemas output = .ok (some q) → q.den = 1 ∧
      (t.Counts (fun name => ∀ r, (db.multiplicity name r).toNat < 2 ^ 63) → 0 ≤ q.num.toInt)) ∧
    ∀ q : ℚ, t.valueOver db schemas output = .ok (some q) → ∃ n : ℕ, q = n := by
  refine ⟨fun q hq => ?_, fun q hq => ?_⟩
  · have hwhole : q.den = 1 :=
      (h.mono fun _ _ _ _ _ => rfl).within Fraction.closed_whole _ rfl q hq
    refine ⟨hwhole, fun hcounts => ?_⟩
    have hnonneg : 0 ≤ q.toRat := by
      refine (hcounts.mono fun name hname r n hn => ?_).within Fraction.closed_nonneg _ rfl q hq
      obtain rfl := Table.multiplicity_of_multiplicityBy
        (fun _ _ _ => Fraction.Checked.same_of_ok) hn
      exact (Nat.cast_nonneg (α := ℚ) _).trans (Fraction.stands_ofCount (hname r)).value.le
    rw [Fraction.toRat_of_den hwhole] at hnonneg
    exact_mod_cast hnonneg
  · have hnatural : q ∈ Set.range Nat.cast :=
      (h.mono fun _ _ _ n _ => ⟨n.toNat, rfl⟩).within Arithmetic.closed_natural _ rfl q hq
    obtain ⟨n, rfl⟩ := hnatural
    exact ⟨n, rfl⟩

theorem valueOver_natural_twoRows :
    (Term.twoRows "x" "y" (.ofWord 2)).valueOver .threeRows .uniform "out" =
      .ok (some (Fraction.ofWord 9)) ∧ 0 ≤ (Fraction.ofWord 9).num.toInt := by
  have hvalue : (Term.twoRows "x" "y" (.ofWord 2)).valueOver .threeRows .uniform "out" =
      .ok (some (Fraction.ofWord 9)) := by
    decide +kernel
  refine ⟨hvalue, ((valueOver_natural (twoRows trivial _ _ _) _ _ _).1 _ hvalue).2 ?_⟩
  refine twoRows (fun r => Table.multiplicity_lt (by decide) ?_ r) _ _ _
  decide +kernel

/-- A row that occurs more often than a signed word can count is counted by a negative number. -/
theorem valueOver_manyRows :
    (Term.table "r" (.base "out")).Counts (fun _ => True) ∧
      (Term.table "r" (.base "out")).valueOver .manyRows .uniform "out" =
        .ok (some (Fraction.ofWord Int64.minValue)) ∧
      (Fraction.ofWord Int64.minValue).toRat < 0 ∧
      (Term.table "r" (.base "out")).valueOver .manyRows .uniform "out" =
        .ok (some (2 ^ 63 : ℚ)) := by
  refine ⟨.table trivial _, ?_, ?_, ?_⟩
  · decide +kernel
  · rw [Fraction.toRat_ofWord]
    decide +kernel
  · decide +kernel

end Counts

end Term

end BagEquiv
