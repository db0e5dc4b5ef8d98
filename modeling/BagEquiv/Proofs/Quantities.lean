/-
**Symbols identified by their names.**

The parts of a symbol's name are put together with a point or an exclamation mark, and they are
arbitrary texts.  A name can be read back, at its last exclamation mark and at the first point
behind it; what is read is what the symbol stands for as long as tuples are called by clean names
and columns by names without exclamation marks.  Tables may have any name.  Beyond that two things
can share a symbol: a column of one tuple can be taken for a column of another one, and then two
terms with different values have a formula that no assignment satisfies.

Main definition:

* `Quantity` — what a symbol of a tuple stands for, and its name.

Main result:

* `Quantity.name_eq_name_iff` — **readable quantities have different names**.
-/

import BagEquiv.Encoder.Layers
import BagEquiv.Valuation
import BagEquiv.Proofs.FormulaValue
import BagEquiv.Proofs.SymbolNames

set_option autoImplicit false

namespace BagEquiv

/-! ### Cutting texts -/

/-- What stands before and behind the first occurrence of a character. -/
def cut (c : Char) : List Char → Option (List Char × List Char)
  | [] => none
  | d :: ds => if d = c then some ([], ds) else (cut c ds).map fun (xs, ys) => (d :: xs, ys)

/-- What stands before and behind the last occurrence of a character. -/
def cutLast (c : Char) (cs : List Char) : Option (List Char × List Char) :=
  (cut c cs.reverse).map fun (xs, ys) => (ys.reverse, xs.reverse)

theorem cut_eq_none_iff {c : Char} {cs : List Char} : cut c cs = none ↔ c ∉ cs := by
  induction cs with
  | nil => simp [cut]
  | cons d ds ih =>
      rw [cut, List.mem_cons, not_or, ← ih]
      split
      · next hd => simp [hd]
      · next hd => simp [Ne.symm hd]

theorem cut_eq_some_iff {c : Char} {cs xs ys : List Char} :
    cut c cs = some (xs, ys) ↔ cs = xs ++ c :: ys ∧ c ∉ xs := by
  induction cs generalizing xs with
  | nil => simp [cut]
  | cons d ds ih =>
      rw [cut]
      split
      · next hd =>
          subst hd
          cases xs <;> simp +contextual
      · next hd =>
          rw [Option.map_eq_some_iff]
          constructor
          · rintro ⟨⟨xs', ys'⟩, hcut, heq⟩
            obtain ⟨rfl, rfl⟩ := Prod.mk.inj heq
            obtain ⟨rfl, hc⟩ := ih.mp hcut
            exact ⟨rfl, List.not_mem_cons_of_ne_of_not_mem (Ne.symm hd) hc⟩
          · rintro ⟨heq, hc⟩
            cases xs with
            | nil => exact absurd (List.cons.inj heq).1 hd
            | cons x xs =>
                obtain ⟨rfl, rfl⟩ := List.cons.inj heq
                exact ⟨(xs, ys), ih.mpr ⟨rfl, fun h => hc (List.mem_cons_of_mem _ h)⟩, rfl⟩

theorem cutLast_eq_none_iff {c : Char} {cs : List Char} : cutLast c cs = none ↔ c ∉ cs := by
  rw [cutLast, Option.map_eq_none_iff, cut_eq_none_iff, List.mem_reverse]

theorem cutLast_eq_some_iff {c : Char} {cs xs ys : List Char} :
    cutLast c cs = some (xs, ys) ↔ cs = xs ++ c :: ys ∧ c ∉ ys := by
  rw [cutLast, Option.map_eq_some_iff]
  constructor
  · rintro ⟨⟨ps, qs⟩, hcut, heq⟩
    obtain ⟨rfl, rfl⟩ := Prod.mk.inj heq
    obtain ⟨hcs, hc⟩ := cut_eq_some_iff.mp hcut
    refine ⟨?_, by simpa using hc⟩
    rw [← List.reverse_inj, hcs]
    simp
  · rintro ⟨rfl, hc⟩
    refine ⟨(ys.reverse, xs.reverse), cut_eq_some_iff.mpr ⟨by simp, by simpa using hc⟩, by simp⟩

/-- The parts of a column's name, if the tuple has no point in its name. -/
theorem columnName_inj {x y a b : String} (hx : '.' ∉ x.toList) (hy : '.' ∉ y.toList) :
    columnName x a = columnName y b ↔ x = y ∧ a = b := by
  refine ⟨fun h => ?_, fun h => h.1 ▸ h.2 ▸ rfl⟩
  have hcut := cut_eq_some_iff.mpr ⟨Symbol.toList_columnName x a, hx⟩
  rw [h, cut_eq_some_iff.mpr ⟨Symbol.toList_columnName y b, hy⟩, Option.some.injEq,
    Prod.mk.injEq, String.toList_inj, String.toList_inj] at hcut
  exact ⟨hcut.1.symm, hcut.2.symm⟩

/-! ### Quantities and their names -/

/-- What a symbol of a tuple stands for. -/
inductive Quantity where
  /-- The value of a column. -/
  | column (tuple attr : String)
  /-- The number of times that the tuple is in a table. -/
  | count (table tuple : String)
  /-- Whether a column is null. -/
  | null (tuple attr : String)
  /-- Whether a column passes a test. -/
  | test (test tuple attr : String)
deriving DecidableEq

namespace Quantity

def name : Quantity → String
  | .column x a => columnName x a
  | .count table x => countName table x
  | .null x a => nullName x a
  | .test p x a => (Encoder.testFlag p x a).name

/-- The parts can be told from the name: the tuple has a clean name, and its column one without
exclamation marks.  The test for null has a name of its own. -/
def Readable : Quantity → Prop
  | .column x a => Clean x ∧ '!' ∉ a.toList
  | .count _ x => Clean x
  | .null x a => Clean x ∧ '!' ∉ a.toList
  | .test p x a => p ≠ "isnull" ∧ Clean x ∧ '!' ∉ a.toList

instance : (q : Quantity) → Decidable q.Readable
  | .column _ _ => inferInstanceAs (Decidable (_ ∧ _))
  | .count _ x => inferInstanceAs (Decidable (Clean x))
  | .null _ _ => inferInstanceAs (Decidable (_ ∧ _))
  | .test _ _ _ => inferInstanceAs (Decidable (_ ∧ _ ∧ _))

/-- A test of a column, of which the test for null is one. -/
def ofTest (p x a : String) : Quantity := if p = "isnull" then .null x a else .test p x a

/-- What is behind the last exclamation mark is a tuple, or a column of one that is tested; without
an exclamation mark the name is that of a column. -/
def ofName? (s : String) : Option Quantity :=
  match cutLast '!' s.toList with
  | none => (cut '.' s.toList).map fun (x, a) => .column (.ofList x) (.ofList a)
  | some (front, back) =>
      match cut '.' back with
      | none => some (.count (.ofList front) (.ofList back))
      | some (x, a) => some (ofTest (.ofList front) (.ofList x) (.ofList a))

theorem name_ofTest (p x a : String) : (ofTest p x a).name = (Encoder.testFlag p x a).name := by
  unfold ofTest
  split
  · next hp =>
      subst hp
      simp [name, nullName, Encoder.testFlag, columnName, ← String.toList_inj]
  · rfl

theorem toList_name_ofTest (p x a : String) :
    (ofTest p x a).name.toList = p.toList ++ '!' :: (x.toList ++ '.' :: a.toList) := by
  rw [name_ofTest]
  simp [Encoder.testFlag, columnName]

theorem toList_countName (table x : String) :
    (countName table x).toList = table.toList ++ '!' :: x.toList := by
  simp [countName]

theorem readable_ofTest {p x a : String} :
    (ofTest p x a).Readable ↔ Clean x ∧ '!' ∉ a.toList := by
  unfold ofTest
  split
  · rfl
  · next hp => exact ⟨And.right, fun h => ⟨hp, h⟩⟩

theorem null_eq_ofTest (x a : String) : Quantity.null x a = ofTest "isnull" x a := by
  rw [ofTest, if_pos rfl]

/-! ### Reading names -/

/-- The name of a test of a column is read as that test. -/
theorem ofName?_name_ofTest {p x a : String} (h : (ofTest p x a).Readable) :
    ofName? (ofTest p x a).name = some (ofTest p x a) := by
  obtain ⟨hx, ha⟩ := readable_ofTest.mp h
  have hcut : cutLast '!' (ofTest p x a).name.toList =
      some (p.toList, x.toList ++ '.' :: a.toList) := by
    refine cutLast_eq_some_iff.mpr ⟨toList_name_ofTest p x a, ?_⟩
    simp [hx.2, ha]
  have hpoint : cut '.' (x.toList ++ '.' :: a.toList) = some (x.toList, a.toList) :=
    cut_eq_some_iff.mpr ⟨rfl, hx.1⟩
  simp [ofName?, hcut, hpoint]

theorem ofName?_name {q : Quantity} (h : q.Readable) : ofName? q.name = some q := by
  cases q with
  | column x a =>
      have hcut : cutLast '!' (columnName x a).toList = none := by
        rw [cutLast_eq_none_iff, Symbol.toList_columnName]
        simp [h.1.2, h.2]
      have hpoint : cut '.' (columnName x a).toList = some (x.toList, a.toList) :=
        cut_eq_some_iff.mpr ⟨Symbol.toList_columnName x a, h.1.1⟩
      simp [ofName?, name, hcut, hpoint]
  | count table x =>
      have hcut : cutLast '!' (countName table x).toList = some (table.toList, x.toList) :=
        cutLast_eq_some_iff.mpr ⟨toList_countName table x, h.2⟩
      have hpoint : cut '.' x.toList = none := cut_eq_none_iff.mpr h.1
      simp [ofName?, name, hcut, hpoint]
  | null x a =>
      rw [null_eq_ofTest] at h ⊢
      exact ofName?_name_ofTest h
  | test p x a =>
      have heq : Quantity.test p x a = ofTest p x a := (if_neg h.1).symm
      rw [heq] at h ⊢
      exact ofName?_name_ofTest h

theorem eq_of_name {p q : Quantity} (hp : p.Readable) (hq : q.Readable) (h : p.name = q.name) :
    p = q :=
  Option.some.inj ((ofName?_name hp).symm.trans (h ▸ ofName?_name hq))

/-- What stands for a quantity has a name with a separator in it. -/
theorem not_clean_name (q : Quantity) : ¬Clean q.name := by
  rintro ⟨hpoint, hmark⟩
  cases q with
  | column x a => exact hpoint (by simp [name, Symbol.toList_columnName])
  | count table x => exact hmark (by simp [name, toList_countName])
  | null x a => exact hmark (by simp [name, nullName])
  | test p x a => exact hmark (by simp [name, Encoder.testFlag])

/-- Readable quantities have different names, and each is read off its name. -/
theorem name_eq_name_iff {p q : Quantity} (hp : p.Readable) (hq : q.Readable) :
    (p.name = q.name ↔ p = q) ∧ ofName? p.name = some p :=
  ⟨⟨eq_of_name hp hq, congrArg name⟩, ofName?_name hp⟩

/-- A table and a column may have points in their names. -/
theorem name_eq_name_iff_points :
    (count "s.r" "x#0").name = "s.r!x#0" ∧ ofName? "s.r!x#0" = some (count "s.r" "x#0") ∧
    (null "x#0" "s.r").name ≠ (count "s.r" "x#0").name := by
  have hcount : (count "s.r" "x#0").Readable := by decide
  have hnull : (null "x#0" "s.r").Readable := by decide
  refine ⟨by decide, (name_eq_name_iff hcount hnull).2, fun h => ?_⟩
  exact absurd ((name_eq_name_iff hnull hcount).1.mp h) (by decide)

end Quantity

/-! ### Cells that share a symbol -/

/-- The rows of a table that have another value than the output.  The name of the tuple begins with
that of the output, and the name of the output's column goes on with the rest. -/
def Term.awayFromOutput : Term :=
  .sumOver ["out.x#0"] (.mul [.table "r" (.base "out.x#0"),
    .pred .ne [.attr "a" "out.x#0", .attr "x#0.a" "out"]])

/-- The schemas of the output and of the tuple. -/
def SchemaMap.entangled : SchemaMap :=
  .ofList [("out", ⟨[⟨"x#0.a", .integer⟩]⟩), ("out.x#0", ⟨[⟨"a", .integer⟩]⟩)]

/-- A table with one row, which is not the output. -/
def Database.besideOutput : Database :=
  ⟨.ofList [("r", [(.ofList [("a", .ofDatum (.int 1))], 1)])],
    .ofList [("x#0.a", .ofDatum (.int 0))]⟩

/-- The formula that there are rows other than the output. -/
def Formula.awayFromOutput : Formula :=
  .and [.not (.eq (.sym ⟨"#u0", .int⟩) .zero),
    .star [⟨"#u0", .int⟩] [⟨"#v1", .int⟩] [.left] (.eq (.sym ⟨"#v1", .int⟩) .zero)]

theorem Formula.not_holds_awayFromOutput {R : Reading} {K : Set Symbol} {ρ : Interpretation} :
    ¬awayFromOutput.Holds R K ρ := by
  intro h
  rw [awayFromOutput, holds_and, List.forall_mem_cons, List.forall_mem_singleton, holds_not,
    holds_eq, holds_star] at h
  obtain ⟨hne, σs, hσs, hsums⟩ := h
  have hcount : ∀ σ ∈ σs, σ ⟨"#v1", .int⟩ = 0 := fun σ hσ => by simpa using (hσs σ hσ).2.2
  have hsum : ρ ⟨"#u0", .int⟩ = (σs.map fun σ => σ ⟨"#v1", .int⟩).sum :=
    hsums _ List.mem_cons_self
  rw [List.map_congr_left hcount] at hsum
  exact hne (by simp [hsum])

/-- Columns, memberships and null flags can share their names, also one with the other.  Of the
rows in a table one is not the output, but the formula for that is false, since the two columns that
are compared are one symbol. -/
theorem encodePair_awayFromOutput :
    columnName "out.x#0" "a" = columnName "out" "x#0.a" ∧
    countName "r!x" "y" = countName "r" "x!y" ∧
    nullName "x.y" "a" = nullName "x" "y.a" ∧
    countName "isnull" "x.a" = nullName "x" "a" ∧
    columnName "x" "a!y" = countName "x.a" "y" ∧
    columnName "isnull!x" "a" = nullName "x" "a" ∧
    Term.awayFromOutput.valueOver .besideOutput .entangled "out" = .ok (some (1 : ℚ)) ∧
    (Term.const .zero).valueOver .besideOutput .entangled "out" = .ok (some (0 : ℚ)) ∧
    ∃ tuples, encodePair .entangled ⟨[]⟩ .unlimited .awayFromOutput (.const .zero) =
        .ok ⟨.awayFromOutput, tuples⟩ ∧
      ∀ (R : Reading) (K : Set Symbol) (ρ : Interpretation),
        ¬Formula.awayFromOutput.Holds R K ρ :=
  ⟨by decide, by decide, by decide, by decide, by decide, by decide, by decide +kernel,
    by decide +kernel, _, rfl, fun _ _ _ => Formula.not_holds_awayFromOutput⟩

end BagEquiv
