/-
**Databases.**

A table is a list of rows, each with the number of times it occurs.

Main definitions:

* `Cell`, `Row` — the cells of a row, by column;
* `Row.same`, `Row.sameBy` — agreement of rows, exactly and with a test for
  fractions that may fail;
* `Table` — rows with multiplicities: `insert`, `rows`, `multiplicity`.

Main result:

* `Table.toNat_multiplicity_insert` — **inserting copies of a row raises the
  multiplicities of the rows equal to it, and no others**.
-/

import BagEquiv.Datum
import BagEquiv.NameMap
import BagEquiv.Text
import BagEquiv.Word

set_option autoImplicit false

namespace BagEquiv

/-- A value and, apart from it, whether the column is null.  Comparisons of columns see the value
only.  The flag is seen by the test for null, and where whole rows are compared. -/
structure Cell where
  value : Datum
  null : Bool
deriving DecidableEq

namespace Cell

/-- A cell that is not null. -/
def ofDatum (d : Datum) : Cell := ⟨d, false⟩

def text (c : Cell) : String := if c.null then "NULL" else c.value.text

def same (a b : Cell) : Bool := a.value.same b.value && a.null == b.null

theorem same_refl (a : Cell) : a.same a = true := by
  simp [same, Datum.same_refl]

theorem same_symm {a b : Cell} (h : a.same b = true) : b.same a = true := by
  simp only [same, Bool.and_eq_true, beq_iff_eq] at h ⊢
  exact ⟨Datum.same_symm h.1, h.2.symm⟩

theorem same_trans {a b c : Cell} (h : a.same b = true) (h' : b.same c = true) :
    a.same c = true := by
  simp only [same, Bool.and_eq_true, beq_iff_eq] at h h' ⊢
  exact ⟨Datum.same_trans h.1 h'.1, h.2.trans h'.2⟩

/-- Agreement of cells, with fractions compared by `test`.  The flags are compared first. -/
def sameBy (test : Fraction → Fraction → Except Fault Bool) (a b : Cell) : Except Fault Bool :=
  if a.null = b.null then a.value.sameBy test b.value else .ok false

theorem same_of_sameBy {test : Fraction → Fraction → Except Fault Bool}
    (ht : ∀ p q r, test p q = .ok r → p.same q = r) {a b : Cell} {r : Bool}
    (h : sameBy test a b = .ok r) : a.same b = r := by
  rw [same, Bool.and_comm]
  exact Fault.and_of_ok h (Datum.same_of_sameBy ht)

end Cell

/-- The cells of a row, by column. -/
abbrev Row := NameMap Cell

namespace Row

def text (r : Row) : String :=
  "(" ++ ", ".intercalate (r.entries.map fun (name, c) => name ++ ": " ++ c.text) ++ ")"

/-- Whether two lists of cells agree in order. -/
def sameEntries : List (String × Cell) → List (String × Cell) → Bool
  | [], [] => true
  | (m, a) :: as, (n, b) :: bs => m == n && a.same b && sameEntries as bs
  | _, _ => false

theorem sameEntries_refl : ∀ as : List (String × Cell), sameEntries as as = true
  | [] => rfl
  | (m, a) :: as => by simp [sameEntries, Cell.same_refl, sameEntries_refl as]

theorem sameEntries_symm : ∀ {as bs : List (String × Cell)},
    sameEntries as bs = true → sameEntries bs as = true
  | [], [], _ => rfl
  | (m, a) :: as, (n, b) :: bs, h => by
      simp only [sameEntries, Bool.and_eq_true, beq_iff_eq] at h ⊢
      exact ⟨⟨h.1.1.symm, Cell.same_symm h.1.2⟩, sameEntries_symm h.2⟩

theorem sameEntries_trans : ∀ {as bs cs : List (String × Cell)},
    sameEntries as bs = true → sameEntries bs cs = true → sameEntries as cs = true
  | [], [], [], _, _ => rfl
  | (m, a) :: as, (n, b) :: bs, (k, c) :: cs, h, h' => by
      simp only [sameEntries, Bool.and_eq_true, beq_iff_eq] at h h' ⊢
      exact ⟨⟨h.1.1.trans h'.1.1, Cell.same_trans h.1.2 h'.1.2⟩, sameEntries_trans h.2 h'.2⟩

/-- Whether two rows have the same columns with the same cells. -/
def same (a b : Row) : Bool := sameEntries a.entries b.entries

theorem same_refl (a : Row) : same a a = true := sameEntries_refl a.entries

theorem same_symm {a b : Row} (h : same a b = true) : same b a = true := sameEntries_symm h

theorem same_trans {a b c : Row} (h : same a b = true) (h' : same b c = true) :
    same a c = true := sameEntries_trans h h'

/-- Equal rows agree with the same rows. -/
theorem same_congr {a b : Row} (h : same a b = true) (c : Row) : same a c = same b c := by
  rw [Bool.eq_iff_iff]
  exact ⟨same_trans (same_symm h), same_trans h⟩

/-- Whether two lists of cells agree in order, with fractions compared by `test`; the lists are
compared up to the first difference. -/
def sameEntriesBy (test : Fraction → Fraction → Except Fault Bool) :
    List (String × Cell) → List (String × Cell) → Except Fault Bool
  | [], [] => .ok true
  | (m, a) :: as, (n, b) :: bs =>
      if m = n then do
        if ← a.sameBy test b then sameEntriesBy test as bs else return false
      else .ok false
  | _, _ => .ok false

/-- Whether two rows have the same columns with the same cells, with fractions compared by `test`.
Rows with different numbers of columns are told apart at once. -/
def sameBy (test : Fraction → Fraction → Except Fault Bool) (a b : Row) : Except Fault Bool :=
  if a.entries.length = b.entries.length then sameEntriesBy test a.entries b.entries
  else .ok false

theorem sameEntries_eq_and : ∀ as bs : List (String × Cell),
    sameEntries as bs = (decide (as.length = bs.length) && sameEntries as bs)
  | [], [] => rfl
  | [], _ :: _ => rfl
  | _ :: _, [] => rfl
  | (m, a) :: as, (n, b) :: bs => by
      rw [sameEntries, sameEntries_eq_and as bs]
      cases m == n && a.same b <;> simp

theorem sameEntries_of_sameEntriesBy {test : Fraction → Fraction → Except Fault Bool}
    (ht : ∀ p q r, test p q = .ok r → p.same q = r) : ∀ (as bs : List (String × Cell)) (r : Bool),
    sameEntriesBy test as bs = .ok r → sameEntries as bs = r
  | [], [], r, h => by
      cases h
      rfl
  | [], _ :: _, r, h => by
      cases h
      rfl
  | _ :: _, [], r, h => by
      cases h
      rfl
  | (m, a) :: as, (n, b) :: bs, r, h => by
      rw [sameEntries, Bool.and_assoc]
      refine Fault.and_of_ok h fun h => ?_
      obtain ⟨c, hc, h⟩ := Fault.ok_of_bind h
      rw [Cell.same_of_sameBy ht hc]
      cases c with
      | true => exact sameEntries_of_sameEntriesBy ht as bs r h
      | false => cases h; rfl

/-- A comparison of rows that succeeds is right. -/
theorem same_of_sameBy {test : Fraction → Fraction → Except Fault Bool}
    (ht : ∀ p q r, test p q = .ok r → p.same q = r) {a b : Row} {r : Bool}
    (h : sameBy test a b = .ok r) : same a b = r := by
  rw [same, sameEntries_eq_and]
  exact Fault.and_of_ok h (sameEntries_of_sameEntriesBy ht _ _ r)

end Row

/-- Rows and the number of times they occur. -/
abbrev Table := List (Row × UInt64)

namespace Table

def rows (t : Table) : List Row := t.map Prod.fst

/-- How often the first entry of a row says that it occurs. -/
def multiplicity (r : Row) : Table → UInt64
  | [] => 0
  | (q, n) :: rest => if q.same r then n else multiplicity r rest

/-- The same, with fractions compared by `test`. -/
def multiplicityBy (test : Fraction → Fraction → Except Fault Bool) (r : Row) :
    Table → Except Fault UInt64
  | [] => .ok 0
  | (q, n) :: rest => do if ← q.sameBy test r then return n else multiplicityBy test r rest

/-- More copies of a row, at its first entry or, without one, at a new entry at the end. -/
def insert (r : Row) (n : UInt64) : Table → Except Fault Table
  | [] => .ok [(r, n)]
  | (q, m) :: rest => do
      if ← q.sameBy Fraction.Checked.same r then return (q, ← Word.addCount m n) :: rest
      else return (q, m) :: (← insert r n rest)

theorem multiplicity_of_multiplicityBy {test : Fraction → Fraction → Except Fault Bool}
    (ht : ∀ p q r, test p q = .ok r → p.same q = r) {r : Row} {n : UInt64} : ∀ {t : Table},
    multiplicityBy test r t = .ok n → multiplicity r t = n
  | [], h => by
      cases h
      rfl
  | (q, m) :: rest, h => by
      obtain ⟨c, hc, h⟩ := Fault.ok_of_bind h
      rw [multiplicity, Row.same_of_sameBy ht hc]
      cases c with
      | true => cases h; rfl
      | false => exact multiplicity_of_multiplicityBy ht h

/-- Inserting copies of a row raises the multiplicities of the rows equal to it, and no others. -/
theorem toNat_multiplicity_insert {r : Row} {n : UInt64} (q : Row) : ∀ {t t' : Table},
    insert r n t = .ok t' →
      (multiplicity q t').toNat = (multiplicity q t).toNat + if r.same q then n.toNat else 0
  | [], t', h => by
      obtain rfl : [(r, n)] = t' := by simpa [insert] using h
      cases hr : r.same q <;> simp [multiplicity, hr]
  | (p, m) :: rest, t', h => by
      obtain ⟨c, hc, h⟩ := Fault.ok_of_bind h
      have hp := Row.same_of_sameBy (fun _ _ _ => Fraction.Checked.same_of_ok) hc
      cases c with
      | true =>
          obtain ⟨k, hm, h⟩ := Fault.ok_of_bind h
          obtain rfl : (p, k) :: rest = t' := by simpa [pure, Except.pure] using h
          rw [multiplicity, multiplicity, Row.same_congr hp q]
          cases hr : r.same q with
          | true => simpa using Word.toNat_of_addCount hm
          | false => simp
      | false =>
          obtain ⟨rest', hi, h⟩ := Fault.ok_of_bind h
          obtain rfl : (p, m) :: rest' = t' := by simpa [pure, Except.pure] using h
          rw [multiplicity, multiplicity]
          cases hq : p.same q with
          | true =>
              have hr : r.same q = false := by
                rw [← Bool.not_eq_true]
                intro hr
                have := Row.same_trans hq (Row.same_symm hr)
                simp_all
              simp [hr]
          | false => simpa using toNat_multiplicity_insert q hi

end Table

/-- Tables by name, and the output row. -/
structure Database where
  tables : NameMap Table
  output : Row

namespace Database

/-- The table of a name; a table that is not there is empty. -/
def table (db : Database) (name : String) : Table := (db.tables.get? name).getD []

def rows (db : Database) (name : String) : List Row := (db.table name).rows

def multiplicity (db : Database) (name : String) (r : Row) : UInt64 :=
  (db.table name).multiplicity r

/-- The same, with fractions compared by `test`. -/
def multiplicityBy (test : Fraction → Fraction → Except Fault Bool) (db : Database)
    (name : String) (r : Row) : Except Fault UInt64 :=
  (db.table name).multiplicityBy test r

def insert (db : Database) (name : String) (r : Row) (n : UInt64) : Except Fault Database := do
  return { db with tables := db.tables.insert name (← (db.table name).insert r n) }

end Database

/-! ### The text of a database -/

/-- The name of a table and, indented below it, its rows with their multiplicities. -/
def Table.text (name : String) (t : Table) : String :=
  name ++ ":\n" ++ String.join (t.map fun (r, n) =>
    Text.indent (r.text ++ " × " ++ toString n.toNat) ++ "\n")

def Database.text (db : Database) : String :=
  String.join (db.tables.entries.map fun (name, t) => t.text name) ++ "output: " ++ db.output.text

end BagEquiv
