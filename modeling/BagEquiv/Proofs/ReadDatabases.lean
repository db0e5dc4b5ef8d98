/-
**What a database read from a model holds.**

A model gives a value to every symbol, and a tuple whose count is positive becomes a row of its
table.  Tuples can describe the same row, in any order and of any tables; each then contributes its
copies once.  Reading fails if a count leaves the words, and also if two rows of a table cannot be
compared.

Main definition:

* `Assignment.copies` — the count that a symbol stands for, as a number.

Main result:

* `Database.ofAssignment_gathers` — **reading a database loses and invents nothing**.
-/

import BagEquiv.Model
import BagEquiv.Proofs.Binders
import BagEquiv.Proofs.FractionValues
import Mathlib.Algebra.BigOperators.Group.List.Basic
import Mathlib.Algebra.Order.BigOperators.Group.List
import Mathlib.Algebra.Order.Floor.Semifield
import Mathlib.Data.Rat.Floor

set_option autoImplicit false

namespace BagEquiv

variable {schemas : SchemaMap} {tuples : List TupleInfo} {t : TupleInfo} {n : UInt64} {r : Row}
  {q : Fraction}

/-! ### Counts -/

namespace Fraction

theorem isPositive_iff : q.isPositive = true ↔
    0 < q.num.toInt ∧ 0 < q.den.toInt ∨ q.num.toInt < 0 ∧ q.den.toInt < 0 := by
  simp [isPositive, Int64.lt_iff_toInt_lt]

theorem isPositive_iff_toRat_pos : q.isPositive = true ↔ 0 < q.toRat := by
  rw [isPositive_iff, toRat_eq, div_pos_iff]
  norm_cast

/-- A positive fraction is the quotient of the absolute values, and truncation rounds it down. -/
theorem tdiv_of_isPositive (h : q.isPositive = true) :
    q.num.toInt.tdiv q.den.toInt = (⌊q.toRat⌋₊ : ℤ) := by
  have hquot : q.toRat = (q.num.toInt.natAbs : ℚ) / (q.den.toInt.natAbs : ℚ) := by
    rw [toRat_eq, Nat.cast_natAbs, Nat.cast_natAbs]
    rcases isPositive_iff.mp h with ⟨hn, hd⟩ | ⟨hn, hd⟩
    · rw [abs_of_pos hn, abs_of_pos hd]
    · rw [abs_of_neg hn, abs_of_neg hd]
      push_cast
      rw [neg_div_neg_eq]
  rw [hquot, Nat.floor_div_eq_div]
  rcases isPositive_iff.mp h with ⟨hn, hd⟩ | ⟨hn, hd⟩
  · rw [Int.tdiv_eq_ediv_of_nonneg hn.le]
    push_cast
    rw [abs_of_pos hn, abs_of_pos hd]
  · rw [← Int.neg_tdiv_neg, Int.tdiv_eq_ediv_of_nonneg (by omega)]
    push_cast
    rw [abs_of_neg hn, abs_of_neg hd]

end Fraction

/-- The count that a value stands for.  A fraction counts as the whole number below it, but at least
as one if it is positive. -/
def Value.copies : Value → ℕ
  | .int n => n.toInt.toNat
  | .real q => if 0 < q.toRat then max 1 ⌊q.toRat⌋₊ else 0
  | .str _ => 0
  | .unknown _ => 0

namespace Assignment

/-- The count that a symbol stands for. -/
def copies (a : Assignment) (name : String) : ℕ := (a.get? name).elim 0 Value.copies

theorem toUInt64_eq_ofNat {n : Int64} (h : 0 ≤ n.toInt) :
    n.toUInt64 = UInt64.ofNat n.toInt.toNat := by
  have hcond := BitVec.toInt_eq_toNat_cond n.toBitVec
  have hword : n.toUInt64.toNat = n.toInt.toNat := by
    change n.toBitVec.toNat = n.toBitVec.toInt.toNat
    change 0 ≤ n.toBitVec.toInt at h
    split at hcond <;> omega
  rw [← hword, UInt64.ofNat_toNat]

/-- The copies of a positive fraction are read as a word, unless they are too many for a signed
one. -/
theorem count_of_isPositive (h : q.isPositive = true) :
    (do let n ← q.truncate
        return some (if n < 1 then 1 else n.toUInt64)) =
      (if max 1 ⌊q.toRat⌋₊ < 2 ^ 63 then .ok (some (.ofNat (max 1 ⌊q.toRat⌋₊)))
        else .error .overflow : Except Fault (Option UInt64)) := by
  rw [Fraction.truncate, Word.div, Fraction.tdiv_of_isPositive h]
  generalize ⌊q.toRat⌋₊ = k
  by_cases hk : k < 2 ^ 63
  · have hfits : Word.Fits (k : ℤ) := ⟨by omega, by omega⟩
    have hword : (Int64.ofInt k).toInt = k := Int64.toInt_ofInt_of_le hfits.1 hfits.2
    have hcount : (if Int64.ofInt k < 1 then 1 else (Int64.ofInt k).toUInt64) =
        UInt64.ofNat (max 1 k) := by
      have hlt : Int64.ofInt k < 1 ↔ k = 0 := by
        rw [Int64.lt_iff_toInt_lt, hword, Int64.toInt_one]
        omega
      rw [toUInt64_eq_ofNat (by omega), hword, Int.toNat_natCast]
      by_cases hk0 : k = 0
      · rw [if_pos (hlt.mpr hk0), hk0]
        rfl
      · rw [if_neg (mt hlt.mp hk0), max_eq_right (by omega)]
    rw [Word.narrow_of_fits hfits, if_pos (by omega)]
    exact congrArg (fun n => Except.ok (some n)) hcount
  · have hfits : ¬Word.Fits (k : ℤ) := fun hfits => hk (by exact_mod_cast hfits.2)
    rw [Word.narrow, if_neg hfits, if_neg (by omega)]
    rfl

/-- A count is read as a word, unless it is too large for a signed one. -/
theorem positive?_eq (a : Assignment) (name : String) :
    a.positive? name =
      if a.copies name < 2 ^ 63 then
        .ok (if 0 < a.copies name then some (.ofNat (a.copies name)) else none)
      else .error .overflow := by
  unfold positive? copies
  split
  · rename_i n hget
    have hlt : n.toInt.toNat < 2 ^ 63 := by
      have := n.toInt_lt
      omega
    rw [hget, Option.elim_some, Value.copies, if_pos hlt]
    have hpos : 0 < n ↔ 0 < n.toInt.toNat := by
      rw [Int64.lt_iff_toInt_lt, Int.lt_toNat]
      rfl
    by_cases hn : 0 < n
    · have hnonneg : 0 ≤ n.toInt := by
        have := hpos.mp hn
        omega
      rw [if_pos hn, if_pos (hpos.mp hn), toUInt64_eq_ofNat hnonneg]
    · rw [if_neg hn, if_neg (mt hpos.mpr hn)]
  · rename_i q hget
    rw [hget, Option.elim_some, Value.copies]
    by_cases hq : q.isPositive = true
    · have hcopies : 0 < max 1 ⌊q.toRat⌋₊ := lt_max_of_lt_left one_pos
      rw [if_pos hq, if_pos (Fraction.isPositive_iff_toRat_pos.mp hq), if_pos hcopies]
      exact count_of_isPositive hq
    · rw [if_neg hq, if_neg (mt Fraction.isPositive_iff_toRat_pos.mpr hq)]
      simp
  · rename_i hint hreal
    cases hget : a.get? name with
    | none => simp
    | some v =>
        cases v with
        | int n => exact absurd hget (hint n)
        | real q => exact absurd hget (hreal q)
        | str s | unknown s => simp [Value.copies]

/-- The cell of a column of a tuple, as the values of its symbols say. -/
def ownCell (a : Assignment) (name : String) (c : Column) : Cell :=
  ⟨((a.get? (columnName name c.name)).bind Value.datum?).getD (Datum.default c.type),
    decide (0 < a.copies (nullName name c.name))⟩

/-- The columns of a tuple; one without schema has none. -/
def columnsOf (schema : Option Schema) : List Column := schema.elim [] Schema.columns

/-- The row of a tuple, as the values of its symbols say. -/
def ownRow (a : Assignment) (schema : Option Schema) (name : String) : Row :=
  .ofList ((columnsOf schema).map fun c => (c.name, a.ownCell name c))

/-- No null flag of a tuple is too large for a signed word. -/
def FlagsFit (a : Assignment) (schema : Option Schema) (name : String) : Prop :=
  ∀ c ∈ columnsOf schema, a.copies (nullName name c.name) < 2 ^ 63

instance (a : Assignment) (schema : Option Schema) (name : String) :
    Decidable (a.FlagsFit schema name) :=
  inferInstanceAs (Decidable (∀ c ∈ columnsOf schema, a.copies (nullName name c.name) < 2 ^ 63))

/-- A step that fails on some members fails on a list with such a member. -/
theorem mapM_ite {α β : Type} (p : α → Prop) [DecidablePred p] (f : α → β) (l : List α) :
    (l.mapM fun x => if p x then .ok (f x) else .error .overflow : Except Fault (List β)) =
      if ∀ x ∈ l, p x then .ok (l.map f) else .error .overflow := by
  induction l with
  | nil => simp [pure, Except.pure]
  | cons x l ih =>
      rw [List.mapM_cons, ih]
      by_cases hx : p x
      · by_cases hl : ∀ y ∈ l, p y
        · rw [if_pos hx, if_pos hl, if_pos (by simpa using ⟨hx, hl⟩)]
          rfl
        · rw [if_pos hx, if_neg hl, if_neg fun h => hl fun y hy => h y (.tail _ hy)]
          rfl
      · have hnone : ¬∀ y ∈ x :: l, p y := fun h => hx (h x List.mem_cons_self)
        rw [if_neg hx, if_neg hnone]
        rfl

theorem cell_eq (a : Assignment) (name : String) (c : Column) :
    a.cell name c =
      if a.copies (nullName name c.name) < 2 ^ 63 then .ok (a.ownCell name c)
      else .error .overflow := by
  rw [cell, positive?_eq]
  by_cases h : a.copies (nullName name c.name) < 2 ^ 63
  · rw [if_pos h, if_pos h]
    by_cases hpos : 0 < a.copies (nullName name c.name)
    · simp [ownCell, hpos, bind, Except.bind, pure, Except.pure]
    · simp [ownCell, hpos, bind, Except.bind, pure, Except.pure]
  · rw [if_neg h, if_neg h]
    rfl

/-- The row of a tuple is read, unless one of its null flags is too large. -/
theorem row_eq (a : Assignment) (schemas : SchemaMap) (name : String) :
    a.row schemas name =
      if a.FlagsFit (schemas.get? name) name then .ok (a.ownRow (schemas.get? name) name)
      else .error .overflow := by
  rw [row]
  cases schemas.get? name with
  | none =>
      rw [if_pos (by simp [FlagsFit, columnsOf])]
      rfl
  | some schema =>
      have hcell : (fun c => do return (c.name, ← a.cell name c)) = fun c : Column =>
          (if a.copies (nullName name c.name) < 2 ^ 63 then .ok (c.name, a.ownCell name c)
            else .error .overflow : Except Fault (String × Cell)) := by
        funext c
        rw [cell_eq]
        split <;> rfl
      dsimp only
      rw [hcell, mapM_ite (fun c : Column => a.copies (nullName name c.name) < 2 ^ 63)]
      by_cases h : ∀ c ∈ schema.columns, a.copies (nullName name c.name) < 2 ^ 63
      · rw [if_pos h]
        exact (if_pos h).symm
      · rw [if_neg h]
        exact (if_neg h).symm

end Assignment

/-! ### Rows that can be compared -/

/-- Fractions with positive denominators can be compared. -/
theorem Fraction.comparable_of_positive {p q : Fraction} (hp : p.Positive) (hq : q.Positive) :
    p.comparable q = true := by
  have hfits : ∀ {r : Fraction} (n : ℤ), r.Positive →
      quotientFits n r.den.toInt = true ∧ quotientFits r.den.toInt n = true := by
    intro r n hr
    unfold Positive at hr
    constructor
    · have : r.den.toInt ≠ -1 := by omega
      simp [quotientFits, this]
    · have : r.den.toInt ≠ -9223372036854775808 := by omega
      simp [quotientFits, this]
  simp [comparable, hfits, hp, hq]

/-- A cell without a fraction whose denominator is negative. -/
def Cell.Positive (c : Cell) : Prop := ∀ q, c.value = .real q → q.Positive

theorem Cell.exists_sameBy {c d : Cell} (hc : c.Positive) (hd : d.Positive) :
    ∃ b, c.sameBy Fraction.Checked.same d = .ok b := by
  rw [sameBy]
  split
  · cases hp : c.value with
    | real p =>
        cases hq : d.value with
        | real q =>
            exact ⟨_, if_pos (Fraction.comparable_of_positive (hc p hp) (hd q hq))⟩
        | int n | str s => exact ⟨_, rfl⟩
    | int m | str s => cases d.value <;> exact ⟨_, rfl⟩
  · exact ⟨_, rfl⟩

theorem Row.exists_sameEntriesBy : ∀ {as bs : List (String × Cell)},
    (∀ e ∈ as, e.2.Positive) → (∀ e ∈ bs, e.2.Positive) →
      ∃ c, sameEntriesBy Fraction.Checked.same as bs = .ok c
  | [], [], _, _ => ⟨_, rfl⟩
  | [], _ :: _, _, _ => ⟨_, rfl⟩
  | _ :: _, [], _, _ => ⟨_, rfl⟩
  | (m, a) :: as, (n, b) :: bs, ha, hb => by
      rw [List.forall_mem_cons] at ha hb
      obtain ⟨c, hc⟩ := Cell.exists_sameBy ha.1 hb.1
      obtain ⟨d, hd⟩ := exists_sameEntriesBy ha.2 hb.2
      rw [sameEntriesBy]
      split
      · rw [hc]
        cases c with
        | true => exact ⟨d, hd⟩
        | false => exact ⟨false, rfl⟩
      · exact ⟨_, rfl⟩

/-- Rows of such cells can be compared. -/
theorem Row.exists_sameBy {r q : Row} (hr : ∀ e ∈ r.entries, e.2.Positive)
    (hq : ∀ e ∈ q.entries, e.2.Positive) : ∃ c, r.sameBy Fraction.Checked.same q = .ok c := by
  rw [sameBy]
  split
  · exact exists_sameEntriesBy hr hq
  · exact ⟨_, rfl⟩

theorem NameMap.mem_of_mem_ofList {α : Type} {es : List (String × α)} {e : String × α}
    (h : e ∈ (ofList es).entries) : e ∈ es := by
  have hfold : ∀ (es : List (String × α)) (m : NameMap α),
      e ∈ (es.foldl (fun m e => m.insert e.1 e.2) m).entries → e ∈ es ∨ e ∈ m.entries := by
    intro es
    induction es with
    | nil => exact fun m h => .inr h
    | cons x es ih =>
        intro m h
        rcases ih _ h with h | h
        · exact .inl (.tail _ h)
        · rcases mem_place h with rfl | h
          · exact .inl (.head _)
          · exact .inr h
  exact (hfold es empty h).resolve_right List.not_mem_nil

/-- The cells of a row that is read have fractions of the assignment. -/
theorem Assignment.positive_ownRow {a : Assignment} {schema : Option Schema} {name : String}
    (h : ∀ name q, a.get? name = some (.real q) → q.Positive) :
    ∀ e ∈ (a.ownRow schema name).entries, e.2.Positive := by
  intro e he q hq
  obtain ⟨c, -, rfl⟩ := List.mem_map.mp (NameMap.mem_of_mem_ofList he)
  change ((a.get? (columnName name c.name)).bind Value.datum?).getD _ = _ at hq
  have hdefault : Datum.default c.type ≠ .real q := by
    cases c.type <;> simp [Datum.default]
  cases hget : a.get? (columnName name c.name) with
  | none => exact absurd (by simpa [hget] using hq) hdefault
  | some v =>
      rw [hget, Option.bind_some] at hq
      cases v with
      | int n | str s => simp [Value.datum?] at hq
      | unknown s => exact absurd (by simpa [Value.datum?] using hq) hdefault
      | real p =>
          have hreal : Datum.ofFraction p = .real q := by simpa [Value.datum?] using hq
          unfold Datum.ofFraction at hreal
          split at hreal
          · cases hreal
          · cases hreal
            exact h _ _ hget

/-! ### Copies in a table -/

namespace Table

/-- The rows of a table after an insertion: as before if the row was listed, or with it at the
end. -/
theorem rows_insert : ∀ {t t' : Table}, insert r n t = .ok t' →
    (∃ q ∈ t.rows, q.same r = true) ∧ t'.rows = t.rows ∨
      (∀ q ∈ t.rows, q.same r = false) ∧ t'.rows = t.rows ++ [r]
  | [], t', h => by
      cases h
      exact .inr ⟨by simp [rows], rfl⟩
  | (p, m) :: rest, t', h => by
      obtain ⟨c, hc, h⟩ := Fault.ok_of_bind h
      have hp := Row.same_of_sameBy (fun _ _ _ => Fraction.Checked.same_of_ok) hc
      cases c with
      | true =>
          obtain ⟨k, -, h⟩ := Fault.ok_of_bind h
          cases h
          exact .inl ⟨⟨p, by simp [rows], hp⟩, rfl⟩
      | false =>
          obtain ⟨rest', hi, h⟩ := Fault.ok_of_bind h
          cases h
          rcases rows_insert hi with ⟨⟨q, hq, hsame⟩, hrows⟩ | ⟨hnew, hrows⟩
          · exact .inl ⟨⟨q, .tail _ hq, hsame⟩, congrArg (p :: ·) hrows⟩
          · refine .inr ⟨?_, congrArg (p :: ·) hrows⟩
            intro q hq
            rcases List.mem_cons.mp hq with rfl | hq
            · exact hp
            · exact hnew q hq

/-- Rows stay different from one another. -/
theorem pairwise_insert {t t' : Table} (h : insert r n t = .ok t')
    (ht : t.rows.Pairwise fun p q => p.same q = false) :
    t'.rows.Pairwise fun p q => p.same q = false := by
  rcases rows_insert h with ⟨-, hrows⟩ | ⟨hnew, hrows⟩
  · rwa [hrows]
  · rw [hrows, List.pairwise_append]
    exact ⟨ht, List.pairwise_singleton _ _, fun q hq p hp => List.mem_singleton.mp hp ▸ hnew q hq⟩

/-- Multiplicities stay positive. -/
theorem pos_insert (hn : 0 < n.toNat) : ∀ {t t' : Table},
    insert r n t = .ok t' → (∀ e ∈ t, 0 < e.2.toNat) → ∀ e ∈ t', 0 < e.2.toNat
  | [], t', h, _ => by
      cases h
      simpa using hn
  | (p, m) :: rest, t', h, ht => by
      rw [List.forall_mem_cons] at ht
      obtain ⟨c, -, h⟩ := Fault.ok_of_bind h
      cases c with
      | true =>
          obtain ⟨k, hk, h⟩ := Fault.ok_of_bind h
          cases h
          refine List.forall_mem_cons.mpr ⟨?_, ht.2⟩
          have := Word.toNat_of_addCount hk
          change 0 < k.toNat
          omega
      | false =>
          obtain ⟨rest', hi, h⟩ := Fault.ok_of_bind h
          cases h
          exact List.forall_mem_cons.mpr ⟨ht.1, pos_insert hn hi ht.2⟩

/-- Copies can be inserted if the row can be compared with those before and there is room for
them. -/
theorem exists_insert : ∀ {t : Table},
    (∀ q ∈ t.rows, ∃ c, q.sameBy Fraction.Checked.same r = .ok c) →
    (multiplicity r t).toNat + n.toNat < 2 ^ 64 → ∃ t', insert r n t = .ok t'
  | [], _, _ => ⟨_, rfl⟩
  | (p, m) :: rest, hcompare, hroom => by
      obtain ⟨c, hc⟩ := hcompare p (by simp [rows])
      have hp := Row.same_of_sameBy (fun _ _ _ => Fraction.Checked.same_of_ok) hc
      rw [multiplicity, hp] at hroom
      rw [insert, hc]
      cases c with
      | true =>
          have hsum : Word.addCount m n = .ok (m + n) := if_pos hroom
          exact ⟨(p, m + n) :: rest, by rw [hsum]; rfl⟩
      | false =>
          obtain ⟨rest', hi⟩ := exists_insert (fun q hq => hcompare q (.tail _ hq)) hroom
          exact ⟨(p, m) :: rest', by rw [hi]; rfl⟩

/-- A row with a positive multiplicity is listed. -/
theorem exists_of_multiplicity_pos : ∀ {t : Table}, 0 < (multiplicity r t).toNat →
    ∃ q ∈ t.rows, q.same r = true
  | [], h => by simp [multiplicity] at h
  | (p, m) :: rest, h => by
      rw [multiplicity] at h
      cases hp : p.same r with
      | true => exact ⟨p, by simp [rows], hp⟩
      | false =>
          rw [hp] at h
          obtain ⟨q, hq, hsame⟩ := exists_of_multiplicity_pos h
          exact ⟨q, .tail _ hq, hsame⟩

end Table

theorem Database.insert_ok {db db' : Database} {name : String} (h : db.insert name r n = .ok db') :
    db'.output = db.output ∧ ∃ t, (db.table name).insert r n = .ok t ∧
      ∀ other, db'.table other = if other = name then t else db.table other := by
  obtain ⟨t, ht, h⟩ := Fault.ok_of_bind h
  cases h
  refine ⟨rfl, t, ht, fun other => ?_⟩
  rw [table, NameMap.get?_insert]
  by_cases hname : other = name
  · rw [if_pos hname, if_pos hname]
    rfl
  · rw [if_neg hname, if_neg hname]
    rfl

/-! ### What tuples contribute -/

namespace TupleInfo

/-- The copies of its row that a tuple contributes to a table. -/
def copies (a : Assignment) (t : TupleInfo) (table : String) : ℕ :=
  if t.table = some table then a.copies (countName table t.name) else 0

/-- The copies of a row that tuples contribute to a table, where `own` is the row of a tuple. -/
def total (a : Assignment) (own : String → Row) (tuples : List TupleInfo) (table : String)
    (r : Row) : ℕ :=
  (tuples.map fun t => if (own t.name).same r then t.copies a table else 0).sum

theorem total_concat (a : Assignment) (own : String → Row) (tuples : List TupleInfo)
    (t : TupleInfo) (table : String) (r : Row) :
    total a own (tuples ++ [t]) table r =
      total a own tuples table r + if (own t.name).same r then t.copies a table else 0 := by
  simp [total]

theorem total_le_append (a : Assignment) (own : String → Row) (tuples rest : List TupleInfo)
    (table : String) (r : Row) :
    total a own tuples table r ≤ total a own (tuples ++ rest) table r := by
  simp [total]

end TupleInfo

/-- The schema of a tuple: the given one or else that of the first tuple with that name that has
one. -/
def TupleInfo.schemaOf? (schemas : SchemaMap) (tuples : List TupleInfo) (name : String) :
    Option Schema :=
  (schemas.get? name).or (tuples.findSome? fun t => if t.name = name then t.schema else none)

theorem Database.get?_extendSchemas (schemas : SchemaMap) (tuples : List TupleInfo)
    (name : String) :
    (extendSchemas schemas tuples).get? name = TupleInfo.schemaOf? schemas tuples name := by
  induction tuples generalizing schemas with
  | nil => simp [extendSchemas, TupleInfo.schemaOf?]
  | cons t tuples ih =>
      rw [extendSchemas, List.foldl_cons, ← extendSchemas, ih]
      unfold TupleInfo.schemaOf?
      rw [List.findSome?_cons]
      cases hschema : t.schema with
      | none => simp
      | some schema =>
          by_cases hname : t.name = name
          · cases hget : schemas.get? name with
            | none => simp [hname, hget, NameMap.contains, NameMap.get?_insert]
            | some s => simp [hname, hget, NameMap.contains]
          · have hget : (if schemas.contains t.name then schemas
                else schemas.insert t.name schema).get? name = schemas.get? name := by
              split
              · rfl
              · rw [NameMap.get?_insert, if_neg (Ne.symm hname)]
            simp [hname, hget]

/-- What a database holds that tuples were read into.  Rows are listed once and with a positive
multiplicity, every listed row is that of a tuple, and the multiplicities are what the tuples
contribute. -/
structure Database.Gathers (a : Assignment) (own : String → Row) (tuples : List TupleInfo)
    (db : Database) : Prop where
  distinct : ∀ table, (db.rows table).Pairwise fun r q => r.same q = false
  positive : ∀ table, ∀ e ∈ db.table table, 0 < e.2.toNat
  owned : ∀ table, ∀ r ∈ db.rows table, ∃ t ∈ tuples, 0 < t.copies a table ∧ own t.name = r
  multiplicity_eq : ∀ table r, (db.multiplicity table r).toNat =
    TupleInfo.total a own tuples table r

namespace Database

variable {a : Assignment} {own : String → Row} {seen : List TupleInfo} {db db' : Database}

theorem gathers_empty (output : Row) : Gathers a own [] ⟨.empty, output⟩ where
  distinct _ := List.Pairwise.nil
  positive _ e he := by cases he
  owned _ r hr := by cases hr
  multiplicity_eq _ _ := rfl

/-- A tuple that contributes nothing changes nothing. -/
theorem Gathers.skip (h : Gathers a own seen db) (ht : ∀ table, t.copies a table = 0) :
    Gathers a own (seen ++ [t]) db where
  distinct := h.distinct
  positive := h.positive
  owned table r hr := by
    obtain ⟨s, hs, hcopies⟩ := h.owned table r hr
    exact ⟨s, List.mem_append_left _ hs, hcopies⟩
  multiplicity_eq table r := by
    rw [h.multiplicity_eq, TupleInfo.total_concat, ht]
    simp

/-- The row of a tuple and the copies that it contributes are added to its table. -/
theorem Gathers.insert {table : String} (h : Gathers a own seen db) (htable : t.table = some table)
    (hcopies : t.copies a table = n.toNat) (hn : 0 < n.toNat)
    (hi : db.insert table (own t.name) n = .ok db') : Gathers a own (seen ++ [t]) db' := by
  obtain ⟨-, u, hu, htables⟩ := insert_ok hi
  have hother : ∀ other, other ≠ table → t.copies a other = 0 := fun other hne =>
    if_neg (by simpa [htable] using Ne.symm hne)
  constructor
  · intro other
    rw [rows, htables]
    split
    · exact Table.pairwise_insert hu (h.distinct table)
    · exact h.distinct other
  · intro other
    rw [htables]
    split
    · exact Table.pos_insert hn hu (h.positive table)
    · exact h.positive other
  · intro other r hr
    have hold : r ∈ db.rows other →
        ∃ s ∈ seen ++ [t], 0 < s.copies a other ∧ own s.name = r := fun hr => by
      obtain ⟨s, hs, hcopies⟩ := h.owned other r hr
      exact ⟨s, List.mem_append_left _ hs, hcopies⟩
    rw [rows, htables] at hr
    split at hr
    · rename_i heq
      subst heq
      rcases Table.rows_insert hu with ⟨-, hrows⟩ | ⟨-, hrows⟩
      · rw [hrows] at hr
        exact hold hr
      · rw [hrows, List.mem_append, List.mem_singleton] at hr
        rcases hr with hr | rfl
        · exact hold hr
        · exact ⟨t, by simp, hcopies ▸ hn, rfl⟩
    · exact hold hr
  · intro other r
    rw [multiplicity, htables, TupleInfo.total_concat, ← h.multiplicity_eq]
    split
    · rename_i heq
      subst heq
      rw [Table.toNat_multiplicity_insert r hu, hcopies]
      rfl
    · rename_i hne
      rw [hother other hne]
      simp [multiplicity]

/-- A tuple with a positive count is put into its table, unless the count or a null flag is too
large. -/
theorem addTuple_eq {table : String} (schemas : SchemaMap) (htable : t.table = some table) :
    addTuple a schemas db t =
      if t.copies a table < 2 ^ 63 then
        if 0 < t.copies a table then
          if a.FlagsFit (schemas.get? t.name) t.name then
            db.insert table (a.ownRow (schemas.get? t.name) t.name) (.ofNat (t.copies a table))
          else .error .overflow
        else .ok db
      else .error .overflow := by
  have hcopies : t.copies a table = a.copies (countName table t.name) := if_pos htable
  rw [addTuple, htable, hcopies]
  dsimp only
  rw [Assignment.positive?_eq, Assignment.row_eq]
  split
  · split
    · split <;> rfl
    · rfl
  · rfl

/-- A tuple without a table contributes nothing. -/
theorem addTuple_none (a : Assignment) (schemas : SchemaMap) (db : Database)
    (htable : t.table = none) : addTuple a schemas db t = .ok db ∧ ∀ table, t.copies a table = 0 :=
  ⟨by rw [addTuple, htable], fun table => if_neg (by simp [htable])⟩

/-- A tuple contributes to no other table than its own. -/
theorem copies_le {table : String} (htable : t.table = some table) (other : String) :
    t.copies a other ≤ t.copies a table := by
  by_cases hother : other = table
  · rw [hother]
  · exact (if_neg (by simpa [htable] using Ne.symm hother)).trans_le (Nat.zero_le _)

/-- The counts that are read for a tuple fit. -/
def TupleFits (a : Assignment) (schema : Option Schema) (t : TupleInfo) : Prop :=
  ∀ table, t.copies a table < 2 ^ 63 ∧ (0 < t.copies a table → a.FlagsFit schema t.name)

/-- Reading a tuple adds what it contributes, and shows that its counts fit. -/
theorem Gathers.addTuple (h : Gathers a own seen db)
    (hown : own t.name = a.ownRow (schemas.get? t.name) t.name)
    (hadd : addTuple a schemas db t = .ok db') :
    Gathers a own (seen ++ [t]) db' ∧ db'.output = db.output ∧
      TupleFits a (schemas.get? t.name) t := by
  cases htable : t.table with
  | none =>
      obtain ⟨heq, hzero⟩ := addTuple_none a schemas db htable
      cases heq.symm.trans hadd
      exact ⟨h.skip hzero, rfl, fun table => by simp [hzero table]⟩
  | some table =>
      rw [addTuple_eq schemas htable] at hadd
      split at hadd
      case isFalse => cases hadd
      case isTrue hfits =>
        have hfit := fun other => (copies_le htable other (a := a)).trans_lt hfits
        split at hadd
        case isFalse hpos =>
          cases hadd
          have hzero : ∀ other, t.copies a other = 0 := fun other =>
            Nat.eq_zero_of_not_pos fun h => hpos (h.trans_le (copies_le htable other))
          exact ⟨h.skip hzero, rfl, fun other => ⟨hfit other, by simp [hzero other]⟩⟩
        case isTrue hpos =>
          split at hadd
          case isFalse => cases hadd
          case isTrue hflags =>
            have hword : (UInt64.ofNat (t.copies a table)).toNat = t.copies a table :=
              UInt64.toNat_ofNat_of_lt (hfits.trans (by decide))
            rw [← hown] at hadd
            exact ⟨h.insert htable hword.symm (by omega) hadd, (insert_ok hadd).1,
              fun other => ⟨hfit other, fun _ => hflags⟩⟩

/-- Reading tuples one after the other adds what all of them contribute. -/
theorem Gathers.foldlM (hown : ∀ name, own name = a.ownRow (schemas.get? name) name)
    (h : Gathers a own seen db) (hrun : tuples.foldlM (Database.addTuple a schemas) db = .ok db') :
    Gathers a own (seen ++ tuples) db' ∧ db'.output = db.output ∧
      ∀ t ∈ tuples, TupleFits a (schemas.get? t.name) t := by
  induction tuples generalizing seen db with
  | nil =>
      cases hrun
      exact ⟨by rwa [List.append_nil], rfl, by simp⟩
  | cons t tuples ih =>
      rw [List.foldlM_cons] at hrun
      obtain ⟨db₁, hadd, hrun⟩ := Fault.ok_of_bind hrun
      obtain ⟨h₁, hout₁, hfits⟩ := h.addTuple (hown t.name) hadd
      obtain ⟨h₂, hout₂, hfits'⟩ := ih h₁ hrun
      rw [List.append_assoc, List.singleton_append] at h₂
      exact ⟨h₂, hout₂.trans hout₁, List.forall_mem_cons.mpr ⟨hfits, hfits'⟩⟩

/-- The row of a tuple can be compared with that of another one in the same table. -/
def TuplesCompare (a : Assignment) (own : String → Row) (s t : TupleInfo) : Prop :=
  ∀ table, 0 < s.copies a table → 0 < t.copies a table →
    ∃ c, (own s.name).sameBy Fraction.Checked.same (own t.name) = .ok c

/-- A tuple can be read if its counts fit, its row can be compared with those before, and there is
room for its copies. -/
theorem Gathers.exists_addTuple (h : Gathers a own seen db)
    (hown : own t.name = a.ownRow (schemas.get? t.name) t.name)
    (hfits : TupleFits a (schemas.get? t.name) t) (hcompare : ∀ s ∈ seen, TuplesCompare a own s t)
    (hroom : ∀ table r, TupleInfo.total a own (seen ++ [t]) table r < 2 ^ 64) :
    ∃ db', Database.addTuple a schemas db t = .ok db' := by
  cases htable : t.table with
  | none => exact ⟨db, (addTuple_none a schemas db htable).1⟩
  | some table =>
      rw [addTuple_eq schemas htable, if_pos (hfits table).1]
      by_cases hpos : 0 < t.copies a table
      · rw [if_pos hpos, if_pos ((hfits table).2 hpos), ← hown]
        have hrows : ∀ q ∈ (db.table table).rows,
            ∃ c, q.sameBy Fraction.Checked.same (own t.name) = .ok c := by
          intro q hq
          obtain ⟨s, hs, hcopies, rfl⟩ := h.owned table q hq
          exact hcompare s hs table hcopies hpos
        have hword : (UInt64.ofNat (t.copies a table)).toNat = t.copies a table :=
          UInt64.toNat_ofNat_of_lt ((hfits table).1.trans (by decide))
        have hsum := hroom table (own t.name)
        rw [TupleInfo.total_concat, Row.same_refl, if_pos rfl, ← h.multiplicity_eq, ← hword] at hsum
        obtain ⟨u, hu⟩ := Table.exists_insert hrows hsum
        exact ⟨_, by rw [Database.insert, hu]; rfl⟩
      · exact ⟨db, if_neg hpos⟩

theorem Gathers.exists_foldlM (hown : ∀ name, own name = a.ownRow (schemas.get? name) name)
    (h : Gathers a own seen db) (hfits : ∀ t ∈ tuples, TupleFits a (schemas.get? t.name) t)
    (hcompare : (seen ++ tuples).Pairwise (TuplesCompare a own))
    (hroom : ∀ table r, TupleInfo.total a own (seen ++ tuples) table r < 2 ^ 64) :
    ∃ db', tuples.foldlM (Database.addTuple a schemas) db = .ok db' := by
  induction tuples generalizing seen db with
  | nil => exact ⟨db, rfl⟩
  | cons t tuples ih =>
      rw [List.append_cons] at hcompare hroom
      have hcompare₁ : ∀ s ∈ seen, TuplesCompare a own s t := fun s hs =>
        (List.pairwise_append.mp (List.pairwise_append.mp hcompare).1).2.2 s hs t (by simp)
      have hroom₁ : ∀ table r, TupleInfo.total a own (seen ++ [t]) table r < 2 ^ 64 :=
        fun table r => (TupleInfo.total_le_append a own _ _ table r).trans_lt (hroom table r)
      obtain ⟨db₁, hadd⟩ := h.exists_addTuple (hown t.name) (hfits t (by simp)) hcompare₁ hroom₁
      obtain ⟨db₂, hrun⟩ := ih (h.addTuple (hown t.name) hadd).1
        (fun s hs => hfits s (.tail _ hs)) hcompare hroom
      exact ⟨db₂, by rw [List.foldlM_cons, hadd]; exact hrun⟩

/-! ### Reading a database -/

/-- The row of a tuple, with the schema that is known of it. -/
def ownRow (a : Assignment) (schemas : SchemaMap) (tuples : List TupleInfo) (name : String) : Row :=
  a.ownRow (TupleInfo.schemaOf? schemas tuples name) name

/-- No count overflows: neither those that are read, nor the copies of a row together. -/
structure CountsFit (a : Assignment) (tuples : List TupleInfo) (output : String)
    (schemas : SchemaMap) : Prop where
  counts : ∀ t ∈ tuples, TupleFits a (TupleInfo.schemaOf? schemas tuples t.name) t
  flags : a.FlagsFit (TupleInfo.schemaOf? schemas tuples output) output
  totals : ∀ table r, TupleInfo.total a (ownRow a schemas tuples) tuples table r < 2 ^ 64

theorem ownRow_eq (a : Assignment) (schemas : SchemaMap) (tuples : List TupleInfo)
    (name : String) :
    ownRow a schemas tuples name =
      a.ownRow ((extendSchemas schemas tuples).get? name) name := by
  rw [ownRow, get?_extendSchemas]

/-- A database that is read holds the output row and what the tuples contribute. -/
theorem gathers_of_ofAssignment {output : String}
    (h : ofAssignment a tuples output schemas = .ok db) :
    db.output = ownRow a schemas tuples output ∧
      Gathers a (ownRow a schemas tuples) tuples db ∧ CountsFit a tuples output schemas := by
  obtain ⟨r, hr, h⟩ := Fault.ok_of_bind h
  rw [Assignment.row_eq] at hr
  split at hr
  case isFalse => cases hr
  case isTrue hflags =>
    cases hr
    obtain ⟨hdb, hout, hfits⟩ :=
      (gathers_empty _).foldlM (ownRow_eq a schemas tuples) h
    rw [List.nil_append] at hdb
    simp only [get?_extendSchemas] at hflags hfits hout
    refine ⟨hout, hdb, hfits, hflags, fun table r => ?_⟩
    rw [← hdb.multiplicity_eq]
    exact UInt64.toNat_lt _

/-- A database is read if no count overflows and the rows can be compared. -/
theorem exists_ofAssignment {output : String} (hfits : CountsFit a tuples output schemas)
    (hcompare : tuples.Pairwise (TuplesCompare a (ownRow a schemas tuples))) :
    ∃ db, ofAssignment a tuples output schemas = .ok db := by
  have htuples := hfits.counts
  have houtput := hfits.flags
  simp only [← get?_extendSchemas] at htuples houtput
  obtain ⟨db, hrun⟩ := (gathers_empty _).exists_foldlM (ownRow_eq a schemas tuples) htuples
    hcompare hfits.totals
  refine ⟨db, ?_⟩
  rw [ofAssignment, Assignment.row_eq, if_pos houtput]
  exact hrun

/-- Among tuples with different names a schema is found for a name if a tuple of that name has
it. -/
theorem findSome?_schema_iff {name : String} {schema : Schema}
    (hnames : (tuples.map TupleInfo.name).Nodup) :
    (tuples.findSome? fun t => if t.name = name then t.schema else none) = some schema ↔
      ∃ t ∈ tuples, t.name = name ∧ t.schema = some schema := by
  constructor
  · intro h
    obtain ⟨t, ht, hschema⟩ := List.exists_of_findSome?_eq_some h
    split at hschema
    · exact ⟨t, ht, ‹_›, hschema⟩
    · cases hschema
  · rintro ⟨t, ht, rfl, hschema⟩
    obtain ⟨before, after, rfl⟩ := List.append_of_mem ht
    rw [List.map_append, List.map_cons, List.nodup_append] at hnames
    have hbefore : (before.findSome? fun s => if s.name = t.name then s.schema else none) = none :=
      List.findSome?_eq_none_iff.mpr fun s hs =>
        if_neg (hnames.2.2 _ (List.mem_map_of_mem hs) _ List.mem_cons_self)
    rw [List.findSome?_append, hbefore, List.findSome?_cons, if_pos rfl, hschema]
    rfl

/-- The order of tuples with different names does not matter for their schemas. -/
theorem ownRow_perm {tuples tuples' : List TupleInfo} (schemas : SchemaMap)
    (hperm : tuples'.Perm tuples) (hnames : (tuples.map TupleInfo.name).Nodup) :
    ownRow a schemas tuples' = ownRow a schemas tuples := by
  have hnames' := (hperm.map TupleInfo.name).nodup_iff.mpr hnames
  funext name
  have hfind : (tuples'.findSome? fun t => if t.name = name then t.schema else none) =
      tuples.findSome? fun t => if t.name = name then t.schema else none := by
    refine Option.ext fun schema => ?_
    rw [findSome?_schema_iff hnames, findSome?_schema_iff hnames']
    simp only [hperm.mem_iff]
  rw [ownRow, ownRow, TupleInfo.schemaOf?, TupleInfo.schemaOf?, hfind]

/-- Rows can be compared if all fractions in the assignment have positive denominators. -/
theorem tuplesCompare_of_positive (h : ∀ name q, a.get? name = some (.real q) → q.Positive)
    (s t : TupleInfo) : TuplesCompare a (ownRow a schemas tuples) s t :=
  fun _ _ _ => Row.exists_sameBy (Assignment.positive_ownRow h) (Assignment.positive_ownRow h)

/-- A database that is read from an assignment lists every row once and with a positive
multiplicity, which is the sum of what the tuples of the table with that row contribute; the order
of tuples with different names does not matter.  If any two rows of a table can be compared, as they
can if denominators are positive, then it is read just if no count overflows. -/
theorem ofAssignment_gathers (a : Assignment) (tuples : List TupleInfo) (output : String)
    (schemas : SchemaMap) :
    (∀ db, ofAssignment a tuples output schemas = .ok db →
      db.output = ownRow a schemas tuples output ∧
      Gathers a (ownRow a schemas tuples) tuples db ∧
      ∀ table r n, db.multiplicityBy Fraction.Checked.same table r = .ok n →
        n.toNat = TupleInfo.total a (ownRow a schemas tuples) tuples table r) ∧
    (tuples.Pairwise (TuplesCompare a (ownRow a schemas tuples)) →
      ((∃ db, ofAssignment a tuples output schemas = .ok db) ↔
        CountsFit a tuples output schemas)) ∧
    ((∀ name q, a.get? name = some (.real q) → q.Positive) →
      tuples.Pairwise (TuplesCompare a (ownRow a schemas tuples))) ∧
    ∀ tuples', tuples'.Perm tuples → (tuples.map TupleInfo.name).Nodup → ∀ db db',
      ofAssignment a tuples output schemas = .ok db →
      ofAssignment a tuples' output schemas = .ok db' →
      db'.output = db.output ∧ ∀ table r, db'.multiplicity table r = db.multiplicity table r := by
  refine ⟨fun db h => ?_, fun hcompare => ⟨?_, fun hfits => exists_ofAssignment hfits hcompare⟩,
    fun h => ?_, fun tuples' hperm hnames db db' h h' => ?_⟩
  · obtain ⟨hout, hdb, -⟩ := gathers_of_ofAssignment h
    refine ⟨hout, hdb, fun table r n hn => ?_⟩
    rw [← hdb.multiplicity_eq, ← Table.multiplicity_of_multiplicityBy
      (fun _ _ _ => Fraction.Checked.same_of_ok) hn]
    rfl
  · rintro ⟨db, h⟩
    exact (gathers_of_ofAssignment h).2.2
  · exact List.pairwise_of_forall fun s t => tuplesCompare_of_positive h s t
  · obtain ⟨hout, hdb, -⟩ := gathers_of_ofAssignment h
    obtain ⟨hout', hdb', -⟩ := gathers_of_ofAssignment h'
    rw [ownRow_perm schemas hperm hnames] at hout' hdb'
    refine ⟨hout'.trans hout.symm, fun table r => UInt64.toNat_inj.mp ?_⟩
    rw [hdb.multiplicity_eq, hdb'.multiplicity_eq]
    exact (hperm.map _).sum_eq

end Database

/-- Two rows, once each, whose cells are fractions that cannot be compared. -/
def Assignment.besideTooDeep : Assignment :=
  .ofList [("r!x", .int 1), ("r!y", .int 1), ("x.a", .real .tooDeep),
    ("y.a", .real .half)]

/-- The tuples of these rows. -/
def TupleInfo.besideTooDeep : List TupleInfo :=
  [⟨"x", some "r", some ⟨[⟨"a", .real⟩]⟩⟩, ⟨"y", some "r", some ⟨[⟨"a", .real⟩]⟩⟩]

/-- A database is not read although no count overflows: there is one copy of each of two rows, but
the rows cannot be compared. -/
theorem Database.ofAssignment_besideTooDeep :
    CountsFit .besideTooDeep TupleInfo.besideTooDeep "out" .empty ∧
      ofAssignment .besideTooDeep TupleInfo.besideTooDeep "out" .empty = .error .overflow := by
  have hcopies : ∀ t ∈ TupleInfo.besideTooDeep, ∀ table, t.copies .besideTooDeep table ≤ 1 := by
    intro t ht table
    have htable : t.table = some "r" := by revert t; decide
    have hone : ∀ t ∈ TupleInfo.besideTooDeep, t.copies .besideTooDeep "r" = 1 := by decide
    exact (copies_le htable table).trans (hone t ht).le
  have hflags : ∀ t ∈ TupleInfo.besideTooDeep, Assignment.besideTooDeep.FlagsFit
      (TupleInfo.schemaOf? .empty TupleInfo.besideTooDeep t.name) t.name := by decide
  refine ⟨⟨fun t ht table => ⟨?_, fun _ => hflags t ht⟩, by decide, fun table r => ?_⟩, rfl⟩
  · exact (hcopies t ht table).trans_lt (by decide)
  · have hle : ∀ n ∈ TupleInfo.besideTooDeep.map fun t =>
        if (ownRow .besideTooDeep .empty TupleInfo.besideTooDeep t.name).same r then
          t.copies .besideTooDeep table else 0, n ≤ 1 := by
      intro n hn
      obtain ⟨t, ht, rfl⟩ := List.mem_map.mp hn
      split
      · exact hcopies t ht table
      · exact Nat.zero_le 1
    exact (List.sum_le_card_nsmul _ 1 hle).trans_lt (by rw [List.length_map]; decide)

end BagEquiv
