/-
**Rows as values of symbols.**

The symbols of a tuple have values that show the row it is bound to: its cells, their null flags,
and how often the row occurs in each table.  Texts are shown as numbers in an order preserving way.
Where rows fit their schemas, two columns with the same value have the same cell, so that the
equations between the symbols of two tuples say that the tuples are equal.

Main definition:

* `Legend` — how texts are read as numbers, and which values are null.

Main result:

* `World.Depicted.columns_eq_iff` — **columns with equal values have equal cells**.
-/

import Mathlib.Data.Rat.Lemmas
import Mathlib.Data.String.Basic
import Mathlib.Order.Monotone.Basic
import BagEquiv.Proofs.Meaning
import BagEquiv.Proofs.Simplification
import BagEquiv.Proofs.SymbolNames

set_option autoImplicit false

namespace BagEquiv

/-! ### Values -/

/-- How texts are read as numbers, and which values are null. -/
structure Legend where
  text : String → ℚ
  text_strictMono : StrictMono text
  null : ExactDatum → Bool

namespace Legend

variable (L : Legend)

/-- The number that a scalar is shown as. -/
def code : Scalar ℚ → ℚ
  | .number n => n
  | .text s => L.text s

/-- The numbers that symbols of a type can have. -/
def admits : SymbolType → Set ℚ
  | .int => Set.univ
  | .real => Set.univ
  | .nat => {q | 0 ≤ q}
  | .char => Set.range L.text
  | .str => Set.range L.text

end Legend

/-- The value is shown as no other value is: a whole number is stored as an integer, and no text is
shown as that number. -/
structure ExactDatum.Proper (L : Legend) (d : ExactDatum) : Prop where
  fractional : ∀ q, d = .real q → q.den ≠ 1
  apart : ∀ n, d.scalar = .number n → ∀ s, L.text s ≠ n

theorem ExactDatum.Proper.eq_of_code_eq {L : Legend} {d e : ExactDatum} (hd : d.Proper L)
    (he : e.Proper L) (h : L.code d.scalar = L.code e.scalar) : d = e := by
  have whole : ∀ (n : ℤ) (q : ℚ), (n : ℚ) = q → q.den ≠ 1 → False := by
    rintro n q rfl hq
    exact hq (Rat.den_intCast n)
  cases d with
  | int m =>
      cases e with
      | int n =>
          have h : (m : ℚ) = n := h
          exact congrArg _ (by exact_mod_cast h)
      | real q => exact (whole m q h (he.fractional q rfl)).elim
      | str s => exact absurd h.symm (hd.apart m rfl s)
  | real p =>
      cases e with
      | int n => exact (whole n p h.symm (hd.fractional p rfl)).elim
      | real q => exact congrArg _ h
      | str s => exact absurd h.symm (hd.apart p rfl s)
  | str s =>
      cases e with
      | int n | real n => exact absurd h (he.apart n rfl s)
      | str t => exact congrArg _ (L.text_strictMono.injective h)

/-- The null flag of the cell is that of its value. -/
structure ExactCell.Fits (L : Legend) (c : ExactCell) : Prop where
  proper : c.value.Proper L
  null : c.null = L.null c.value

theorem ExactCell.Fits.eq_of_code_eq {L : Legend} {c d : ExactCell} (hc : c.Fits L) (hd : d.Fits L)
    (h : L.code c.value.scalar = L.code d.value.scalar) : c = d := by
  obtain ⟨v, b⟩ := c
  obtain ⟨v', b'⟩ := d
  obtain rfl : v = v' := hc.proper.eq_of_code_eq hd.proper h
  exact congrArg _ (hc.null.trans hd.null.symm)

/-- The row has exactly the columns of the schema, with cells of their types. -/
structure ExactRow.Fits (L : Legend) (S : Schema) (r : ExactRow) : Prop where
  columns : ∀ attr, (r attr).isSome ↔ ∃ col ∈ S.columns, col.name = attr
  names : ∀ col ∈ S.columns, '!' ∉ col.name.toList
  cells : ∀ attr c, r attr = some c → c.Fits L
  typed : ∀ attr c type, r attr = some c → S.typeOf? attr = some type →
    L.code c.value.scalar ∈ L.admits (.ofDataType type)

/-! ### What symbols show -/

/-- The symbol of a column, an integer if its type is not known. -/
def columnSymbol (schema : Option Schema) (x attr : String) : Symbol :=
  ⟨columnName x attr, ((schema.bind (·.typeOf? attr)).map SymbolType.ofDataType).getD .int⟩

theorem Encoder.column_eq (e : Encoder) (x attr : String) :
    e.column x attr = columnSymbol (e.schemaOf? x) x attr := by
  unfold column columnSymbol
  cases (e.schemaOf? x).bind (·.typeOf? attr) <;> rfl

namespace World

/-- What the symbols of a tuple show. -/
inductive Shows (L : Legend) (w : World) (x : String) : Symbol → ℚ → Prop
  | column {r : ExactRow} {attr : String} {c : ExactCell} (hr : w.tuples x = some r)
      (hc : r attr = some c) (hattr : '!' ∉ attr.toList) :
      Shows L w x (columnSymbol (w.schemas x) x attr) (L.code c.value.scalar)
  | null {r : ExactRow} {attr : String} {c : ExactCell} (hr : w.tuples x = some r)
      (hc : r attr = some c) (hattr : '!' ∉ attr.toList) :
      Shows L w x ⟨nullName x attr, .nat⟩ (truth (c.null = true))
  | count {r : ExactRow} (hr : w.tuples x = some r) (table : String) :
      Shows L w x ⟨countName table x, .nat⟩ (w.count table r)

variable {L : Legend} {w : World} {x : String}

theorem Shows.owner? (hx : Clean x) {s : Symbol} {q : ℚ} (h : Shows L w x s q) :
    s.owner? = some x := by
  cases h with
  | column _ _ hattr => exact Symbol.owner?_column hx hattr _
  | null _ _ hattr => exact Symbol.owner?_null hx hattr _
  | count _ table => exact Symbol.owner?_count hx table _

theorem columnName_inj {x a b : String} (h : columnName x a = columnName x b) : a = b := by
  have := congrArg String.toList h
  simpa [columnName, String.toList_inj] using this

theorem mark_notMem_columnName {x a : String} (hx : Clean x) (ha : '!' ∉ a.toList) :
    '!' ∉ (columnName x a).toList := by
  rw [Symbol.toList_columnName, List.mem_append, List.mem_cons]
  rintro (h | h | h)
  · exact hx.2 h
  · exact absurd h (by decide)
  · exact ha h

/-- A null flag is named otherwise than a count. -/
theorem nullName_ne_countName {x a : String} (hx : Clean x) (ha : '!' ∉ a.toList)
    (table : String) : nullName x a ≠ countName table x := by
  intro h
  have hlist := congrArg String.toList h
  have hnull : (nullName x a).toList = "isnull".toList ++ '!' :: (columnName x a).toList := by
    simp [nullName, columnName]
  have hcount : (countName table x).toList = table.toList ++ '!' :: x.toList := by
    simp [countName]
  rw [hnull, hcount] at hlist
  have hlast := congrArg (fun cs => cs.reverse.takeWhile (· ≠ '!')) hlist
  rw [Symbol.takeWhile_reverse_append (mark_notMem_columnName hx ha),
    Symbol.takeWhile_reverse_append hx.2, List.reverse_inj, Symbol.toList_columnName] at hlast
  exact hx.1 (hlast ▸ by simp)

/-- A symbol shows one value. -/
theorem Shows.unique (hx : Clean x) {s t : Symbol} {p q : ℚ} (hp : Shows L w x s p)
    (hq : Shows L w x t q) (h : s = t) : p = q := by
  have hname := congrArg Symbol.name h
  -- The name of a column has no exclamation mark, and the other names have one.
  have hcolumn : ∀ {a name : String}, '!' ∉ a.toList → '!' ∈ name.toList →
      columnName x a ≠ name := by
    rintro a name ha hmark rfl
    exact mark_notMem_columnName hx ha hmark
  have hnull : ∀ a : String, '!' ∈ (nullName x a).toList := by simp [nullName]
  have hcount : ∀ table : String, '!' ∈ (countName table x).toList := by simp [countName]
  cases hp with
  | @column r a c hr hc ha =>
      cases hq with
      | @column r' b d hr' hd _ =>
          obtain rfl := columnName_inj hname
          cases hr.symm.trans hr'
          cases hc.symm.trans hd
          rfl
      | @null r' b d _ _ _ => exact absurd hname (hcolumn ha (hnull b))
      | count _ table => exact absurd hname (hcolumn ha (hcount table))
  | @null r a c hr hc ha =>
      cases hq with
      | @column r' b d _ _ hb => exact absurd hname.symm (hcolumn hb (hnull a))
      | @null r' b d hr' hd _ =>
          have hname : columnName x a = columnName x b := by
            have := congrArg String.toList hname
            simpa [nullName, columnName, ← String.toList_inj] using this
          obtain rfl := columnName_inj hname
          cases hr.symm.trans hr'
          cases hc.symm.trans hd
          rfl
      | count _ table => exact absurd hname (nullName_ne_countName hx ha table)
  | @count r hr table =>
      cases hq with
      | @column r' b d _ _ hb => exact absurd hname.symm (hcolumn hb (hcount table))
      | @null r' b d _ _ hb => exact absurd hname.symm (nullName_ne_countName hx hb table)
      | @count r' hr' table' =>
          have htable : table = table' := by
            have := congrArg String.toList hname
            simpa [countName, String.toList_inj] using this
          cases hr.symm.trans hr'
          rw [htable]

/-! ### Interpretations that show a world -/

/-- The interpretation shows every bound tuple. -/
def Depicted (L : Legend) (w : World) (ρ : Interpretation) : Prop :=
  ∀ x, Clean x → ∀ s q, Shows L w x s q → ρ s = q

open Classical in
/-- The interpretation changed to show the tuples of the given names. -/
noncomputable def paint (L : Legend) (w : World) (X : Set String) (ρ : Interpretation) :
    Interpretation := fun s =>
  if h : ∃ q, ∃ x ∈ X, Clean x ∧ Shows L w x s q then h.choose else ρ s

theorem paint_of_shows {X : Set String} (ρ : Interpretation) (hX : x ∈ X) (hx : Clean x)
    {s : Symbol} {q : ℚ} (h : Shows L w x s q) : w.paint L X ρ s = q := by
  have hex : ∃ q, ∃ x ∈ X, Clean x ∧ Shows L w x s q := ⟨q, x, hX, hx, h⟩
  rw [paint, dif_pos hex]
  obtain ⟨y, _, hy, hshows⟩ := hex.choose_spec
  obtain rfl : y = x := Option.some.inj ((hshows.owner? hy).symm.trans (h.owner? hx))
  exact hshows.unique hx h rfl

/-- Symbols of other tuples, and symbols of no tuple, keep their values. -/
theorem paint_of_owner? {X : Set String} (ρ : Interpretation) {s : Symbol}
    (h : ∀ x ∈ X, s.owner? ≠ some x) : w.paint L X ρ s = ρ s := by
  rw [paint, dif_neg]
  rintro ⟨q, x, hX, hx, hshows⟩
  exact h x hX (hshows.owner? hx)

/-- A world is shown after its new tuples are painted. -/
theorem Depicted.paint {w w' : World} {X : Set String} {ρ : Interpretation}
    (h : w.Depicted L ρ) (hcount : w'.count = w.count)
    (hother : ∀ x, x ∉ X → w'.tuples x = w.tuples x ∧ w'.schemas x = w.schemas x) :
    w'.Depicted L (w'.paint L X ρ) := by
  intro x hx s q hshows
  by_cases hX : x ∈ X
  · exact paint_of_shows ρ hX hx hshows
  · obtain ⟨htuples, hschemas⟩ := hother x hX
    have howner := hshows.owner? hx
    rw [paint_of_owner? ρ fun y hy heq => hX (Option.some.inj (howner.symm.trans heq) ▸ hy)]
    refine h x hx s q ?_
    cases hshows with
    | column hr hc hattr => rw [hschemas]; exact .column (htuples ▸ hr) hc hattr
    | null hr hc hattr => exact .null (htuples ▸ hr) hc hattr
    | count hr table => rw [hcount]; exact .count (htuples ▸ hr) table

/-- Every bound tuple has a schema and a row that fits it, and every tuple with a schema is
bound. -/
structure Furnished (L : Legend) (w : World) : Prop where
  fits : ∀ x r, w.tuples x = some r → ∃ S, w.schemas x = some S ∧ r.Fits L S
  full : ∀ x S, w.schemas x = some S → ∃ r, w.tuples x = some r

theorem Furnished.row (h : w.Furnished L) {S : Schema} (hS : w.schemas x = some S) :
    ∃ r, w.tuples x = some r ∧ r.Fits L S := by
  obtain ⟨r, hr⟩ := h.full x S hS
  obtain ⟨S', hS', hfits⟩ := h.fits x r hr
  cases hS.symm.trans hS'
  exact ⟨r, hr, hfits⟩

/-- What is shown is admitted by the types of the symbols. -/
theorem Shows.admits (h : w.Furnished L) {s : Symbol} {q : ℚ} (hs : Shows L w x s q) :
    q ∈ L.admits s.type := by
  cases hs with
  | @column r attr c hr hc hattr =>
      obtain ⟨S, hS, hfits⟩ := h.fits x r hr
      rw [columnSymbol, hS, Option.bind_some]
      cases htype : S.typeOf? attr with
      | none => exact Set.mem_univ _
      | some type => exact hfits.typed attr c type hc htype
  | null => exact truth_nonneg _
  | count => exact Nat.cast_nonneg (α := ℚ) _

theorem admits_paint (h : w.Furnished L) {X : Set String} {ρ : Interpretation}
    (hρ : ∀ s, ρ s ∈ L.admits s.type) (s : Symbol) : w.paint L X ρ s ∈ L.admits s.type := by
  unfold World.paint
  split
  · next hex =>
      obtain ⟨y, _, _, hshows⟩ := hex.choose_spec
      exact hshows.admits h
  · exact hρ s

/-! ### Equal tuples -/

/-- Columns of rows that fit their schemas have equal values if and only if they have equal
cells. -/
theorem Depicted.columns_eq_iff {ρ : Interpretation} (h : w.Depicted L ρ) {y : String}
    (hx : Clean x) (hy : Clean y) {a b : ExactRow} (ha : w.tuples x = some a)
    (hb : w.tuples y = some b) {S T : Schema} (hS : a.Fits L S) (hT : b.Fits L T)
    {col col' : Column} (hcol : col ∈ S.columns) (hcol' : col' ∈ T.columns) :
    ρ (columnSymbol (w.schemas x) x col.name) = ρ (columnSymbol (w.schemas y) y col'.name) ↔
      a.agree b (col, col') = true := by
  obtain ⟨c, hc⟩ := Option.isSome_iff_exists.mp ((hS.columns col.name).mpr ⟨col, hcol, rfl⟩)
  obtain ⟨d, hd⟩ := Option.isSome_iff_exists.mp ((hT.columns col'.name).mpr ⟨col', hcol', rfl⟩)
  rw [h x hx _ _ (.column ha hc (hS.names col hcol)),
    h y hy _ _ (.column hb hd (hT.names col' hcol'))]
  simp only [ExactRow.agree, hc, hd, Option.isSome_some, Bool.true_and, decide_eq_true_eq,
    Option.some.injEq]
  exact ⟨fun heq => (hS.cells _ c hc).eq_of_code_eq (hT.cells _ d hd) heq, fun heq => by rw [heq]⟩

/-- Columns with equal cells have equal null flags. -/
theorem Depicted.null_eq {ρ : Interpretation} (h : w.Depicted L ρ) {y : String}
    (hx : Clean x) (hy : Clean y) {a b : ExactRow} (ha : w.tuples x = some a)
    (hb : w.tuples y = some b) {S T : Schema} (hS : a.Fits L S) (hT : b.Fits L T)
    {col col' : Column} (hcol : col ∈ S.columns) (hcol' : col' ∈ T.columns)
    (hagree : a.agree b (col, col') = true) :
    ρ ⟨nullName x col.name, .nat⟩ = ρ ⟨nullName y col'.name, .nat⟩ := by
  obtain ⟨c, hc⟩ := Option.isSome_iff_exists.mp ((hS.columns col.name).mpr ⟨col, hcol, rfl⟩)
  obtain ⟨d, hd⟩ := Option.isSome_iff_exists.mp ((hT.columns col'.name).mpr ⟨col', hcol', rfl⟩)
  simp only [ExactRow.agree, hc, hd, Option.isSome_some, Bool.true_and, decide_eq_true_eq,
    Option.some.injEq] at hagree
  rw [h x hx _ _ (.null ha hc (hS.names col hcol)),
    h y hy _ _ (.null hb hd (hT.names col' hcol')), hagree]

end World

end BagEquiv
