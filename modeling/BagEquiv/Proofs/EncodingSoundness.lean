/-
**No counterexample is lost.**

If two terms have different values over a database whose rows fit the schemas of their tuples, then
the formula that they differ can be satisfied.  The database gives a world for the terms: texts are
read as numbers above all numbers of the database, in their order, and a tuple that has a schema and
no row gets a row of default values, which can only give more terms a value.

Main definition:

* `Datum.HasType`, `Row.Conforms`, `Database.Conforms` — databases that
  fit the schemas of tuples.

Main result:

* `encodePair_sound` — **if the values of two terms differ over a database, then the
  formula that they differ can be satisfied**.
-/

import Mathlib.Algebra.Order.Field.Basic
import Mathlib.Logic.Equiv.List
import Mathlib.Order.CountableDenseLinearOrder
import Mathlib.Order.Interval.Set.OrdConnected
import BagEquiv.Proofs.PairEncoding

set_option autoImplicit false

namespace BagEquiv

variable {schemas : SchemaMap} {db : Database} {e : Encoder} {r : Row}

theorem NameMap.mem_of_get? {α : Type} {m : NameMap α} {k : String} {v : α}
    (h : m.get? k = some v) : (k, v) ∈ m.entries := by
  unfold get? at h
  generalize m.entries = entries at h ⊢
  induction entries with
  | nil => cases h
  | cons entry rest ih =>
      rw [lookup] at h
      split at h
      · next heq =>
          obtain rfl := Option.some.inj h
          exact heq ▸ List.mem_cons_self
      · exact List.mem_cons_of_mem _ (ih h)

/-! ### Databases that fit schemas -/

/-- The value belongs to the type of a column; whole numbers are stored as integers. -/
def Datum.HasType : DataType → Datum → Prop
  | .integer, .int _ => True
  | .natural, .int n => 0 ≤ n.toInt
  | .real, .int _ => True
  | .real, .real q => q.toRat.den ≠ 1
  | .string, .str _ => True
  | .char, .str _ => True
  | _, _ => False

/-- The row has exactly the columns of the schema, with values of their types. -/
structure Row.Conforms (S : Schema) (r : Row) : Prop where
  columns : ∀ entry ∈ r.entries, ∃ col ∈ S.columns, col.name = entry.1
  values : ∀ col ∈ S.columns, ∃ c, r.get? col.name = some c ∧ c.value.HasType col.type

namespace Database

/-- The output row and the rows of all tables. -/
def allRows (db : Database) : List Row :=
  db.output :: db.tables.entries.flatMap fun t => t.2.rows

/-- The cells of all rows. -/
def cells (db : Database) : List Cell := db.allRows.flatMap fun r => r.entries.map Prod.snd

/-- The tables list distinct rows, equal values have equal null flags, and the rows conform to the
schemas of the variables that range over their tables, and of the output tuple. -/
structure Conforms (schemas : SchemaMap) (output : String) (ts : List Term) (db : Database) :
    Prop where
  distinct : ∀ table, (db.rows table).Pairwise fun a b => a.same b = false
  flags : ∀ c ∈ db.cells, ∀ d ∈ db.cells, c.value.same d.value = true → c.null = d.null
  ranged : ∀ b ∈ ts.flatMap Term.boundVars, ∃ S, schemas.get? b.var.tuple = some S ∧
    ∀ table ∈ b.table, ∀ r ∈ db.rows table, r.Conforms S
  output : ∃ S, schemas.get? output = some S ∧ db.output.Conforms S

theorem mem_allRows {table : String} (h : r ∈ db.rows table) : r ∈ db.allRows := by
  refine List.mem_cons_of_mem _ (List.mem_flatMap.mpr ?_)
  rw [rows, Database.table] at h
  cases hget : db.tables.get? table with
  | none =>
      rw [hget] at h
      cases h
  | some t =>
      rw [hget] at h
      exact ⟨_, NameMap.mem_of_get? hget, h⟩

theorem mem_cells (hr : r ∈ db.allRows) {attr : String} {c : Cell} (hc : r.get? attr = some c) :
    c ∈ db.cells :=
  List.mem_flatMap.mpr ⟨r, hr, List.mem_map.mpr ⟨_, NameMap.mem_of_get? hc, rfl⟩⟩

end Database

/-! ### Legends -/

instance countable_char : Countable Char :=
  Function.Injective.countable (f := Char.toNat) fun _ _ h => Char.toNat_inj.mp h

instance countable_string : Countable String :=
  Function.Injective.countable (f := String.toList) fun _ _ h => String.toList_inj.mp h

/-- Texts can be read as numbers that are not among some given ones. -/
theorem exists_legend (numbers : List ℚ) (null : ExactDatum → Bool) :
    ∃ L : Legend, L.null = null ∧ ∀ n ∈ numbers, ∀ s, L.text s ≠ n := by
  obtain ⟨m, hm⟩ : ∃ m, ∀ n ∈ numbers, n ≤ m := by
    induction numbers with
    | nil => exact ⟨0, by simp⟩
    | cons n ns ih =>
        obtain ⟨m, hm⟩ := ih
        refine ⟨max n m, List.forall_mem_cons.mpr ⟨le_max_left n m, fun k hk => ?_⟩⟩
        exact le_trans (hm k hk) (le_max_right n m)
  -- The texts find room above the largest of them.
  have : Nontrivial (Set.Ioi m) := by
    obtain ⟨a, ha⟩ := exists_gt m
    obtain ⟨b, hb⟩ := exists_gt a
    exact ⟨⟨a, ha⟩, ⟨b, lt_trans ha hb⟩, fun heq => ne_of_lt hb (congrArg Subtype.val heq)⟩
  obtain ⟨f⟩ : Nonempty (String ↪o Set.Ioi m) := Order.embedding_from_countable_to_dense _ _
  refine ⟨⟨fun s => f s, fun s t h => f.strictMono h, null⟩, rfl, fun n hn s heq => ?_⟩
  have hs : m < f s := (f s).2
  exact absurd (heq ▸ hs) (not_lt.mpr (hm n hn))

/-- A legend for a database: no text is read as zero or as a number of the database, and the null
flags are those of the values. -/
structure Legend.Covers (L : Legend) (db : Database) : Prop where
  zero : ∀ s, L.text s ≠ 0
  apart : ∀ c ∈ db.cells, ∀ n, c.value.exact.scalar = .number n → ∀ s, L.text s ≠ n
  null : ∀ c ∈ db.cells, c.null = L.null c.value.exact

theorem exists_legend_covers
    (h : ∀ c ∈ db.cells, ∀ d ∈ db.cells, c.value.same d.value = true → c.null = d.null) :
    ∃ L : Legend, L.Covers db := by
  obtain ⟨L, hnull, htext⟩ := exists_legend
    (0 :: db.cells.filterMap fun c => c.value.exact.scalar.number?)
    fun d => db.cells.any fun c => decide (c.value.exact = d) && c.null
  rw [List.forall_mem_cons] at htext
  refine ⟨L, htext.1, fun c hc n hn => htext.2 n ?_, fun c hc => ?_⟩
  · exact List.mem_filterMap.mpr ⟨c, hc, by rw [hn]; rfl⟩
  · rw [hnull, Bool.eq_iff_iff, List.any_eq_true]
    constructor
    · exact fun hnull => ⟨c, hc, by simp [hnull]⟩
    · rintro ⟨d, hd, hsame⟩
      rw [Bool.and_eq_true, decide_eq_true_eq] at hsame
      rw [h c hc d hd ((Datum.same_iff_exact _ _).mpr hsame.1.symm), hsame.2]

/-! ### Rows that fit -/

variable {L : Legend} {S : Schema}

theorem Schema.typeOf?_eq_some {attr : String} {type : DataType} (h : S.typeOf? attr = some type) :
    ∃ col ∈ S.columns, col.name = attr ∧ col.type = type := by
  obtain ⟨col, hcol, rfl⟩ := Option.map_eq_some_iff.mp h
  exact ⟨col, List.mem_of_find?_eq_some hcol, by simpa using List.find?_some hcol, rfl⟩

theorem Schema.isSome_typeOf? (S : Schema) (attr : String) :
    (S.typeOf? attr).isSome ↔ ∃ col ∈ S.columns, col.name = attr := by
  simp [typeOf?]

/-- A value of a type is shown as a number that the type admits. -/
theorem Datum.HasType.admits : ∀ {type : DataType} {d : Datum}, d.HasType type →
    L.code d.exact.scalar ∈ L.admits (.ofDataType type)
  | .integer, .int _, _ | .real, .int _, _ | .real, .real _, _ => Set.mem_univ _
  | .natural, .int n, h => (Int.cast_nonneg h : (0 : ℚ) ≤ n.toInt)
  | .string, .str s, _ | .char, .str s, _ => Set.mem_range_self s

theorem Datum.HasType.proper {type : DataType} {d : Datum} (h : d.HasType type)
    (hapart : ∀ n, d.exact.scalar = .number n → ∀ s, L.text s ≠ n) : d.exact.Proper L := by
  refine ⟨fun q hq => ?_, hapart⟩
  match type, d, h with
  | .real, .real _, h => exact ExactDatum.real.inj hq ▸ h
  | _, .int _, _ => cases hq
  | _, .str _, _ => cases hq

/-- A row fits the schema that it conforms to, if no text is read as a number in one of its cells
and the null flags are those of the values. -/
theorem Row.Conforms.fits (h : r.Conforms S)
    (hcells : ∀ attr c, r.get? attr = some c →
      (∀ n, c.value.exact.scalar = .number n → ∀ s, L.text s ≠ n) ∧ c.null = L.null c.value.exact)
    (hnames : ∀ col ∈ S.columns, '!' ∉ col.name.toList) : r.exact.Fits L S := by
  have hcell : ∀ {attr c}, r.exact attr = some c → ∃ c₀, r.get? attr = some c₀ ∧ c₀.exact = c :=
    fun hc => Option.map_eq_some_iff.mp hc
  have hcolumn : ∀ {attr c}, r.get? attr = some c → ∃ col ∈ S.columns, col.name = attr :=
    fun hc => h.columns _ (NameMap.mem_of_get? hc)
  refine ⟨fun attr => ⟨fun hsome => ?_, ?_⟩, hnames, fun attr c hc => ?_, ?_⟩
  · obtain ⟨c, hc⟩ := Option.isSome_iff_exists.mp hsome
    obtain ⟨c₀, hc₀, _⟩ := hcell hc
    exact hcolumn hc₀
  · rintro ⟨col, hcol, rfl⟩
    obtain ⟨c, hc, _⟩ := h.values col hcol
    rw [Row.exact, hc]
    rfl
  · obtain ⟨c₀, hc₀, rfl⟩ := hcell hc
    obtain ⟨col, hcol, rfl⟩ := hcolumn hc₀
    obtain ⟨c₁, hc₁, htype⟩ := h.values col hcol
    cases hc₀.symm.trans hc₁
    obtain ⟨hapart, hnull⟩ := hcells _ _ hc₀
    exact ⟨htype.proper hapart, hnull⟩
  · intro attr c type hc htype
    obtain ⟨c₀, hc₀, rfl⟩ := hcell hc
    obtain ⟨col, hcol, rfl, rfl⟩ := Schema.typeOf?_eq_some htype
    obtain ⟨c₁, hc₁, hvalue⟩ := h.values col hcol
    cases hc₀.symm.trans hc₁
    exact hvalue.admits

/-- A row of the database fits the schema that it conforms to. -/
theorem Legend.Covers.fits (hL : L.Covers db) (h : r.Conforms S) (hr : r ∈ db.allRows)
    (hnames : ∀ col ∈ S.columns, '!' ∉ col.name.toList) : r.exact.Fits L S :=
  h.fits (fun _ c hc => have hmem := Database.mem_cells hr hc
    ⟨hL.apart c hmem, hL.null c hmem⟩) hnames

theorem Datum.hasType_default : ∀ type : DataType, (Datum.default type).HasType type
  | .natural => le_refl (0 : ℤ)
  | .integer | .real | .string | .char => trivial

/-- The row of default values. -/
def Legend.defaultRow (L : Legend) (S : Schema) : ExactRow := fun attr =>
  (S.typeOf? attr).map fun type =>
    ⟨(Datum.default type).exact, L.null (Datum.default type).exact⟩

theorem Legend.fits_defaultRow (hzero : ∀ s, L.text s ≠ 0)
    (hnames : ∀ col ∈ S.columns, '!' ∉ col.name.toList) : (L.defaultRow S).Fits L S := by
  have hcell : ∀ {attr c}, L.defaultRow S attr = some c → ∃ type, S.typeOf? attr = some type ∧
      c = ⟨(Datum.default type).exact, L.null (Datum.default type).exact⟩ := fun hc => by
    obtain ⟨type, htype, rfl⟩ := Option.map_eq_some_iff.mp hc
    exact ⟨type, htype, rfl⟩
  refine ⟨fun attr => ?_, hnames, fun attr c hc => ?_, fun attr c type hc htype => ?_⟩
  · rw [← S.isSome_typeOf? attr, defaultRow, Option.isSome_map]
  · obtain ⟨type, _, rfl⟩ := hcell hc
    refine ⟨(Datum.hasType_default type).proper fun n hn => ?_, rfl⟩
    cases type <;> cases hn <;> exact hzero
  · obtain ⟨type', htype', rfl⟩ := hcell hc
    cases htype.symm.trans htype'
    exact (Datum.hasType_default type).admits

/-! ### The world of a database -/

/-- The world of an environment, in which every tuple that has a schema and no row gets the row of
default values. -/
noncomputable def Environment.furnished (L : Legend) (env : Environment) : World :=
  { env.world with
    tuples := fun x => (env.world.tuples x).or ((env.schemas.get? x).map L.defaultRow) }

/-- Over a database the output tuple alone has a row. -/
theorem Environment.rows_ofDatabase {output x : String}
    (h : (ofDatabase db schemas output).rows x = some r) : x = output ∧ db.output = r := by
  simpa [ofDatabase] using h

theorem Environment.extends_furnished (L : Legend) (env : Environment) :
    env.world.Extends (env.furnished L) :=
  ⟨rfl, rfl, rfl, rfl, fun _ _ hr => Option.or_eq_some_iff.mpr (.inl hr)⟩

/-- A term that has a value has it as its number, default values or not. -/
theorem Environment.number_furnished {t : Term} {output : String} {n : ℚ}
    (h : t.valueOver db schemas output = .ok (some n)) :
    t.number ((ofDatabase db schemas output).furnished L) = n :=
  (t.meaning_of_extends (extends_furnished L _)).toNumber.eq_of_coe (Term.number_of_exact h)

/-- The names of the tuples of two terms are as freshening leaves them: the bound ones are
different from each other and from the free ones, and none has a point, an exclamation mark, or a
number sign other than before a number at its end.  Columns have names without exclamation
marks. -/
structure NamedApart (schemas : SchemaMap) (left right : Term) : Prop where
  distinct : (boundNames [left, right]).Nodup
  apart : ∀ x, Mentioned [left, right] x → x ∉ boundNames [left, right]
  bound : ∀ x ∈ boundNames [left, right], TupleName x
  free : ∀ x, Mentioned [left, right] x → TupleName x
  columns : ∀ x S, schemas.get? x = some S → ∀ col ∈ S.columns, '!' ∉ col.name.toList

theorem NamedApart.ready {left right : Term} (h : NamedApart schemas left right) (hl : left.Regular)
    (hr : right.Regular) : Ready 0 [left, right] :=
  ⟨h.distinct, fun x hx => (h.bound x hx).settled, fun x hx => (h.free x hx).settled, h.apart,
    List.forall_mem_cons.mpr ⟨hl, List.forall_mem_singleton.mpr hr⟩⟩

section Conforms

variable {schemas : SchemaMap} {output : String} {ts : List Term} {db : Database}

theorem Database.Conforms.listed (h : db.Conforms schemas output ts) :
    ((Environment.ofDatabase db schemas output).furnished L).Listed where
  nodup table := by
    refine List.pairwise_map.mpr ((h.distinct table).imp fun {a b} hab heq => ?_)
    rw [(Row.same_iff_exact a b).mpr heq] at hab
    cases hab
  count table r hr := Table.count_of_notMem hr

theorem Database.Conforms.stocked (h : db.Conforms schemas output ts) (hL : L.Covers db)
    (hcolumns : ∀ x S, schemas.get? x = some S → ∀ col ∈ S.columns, '!' ∉ col.name.toList) :
    ((Environment.ofDatabase db schemas output).furnished L).Stocked L ts := by
  intro b hb
  obtain ⟨S, hS, hrows⟩ := h.ranged b hb
  refine ⟨S, hS, fun table htable r hr => ?_⟩
  obtain ⟨row, hrow, rfl⟩ := List.mem_map.mp hr
  exact hL.fits (hrows table htable row hrow) (Database.mem_allRows hrow) (hcolumns _ S hS)

theorem Database.Conforms.furnished (h : db.Conforms schemas output ts) (hL : L.Covers db)
    (hcolumns : ∀ x S, schemas.get? x = some S → ∀ col ∈ S.columns, '!' ∉ col.name.toList) :
    ((Environment.ofDatabase db schemas output).furnished L).Furnished L := by
  constructor
  · intro x r hr
    rcases Option.or_eq_some_iff.mp hr with hr | ⟨_, hr⟩
    · obtain ⟨row, hrow, rfl⟩ := Option.map_eq_some_iff.mp hr
      obtain ⟨S, hS, hconforms⟩ := h.output
      obtain ⟨rfl, rfl⟩ := Environment.rows_ofDatabase hrow
      exact ⟨S, hS, hL.fits hconforms List.mem_cons_self (hcolumns _ S hS)⟩
    · obtain ⟨S, hS, rfl⟩ := Option.map_eq_some_iff.mp hr
      exact ⟨S, hS, L.fits_defaultRow hL.zero (hcolumns x S hS)⟩
  · intro x S hS
    refine Option.isSome_iff_exists.mp ?_
    have hS : schemas.get? x = some S := hS
    simp [Environment.furnished, Environment.ofDatabase, hS]

end Conforms

/-! ### Interpretations to start from -/

open Classical in
/-- Literals have the values of their texts, and other symbols some value of their types. -/
noncomputable def Encoder.spelling (L : Legend) (e : Encoder) : Interpretation := fun s =>
  if h : ∃ t, e.literals.get? t = some s then L.text h.choose
  else match s.type with
    | .str | .char => L.text ""
    | .int | .nat | .real => 0

theorem Encoder.spells_spelling (h : e.Tidy) (L : Legend) :
    e.Spells L (e.spelling L) := fun t v hv => by
  have hex : ∃ t, e.literals.get? t = some v := ⟨t, hv⟩
  rw [spelling, dif_pos hex, h.injective _ _ _ hex.choose_spec hv]

theorem Encoder.admits_spelling (h : e.Tidy) (L : Legend) (s : Symbol) :
    e.spelling L s ∈ L.admits s.type := by
  unfold spelling
  split
  · next hs =>
      obtain ⟨k, _, rfl⟩ := h.literals _ _ hs.choose_spec
      exact Set.mem_range_self _
  · cases s.type with
    | int | real => exact Set.mem_univ _
    | nat => exact le_refl (0 : ℚ)
    | str | char => exact Set.mem_range_self _

/-- A world can be shown, whatever the literals are. -/
theorem World.depicted_paint_spelling (w : World) (h : e.Tidy) :
    w.Depicted L (w.paint L Set.univ (e.spelling L)) ∧
      e.Spells L (w.paint L Set.univ (e.spelling L)) := by
  have hempty : { w with tuples := fun _ => none }.Depicted L (e.spelling L) := by
    intro x hx s q hshows
    cases hshows with
    | column hr | null hr | count hr => cases hr
  exact ⟨hempty.paint rfl fun x hx => absurd (Set.mem_univ x) hx,
    Encoder.spells_paint h (Encoder.spells_spelling h L) _⟩

theorem World.Furnished.exists_depicted {w : World} (hw : w.Furnished L) (h : e.Tidy) :
    ∃ ρ : Interpretation, w.Depicted L ρ ∧ e.Spells L ρ ∧
      ∀ s, ρ s ∈ L.admits s.type :=
  ⟨_, (w.depicted_paint_spelling h).1, (w.depicted_paint_spelling h).2,
    World.admits_paint hw (Encoder.admits_spelling h L)⟩

/-! ### A pair to try things on -/

/-- One column of integers. -/
def Schema.single : Schema := ⟨[⟨"a", .integer⟩]⟩

/-- A row with one column. -/
def Row.single (n : Int64) : Row := .ofList [("a", .ofDatum (.int n))]

/-- A table with three rows, two of them equal. -/
def Database.threeRows : Database :=
  ⟨.ofList [("r", [(.single 0, 1), (.single 1, 2)])], .single 0⟩

/-- The same schema for the variables of two terms and for the output tuple. -/
def SchemaMap.uniform : SchemaMap :=
  .ofList (["x#0", "y#1", "w#2", "z#3", "out"].map fun x => (x, .single))

theorem Row.conforms_single (n : Int64) (null : Bool) :
    Row.Conforms .single (.ofList [("a", ⟨.int n, null⟩)]) where
  columns entry hentry := by
    obtain rfl := List.mem_singleton.mp hentry
    exact ⟨_, List.mem_singleton_self _, rfl⟩
  values col hcol := by
    obtain rfl := List.mem_singleton.mp hcol
    exact ⟨_, rfl, trivial⟩

theorem Term.mentions_twoRows (x y z : String) (bound : Fraction) :
    (Term.twoRows x y bound).mentions z = false := by
  have hbound : Term.bound z (.ofList [.base x, .base y]) = (decide (x = z) || decide (y = z)) := by
    rw [Bool.eq_iff_iff, OpenSum.bound_eq_true]
    simp [VarSet.mem_ofList, Var.tuple]
  simp only [Term.twoRows, Term.mentions, Term.mentionsAny, hbound, Var.tuple]
  by_cases hx : x = z <;> by_cases hy : y = z <;> simp [hx, hy]

theorem Term.regular_twoRows (x y : String) (n : Int64) :
    (Term.twoRows x y (.ofWord n)).Regular := by
  simp only [twoRows, Regular, AllRegular, true_and, and_true]
  exact ⟨by decide, Fraction.positive_ofWord n⟩

/-- The rows of a table to which no row of the table is equal. -/
def Term.unmatchedRows (x y : String) : Term :=
  .sumOver [x] (.mul [.table "r" (.base x),
    .neg (.sumOver [y] (.mul [.table "r" (.base y), .equal (.tuple x) (.tuple y)]))])

/-- Minus one half is less than one half. -/
def Term.minusHalfBelowHalf : Term :=
  .pred .lt [.const .minusHalf, .const .half]

theorem namedApart_twoRows : NamedApart .uniform (.twoRows "x#0" "y#1" (.ofWord 1))
    (.twoRows "z#3" "w#2" (.ofWord 2)) := by
  have hnames : boundNames [.twoRows "x#0" "y#1" (.ofWord 1), .twoRows "z#3" "w#2" (.ofWord 2)] =
      ["x#0", "y#1", "w#2", "z#3"] := by
    decide +kernel
  have hfree : ∀ x, ¬Mentioned
      [.twoRows "x#0" "y#1" (.ofWord 1), .twoRows "z#3" "w#2" (.ofWord 2)] x := by
    rintro x ⟨t, ht, hx⟩
    simp only [List.mem_cons, List.not_mem_nil, or_false] at ht
    rcases ht with rfl | rfl <;> simp [Term.mentions_twoRows] at hx
  have hname : ∀ (base : String) (n : ℕ), Clean base → '#' ∉ base.toList →
      TupleName (base ++ "#" ++ toString n) :=
    fun base n hclean hsign => ⟨base, hclean, hsign, .inr ⟨n, rfl⟩⟩
  refine ⟨hnames ▸ by decide, fun x hx => absurd hx (hfree x), ?_,
    fun x hx => absurd hx (hfree x), fun x S hS => ?_⟩
  · rw [hnames]
    simp only [List.forall_mem_cons, List.not_mem_nil, false_implies, implies_true, and_true]
    exact ⟨hname "x" 0 (by decide) (by decide), hname "y" 1 (by decide) (by decide),
      hname "w" 2 (by decide) (by decide), hname "z" 3 (by decide) (by decide)⟩
  · have hall : ∀ entry ∈ SchemaMap.uniform.entries, entry.2 = .single := by decide +kernel
    obtain rfl : S = .single := hall _ (NameMap.mem_of_get? hS)
    decide

theorem conforms_threeRows : Database.threeRows.Conforms .uniform "out"
    [.twoRows "x#0" "y#1" (.ofWord 1), .twoRows "z#3" "w#2" (.ofWord 2)] := by
  have hcells : Database.threeRows.cells =
      [.ofDatum (.int 0), .ofDatum (.int 0), .ofDatum (.int 1)] := by
    decide +kernel
  have hvars : [Term.twoRows "x#0" "y#1" (.ofWord 1), .twoRows "z#3" "w#2" (.ofWord 2)].flatMap
      Term.boundVars = ["x#0", "y#1", "w#2", "z#3"].map fun x => ⟨.base x, some "r"⟩ := by
    decide +kernel
  constructor
  · intro table
    have hget := NameMap.get?_insert (.empty : NameMap Table) "r"
      [(Row.single 0, 1), (Row.single 1, 2)] table
    change Database.threeRows.tables.get? table = _ at hget
    rw [Database.rows, Database.table, hget]
    split
    · decide +kernel
    · exact .nil
  · rw [hcells]
    decide
  · rw [hvars, List.forall_mem_map]
    intro x hx
    refine ⟨.single, ?_, fun table htable r hr => ?_⟩
    · revert x
      decide +kernel
    · obtain rfl : "r" = table := Option.some.inj htable
      have hrows : Database.threeRows.rows "r" = [.single 0, .single 1] := by decide +kernel
      rw [hrows] at hr
      simp only [List.mem_cons, List.not_mem_nil, or_false] at hr
      rcases hr with rfl | rfl
      · exact Row.conforms_single 0 false
      · exact Row.conforms_single 1 false
  · exact ⟨.single, by decide +kernel, Row.conforms_single 0 false⟩

/-! ### Soundness -/

theorem Encoder.tidy_ofSchemas
    (h : ∀ x S, schemas.get? x = some S → ∀ col ∈ S.columns, '!' ∉ col.name.toList) :
    (Encoder.ofSchemas schemas).Tidy where
  literals s v hv := by cases hv
  injective s t v hv := by cases hv
  counted p hp := by cases hp
  counts x hx := by cases hx
  columns := h

theorem encodePair_eq_ok {m : Matching} {budget : Budget} {left right : Term} {F : Encoding}
    (h : encodePair schemas m budget left right = .ok F) :
    ∃ f e, Returns (Encoder.difference m budget left right) (.ofSchemas schemas) f e ∧
      f.simplify = .ok F.formula := by
  unfold encodePair at h
  split at h
  · cases h
  · next f e hrun =>
      refine ⟨f, e, hrun, ?_⟩
      cases hsimplify : f.simplify with
      | error fault =>
          rw [hsimplify] at h
          cases h
      | ok g =>
          rw [hsimplify] at h
          cases h
          rfl

/-- If the values of two terms differ over a database, then the formula that they differ can be
satisfied, whatever the functions are that it names. -/
theorem encodePair_sound {schemas : SchemaMap} {m : Matching} {budget : Budget} {left right : Term}
    {F : Encoding} (hnames : NamedApart schemas left right) (hleft : left.Regular)
    (hright : right.Regular) (h : encodePair schemas m budget left right = .ok F)
    {db : Database} {output : String} (hdb : db.Conforms schemas output [left, right]) {p q : ℚ}
    (hp : left.valueOver db schemas output = .ok (some p))
    (hq : right.valueOver db schemas output = .ok (some q)) (hne : p ≠ q)
    (apply : String → SymbolType → List ℚ → ℚ) (overZero : ℚ → ℚ) :
    ∃ (L : Legend) (ρ : Interpretation), (∀ s, ρ s ∈ L.admits s.type) ∧
      F.formula.Holds (.lexical L.admits apply overZero) {s | s ∈ F.formula.surface} ρ := by
  obtain ⟨f, e, hreturns, hsimplify⟩ := encodePair_eq_ok h
  have hcontrasted := Encoder.difference_ok (Encoder.tidy_ofSchemas hnames.columns) rfl
    (hnames.ready hleft hright) hreturns
  obtain ⟨L, hL⟩ := exists_legend_covers hdb.flags
  have hfurnished := hdb.furnished hL hnames.columns
  obtain ⟨ρ₀, hdepicted, hspells, hadmits⟩ := hfurnished.exists_depicted hcontrasted.tidy
  obtain ⟨ρ, hρ, hholds⟩ := hcontrasted.sound apply overZero
    ⟨hdepicted, hfurnished, fun _ => rfl, fun _ _ => rfl⟩ hspells hadmits hdb.listed
    (hdb.stocked hL hnames.columns) (Environment.number_furnished hp)
    (Environment.number_furnished hq) hne
  have hsurface := (Formula.simplify_refines hsimplify).built (Formula.built_iff_surface.mpr
    ⟨hcontrasted.built, fun s hs => (hs : s ∈ {s | s ∈ f.surface})⟩)
  exact ⟨L, ρ, hρ, Formula.simplify_holds hcontrasted.conjunctive hcontrasted.built hsimplify
    (Formula.built_iff_surface.mp hsurface).2 hholds⟩

theorem encodePair_sound_twoRows : ∃ F : Encoding,
    encodePair .uniform ⟨[.ofList [.base "x#0", .base "z#3"]]⟩ .unlimited
      (.twoRows "x#0" "y#1" (.ofWord 1)) (.twoRows "z#3" "w#2" (.ofWord 2)) = .ok F ∧
    ∃ (L : Legend) (ρ : Interpretation), (∀ s, ρ s ∈ L.admits s.type) ∧
      F.formula.Holds (.lexical L.admits (fun _ _ _ => 0) fun _ => 0)
        {s | s ∈ F.formula.surface} ρ := by
  have hok : (encodePair .uniform ⟨[.ofList [.base "x#0", .base "z#3"]]⟩ .unlimited
      (.twoRows "x#0" "y#1" (.ofWord 1)) (.twoRows "z#3" "w#2" (.ofWord 2))).isOk = true := by
    decide +kernel
  obtain ⟨F, hF⟩ := exists_of_isOk hok
  exact ⟨F, hF, encodePair_sound namedApart_twoRows (Term.regular_twoRows "x#0" "y#1" 1)
    (Term.regular_twoRows "z#3" "w#2" 2) hF conforms_threeRows (p := 3) (q := 9)
    (by decide +kernel) (by decide +kernel) (by decide) (fun _ _ _ => 0) fun _ => 0⟩

/-- The order of fractions goes wrong where a denominator is negative: the formula that a true
comparison differs from zero is simplified to a false one. -/
theorem encodePair_of_negative_denominator : ∃ F : Encoding,
    NamedApart .uniform .minusHalfBelowHalf (.const .zero) ∧
    Database.threeRows.Conforms .uniform "out" [.minusHalfBelowHalf, .const .zero] ∧
    encodePair .uniform ⟨[]⟩ .unlimited .minusHalfBelowHalf (.const .zero) = .ok F ∧
    Term.minusHalfBelowHalf.valueOver .threeRows .uniform "out" = .ok (some (1 : ℚ)) ∧
    (Term.const .zero).valueOver .threeRows .uniform "out" = .ok (some (0 : ℚ)) ∧
    ∀ (R : Reading) (K : Set Symbol) (ρ : Interpretation), ¬F.formula.Holds R K ρ := by
  have hfree : ∀ x, ¬Mentioned [.minusHalfBelowHalf, .const .zero] x := by
    rintro x ⟨t, ht, hx⟩
    simp only [List.mem_cons, List.not_mem_nil, or_false] at ht
    rcases ht with rfl | rfl <;> cases hx
  have hconforms := conforms_threeRows
  refine ⟨⟨.bool false, []⟩, ⟨List.nodup_nil, fun x hx => absurd hx (hfree x),
    fun x hx => absurd hx List.not_mem_nil, fun x hx => absurd hx (hfree x),
    namedApart_twoRows.columns⟩, ⟨hconforms.distinct, hconforms.flags,
    fun b hb => absurd hb List.not_mem_nil, hconforms.output⟩, ?_, ?_, ?_, by simp⟩
  · rfl
  · decide +kernel
  · decide +kernel

end BagEquiv
