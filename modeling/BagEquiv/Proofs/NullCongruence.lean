/-
**Equality of tuples, and null flags.**

Two tuples are read as equal if their rows agree in corresponding columns, in the values and in the
null flags.  The formula that they are equal is about the values only.  The null flags are related
by a constraint, but only in those columns in which one of the two flags is in use.  So the formula
has the value that is read unless all values agree and the null flags differ in some column that no
constraint is about; then the formula takes the tuples for equal, and they are read as different.

Main definition:

* `Environment.Displays` — the symbols of a tuple show the row that it is bound to.

Main result:

* `Encoder.tupleComparison_value_eq_iff` — **when the formula of a comparison of tuples has
  the value that is read**.
-/

import BagEquiv.Proofs.TermAgreement

set_option autoImplicit false

namespace BagEquiv

/-! ### Rows that agree -/

/-- Whether two rows have cells in a pair of columns that pass a test. -/
def Row.agreeBy (test : Cell → Cell → Bool) (a b : Row) (p : Column × Column) : Bool :=
  match a.get? p.1.name, b.get? p.2.name with
  | some c, some d => test c d
  | _, _ => false

/-- Whether two rows do so in all corresponding columns of two schemas. -/
def Row.agreeAll (test : Cell → Cell → Bool) (a b : Row) (sx sy : Schema) : Bool :=
  (sx.columns.zip sy.columns).all (a.agreeBy test b)

/-- Whether two cells have the same value. -/
def Cell.sameValue (c d : Cell) : Bool := c.value.same d.value

/-- Whether two cells have the same null flag. -/
def Cell.sameFlag (c d : Cell) : Bool := c.null == d.null

namespace Row

variable {a b : Row} {p : Column × Column}

theorem agreeBy_of_cells {test : Cell → Cell → Bool} {c d : Cell}
    (hc : a.get? p.1.name = some c) (hd : b.get? p.2.name = some d) :
    a.agreeBy test b p = test c d := by
  rw [agreeBy, hc, hd]

/-- Cells are the same if they have the same value and the same flag. -/
theorem agreeBy_same : a.agreeBy Cell.same b p =
    (a.agreeBy Cell.sameValue b p && a.agreeBy Cell.sameFlag b p) := by
  unfold agreeBy
  split <;> rfl

/-- Rows agree in the cells if they agree in the values and in the flags. -/
theorem agreeAll_same {sx sy : Schema} : a.agreeAll Cell.same b sx sy =
    (a.agreeAll Cell.sameValue b sx sy && a.agreeAll Cell.sameFlag b sx sy) := by
  rw [Bool.eq_iff_iff]
  simp only [agreeAll, agreeBy_same, List.all_eq_true, Bool.and_eq_true, imp_and, forall_and]

theorem agree_exact_eq : a.exact.agree b.exact p = a.agreeBy Cell.same b p := by
  unfold ExactRow.agree agreeBy exact
  cases a.get? p.1.name with
  | none => rfl
  | some c =>
      cases b.get? p.2.name with
      | none => simp
      | some d =>
          rw [Bool.eq_iff_iff]
          simp [Cell.same_iff_exact]

end Row

/-! ### Comparisons of tuples -/

/-- The comparison of two tuples. -/
def Term.comparison (kind : Pred) (x y : String) : Term := .pred kind [.tuple x, .tuple y]

/-- What a comparison says of tuples, given whether they are equal. -/
def Pred.verdict (kind : Pred) (same : Bool) : Bool := if kind = .ne then !same else same

/-- Reading a comparison of tuples compares their cells. -/
theorem Term.number?_comparison {ν : Type} [Arithmetic ν] {env : Environment} {kind : Pred}
    (hkind : kind = .eq ∨ kind = .ne) {x y : String} {sx sy : Schema} {a b : Row}
    (hsx : env.schemas.get? x = some sx) (hsy : env.schemas.get? y = some sy)
    (ha : env.rows x = some a) (hb : env.rows y = some b)
    (harity : sx.columns.length = sy.columns.length) :
    ((Term.comparison kind x y).read : Reader ν).number? env = (do
      let same ← Environment.agree (Arithmetic.sameFraction ν) a b (sx.columns.zip sy.columns)
      return some (Arithmetic.indicator (kind.verdict same))) := by
  have hsame : env.sameTuple? (Arithmetic.sameFraction ν) x y = (do
      return some (← Environment.agree (Arithmetic.sameFraction ν) a b
        (sx.columns.zip sy.columns))) := by
    simp only [Environment.sameTuple?, ha, hb, hsx, hsy, harity, ne_eq, not_true, if_false]
  rcases hkind with rfl | rfl <;>
  · simp only [comparison, tuple, Reader.number?, read, Reader.predicate, hsame]
    cases Environment.agree (Arithmetic.sameFraction ν) a b (sx.columns.zip sy.columns) <;> rfl

namespace Encoder

/-- The formula that two tuples are equal. -/
def columnsEqual (x y : String) (sx sy : Schema) : Formula :=
  .and ((sx.columns.zip sy.columns).map fun p =>
    .eq (.sym (columnSymbol (some sx) x p.1.name)) (.sym (columnSymbol (some sy) y p.2.name)))

/-- The equation between two tuples. -/
def equation (x y : String) (sx sy : Schema) : TupleEquation :=
  ⟨x, y, (sx.columns.zip sy.columns).map fun p => (p.1.name, p.2.name), columnsEqual x y sx sy⟩

/-- The formula of a comparison of tuples. -/
def comparisonFormula (kind : Pred) (x y : String) (sx sy : Schema) : Formula :=
  .indicator (if kind = .ne then .not (columnsEqual x y sx sy) else columnsEqual x y sx sy)

/-- The constraint on the null flags of two columns. -/
def nullConstraint (q : TupleEquation) (c : String × String) : Formula :=
  .implies q.condition
    (.iff (isZero ⟨nullName q.left c.1, .nat⟩) (isZero ⟨nullName q.right c.2, .nat⟩))

variable {e : Encoder}

theorem returns_tupleEquation {x y : String} {sx sy : Schema} (hsx : e.schemas.get? x = some sx)
    (hsy : e.schemas.get? y = some sy) (harity : sx.columns.length = sy.columns.length) :
    Returns (tupleEquation x y) e (columnsEqual x y sx sy)
      { e with equations := e.equations ++ [equation x y sx sy] } := by
  unfold tupleEquation
  refine returns_bind.mpr ⟨e, e, returns_get.mpr ⟨rfl, rfl⟩, ?_⟩
  simp only [schemaOf?, hsx, hsy, harity, ne_eq, not_true, if_false]
  simp only [column_eq, schemaOf?, hsx, hsy, List.map_map]
  exact returns_bind.mpr ⟨(), _, returns_set.mpr rfl, returns_pure.mpr ⟨rfl, rfl⟩⟩

/-- A comparison of tuples with as many columns is encoded, and the equation is remembered. -/
theorem returns_comparison {kind : Pred} (hkind : kind = .eq ∨ kind = .ne) {x y : String}
    {sx sy : Schema} (hsx : e.schemas.get? x = some sx) (hsy : e.schemas.get? y = some sy)
    (harity : sx.columns.length = sy.columns.length) (hx : e.isCount x = false)
    (hy : e.isCount y = false) :
    Returns (encode (.comparison kind x y)) e (comparisonFormula kind x y sx sy)
      { e with equations := e.equations ++ [equation x y sx sy] } := by
  have htuples : tuples? e [.tuple x, .tuple y] = some (x, y) := by
    simp [tuples?, Term.tuple, hx, hy]
  have hequation := returns_tupleEquation hsx hsy harity
  rcases hkind with rfl | rfl <;>
  · rw [Term.comparison, encode]
    change Returns (encodeBinary _ [.tuple x, .tuple y] _) e _ _
    refine returns_bind.mpr ⟨e, e, returns_get.mpr ⟨rfl, rfl⟩, ?_⟩
    rw [htuples]
    exact returns_bind.mpr ⟨_, _, hequation, returns_pure.mpr ⟨rfl, rfl⟩⟩

/-! ### Constraints -/

theorem nulls_subset_nullFlag (base attr : String) (e : Encoder) :
    e.nulls ⊆ (e.nullFlag base attr).2.nulls := by
  unfold nullFlag
  dsimp only
  split
  · exact List.Subset.refl _
  · exact List.subset_cons_self _ _

theorem nulls_subset_relateNulls (q : TupleEquation) (c : String × String) (e : Encoder) :
    e.nulls ⊆ (relateNulls q c e).2.nulls := by
  unfold relateNulls
  split
  · exact List.Subset.trans (nulls_subset_nullFlag _ _ e) (nulls_subset_nullFlag _ _ _)
  · exact List.Subset.refl _

theorem nullConstraint_mem_relateAll {ps : List (TupleEquation × (String × String))}
    {q : TupleEquation} {c : String × String} (hmem : (q, c) ∈ ps)
    (h : (q.left, c.1) ∈ e.nulls ∨ (q.right, c.2) ∈ e.nulls) :
    nullConstraint q c ∈ (relateAll ps e).1 := by
  induction ps generalizing e with
  | nil => cases hmem
  | cons p ps ih =>
      rcases List.mem_cons.mp hmem with rfl | hmem
      · change nullConstraint q c ∈ (relateNulls q c e).1 ++ _
        rw [relateNulls, if_pos h]
        exact List.mem_cons_self
      · have hsubset := nulls_subset_relateNulls p.1 p.2 e
        exact List.mem_append_right _ (ih hmem (h.imp (hsubset ·) (hsubset ·)))

/-- There is a constraint on two columns of which one has a null flag in use. -/
theorem nullConstraint_mem_congruence {q : TupleEquation} (hq : q ∈ e.equations)
    {c : String × String} (hc : c ∈ q.columns)
    (h : (q.left, c.1) ∈ e.nulls ∨ (q.right, c.2) ∈ e.nulls) :
    nullConstraint q c ∈ e.congruence.1 :=
  nullConstraint_mem_relateAll (e := { e with equations := [] })
    (List.mem_flatMap.mpr ⟨q, hq, List.mem_map_of_mem hc⟩) h

end Encoder

/-! ### Agreement -/

namespace Environment

/-- The symbols of a tuple show the row that it is bound to, which conforms to its schema, and no
text is read as a number in the row. -/
structure Displays (L : Legend) (ρ : Interpretation) (env : Environment) (x : String) (S : Schema)
    (r : Row) : Prop where
  schema : env.schemas.get? x = some S
  row : env.rows x = some r
  conforms : r.Conforms S
  apart : ∀ attr c, r.get? attr = some c → ∀ n, c.value.exact.scalar = .number n →
    ∀ s, L.text s ≠ n
  column : ∀ attr c, r.get? attr = some c →
    ρ (columnSymbol (some S) x attr) = L.code c.value.exact.scalar
  null : ∀ attr c, r.get? attr = some c → ρ ⟨nullName x attr, .nat⟩ = truth (c.null = true)

variable {L : Legend} {ρ : Interpretation} {env : Environment} {x y : String} {sx sy : Schema}
  {a b : Row}

/-- The cell of a column, and its value as a value that is shown as no other is. -/
theorem Displays.cell (h : env.Displays L ρ x sx a) {col : Column} (hcol : col ∈ sx.columns) :
    ∃ c, a.get? col.name = some c ∧ c.value.exact.Proper L := by
  obtain ⟨c, hc, htype⟩ := h.conforms.values col hcol
  exact ⟨c, hc, htype.proper (h.apart _ c hc)⟩

/-- A tuple is shown as a part of its world. -/
theorem displays_of_depicted (hρ : env.world.Depicted L ρ) (hx : Clean x)
    (hnames : ∀ col ∈ sx.columns, '!' ∉ col.name.toList) (schema : env.schemas.get? x = some sx)
    (row : env.rows x = some a) (conforms : a.Conforms sx)
    (apart : ∀ attr c, a.get? attr = some c → ∀ n, c.value.exact.scalar = .number n →
      ∀ s, L.text s ≠ n) : env.Displays L ρ x sx a := by
  have htuple : env.world.tuples x = some a.exact := congrArg (Option.map Row.exact) row
  have hcell : ∀ {attr c}, a.get? attr = some c → a.exact attr = some c.exact ∧
      '!' ∉ attr.toList := by
    intro attr c hc
    obtain ⟨col, hcol, rfl⟩ := conforms.columns _ (NameMap.mem_of_get? hc)
    exact ⟨congrArg (Option.map Cell.exact) hc, hnames col hcol⟩
  refine ⟨schema, row, conforms, apart, fun attr c hc => ?_, fun attr c hc => ?_⟩
  · rw [← schema]
    exact hρ x hx _ _ (.column htuple (hcell hc).1 (hcell hc).2)
  · exact hρ x hx _ _ (.null htuple (hcell hc).1 (hcell hc).2)

/-- Any two tuples can be shown. -/
theorem exists_displays (hx : Clean x) (hy : Clean y)
    (hnames : ∀ col ∈ sx.columns ++ sy.columns, '!' ∉ col.name.toList)
    (hsx : env.schemas.get? x = some sx) (hsy : env.schemas.get? y = some sy)
    (ha : env.rows x = some a) (hb : env.rows y = some b) (hca : a.Conforms sx)
    (hcb : b.Conforms sy) :
    ∃ (L : Legend) (ρ : Interpretation), env.Displays L ρ x sx a ∧ env.Displays L ρ y sy b := by
  obtain ⟨L, -, hL⟩ := exists_legend
    ((a.entries ++ b.entries).filterMap fun entry => entry.2.value.exact.scalar.number?)
    fun _ => false
  have htidy : (Encoder.ofSchemas .empty).Tidy := Encoder.tidy_ofSchemas fun z S hS => by cases hS
  have hρ := (env.world.depicted_paint_spelling (L := L) htidy).1
  rw [List.forall_mem_append] at hnames
  have happart : ∀ entry ∈ a.entries ++ b.entries, ∀ n,
      entry.2.value.exact.scalar = .number n → ∀ s, L.text s ≠ n := fun entry hentry n hn =>
    hL n (List.mem_filterMap.mpr ⟨entry, hentry, by rw [hn]; rfl⟩)
  rw [List.forall_mem_append] at happart
  exact ⟨L, _, displays_of_depicted hρ hx hnames.1 hsx ha hca fun attr c hc =>
      happart.1 _ (NameMap.mem_of_get? hc),
    displays_of_depicted hρ hy hnames.2 hsy hb hcb fun attr c hc =>
      happart.2 _ (NameMap.mem_of_get? hc)⟩

variable {R : Reading} {K : Set Symbol}

/-- The formula that two tuples are equal says that all values agree. -/
theorem Displays.holds_columnsEqual (hx : env.Displays L ρ x sx a) (hy : env.Displays L ρ y sy b) :
    (Encoder.columnsEqual x y sx sy).Holds R K ρ ↔
      a.agreeAll Cell.sameValue b sx sy = true := by
  rw [Encoder.columnsEqual, Formula.holds_and, List.forall_mem_map, Row.agreeAll, List.all_eq_true]
  refine forall₂_congr fun p hp => ?_
  obtain ⟨hp₁, hp₂⟩ := List.of_mem_zip hp
  obtain ⟨c, hc, hproper⟩ := hx.cell hp₁
  obtain ⟨d, hd, hproper'⟩ := hy.cell hp₂
  rw [Formula.holds_eq, Formula.value, Formula.value, hx.column _ c hc, hy.column _ d hd,
    Row.agreeBy_of_cells hc hd, Cell.sameValue, Datum.same_iff_exact]
  exact ⟨hproper.eq_of_code_eq hproper', fun heq => by rw [heq]⟩

/-- The constraint on two columns says that their flags agree if all values do. -/
theorem Displays.holds_nullConstraint (hx : env.Displays L ρ x sx a) (hy : env.Displays L ρ y sy b)
    {p : Column × Column} (hp : p ∈ sx.columns.zip sy.columns) :
    (Encoder.nullConstraint (Encoder.equation x y sx sy) (p.1.name, p.2.name)).Holds R K ρ ↔
      (a.agreeAll Cell.sameValue b sx sy = true →
        a.agreeBy Cell.sameFlag b p = true) := by
  obtain ⟨hp₁, hp₂⟩ := List.of_mem_zip hp
  obtain ⟨c, hc, -⟩ := hx.cell hp₁
  obtain ⟨d, hd, -⟩ := hy.cell hp₂
  rw [Encoder.nullConstraint, Formula.holds_implies, Encoder.equation, hx.holds_columnsEqual hy,
    Formula.holds_iff, Encoder.isZero, Encoder.isZero, Formula.holds_eq, Formula.holds_eq,
    Formula.value_zero, Formula.value, Formula.value, hx.null _ c hc, hy.null _ d hd,
    truth_eq_zero, truth_eq_zero, Row.agreeBy_of_cells hc hd, Cell.sameFlag]
  cases c.null <;> cases d.null <;> simp

end Environment

namespace Encoder

variable {L : Legend} {ρ : Interpretation} {env : Environment} {x y : String} {sx sy : Schema}
  {a b : Row}

theorem value_comparisonFormula {R : Reading} {K : Set Symbol} (kind : Pred)
    (hx : env.Displays L ρ x sx a) (hy : env.Displays L ρ y sy b) :
    (comparisonFormula kind x y sx sy).value R K ρ =
      Arithmetic.indicator (kind.verdict (a.agreeAll Cell.sameValue b sx sy)) := by
  rw [comparisonFormula, Formula.value_indicator, Arithmetic.indicator, Arithmetic.one_rat,
    Arithmetic.zero_rat, truth_eq_ite]
  unfold Pred.verdict
  split
  · rw [Formula.holds_not, hx.holds_columnsEqual hy, Bool.not_eq_true, Bool.not_eq_true']
  · exact hx.holds_columnsEqual hy

/-- What a comparison says depends on whether the tuples are equal. -/
theorem indicator_verdict_inj {kind : Pred} {s t : Bool} :
    (Arithmetic.indicator (kind.verdict s) : ℚ) = Arithmetic.indicator (kind.verdict t) ↔
      s = t := by
  unfold Pred.verdict
  split <;> cases s <;> cases t <;>
    simp [Arithmetic.indicator, Arithmetic.one_rat, Arithmetic.zero_rat]

/-- Two tuples with as many columns are compared by a formula.  If the constraints hold, it has the
value that is read, which says whether all cells agree in value and null flag, unless all values
agree and the null flags differ in some column that no constraint is about.  There is a constraint
wherever one of the two flags is in use. -/
theorem tupleComparison_value_eq_iff {kind : Pred} (hkind : kind = .eq ∨ kind = .ne)
    (hx : env.Displays L ρ x sx a) (hy : env.Displays L ρ y sy b)
    (harity : sx.columns.length = sy.columns.length) {e : Encoder}
    (hschemas : e.schemas = env.schemas) (hcounts : e.isCount x = false ∧ e.isCount y = false) :
    (Term.comparison kind x y).read.number? env =
      .ok (some (Arithmetic.indicator (kind.verdict (a.agreeAll Cell.same b sx sy)) : ℚ)) ∧
    (∀ r, (Term.comparison kind x y).read.number? env = .ok r →
      r = some (Arithmetic.indicator (kind.verdict (a.agreeAll Cell.same b sx sy)) : Fraction)) ∧
    ∃ f e', Returns (encode (.comparison kind x y)) e f e' ∧
      ∀ (R : Reading) (K : Set Symbol) (later : Encoder), e'.equations ⊆ later.equations →
        (∀ c ∈ later.congruence.1, c.Holds R K ρ) →
          (f.value R K ρ = Arithmetic.indicator (kind.verdict (a.agreeAll Cell.same b sx sy)) ↔
            ¬(a.agreeAll Cell.sameValue b sx sy = true ∧
              ∃ p ∈ sx.columns.zip sy.columns, a.agreeBy Cell.sameFlag b p = false ∧
                nullConstraint (equation x y sx sy) (p.1.name, p.2.name) ∉ later.congruence.1)) ∧
          ∀ p ∈ sx.columns.zip sy.columns,
            (x, p.1.name) ∈ later.nulls ∨ (y, p.2.name) ∈ later.nulls →
              nullConstraint (equation x y sx sy) (p.1.name, p.2.name) ∈ later.congruence.1 := by
  have hsx : e.schemas.get? x = some sx := by rw [hschemas, hx.schema]
  have hsy : e.schemas.get? y = some sy := by rw [hschemas, hy.schema]
  have hexact : Environment.agree (Arithmetic.sameFraction ℚ) a b (sx.columns.zip sy.columns) =
      .ok (a.agreeAll Cell.same b sx sy) := by
    rw [Reader.agree_exact]
    exact congrArg (fun test => Except.ok ((sx.columns.zip sy.columns).all test))
      (funext fun p => Row.agree_exact_eq)
  refine ⟨?_, fun r hr => ?_, _, _, returns_comparison hkind hsx hsy harity hcounts.1 hcounts.2,
    fun R K later hlater hholds => ⟨?_, fun p hp hnull => ?_⟩⟩
  · rw [Term.number?_comparison hkind hx.schema hy.schema hx.row hy.row harity, hexact]
    rfl
  · rw [Term.number?_comparison hkind hx.schema hy.schema hx.row hy.row harity] at hr
    obtain ⟨same, hsame, hr⟩ := Fault.ok_of_bind hr
    obtain ⟨same', hsame', rfl⟩ := Environment.agree_tracks a b _ same hsame
    cases hexact.symm.trans hsame'
    cases hr
    rfl
  · rw [value_comparisonFormula kind hx hy, indicator_verdict_inj, Row.agreeAll_same]
    have hconstrained : ∀ p ∈ sx.columns.zip sy.columns, a.agreeAll Cell.sameValue b sx sy = true →
        nullConstraint (equation x y sx sy) (p.1.name, p.2.name) ∈ later.congruence.1 →
          a.agreeBy Cell.sameFlag b p = true := fun p hp hvalues hmem =>
      (hx.holds_nullConstraint hy hp).mp (hholds _ hmem) hvalues
    -- If the values differ, neither the formula nor the reader asks for the flags.
    cases hvalues : a.agreeAll Cell.sameValue b sx sy with
    | false => simp
    | true =>
        rw [Bool.true_and, eq_comm, Row.agreeAll, List.all_eq_true]
        constructor
        · rintro hflags ⟨-, p, hp, hflag, -⟩
          exact Bool.false_ne_true (hflag.symm.trans (hflags p hp))
        · intro hnone p hp
          by_contra hflag
          refine hnone ⟨rfl, p, hp, Bool.not_eq_true _ ▸ hflag, fun hmem => hflag ?_⟩
          exact hconstrained p hp hvalues hmem
  · refine nullConstraint_mem_congruence (hlater ?_) ?_ hnull
    · exact List.mem_append_right _ (List.mem_singleton_self _)
    · exact List.mem_map_of_mem (f := fun p : Column × Column => (p.1.name, p.2.name)) hp

theorem tupleComparison_value_eq_iff_doubled : ∃ (f : Formula) (e : Encoder) (L : Legend)
    (ρ : Interpretation), Environment.doubled.Displays L ρ "x" .labelled .unlabelled ∧
    Environment.doubled.Displays L ρ "y" .labelled .unlabelled ∧
    Returns (encode (.comparison .ne "x" "y"))
      { ofSchemas Environment.doubled.schemas with nulls := [("x", "b")] } f e ∧
    (∀ (R : Reading) (K : Set Symbol), ∀ c ∈ e.congruence.1, c.Holds R K ρ) ∧
    ∀ (R : Reading) (K : Set Symbol), f.value R K ρ = 0 := by
  have hsx : Environment.doubled.schemas.get? "x" = some .labelled := by decide +kernel
  have hsy : Environment.doubled.schemas.get? "y" = some .labelled := by decide +kernel
  obtain ⟨L, ρ, hx, hy⟩ := Environment.exists_displays (by decide) (by decide) (by decide)
    hsx hsy rfl rfl Row.conforms_unlabelled Row.conforms_unlabelled
  have hkind : Pred.ne = .eq ∨ Pred.ne = .ne := .inr rfl
  obtain ⟨-, -, f, e, hrun, hvalue⟩ := tupleComparison_value_eq_iff hkind hx hy rfl
    (e := { ofSchemas Environment.doubled.schemas with nulls := [("x", "b")] }) rfl ⟨rfl, rfl⟩
  cases hrun.symm.trans (returns_comparison hkind hsx hsy rfl rfl rfl)
  have hflags : ∀ p ∈ Schema.labelled.columns.zip Schema.labelled.columns,
      Row.unlabelled.agreeBy Cell.sameFlag .unlabelled p = true := by
    decide +kernel
  have hholds : ∀ (R : Reading) (K : Set Symbol),
      ∀ c ∈ ({ ofSchemas Environment.doubled.schemas with
      nulls := [("x", "b")]
      equations := [equation "x" "y" .labelled .labelled] } : Encoder).congruence.1,
      c.Holds R K ρ := by
    intro R K c hc
    obtain rfl : c = nullConstraint (equation "x" "y" .labelled .labelled) ("b", "b") :=
      List.mem_singleton.mp hc
    have hp : (⟨"b", .string⟩, ⟨"b", .string⟩) ∈
        Schema.labelled.columns.zip Schema.labelled.columns := by decide
    exact (hx.holds_nullConstraint hy hp).mpr fun _ => hflags _ hp
  refine ⟨_, _, L, ρ, hx, hy, hrun, hholds, fun R K => ?_⟩
  have hsame : Row.unlabelled.agreeAll Cell.same .unlabelled .labelled .labelled = true := by
    decide +kernel
  rw [(hvalue R K _ (List.Subset.refl _) (hholds R K)).1.mpr, hsame]
  · exact Arithmetic.zero_rat
  · rintro ⟨-, p, hp, hflag, -⟩
    exact Bool.false_ne_true (hflag.symm.trans (hflags p hp))

end Encoder

/-- Two tuples that are bound to rows with the same value, of which one is null. -/
def Environment.halfNull : Environment where
  database := ⟨.empty, .empty⟩
  schemas := .ofList [("x", .single), ("y", .single)]
  rows z := if z = "x" then some (.single 0)
    else if z = "y" then some (.ofList [("a", ⟨.int 0, true⟩)]) else none

/-- If no null flag is in use, then tuples that differ in their null flags are taken for equal. -/
theorem Encoder.comparison_value_of_halfNull : ∃ (f : Formula) (e : Encoder) (L : Legend)
    (ρ : Interpretation), Environment.halfNull.Displays L ρ "x" .single (.single 0) ∧
    Environment.halfNull.Displays L ρ "y" .single (.ofList [("a", ⟨.int 0, true⟩)]) ∧
    Returns (encode (.comparison .eq "x" "y")) (.ofSchemas Environment.halfNull.schemas) f e ∧
    e.congruence.1 = [] ∧
    (Term.comparison .eq "x" "y").read.number? Environment.halfNull = .ok (some Fraction.zero) ∧
    ∀ (R : Reading) (K : Set Symbol), f.value R K ρ = 1 := by
  have hsx : Environment.halfNull.schemas.get? "x" = some .single := by decide +kernel
  have hsy : Environment.halfNull.schemas.get? "y" = some .single := by decide +kernel
  obtain ⟨L, ρ, hx, hy⟩ := Environment.exists_displays (by decide) (by decide) (by decide)
    hsx hsy rfl rfl (Row.conforms_single 0 false) (Row.conforms_single 0 true)
  refine ⟨_, _, L, ρ, hx, hy, returns_comparison (.inl rfl) hsx hsy rfl rfl rfl, rfl,
    by decide +kernel, fun R K => ?_⟩
  have hvalues : (Row.single 0).agreeAll Cell.sameValue (.ofList [("a", ⟨.int 0, true⟩)]) .single
      .single = true := by
    decide +kernel
  rw [value_comparisonFormula .eq hx hy, hvalues]
  exact Arithmetic.one_rat

end BagEquiv
