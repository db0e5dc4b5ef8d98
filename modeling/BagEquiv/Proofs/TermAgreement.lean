/-
**The formula of a term has the value that is read.**

A term without summations can be read in an environment, which binds its tuples to rows, and it can
be encoded as a formula.  If the symbols of the formula have the values of the cells, the null flags
and the multiplicities that the environment gives to the tuples, then the formula has the value that
is read, whatever the functions are that it names, and the constraints of the encoder hold.  The
value is the same in exact and in checked arithmetic, if denominators are positive and signed words
can count the rows; a row that occurs more often is read as occurring a negative number of times.

Main definition:

* `Environment.Conforms` — the rows of some tuples conform to their schemas.

Main result:

* `Encoder.value_eq_read` — **the formulas of terms have the values that are read**, and
  the constraints hold.
-/

import BagEquiv.Proofs.CheckedReading
import BagEquiv.Proofs.EncodingSoundness

set_option autoImplicit false

namespace BagEquiv

/-! ### Environments that fit schemas -/

namespace Environment

/-- The given tuples are bound to rows, which conform to the schemas of those that have one. -/
def Conforms (M : String → Prop) (env : Environment) : Prop :=
  ∀ x, M x → ∃ r, env.rows x = some r ∧ ∀ S, env.schemas.get? x = some S → r.Conforms S

/-- The cells of the rows that the given tuples are bound to. -/
def cells (M : String → Prop) (env : Environment) : Set Cell :=
  {c | ∃ x r attr, M x ∧ env.rows x = some r ∧ r.get? attr = some c}

end Environment

/-- No text is read as a number in one of the cells. -/
def Legend.Separates (L : Legend) (cells : Set Cell) : Prop :=
  ∀ c ∈ cells, ∀ n, c.value.exact.scalar = .number n → ∀ s, L.text s ≠ n

open Classical in
/-- The legend with the null flags of the given cells. -/
noncomputable def Legend.flagged (L : Legend) (cells : Set Cell) : Legend :=
  { L with null := fun d => decide (∃ c ∈ cells, c.value.exact = d ∧ c.null = true) }

theorem Legend.null_flagged {L : Legend} {cells : Set Cell}
    (h : ∀ c ∈ cells, ∀ d ∈ cells, c.value.same d.value = true → c.null = d.null) {c : Cell}
    (hc : c ∈ cells) : c.null = (L.flagged cells).null c.value.exact := by
  classical
  rw [flagged, Bool.eq_iff_iff, decide_eq_true_iff]
  refine ⟨fun hnull => ⟨c, hc, rfl, hnull⟩, ?_⟩
  rintro ⟨d, hd, hvalue, hnull⟩
  rw [h c hc d hd ((Datum.same_iff_exact _ _).mpr hvalue.symm), hnull]

/-- What is shown does not depend on which values are null. -/
theorem World.Depicted.flagged {L : Legend} {w : World} {ρ : Interpretation}
    (h : w.Depicted L ρ) (cells : Set Cell) : w.Depicted (L.flagged cells) ρ := by
  intro x hx s q hshows
  cases hshows with
  | column hr hc hattr => exact h x hx _ _ (.column hr hc hattr)
  | null hr hc hattr => exact h x hx _ _ (.null hr hc hattr)
  | count hr table => exact h x hx _ _ (.count hr table)

namespace Encoder

variable {M : String → Prop} {env : Environment} {L : Legend} {ρ : Interpretation}

/-- A new encoder reads the symbols of the tuples of an environment. -/
theorem reads_ofSchemas (hrows : env.Conforms M)
    (hcolumns : ∀ x, M x → ∀ S, env.schemas.get? x = some S →
      ∀ col ∈ S.columns, '!' ∉ col.name.toList)
    (hflags : ∀ c ∈ env.cells M, ∀ d ∈ env.cells M, c.value.same d.value = true → c.null = d.null)
    (hL : L.Separates (env.cells M)) (hρ : env.world.Depicted L ρ) :
    (ofSchemas env.schemas).Reads M (L.flagged (env.cells M)) env.world ρ where
  depicted := hρ.flagged _
  fits x hx S hS := by
    obtain ⟨r, hr, hconforms⟩ := hrows x hx
    refine ⟨r.exact, congrArg (Option.map Row.exact) hr,
      (hconforms S hS).fits (fun attr c hc => ?_) (hcolumns x hx S hS)⟩
    have hmem : c ∈ env.cells M := ⟨x, r, attr, hx, hr, hc⟩
    exact ⟨hL c hmem, Legend.null_flagged hflags hmem⟩
  schemas _ _ := rfl
  counts x _ := by simp [isCount, ofSchemas, Environment.world]
  marks x n hn := by cases hn

theorem encodedAll_of_returns {ts : List Term} {fs : List Formula} {e e' : Encoder}
    (hregular : ∀ t ∈ ts, t.Regular) (hnames : ∀ x, Mentioned ts x → Clean x)
    (h : Returns (encodeList ts) e fs e') : EncodedAll (Mentioned ts) ts e fs e' :=
  encodeList_ok (fun t ht _ _ _ => encode_ok hnames (fun _ hx => ⟨t, ht, hx⟩) (hregular t ht)) h

end Encoder

/-! ### Rows to try things on -/

/-- A column of numbers and one of texts. -/
def Schema.labelled : Schema := ⟨[⟨"a", .integer⟩, ⟨"b", .string⟩]⟩

/-- A number, and a text that is null. -/
def Row.unlabelled : Row := .ofList [("a", .ofDatum (.int 1)), ("b", ⟨.str "u", true⟩)]

/-- Two tuples that are bound to equal rows, which occur twice in a table. -/
def Environment.doubled : Environment where
  database := ⟨.ofList [("r", [(.unlabelled, 2)])], .unlabelled⟩
  schemas := .ofList [("x", .labelled), ("y", .labelled)]
  rows z := if z = "x" ∨ z = "y" then some .unlabelled else none

/-- How often a row occurs, if it is equal to another, and its text comes before a given one and is
null. -/
def Term.doubled : Term :=
  .mul [.table "r" (.base "x"), .equal (.tuple "x") (.tuple "y"),
    .pred .lt [.attr "b" "x", .str "v"], .pred .isNull [.attr "b" "x"]]

theorem Row.conforms_unlabelled : Row.unlabelled.Conforms .labelled where
  columns := by decide +kernel
  values col hcol := by
    simp only [Schema.labelled, List.mem_cons, List.not_mem_nil, or_false] at hcol
    rcases hcol with rfl | rfl
    · exact ⟨.ofDatum (.int 1), by decide +kernel, trivial⟩
    · exact ⟨⟨.str "u", true⟩, by decide +kernel, trivial⟩

theorem Term.mentioned_doubled {z : String} (h : Mentioned [.doubled] z) : z = "x" ∨ z = "y" := by
  obtain ⟨t, ht, hz⟩ := h
  obtain rfl := List.mem_singleton.mp ht
  simp only [doubled, mentions, mentionsAny, equal, tuple, attr, Var.tuple] at hz
  grind

theorem Environment.cells_doubled {M : String → Prop} {c : Cell}
    (h : c ∈ Environment.doubled.cells M) : c = .ofDatum (.int 1) ∨ c = ⟨.str "u", true⟩ := by
  obtain ⟨x, r, attr, _, hr, hc⟩ := h
  have hall : ∀ entry ∈ Row.unlabelled.entries,
      entry.2 = .ofDatum (.int 1) ∨ entry.2 = ⟨.str "u", true⟩ := by
    decide +kernel
  unfold doubled at hr
  dsimp only at hr
  split at hr
  · cases hr
    exact hall _ (NameMap.mem_of_get? hc)
  · cases hr

/-- A row that occurs more often than a signed word can count. -/
def Database.manyRows : Database := ⟨.ofList [("r", [(.single 0, 9223372036854775808)])], .single 0⟩

/-- A row does not occur a negative number of times. -/
def Term.nonnegative : Term := .pred .ge [.table "r" (.base "out"), .const .zero]

/-! ### Agreement -/

namespace Encoder

variable {env : Environment} {L : Legend} {ρ : Interpretation}

/-- The formulas of terms have the values that are read, and the constraints of the encoder hold,
if the symbols have the values of what the environment gives to the tuples. -/
theorem value_eq_read {ts : List Term} {fs : List Formula} {e : Encoder}
    (hrun : Returns (encodeList ts) (.ofSchemas env.schemas) fs e)
    (hregular : ∀ t ∈ ts, t.Regular) (hnames : ∀ x, Mentioned ts x → Clean x)
    (hcolumns : ∀ x, Mentioned ts x → ∀ S, env.schemas.get? x = some S →
      ∀ col ∈ S.columns, '!' ∉ col.name.toList)
    (hrows : env.Conforms (Mentioned ts))
    (hflags : ∀ c ∈ env.cells (Mentioned ts), ∀ d ∈ env.cells (Mentioned ts),
      c.value.same d.value = true → c.null = d.null)
    (hL : L.Separates (env.cells (Mentioned ts))) (hρ : env.world.Depicted L ρ)
    (hspells : e.Spells L ρ) (R : Reading) (K : Set Symbol) :
    List.Forall₂ (fun t f =>
      (∀ q : ℚ, t.read.number? env = .ok (some q) → f.value R K ρ = q) ∧
      (env.InRange → ∀ q : Fraction, t.read.number? env = .ok (some q) →
        f.value R K ρ = q.toRat)) ts fs ∧
    (∀ f ∈ e.congruence.1, f.Holds R K ρ) ∧ ∀ f ∈ e.distinctness, f.Holds R K ρ := by
  have hencoded := encodedAll_of_returns hregular hnames hrun
  have hreads := reads_ofSchemas hrows hcolumns hflags hL hρ
  refine ⟨?_, fun f hf => ?_, fun f hf => (distinctness_ok (M := Mentioned ts) hf).2 hspells⟩
  · have hvalues := hencoded.values (R := R) (K := K) hreads hspells
    rw [Term.meanings_eq_map, Formula.valueAll_eq_map, List.forall₂_map_left_iff,
      List.forall₂_map_right_iff] at hvalues
    refine ((List.forall₂_and_left ts fs).mpr ⟨hregular, hvalues⟩).imp fun t f ⟨ht, hf⟩ => ?_
    have hnumber : ∀ {q : ℚ}, t.number env.world = q → f.value R K ρ = q := fun hq =>
      hf _ (Scalar.toNumber_eq_coe.mp hq)
    exact ⟨fun q hq => hnumber (Term.number_of_exact hq),
      fun henv q hq => hnumber (Term.number_of_checked ht henv hq)⟩
  · obtain ⟨qs, hqs, hall⟩ := hencoded.effect.equations
    have hviews := hreads.toViews.growth hencoded.effect.toGrowth
    refine (congruence_ok (M := Mentioned ts) hnames fun q hq => ?_).holds
      ⟨hviews.depicted, hviews.fits, hviews.schemas⟩ f hf
    rw [hencoded.effect.schemas]
    exact hall q (by rwa [hqs] at hq)

theorem value_eq_read_doubled : ∃ f e, ∃ (L : Legend) (ρ : Interpretation),
    Returns (encodeList [.doubled]) (.ofSchemas Environment.doubled.schemas) [f] e ∧
    L.Separates (Environment.doubled.cells (Mentioned [.doubled])) ∧
    Environment.doubled.world.Depicted L ρ ∧ e.Spells L ρ ∧ ∀ (R : Reading) (K : Set Symbol),
      f.value R K ρ = 2 ∧ (∀ c ∈ e.congruence.1, c.Holds R K ρ) ∧
        ∀ c ∈ e.distinctness, c.Holds R K ρ := by
  obtain ⟨L, -, hL⟩ := exists_legend [1] fun _ => false
  have hnames : ∀ x, Mentioned [.doubled] x → Clean x := fun x hx => by
    rcases Term.mentioned_doubled hx with rfl | rfl <;> decide
  have hregular : ∀ t ∈ [Term.doubled], t.Regular := by
    rw [List.forall_mem_singleton]
    simp only [Term.doubled, Term.equal, Term.tuple, Term.attr, Term.Regular, Term.AllRegular,
      true_and, and_true]
    decide
  have hschemas : ∀ x S, Environment.doubled.schemas.get? x = some S → S = .labelled := by
    have hall : ∀ entry ∈ Environment.doubled.schemas.entries, entry.2 = .labelled := by
      decide +kernel
    exact fun x S hS => hall _ (NameMap.mem_of_get? hS)
  have hcolumns : ∀ x S, Environment.doubled.schemas.get? x = some S →
      ∀ col ∈ S.columns, '!' ∉ col.name.toList := by
    intro x S hS
    rw [hschemas x S hS]
    decide
  obtain ⟨f, e, hrun⟩ : ∃ f e,
      Returns (encodeList [.doubled]) (.ofSchemas Environment.doubled.schemas) [f] e :=
    ⟨_, _, rfl⟩
  have htidy := (encodedAll_of_returns hregular hnames hrun).effect.tidy (tidy_ofSchemas hcolumns)
  have hseparates : L.Separates (Environment.doubled.cells (Mentioned [.doubled])) := by
    intro c hc n hn
    rcases Environment.cells_doubled hc with rfl | rfl
    · cases hn
      exact hL 1 (List.mem_singleton_self 1)
    · cases hn
  have hflags : ∀ c ∈ Environment.doubled.cells (Mentioned [.doubled]),
      ∀ d ∈ Environment.doubled.cells (Mentioned [.doubled]),
        c.value.same d.value = true → c.null = d.null := by
    intro c hc d hd
    rcases Environment.cells_doubled hc with rfl | rfl <;>
      rcases Environment.cells_doubled hd with rfl | rfl <;> decide
  obtain ⟨hdepicted, hspells⟩ := Environment.doubled.world.depicted_paint_spelling (L := L) htidy
  refine ⟨f, e, L, _, hrun, hseparates, hdepicted, hspells, fun R K => ?_⟩
  obtain ⟨hvalues, hconstraints⟩ := value_eq_read hrun hregular hnames (fun x _ => hcolumns x)
    (fun x hx => ⟨.unlabelled, if_pos (Term.mentioned_doubled hx), fun S hS =>
      hschemas x S hS ▸ Row.conforms_unlabelled⟩) hflags hseparates hdepicted hspells R K
  obtain _ | ⟨hf, _⟩ := hvalues
  exact ⟨hf.1 2 (by decide +kernel), hconstraints⟩

/-- In checked arithmetic the number of times that a row occurs may turn negative, and the order of
fractions goes wrong where a denominator is negative. -/
theorem value_ne_read_of_manyRows : ∃ f g e, ∃ (L : Legend) (ρ : Interpretation),
    Returns (encodeList [.nonnegative, .minusHalfBelowHalf]) (.ofSchemas .uniform) [f, g] e ∧
    (Environment.ofDatabase .manyRows .uniform "out").world.Depicted L ρ ∧ e.Spells L ρ ∧
    Term.nonnegative.read.number? (.ofDatabase .manyRows .uniform "out") =
      .ok (some Fraction.zero) ∧
    Term.minusHalfBelowHalf.read.number? (.ofDatabase .manyRows .uniform "out") =
      .ok (some Fraction.zero) ∧
    ∀ (R : Reading) (K : Set Symbol), f.value R K ρ = 1 ∧ g.value R K ρ = 1 := by
  obtain ⟨L, -, -⟩ := exists_legend [] fun _ => false
  obtain ⟨hdepicted, hspells⟩ := (Environment.ofDatabase .manyRows .uniform
    "out").world.depicted_paint_spelling (L := L) (tidy_ofSchemas namedApart_twoRows.columns)
  generalize World.paint _ _ _ _ = ρ at hdepicted hspells
  refine ⟨.ite (.le .zero (.sym ⟨"r!out", .nat⟩)) .one .zero,
    .ite (.lt (.const .minusHalf) (.const .half)) .one .zero,
    .ofSchemas .uniform, L, ρ, rfl, hdepicted, hspells, by decide +kernel, by decide +kernel,
    fun R K => ⟨?_, ?_⟩⟩
  · have hcount := hdepicted "out" (by decide) _ _ (.count rfl "r")
    have hholds : (Formula.le .zero (.sym ⟨"r!out", .nat⟩)).Holds R K ρ := by
      rw [Formula.holds_le, Formula.value_zero, Formula.value]
      exact hcount ▸ Nat.cast_nonneg _
    rw [Formula.value, if_neg hholds, Formula.value_one]
  · have hholds : (Formula.lt (.const .minusHalf) (.const .half)).Holds R K ρ := by
      rw [Formula.holds_lt, Formula.value, Formula.value]
      decide +kernel
    rw [Formula.value, if_neg hholds, Formula.value_one]

end Encoder

end BagEquiv
