/-
**Encoding a term keeps its value.**

The formula of a term without summations has the value that the term has in a world, in every
interpretation that shows the world, spells the text literals and gives the placeholders their
numbers.  Where the term has no value nothing is said.  The formula is about the tuples that the
term mentions and about symbols that mean the same everywhere, and encoding it only adds literals,
counted functions and equations between tuples to the state of the encoder.

Main definition:

* `Encoder.Effect` — **what encoding a term changes**.

Main result:

* `Encoder.encode_ok` — **the formula of a term has the value of the term**.
-/

import BagEquiv.Proofs.Depiction
import BagEquiv.Proofs.Runs
import BagEquiv.Proofs.Stripping

set_option autoImplicit false

namespace BagEquiv

/-- A look-up finds every entry. -/
theorem NameMap.get?_of_mem {α : Type} {m : NameMap α} {k : String} {v : α}
    (h : (k, v) ∈ m.entries) : m.get? k = some v := by
  obtain ⟨entries, sorted⟩ := m
  unfold get?
  induction entries with
  | nil => cases h
  | cons entry rest ih =>
      rw [List.pairwise_cons] at sorted
      rw [lookup]
      rcases List.mem_cons.mp h with rfl | h
      · exact if_pos rfl
      · have hne : entry.1 ≠ k := fun heq => String.lt_irrefl k (heq ▸ sorted.1 (k, v) h)
        rw [if_neg hne]
        exact ih sorted.2 h

/-! ### Numbers that show scalars -/

namespace Legend

variable {L : Legend}

/-- The number shows the scalar, if there is one. -/
def Agrees (L : Legend) (m : Option (Scalar ℚ)) (q : ℚ) : Prop := ∀ s, m = some s → q = L.code s

theorem Agrees.toNumber {m : Option (Scalar ℚ)} {q : ℚ} (h : L.Agrees m q) :
    LessDefined (Scalar.toNumber m) q := by
  match m, h with
  | none, _ => exact .inl rfl
  | some (.text _), _ => exact .inl rfl
  | some (.number n), h => exact .inr (congrArg _ (h _ rfl).symm)

theorem agrees_ofNumber {n : WithTop ℚ} {q : ℚ} (h : LessDefined n q) :
    L.Agrees (Scalar.ofNumber n) q := by
  intro s hs
  obtain ⟨p, rfl, rfl⟩ := Scalar.ofNumber_eq_some.mp hs
  exact WithTop.coe_injective (h.eq_of_coe rfl)

theorem agrees_map {o : Option Bool} {q : ℚ} (h : ∀ b, o = some b → q = if b then 1 else 0) :
    L.Agrees (o.map fun b => .number (if b then 1 else 0)) q := by
  intro s hs
  obtain ⟨b, hb, rfl⟩ := Option.map_eq_some_iff.mp hs
  exact h b hb

/-- Numbers show lists of scalars one by one. -/
theorem Agrees.numbers {ms : List (Option (Scalar ℚ))} {qs : List ℚ}
    (h : List.Forall₂ L.Agrees ms qs) :
    List.Forall₂ LessDefined (ms.map Scalar.toNumber) (qs.map fun q : ℚ => (q : WithTop ℚ)) := by
  rw [List.forall₂_map_left_iff, List.forall₂_map_right_iff]
  exact h.imp fun _ _ h => h.toNumber

theorem sum_coe (qs : List ℚ) :
    (qs.map fun q : ℚ => (q : WithTop ℚ)).sum = ((qs.sum : ℚ) : WithTop ℚ) := by
  induction qs with
  | nil => rfl
  | cons q qs ih => rw [List.map_cons, List.sum_cons, List.sum_cons, ih, WithTop.coe_add]

theorem Agrees.sum {ms : List (Option (Scalar ℚ))} {qs : List ℚ}
    (h : List.Forall₂ L.Agrees ms qs) :
    LessDefined (ms.map Scalar.toNumber).sum (qs.sum : ℚ) := by
  rw [← sum_coe]
  exact .sum (Agrees.numbers h)

/-- Scalars of one kind are ordered as the numbers that show them. -/
theorem code_of_order? {x y : Scalar ℚ} {o : Ordering} (h : x.order? y = some o) :
    (o = .lt ↔ L.code x < L.code y) ∧ (o = .eq ↔ L.code x = L.code y) ∧
      (o = .gt ↔ L.code y < L.code x) := by
  have number : ∀ {a b : ℚ} {o : Ordering},
      (if a < b then Ordering.lt else if a = b then .eq else .gt) = o →
      (o = .lt ↔ a < b) ∧ (o = .eq ↔ a = b) ∧ (o = .gt ↔ b < a) := by
    rintro a b o rfl
    rcases lt_trichotomy a b with hlt | heq | hgt
    · simp [hlt, hlt.ne, hlt.le]
    · simp [heq]
    · simp [hgt, hgt.ne', hgt.not_gt]
  cases x <;> cases y <;> simp only [Scalar.order?, Option.some.injEq, reduceCtorEq] at h
  · exact number h
  · next s t =>
      refine number ?_
      rw [← h]
      have hlt : L.text s < L.text t ↔ s < t := L.text_strictMono.lt_iff_lt
      have heq : L.text s = L.text t ↔ s = t := L.text_strictMono.injective.eq_iff
      simp only [code, hlt, heq]

end Legend

/-! ### Formulas with the values of comparisons -/

namespace Formula

variable {R : Reading} {K : Set Symbol} {ρ : Interpretation}

theorem value_indicator (c : Formula) :
    (indicator c).value R K ρ = truth (c.Holds R K ρ) := by
  by_cases h : c.value R K ρ = 0 <;> simp [indicator, Holds, h, truth]

theorem built_zero (V : Set Symbol) (stars : Bool) : zero.Built V stars .value :=
  ⟨rfl, Fraction.positive_ofWord 0⟩

theorem built_one (V : Set Symbol) (stars : Bool) : one.Built V stars .value :=
  ⟨rfl, Fraction.positive_ofWord 1⟩

theorem built_indicator {V : Set Symbol} {stars : Bool} {c : Formula}
    (h : c.Built V stars .truth) : (indicator c).Built V stars .value :=
  ⟨h, built_one V stars, built_zero V stars⟩

end Formula

theorem truth_eq_ite {p : Prop} {b : Bool} (h : p ↔ b = true) : truth p = if b then 1 else 0 := by
  cases b <;> simp_all [truth]

/-! ### What encoding changes -/

/-- The equation compares two tuples column by column. -/
structure TupleEquation.Compares (schemas : SchemaMap) (q : TupleEquation) : Prop where
  columns : ∃ sx sy, schemas.get? q.left = some sx ∧ schemas.get? q.right = some sy ∧
    q.columns = (sx.columns.zip sy.columns).map fun p => (p.1.name, p.2.name)
  condition : q.condition = .and (q.columns.map fun p =>
    .eq (.sym (columnSymbol (schemas.get? q.left) q.left p.1))
      (.sym (columnSymbol (schemas.get? q.right) q.right p.2)))

namespace Encoder

/-- Literals have numbered symbols, each its own, the symbols of counted functions mean the same
everywhere, placeholders are marks, and the columns of schemas have names without exclamation
marks. -/
structure Tidy (e : Encoder) : Prop where
  literals : ∀ s v, e.literals.get? s = some v → ∃ k < e.next, v = ⟨"#s" ++ toString k, .str⟩
  injective : ∀ s t v, e.literals.get? s = some v → e.literals.get? t = some v → s = t
  counted : ∀ p ∈ e.counted.toList, p.2.Global
  counts : ∀ x ∈ e.counts, ∃ k : ℕ, x = "#u" ++ toString k
  columns : ∀ x S, e.schemas.get? x = some S → ∀ col ∈ S.columns, '!' ∉ col.name.toList

/-- What reading terms about some tuples changes: literals and counted functions are added, and
equations between the tuples. -/
structure Growth (M : String → Prop) (e e' : Encoder) : Prop where
  schemas : e'.schemas = e.schemas
  next : e.next ≤ e'.next
  literals : ∀ s v, e.literals.get? s = some v → e'.literals.get? s = some v
  tidy : e.Tidy → e'.Tidy
  equations : ∃ qs, e'.equations = e.equations ++ qs ∧
    ∀ q ∈ qs, q.Compares e.schemas ∧ M q.left ∧ M q.right

/-- What encoding a term changes: no placeholders are added. -/
structure Effect (M : String → Prop) (e e' : Encoder) : Prop extends Growth M e e' where
  counts : e'.counts = e.counts

variable {M : String → Prop}

theorem Growth.refl (e : Encoder) : Growth M e e :=
  ⟨rfl, le_refl _, fun _ _ h => h, id, [], (List.append_nil _).symm, by simp⟩

theorem Growth.trans {e e' e'' : Encoder} (h : Growth M e e') (h' : Growth M e' e'') :
    Growth M e e'' where
  schemas := h'.schemas.trans h.schemas
  next := le_trans h.next h'.next
  literals s v hs := h'.literals s v (h.literals s v hs)
  tidy ht := h'.tidy (h.tidy ht)
  equations := by
    obtain ⟨qs, hqs, hall⟩ := h.equations
    obtain ⟨qs', hqs', hall'⟩ := h'.equations
    refine ⟨qs ++ qs', by rw [hqs', hqs, List.append_assoc], ?_⟩
    rw [h.schemas] at hall'
    exact List.forall_mem_append.mpr ⟨hall, hall'⟩

theorem Growth.mono {N : String → Prop} {e e' : Encoder} (h : Growth M e e')
    (hMN : ∀ x, M x → N x) : Growth N e e' where
  schemas := h.schemas
  next := h.next
  literals := h.literals
  tidy := h.tidy
  equations := by
    obtain ⟨qs, hqs, hall⟩ := h.equations
    exact ⟨qs, hqs, fun q hq => ⟨(hall q hq).1, hMN _ (hall q hq).2.1, hMN _ (hall q hq).2.2⟩⟩

/-- A change that adds no equation. -/
theorem growth_of_equations {e e' : Encoder} (schemas : e'.schemas = e.schemas)
    (next : e.next ≤ e'.next)
    (literals : ∀ s v, e.literals.get? s = some v → e'.literals.get? s = some v)
    (tidy : e.Tidy → e'.Tidy) (equations : e'.equations = e.equations) : Growth M e e' :=
  ⟨schemas, next, literals, tidy, [], by rw [equations, List.append_nil], by simp⟩

theorem Effect.refl (e : Encoder) : Effect M e e := ⟨.refl e, rfl⟩

theorem Effect.trans {e e' e'' : Encoder} (h : Effect M e e') (h' : Effect M e' e'') :
    Effect M e e'' :=
  ⟨h.toGrowth.trans h'.toGrowth, h'.counts.trans h.counts⟩

/-- The symbols of some tuples, their placeholders, and symbols that mean the same everywhere. -/
def visible (M : String → Prop) : Set Symbol :=
  {s | s.Global ∨ ∃ x, M x ∧ (s.owner? = some x ∨ s = ⟨x, .int⟩)}

theorem visible_owner {s : Symbol} {x : String} (hx : M x) (hs : s.owner? = some x) :
    s ∈ visible M := .inr ⟨x, hx, .inl hs⟩

theorem visible_mono {N : String → Prop} (h : ∀ x, M x → N x) : visible M ⊆ visible N :=
  fun _ hs => hs.imp_right fun ⟨x, hx, hs⟩ => ⟨x, h x hx, hs⟩

/-- The symbols of some tuples mean what the tuples are in a world, and those of them that have
schemas are bound to rows that fit. -/
structure Views (M : String → Prop) (L : Legend) (e : Encoder) (w : World) (ρ : Interpretation) :
    Prop where
  depicted : w.Depicted L ρ
  fits : ∀ x, M x → ∀ S, w.schemas x = some S → ∃ r, w.tuples x = some r ∧ r.Fits L S
  schemas : ∀ x, M x → e.schemas.get? x = w.schemas x

/-- The symbols of some tuples and of placeholders mean what they are in a world. -/
structure Reads (M : String → Prop) (L : Legend) (e : Encoder) (w : World) (ρ : Interpretation) :
    Prop extends Views M L e w ρ where
  counts : ∀ x, M x → (e.isCount x = true ↔ (w.placeholders x).isSome)
  marks : ∀ x (n : ℚ), w.placeholders x = some (n : WithTop ℚ) → ρ ⟨x, .int⟩ = n

/-- The symbols of literals are read as the literals. -/
def Spells (L : Legend) (e : Encoder) (ρ : Interpretation) : Prop :=
  ∀ s v, e.literals.get? s = some v → ρ v = L.text s

variable {L : Legend} {e e' : Encoder} {w : World} {ρ : Interpretation}

theorem Views.growth (h : e.Views M L w ρ) (he : Growth M e e') : e'.Views M L w ρ where
  depicted := h.depicted
  fits := h.fits
  schemas x hx := by rw [he.schemas, h.schemas x hx]

theorem Reads.effect (h : e.Reads M L w ρ) (he : Effect M e e') : e'.Reads M L w ρ where
  toViews := h.toViews.growth he.toGrowth
  counts x hx := by rw [isCount, he.counts]; exact h.counts x hx
  marks := h.marks

theorem Spells.of_growth (h : e'.Spells L ρ) (he : Growth M e e') : e.Spells L ρ :=
  fun s v hs => h s v (he.literals s v hs)

/-- What is known of the formula of a term about some tuples. -/
structure Encoded (M : String → Prop) (t : Term) (e : Encoder) (f : Formula) (e' : Encoder) :
    Prop where
  effect : Effect M e e'
  built : e.Tidy → f.Built (visible M) false .value
  value : ∀ {L R K w ρ}, e.Reads M L w ρ → e'.Spells L ρ →
    L.Agrees (t.meaning w) (f.value R K ρ)

/-- What is known of the formulas of some terms. -/
structure EncodedAll (M : String → Prop) (ts : List Term) (e : Encoder) (fs : List Formula)
    (e' : Encoder) : Prop where
  length : fs.length = ts.length
  effect : Effect M e e'
  built : e.Tidy → ∀ f ∈ fs, f.Built (visible M) false .value
  values : ∀ {L R K w ρ}, e.Reads M L w ρ → e'.Spells L ρ →
    List.Forall₂ L.Agrees (Term.meanings ts w) (Formula.valueAll R fs K ρ)

theorem EncodedAll.nil (e : Encoder) : EncodedAll M [] e [] e :=
  ⟨rfl, .refl e, fun _ => by simp, fun _ _ => .nil⟩

theorem EncodedAll.cons {e e' e'' : Encoder} {t : Term} {ts : List Term} {f : Formula}
    {fs : List Formula} (h : Encoded M t e f e') (hs : EncodedAll M ts e' fs e'') :
    EncodedAll M (t :: ts) e (f :: fs) e'' where
  length := congrArg Nat.succ hs.length
  effect := h.effect.trans hs.effect
  built ht := List.forall_mem_cons.mpr ⟨h.built ht, hs.built (h.effect.tidy ht)⟩
  values hw hρ :=
    .cons (h.value hw (hρ.of_growth hs.effect.toGrowth))
      (hs.values (hw.effect h.effect) hρ)

theorem encodeList_ok {ts : List Term}
    (ih : ∀ t ∈ ts, ∀ {e e' : Encoder} {f : Formula}, Returns (encode t) e f e' →
      Encoded M t e f e')
    {e e' : Encoder} {fs : List Formula} (h : Returns (encodeList ts) e fs e') :
    EncodedAll M ts e fs e' := by
  induction ts generalizing e fs with
  | nil =>
      rw [encodeList] at h
      obtain ⟨rfl, rfl⟩ := returns_pure.mp h
      exact .nil e'
  | cons t ts ihs =>
      rw [List.forall_mem_cons] at ih
      rw [encodeList] at h
      obtain ⟨f, e₁, hf, h⟩ := returns_bind.mp h
      obtain ⟨gs, e₂, hgs, h⟩ := returns_bind.mp h
      obtain ⟨rfl, rfl⟩ := returns_pure.mp h
      exact .cons (ih.1 hf) (ihs ih.2 hgs)

/-! ### Sums, products and negations -/

theorem EncodedAll.add {ts : List Term} {fs : List Formula} (h : EncodedAll M ts e fs e') :
    Encoded M (.add ts) e (.plus fs) e' where
  effect := h.effect
  built ht := by
    simp only [Formula.Built, Formula.allBuilt_iff]
    exact ⟨trivial, h.built ht⟩
  value hw hρ := by
    rw [Term.meaning, Formula.value]
    exact Legend.agrees_ofNumber (Legend.Agrees.sum (h.values hw hρ))

theorem Encoded.neg {t : Term} {f : Formula} (h : Encoded M t e f e') :
    Encoded M (.neg t) e (.ite (.eq f .zero) .one .zero) e' where
  effect := h.effect
  built ht := ⟨⟨rfl, h.built ht, Formula.built_zero _ _⟩, Formula.built_one _ _,
    Formula.built_zero _ _⟩
  value {L R K w ρ} hw hρ := by
    rw [Term.meaning]
    refine Legend.agrees_ofNumber ?_
    have hvalue : (Formula.ite (.eq f .zero) .one .zero).value R K ρ =
        if f.value R K ρ = 0 then 1 else 0 := by
      by_cases h0 : f.value R K ρ = 0 <;> simp [h0, truth]
    rw [hvalue]
    exact (h.value hw hρ).toNumber.map fun q => if q = 0 then 1 else 0

theorem Encoded.squash {t : Term} {f : Formula} (h : Encoded M t e f e') :
    Encoded M (.squash t) e (.ite (.eq f .zero) .zero .one) e' where
  effect := h.effect
  built ht := ⟨⟨rfl, h.built ht, Formula.built_zero _ _⟩, Formula.built_zero _ _,
    Formula.built_one _ _⟩
  value {L R K w ρ} hw hρ := by
    rw [Term.meaning]
    refine Legend.agrees_ofNumber ?_
    have hvalue : (Formula.ite (.eq f .zero) .zero .one).value R K ρ =
        if f.value R K ρ = 0 then 0 else 1 := by
      by_cases h0 : f.value R K ρ = 0 <;> simp [h0, truth]
    rw [hvalue]
    exact (h.value hw hρ).toNumber.map fun q => if q = 0 then 0 else 1

/-- The value of a product of which the factors that are one are left out; nothing is left if a
factor is zero. -/
noncomputable def productValue (R : Reading) (K : Set Symbol) (ρ : Interpretation) :
    Option (List Formula) → ℚ
  | some fs => (Formula.valueAll R fs K ρ).prod
  | none => 0

/-- What is known of the factors of a product. -/
structure EncodedFactors (M : String → Prop) (ts : List Term) (e : Encoder)
    (o : Option (List Formula)) (e' : Encoder) : Prop where
  effect : Effect M e e'
  built : e.Tidy → ∀ fs ∈ o, ∀ f ∈ fs, f.Built (visible M) false .value
  value : ∀ {L R K w ρ}, e.Reads M L w ρ → e'.Spells L ρ →
    LessDefined ((Term.meanings ts w).map Scalar.toNumber).prod (productValue R K ρ o : ℚ)

theorem value_of_constant? {R : Reading} {K : Set Symbol} {f : Formula} {test : Fraction → Bool}
    (h : f.constant?.any test = true) : ∃ q, test q = true ∧ f.value R K ρ = q.toRat := by
  cases hq : f.constant? with
  | none =>
      rw [hq] at h
      cases h
  | some q =>
      rw [hq] at h
      exact ⟨q, h, by rw [Formula.constant?_eq_some.mp hq, Formula.value]⟩

theorem encodeFactors_ok {ts : List Term}
    (ih : ∀ t ∈ ts, ∀ {e e' : Encoder} {f : Formula}, Returns (encode t) e f e' →
      Encoded M t e f e')
    {e e' : Encoder} {o : Option (List Formula)} (h : Returns (encodeFactors ts) e o e') :
    EncodedFactors M ts e o e' := by
  induction ts generalizing e o with
  | nil =>
      rw [encodeFactors] at h
      obtain ⟨rfl, rfl⟩ := returns_pure.mp h
      exact ⟨.refl e', by simp, fun _ _ => .refl _⟩
  | cons t ts ihs =>
      rw [List.forall_mem_cons] at ih
      rw [encodeFactors] at h
      obtain ⟨f, e₁, hf, h⟩ := returns_bind.mp h
      have hf := ih.1 hf
      split at h
      · next hzero =>
          obtain ⟨rfl, rfl⟩ := returns_pure.mp h
          refine ⟨hf.effect, by simp, fun {L R K w ρ} hw hρ => ?_⟩
          obtain ⟨q, hq, hvalue⟩ := value_of_constant? (R := R) (K := K) (ρ := ρ) hzero
          have hfactor := (hf.value (R := R) (K := K) hw hρ).toNumber
          rw [hvalue, (Fraction.isZero_iff q).mp hq] at hfactor
          rw [Term.meanings, List.map_cons, List.prod_cons]
          simpa [productValue] using hfactor.mul (.refl _)
      · split at h
        · next hone =>
            have hrest := ihs ih.2 h
            refine ⟨hf.effect.trans hrest.effect,
              fun ht => hrest.built (hf.effect.tidy ht), fun {L R K w ρ} hw hρ => ?_⟩
            obtain ⟨q, hq, hvalue⟩ := value_of_constant? (R := R) (K := K) (ρ := ρ) hone
            have hfactor := (hf.value (R := R) (K := K) hw
              (hρ.of_growth hrest.effect.toGrowth)).toNumber
            rw [hvalue, (Fraction.isOne_iff q).mp hq] at hfactor
            have := hfactor.mul (hrest.value (R := R) (K := K) (hw.effect hf.effect) hρ)
            rwa [WithTop.coe_one, one_mul] at this
        · obtain ⟨fs, e₂, hfs, h⟩ := returns_bind.mp h
          obtain ⟨rfl, rfl⟩ := returns_pure.mp h
          have hrest := ihs ih.2 hfs
          refine ⟨hf.effect.trans hrest.effect, fun ht => ?_, fun {L R K w ρ} hw hρ => ?_⟩
          · have hbuilt := hrest.built (hf.effect.tidy ht)
            intro gs hgs
            obtain ⟨gs, hfs, rfl⟩ := Option.map_eq_some_iff.mp hgs
            exact List.forall_mem_cons.mpr ⟨hf.built ht, hbuilt gs hfs⟩
          · have hfactor := (hf.value (R := R) (K := K) hw
              (hρ.of_growth hrest.effect.toGrowth)).toNumber
            have := hfactor.mul (hrest.value (R := R) (K := K) (hw.effect hf.effect) hρ)
            rw [← WithTop.coe_mul] at this
            have hprod : productValue R K ρ (fs.map (f :: ·)) =
                f.value R K ρ * productValue R K ρ fs := by
              cases fs with
              | none => exact (mul_zero _).symm
              | some fs => rw [Option.map_some, productValue, Formula.valueAll, List.prod_cons]; rfl
            rwa [hprod]

/-- The formula of a product. -/
theorem EncodedFactors.mul {ts : List Term} {o : Option (List Formula)}
    (h : EncodedFactors M ts e o e') :
    Encoded M (.mul ts) e (o.elim .zero .mul) e' where
  effect := h.effect
  built ht := by
    cases o with
    | none => exact Formula.built_zero _ _
    | some fs =>
        simp only [Option.elim, Formula.Built, Formula.allBuilt_iff]
        exact ⟨trivial, h.built ht fs rfl⟩
  value {L R K w ρ} hw hρ := by
    have hvalue : (o.elim .zero .mul : Formula).value R K ρ = productValue R K ρ o := by
      cases o with
      | none => exact Formula.value_zero
      | some fs => rw [Option.elim, Formula.value]; rfl
    rw [Term.meaning, hvalue]
    exact Legend.agrees_ofNumber (h.value hw hρ)

/-! ### Single steps -/

theorem returns_step {α : Type} {f : Encoder → α × Encoder} {a : α} :
    Returns (step f) e a e' ↔ f e = (a, e') :=
  returns_modifyGet

theorem not_returns_refuse {α : Type} {err : Error} {a : α} : ¬Returns (refuse err) e a e' :=
  returns_throw

theorem returns_attempt {α : Type} {r : Except Fault α} {a : α} :
    Returns (attempt r) e a e' ↔ r = .ok a ∧ e' = e := by
  cases r with
  | ok b =>
      change Returns (pure b : EncodeM α) e a e' ↔ _
      rw [returns_pure, Except.ok.injEq, eq_comm]
  | error f =>
      refine ⟨fun h => absurd h returns_throw, fun h => ?_⟩
      cases h.1

/-- A change that only concerns null flags. -/
theorem effect_nullFlag (base attr : String) (e : Encoder) :
    Effect M e (e.nullFlag base attr).2 := by
  unfold nullFlag
  dsimp only
  split
  · exact .refl e
  · exact ⟨growth_of_equations rfl (le_refl _) (fun _ _ h => h)
      (fun h => ⟨h.literals, h.injective, h.counted, h.counts, h.columns⟩) rfl, rfl⟩

theorem literal_ok {s : String} {v : Symbol} (h : e.literal s = (v, e')) :
    Effect M e e' ∧ e'.literals.get? s = some v := by
  unfold literal at h
  split at h
  · next hv =>
      cases h
      exact ⟨.refl e, hv⟩
  · next hnone =>
      cases h
      have hget : ∀ t, (e.literals.insert s ⟨"#s" ++ toString e.next, .str⟩).get? t =
          if t = s then some ⟨"#s" ++ toString e.next, .str⟩ else e.literals.get? t :=
        NameMap.get?_insert _ _ _
      have hnew : ∀ {t v}, e.literals.get? t = some v → t ≠ s := by
        rintro t v ht rfl
        cases hnone.symm.trans ht
      refine ⟨⟨growth_of_equations rfl (Nat.le_succ _) (fun t v ht => ?_)
        (fun htidy => ⟨?_, ?_, htidy.counted, htidy.counts, htidy.columns⟩) rfl, rfl⟩, ?_⟩
      · exact (hget t).trans (by rw [if_neg (hnew ht), ht])
      · intro t v ht
        replace ht := (hget t).symm.trans ht
        split at ht
        · cases ht
          exact ⟨e.next, Nat.lt_succ_self _, rfl⟩
        · obtain ⟨k, hk, rfl⟩ := htidy.literals t v ht
          exact ⟨k, Nat.lt_succ_of_lt hk, rfl⟩
      · -- The new symbol has a number that no other literal has.
        have hother : ∀ t, e.literals.get? t ≠ some ⟨"#s" ++ toString e.next, .str⟩ := by
          intro t ht
          obtain ⟨k, hk, heq⟩ := htidy.literals t _ ht
          have hs : Unnumbered "#s" := ⟨['#'], 's', rfl, rfl⟩
          have := (hs.append_inj hs (congrArg Symbol.name heq)).2
          omega
        intro t u v ht hu
        replace ht := (hget t).symm.trans ht
        replace hu := (hget u).symm.trans hu
        split at ht <;> split at hu
        · next h₁ h₂ => exact h₁.trans h₂.symm
        · cases ht
          exact absurd hu (hother u)
        · cases hu
          exact absurd ht (hother t)
        · exact htidy.injective t u v ht hu
      · exact (hget s).trans (if_pos rfl)

theorem Tidy.global_of_literal (h : e.Tidy) {s : String} {v : Symbol}
    (hv : e.literals.get? s = some v) : v.Global := by
  obtain ⟨k, _, rfl⟩ := h.literals s v hv
  exact Symbol.global_literal k .str

/-- The symbol of an application is an old one, or a new one that is kept. -/
theorem returns_counting {name : String} {app : Term} {v : Symbol}
    (h : Returns (counting name app) e v e') :
    (e' = e ∧ ∃ p ∈ e.counted.toList, p.2 = v) ∨
      v = ⟨name ++ "#" ++ toString e.next, .nat⟩ ∧
        ∃ tree, (∀ p, p ∈ tree.toList ↔ p = (app, v) ∨ p ∈ e.counted.toList) ∧
          e' = { e with next := e.next + 1, counted := tree } := by
  obtain ⟨e₀, e₁, hget, h₁⟩ := returns_bind.mp h
  obtain ⟨rfl, rfl⟩ := returns_get.mp hget
  obtain ⟨found, e₂, hfind, h₂⟩ := returns_bind.mp h₁
  obtain ⟨hfind, rfl⟩ := returns_attempt.mp hfind
  cases found with
  | some p =>
      obtain ⟨rfl, rfl⟩ := returns_pure.mp h₂
      exact .inl ⟨rfl, p, SearchTree.mem_of_find _ hfind, rfl⟩
  | none =>
      obtain ⟨tree, e₃, hinsert, h₃⟩ := returns_bind.mp h₂
      obtain ⟨hinsert, rfl⟩ := returns_attempt.mp hinsert
      obtain ⟨_, e₄, hset, h₄⟩ := returns_bind.mp h₃
      obtain rfl := returns_set.mp hset
      obtain ⟨rfl, rfl⟩ := returns_pure.mp h₄
      exact .inr ⟨rfl, tree, SearchTree.mem_insert hinsert, rfl⟩

theorem counting_ok {name : String} {app : Term} {v : Symbol} (hname : isCounting name = true)
    (h : Returns (counting name app) e v e') : Effect M e e' ∧ (e.Tidy → v.Global) := by
  rcases returns_counting h with ⟨rfl, p, hp, rfl⟩ | ⟨rfl, tree, htree, rfl⟩
  · exact ⟨.refl _, fun htidy => htidy.counted p hp⟩
  · refine ⟨⟨growth_of_equations rfl (Nat.le_succ _) (fun _ _ h => h) (fun htidy => ?_) rfl, rfl⟩,
      fun _ => Symbol.global_counting hname _ .nat⟩
    refine ⟨fun s v hs => ?_, htidy.injective, fun p hp => ?_, htidy.counts, htidy.columns⟩
    · obtain ⟨k, hk, hv⟩ := htidy.literals s v hs
      exact ⟨k, Nat.lt_succ_of_lt hk, hv⟩
    · rcases (htree p).mp hp with rfl | hp
      · exact Symbol.global_counting hname _ .nat
      · exact htidy.counted p hp

/-- Two tuples with schemas are compared column by column. -/
theorem tupleEquation_ok {x y : String} {c : Formula} (h : Returns (tupleEquation x y) e c e') :
    ∃ q : TupleEquation, q.Compares e.schemas ∧ q.left = x ∧ q.right = y ∧ c = q.condition ∧
      e' = { e with equations := e.equations ++ [q] } := by
  obtain ⟨e₀, e₁, hget, h₁⟩ := returns_bind.mp h
  obtain ⟨rfl, rfl⟩ := returns_get.mp hget
  split at h₁
  · next sx sy hx hy =>
      dsimp only at h₁
      split at h₁
      · obtain ⟨_, _, hrefuse, _⟩ := returns_bind.mp h₁
        exact absurd hrefuse not_returns_refuse
      · obtain ⟨_, e₃, hset, h₃⟩ := returns_bind.mp h₁
        obtain rfl := returns_set.mp hset
        obtain ⟨rfl, rfl⟩ := returns_pure.mp h₃
        refine ⟨_, ?_, rfl, rfl, rfl, rfl⟩
        refine ⟨⟨sx, sy, hx, hy, rfl⟩, ?_⟩
        simp only [column_eq]
        rfl
  · exact absurd h₁ not_returns_refuse

theorem effect_equation {q : TupleEquation} (hq : q.Compares e.schemas) (hx : M q.left)
    (hy : M q.right) : Effect M e { e with equations := e.equations ++ [q] } :=
  ⟨⟨rfl, le_refl _, fun _ _ h => h,
    fun h => ⟨h.literals, h.injective, h.counted, h.counts, h.columns⟩,
    [q], rfl, by simpa using ⟨hq, hx, hy⟩⟩, rfl⟩

end Encoder

/-! ### Equal tuples -/

namespace TupleEquation

variable {e : Encoder} {q : TupleEquation} {M : String → Prop} {L : Legend} {R : Reading}
  {K : Set Symbol} {w : World} {ρ : Interpretation}

/-- The rows of the tuples of an equation fit the schemas that it goes by. -/
theorem Compares.rows (h : q.Compares e.schemas) (hw : e.Views M L w ρ) (hx : M q.left)
    (hy : M q.right) :
    ∃ sx sy a b, w.schemas q.left = some sx ∧ w.schemas q.right = some sy ∧
      w.tuples q.left = some a ∧ w.tuples q.right = some b ∧ a.Fits L sx ∧ b.Fits L sy ∧
      q.columns = (sx.columns.zip sy.columns).map fun p => (p.1.name, p.2.name) := by
  obtain ⟨sx, sy, hsx, hsy, hcolumns⟩ := h.columns
  rw [hw.schemas _ hx] at hsx
  rw [hw.schemas _ hy] at hsy
  obtain ⟨a, ha, hfa⟩ := hw.fits _ hx sx hsx
  obtain ⟨b, hb, hfb⟩ := hw.fits _ hy sy hsy
  exact ⟨sx, sy, a, b, hsx, hsy, ha, hb, hfa, hfb, hcolumns⟩

/-- The condition of an equation says that the rows agree in corresponding columns. -/
theorem Compares.holds_iff (h : q.Compares e.schemas) (hw : e.Views M L w ρ)
    (hclean : ∀ x, M x → Clean x) (hx : M q.left) (hy : M q.right) {sx sy : Schema}
    {a b : ExactRow} (hsx : w.schemas q.left = some sx) (hsy : w.schemas q.right = some sy)
    (ha : w.tuples q.left = some a) (hb : w.tuples q.right = some b) :
    q.condition.Holds R K ρ ↔ ∀ p ∈ sx.columns.zip sy.columns, a.agree b p = true := by
  obtain ⟨sx', sy', a', b', hsx', hsy', ha', hb', hfa, hfb, hcolumns⟩ := h.rows hw hx hy
  cases hsx.symm.trans hsx'
  cases hsy.symm.trans hsy'
  cases ha.symm.trans ha'
  cases hb.symm.trans hb'
  rw [h.condition, hcolumns, hw.schemas _ hx, hw.schemas _ hy]
  simp only [Formula.holds_and, List.forall_mem_map, Formula.holds_eq, Formula.value]
  refine forall₂_congr fun p hp => ?_
  obtain ⟨hp₁, hp₂⟩ := List.of_mem_zip hp
  exact hw.depicted.columns_eq_iff (hclean _ hx) (hclean _ hy) ha hb hfa hfb hp₁ hp₂

end TupleEquation

namespace Encoder

variable {M : String → Prop} {e e' : Encoder} {L : Legend} {w : World} {ρ : Interpretation}
  {f : Formula} {fs : List Formula} {args : List Term} {name : String}

/-! ### Predicates -/

/-- The tuples that two arguments name are the same for the encoder and in a world. -/
theorem Reads.tuples?_eq (h : e.Reads M L w ρ) (hargs : ∀ x, Term.mentionsAny x args = true → M x) :
    tuples? e args = w.pair? args := by
  have named : ∀ {t : Term}, (∀ x, t.mentions x = true → M x) →
      w.named? t = t.tuple?.filter fun x => !e.isCount x := by
    intro t ht
    rw [World.named?]
    cases hx : t.tuple? with
    | none => rfl
    | some x =>
        have hM : M x := ht x (by rw [Term.tuple?_eq_some.mp hx]; exact decide_eq_true rfl)
        have hcount : (w.placeholders x).isNone = !e.isCount x := by
          rw [Bool.eq_iff_iff, Bool.not_eq_true', ← Bool.not_eq_true, h.counts x hM]
          cases w.placeholders x <;> simp
        simp only [Option.filter_some, hcount]
  rcases args with _ | ⟨a, _ | ⟨b, _ | _⟩⟩
  case cons.cons.nil =>
    simp only [Term.mentionsAny, Bool.or_false, Bool.or_eq_true] at hargs
    rw [World.pair?, named fun x hx => hargs x (.inl hx), named fun x hx => hargs x (.inr hx)]
    unfold tuples?
    split
    · next x y heq =>
        cases heq
        cases hx : e.isCount x <;> cases hy : e.isCount y <;>
          simp [Term.tuple?, Option.filter_some, hx, hy]
    · next hne =>
        cases ha : a.tuple? with
        | none => rfl
        | some x =>
            cases hb : b.tuple? with
            | none => simp
            | some y =>
                rw [Term.tuple?_eq_some] at ha hb
                exact absurd (by rw [ha, hb]) (hne x y)
  all_goals simp [tuples?, World.pair?]

/-- The condition of an equation is about the tuples that it compares. -/
theorem Tidy.built_condition (ht : e.Tidy) (hclean : ∀ x, M x → Clean x) {q : TupleEquation}
    (hq : q.Compares e.schemas) (hx : M q.left) (hy : M q.right) :
    q.condition.Built (visible M) false .truth := by
  obtain ⟨sx, sy, hsx, hsy, hcolumns⟩ := hq.columns
  rw [hq.condition, hcolumns]
  simp only [Formula.Built, Formula.allBuilt_iff, true_and, List.forall_mem_map]
  intro p hp
  obtain ⟨hp₁, hp₂⟩ := List.of_mem_zip hp
  exact ⟨visible_owner hx (Symbol.owner?_column (hclean _ hx) (ht.columns _ sx hsx _ hp₁) _),
    visible_owner hy (Symbol.owner?_column (hclean _ hy) (ht.columns _ sy hsy _ hp₂) _)⟩

/-- What is known of the formula of a predicate, given what it says in a world. -/
structure EncodedTest (M : String → Prop) (judge : World → Option Bool) (e : Encoder) (f : Formula)
    (e' : Encoder) : Prop where
  effect : Effect M e e'
  built : e.Tidy → f.Built (visible M) false .value
  value : ∀ {L R K w ρ}, e.Reads M L w ρ → e'.Spells L ρ →
    ∀ b, judge w = some b → f.value R K ρ = if b then 1 else 0

/-- The formula of a comparison of two tuples. -/
theorem tupleComparison_ok (hclean : ∀ x, M x → Clean x) {kind : Pred} {x y : String} (hx : M x)
    (hy : M y) (h : Returns (tupleComparison kind x y) e f e') :
    EncodedTest M (fun w => w.compareTuples? kind x y) e f e' := by
  obtain ⟨c, e₁, hc, h₁⟩ := returns_bind.mp h
  obtain ⟨q, hq, rfl, rfl, rfl, rfl⟩ := tupleEquation_ok hc
  have heffect := effect_equation hq hx hy
  have hholds : ∀ {L R K w ρ}, e.Reads M L w ρ → ∀ b,
      w.same? q.left q.right = some b → (q.condition.Holds R K ρ ↔ b = true) := by
    intro L R K w ρ hw b hb
    unfold World.same? at hb
    split at hb
    · next r r' sx sy hr hr' hsx hsy =>
        split at hb
        · cases hb
        · obtain rfl := Option.some.inj hb
          rw [hq.holds_iff hw.toViews hclean hx hy hsx hsy hr hr', List.all_eq_true]
    · cases hb
  cases kind with
  | eq =>
      obtain ⟨rfl, rfl⟩ := returns_pure.mp h₁
      refine ⟨heffect, fun ht => Formula.built_indicator (ht.built_condition hclean hq hx hy),
        fun {L R K w ρ} hw _ b hb => ?_⟩
      rw [World.compareTuples?_eq] at hb
      rw [Formula.value_indicator, truth_eq_ite (hholds hw b hb)]
  | ne =>
      obtain ⟨rfl, rfl⟩ := returns_pure.mp h₁
      refine ⟨heffect, fun ht => Formula.built_indicator ⟨rfl, ht.built_condition hclean hq hx hy⟩,
        fun {L R K w ρ} hw _ b hb => ?_⟩
      rw [World.compareTuples?_ne] at hb
      obtain ⟨same, hsame, rfl⟩ := Option.map_eq_some_iff.mp hb
      rw [Formula.value_indicator, truth_eq_ite]
      rw [Formula.holds_not, hholds hw same hsame, Bool.not_eq_true', Bool.not_eq_true]
  | lt | le | gt | ge | isNull | named => exact absurd h₁ not_returns_refuse

/-- The formula of a comparison of two values. -/
theorem comparison_ok {kind : Pred} {a b f : Formula} (h : Returns (comparison kind a b) e f e') :
    e' = e ∧ (∀ {V}, a.Built V false .value → b.Built V false .value → f.Built V false .value) ∧
      ∀ {R K ρ} {o : Ordering}, ((o = .lt ↔ a.value R K ρ < b.value R K ρ) ∧
        (o = .eq ↔ a.value R K ρ = b.value R K ρ) ∧ (o = .gt ↔ b.value R K ρ < a.value R K ρ)) →
        ∀ c, kind.holds? o = some c → f.value R K ρ = if c then 1 else 0 := by
  cases kind with
  | isNull | named => exact absurd h not_returns_refuse
  | eq | lt | le =>
      obtain ⟨rfl, rfl⟩ := returns_pure.mp h
      refine ⟨rfl, fun ha hb => Formula.built_indicator ⟨rfl, ha, hb⟩, fun ho c hc => ?_⟩
      obtain rfl := Option.some.inj hc
      rw [Formula.value_indicator, truth_eq_ite]
      simp only [Formula.holds_eq, Formula.holds_lt, Formula.holds_le, ← not_lt, ← ho.1, ← ho.2.1,
        ← ho.2.2, beq_iff_eq, bne_iff_ne]
  | ne =>
      obtain ⟨rfl, rfl⟩ := returns_pure.mp h
      refine ⟨rfl, fun ha hb => Formula.built_indicator ⟨rfl, rfl, ha, hb⟩, fun ho c hc => ?_⟩
      obtain rfl := Option.some.inj hc
      rw [Formula.value_indicator, truth_eq_ite]
      rw [Formula.holds_not, Formula.holds_eq, ← ho.2.1, bne_iff_ne]
  | gt | ge =>
      obtain ⟨rfl, rfl⟩ := returns_pure.mp h
      refine ⟨rfl, fun ha hb => Formula.built_indicator ⟨rfl, hb, ha⟩, fun ho c hc => ?_⟩
      obtain rfl := Option.some.inj hc
      rw [Formula.value_indicator, truth_eq_ite]
      simp only [Formula.holds_lt, Formula.holds_le, ← not_lt, ← ho.1, ← ho.2.2, beq_iff_eq,
        bne_iff_ne]

/-- The formula of a comparison of two arguments. -/
theorem encodeBinary_ok (hclean : ∀ x, M x → Clean x) {kind : Pred}
    {values : EncodeM (List Formula)} (hargs : ∀ x, Term.mentionsAny x args = true → M x)
    (hvalues : ∀ {e e' : Encoder} {fs : List Formula}, Returns values e fs e' →
      EncodedAll M args e fs e') (h : Returns (encodeBinary kind args values) e f e') :
    EncodedTest M (fun w => w.compareAll? kind args (Term.meanings args w)) e f e' := by
  obtain ⟨e₀, e₁, hget, h₁⟩ := returns_bind.mp h
  obtain ⟨rfl, rfl⟩ := returns_get.mp hget
  split at h₁
  · next x y hpair =>
      have hnames : M x ∧ M y := by
        unfold tuples? at hpair
        split at hpair
        · split at hpair
          · cases hpair
          · cases hpair
            exact ⟨hargs x (by simp [Term.mentionsAny, Term.mentions, Var.tuple]),
              hargs y (by simp [Term.mentionsAny, Term.mentions, Var.tuple])⟩
        · cases hpair
      have htest := tupleComparison_ok hclean hnames.1 hnames.2 h₁
      refine ⟨htest.effect, htest.built, fun hw hρ b hb => htest.value hw hρ b ?_⟩
      rwa [World.compareAll?, ← hw.tuples?_eq hargs, hpair] at hb
  · next hpair =>
      obtain ⟨fs, e₂, hfs, h₂⟩ := returns_bind.mp h₁
      have hfs := hvalues hfs
      split at h₂
      · obtain ⟨rfl, hbuilt, hvalue⟩ := comparison_ok h₂
        refine ⟨hfs.effect, fun ht => ?_, fun {L R K w ρ} hw hρ c hc => ?_⟩
        · have hall := hfs.built ht
          exact hbuilt (hall _ (by simp)) (hall _ (by simp))
        · have hall := hfs.values (R := R) (K := K) hw hρ
          rw [World.compareAll?, ← hw.tuples?_eq hargs, hpair] at hc
          generalize Term.meanings args w = ms at hall hc
          obtain _ | ⟨ha, _ | ⟨hb, _ | _⟩⟩ := hall
          obtain ⟨x, rfl, hc⟩ := Option.bind_eq_some_iff.mp hc
          obtain ⟨y, rfl, hc⟩ := Option.bind_eq_some_iff.mp hc
          obtain ⟨o, ho, hc⟩ := Option.bind_eq_some_iff.mp hc
          refine hvalue ?_ c hc
          rw [ha x rfl, hb y rfl]
          exact Legend.code_of_order? ho
      · exact absurd h₂ not_returns_refuse

theorem built_holds {V : Set Symbol} (h : f.Built V false .value) :
    (holds f).Built V false .value :=
  Formula.built_indicator ⟨rfl, rfl, h, Formula.built_zero V false⟩

theorem built_func {type : SymbolType} {V : Set Symbol} (h : ∀ f ∈ fs, f.Built V false .value) :
    (Formula.func name fs type).Built V false .value := by
  simp only [Formula.Built, Formula.allBuilt_iff]
  exact ⟨trivial, h⟩

/-- The formula of a function of values that is only known to count as true or false. -/
theorem EncodedAll.holds_func (h : EncodedAll M args e fs e') (name : String) (type : SymbolType) :
    EncodedTest M (fun _ => none) e (holds (.func name fs type)) e' :=
  ⟨h.effect, fun ht => built_holds (built_func (h.built ht)), fun _ _ _ hb => by cases hb⟩

/-- The formula of a test of one value; the test of a column is a flag that shows its result. -/
theorem encodeTest_ok {flag : String → String → EncodeM Symbol} {arg : Term}
    {values : EncodeM (List Formula)} {judge : World → Option Bool}
    (hflag : ∀ {attr x v e'}, arg = .var (.proj attr x) → Returns (flag x attr) e v e' →
      Effect M e e' ∧ (e.Tidy → v ∈ visible M) ∧ ∀ {L w ρ}, e.Reads M L w ρ →
        ∀ b, judge w = some b → ρ v = if b then 1 else 0)
    (hother : arg.column? = none → ∀ w, judge w = none)
    (hvalues : ∀ {e e' : Encoder} {fs : List Formula}, Returns values e fs e' →
      EncodedAll M [arg] e fs e') (h : Returns (encodeTest flag name arg values) e f e') :
    EncodedTest M judge e f e' := by
  unfold encodeTest at h
  split at h
  · obtain ⟨v, e₁, hv, h₁⟩ := returns_bind.mp h
    obtain ⟨rfl, rfl⟩ := returns_pure.mp h₁
    obtain ⟨heffect, hvisible, hvalue⟩ := hflag rfl hv
    refine ⟨heffect, fun ht => ?_, fun {L R K w ρ} hw _ b hb => ?_⟩
    · exact ⟨⟨rfl, ⟨rfl, hvisible ht⟩, Formula.built_zero _ _⟩, Formula.built_zero _ _,
        Formula.built_one _ _⟩
    · have := hvalue hw b hb
      cases b <;> simp [isZero, this, truth]
  · next hcolumn =>
      obtain ⟨fs, e₁, hfs, h₁⟩ := returns_bind.mp h
      obtain ⟨rfl, rfl⟩ := returns_pure.mp h₁
      have htest := (hvalues hfs).holds_func name .int
      have hnone : arg.column? = none := by
        unfold Term.column?
        split
        · exact absurd rfl (hcolumn _ _)
        · rfl
      exact ⟨htest.effect, htest.built, fun _ _ b hb => by cases (hother hnone _).symm.trans hb⟩

/-- The formula of a predicate. -/
theorem encodePred_ok (hclean : ∀ x, M x → Clean x) {kind : Pred} {values : EncodeM (List Formula)}
    (hargs : ∀ x, Term.mentionsAny x args = true → M x) (hregular : Term.AllRegular args)
    (hvalues : ∀ {e e' : Encoder} {fs : List Formula}, Returns values e fs e' →
      EncodedAll M args e fs e') (h : Returns (encodePred kind args values) e f e') :
    EncodedTest M (fun w => w.judge kind args (Term.meanings args w)) e f e' := by
  have hcolumn : ∀ {attr x : String}, args = [.var (.proj attr x)] → M x ∧ '!' ∉ attr.toList := by
    rintro attr x rfl
    exact ⟨hargs x (by simp [Term.mentionsAny, Term.mentions, Var.tuple]), hregular.1⟩
  cases kind with
  | isNull =>
      rcases args with _ | ⟨arg, _ | _⟩
      · exact absurd h not_returns_refuse
      · refine encodeTest_ok ?_ (fun hnone w => by simp [World.judge, hnone]) hvalues h
        rintro attr x v e' rfl hv
        obtain ⟨hx, hattr⟩ := hcolumn rfl
        obtain ⟨rfl, rfl⟩ := Prod.mk.inj (returns_step.mp hv)
        refine ⟨effect_nullFlag x attr e, fun ht => ?_, fun {L w ρ} hw b hb => ?_⟩
        · exact visible_owner hx (Symbol.owner?_null (hclean x hx) hattr .nat)
        · obtain ⟨c, hc, rfl⟩ := Option.map_eq_some_iff.mp hb
          obtain ⟨r, hr, hc⟩ := Option.bind_eq_some_iff.mp hc
          have := hw.depicted x (hclean x hx) _ _ (.null hr hc hattr)
          rwa [truth_eq_ite Iff.rfl] at this
      · exact absurd h not_returns_refuse
  | named name =>
      have hnone : ∀ w : World, w.judge (.named name) args (Term.meanings args w) = none := by
        intro w
        cases args <;> rfl
      rcases args with _ | ⟨arg, _ | _⟩
      case cons.nil =>
        refine encodeTest_ok ?_ (fun _ => hnone) hvalues h
        rintro attr x v e' rfl hv
        obtain ⟨hx, hattr⟩ := hcolumn rfl
        obtain ⟨rfl, rfl⟩ := returns_pure.mp hv
        exact ⟨.refl _, fun ht => visible_owner hx
          (Symbol.owner?_flag (hclean x hx) hattr name .nat), fun _ b hb => by cases hb⟩
      all_goals
        obtain ⟨fs, e₁, hfs, h₁⟩ := returns_bind.mp h
        obtain ⟨rfl, rfl⟩ := returns_pure.mp h₁
        exact (hvalues hfs).holds_func name .int
  | eq | ne | lt | le | gt | ge =>
      rcases args with _ | ⟨a, _ | ⟨b, _ | _⟩⟩
      case cons.cons.nil => exact encodeBinary_ok hclean hargs hvalues h
      all_goals exact absurd h not_returns_refuse

theorem EncodedTest.pred {kind : Pred}
    (h : EncodedTest M (fun w => w.judge kind args (Term.meanings args w)) e f e') :
    Encoded M (.pred kind args) e f e' where
  effect := h.effect
  built := h.built
  value hw hρ := by
    rw [Term.meaning]
    exact Legend.agrees_map (h.value hw hρ)

/-! ### Functions -/

/-- Scalars that are all numbers are the numbers that show them. -/
theorem mapM_number?_eq_some {ms : List (Option (Scalar ℚ))} {qs ns : List ℚ}
    (hall : List.Forall₂ L.Agrees ms qs)
    (h : (ms.mapM fun s => s.bind Scalar.number?) = some ns) : ns = qs := by
  induction hall generalizing ns with
  | nil =>
      cases h
      rfl
  | @cons m q ms qs hm _ ih =>
      rw [List.mapM_cons] at h
      obtain ⟨n, hn, h⟩ := Option.bind_eq_some_iff.mp h
      obtain ⟨ns', hns', h⟩ := Option.bind_eq_some_iff.mp h
      cases h
      rw [ih hns']
      obtain ⟨s, rfl, hs⟩ := Option.bind_eq_some_iff.mp hn
      cases s with
      | number p =>
          cases hs
          rw [hm _ rfl]
          rfl
      | text => cases hs

/-- The formula of a function whose value is the result of the operation that it names, if that has
a result. -/
theorem EncodedAll.func (h : EncodedAll M args e fs e')
    (hbuilt : ∀ {V}, (∀ f ∈ fs, f.Built V false .value) → f.Built V false .value)
    (hvalue : ∀ {R K ρ} {op : Operation} {q : ℚ}, Operation.ofName? name.toLower = some op →
      op.result? (Formula.valueAll R fs K ρ) = some q → f.value R K ρ = q) :
    Encoded M (.func name args) e f e' where
  effect := h.effect
  built ht := hbuilt (h.built ht)
  value {L R K w ρ} hw hρ := by
    rw [Term.meaning]
    intro s hs
    obtain ⟨q, hq, rfl⟩ := Option.map_eq_some_iff.mp hs
    obtain ⟨op, hop, hq⟩ := Option.bind_eq_some_iff.mp hq
    obtain ⟨ns, hns, hq⟩ := Option.bind_eq_some_iff.mp hq
    obtain rfl := mapM_number?_eq_some (h.values (R := R) (K := K) hw hρ) hns
    exact hvalue hop hq

theorem length_of_mapM {α β : Type} {f : α → Option β} {as : List α} {bs : List β}
    (h : as.mapM f = some bs) : bs.length = as.length := by
  induction as generalizing bs with
  | nil =>
      cases h
      rfl
  | cons a as ih =>
      rw [List.mapM_cons] at h
      obtain ⟨b, _, h⟩ := Option.bind_eq_some_iff.mp h
      obtain ⟨bs', hbs', h⟩ := Option.bind_eq_some_iff.mp h
      cases h
      rw [List.length_cons, List.length_cons, ih hbs']

/-- Only operations have results, and only with the right number of arguments. -/
theorem meaning_func_eq_none (hplus : Operation.ofName? name.toLower ≠ some .plus)
    (htimes : Operation.ofName? name.toLower ≠ some .times)
    (hdivide : Operation.ofName? name.toLower = some .divide → args.length ≠ 2)
    (hminus : Operation.ofName? name.toLower = some .minus → args.length ≠ 2)
    (hneg : Operation.ofName? name.toLower = some .minus → args.length ≠ 1) (w : World) :
    (Term.func name args).meaning w = none := by
  rw [Term.meaning, Option.map_eq_none_iff, Option.eq_none_iff_forall_ne_some]
  intro q hq
  obtain ⟨op, hop, hq⟩ := Option.bind_eq_some_iff.mp hq
  obtain ⟨ns, hns, hq⟩ := Option.bind_eq_some_iff.mp hq
  have hlen := length_of_mapM hns
  rw [Term.meanings_eq_map, List.length_map] at hlen
  unfold Operation.result? at hq
  split at hq
  · exact hdivide hop hlen.symm
  · exact hminus hop hlen.symm
  · exact hneg hop hlen.symm
  · exact hplus hop
  · exact htimes hop
  · cases hq

/-- The formula of a function that has no result. -/
theorem encoded_of_none {t : Term} (heffect : Effect M e e')
    (hbuilt : e.Tidy → f.Built (visible M) false .value) (hnone : ∀ w, t.meaning w = none) :
    Encoded M t e f e' :=
  ⟨heffect, hbuilt, fun _ _ s hs => by cases (hnone _).symm.trans hs⟩

theorem encodeFunc_ok {values : EncodeM (List Formula)}
    (hvalues : ∀ {e e' : Encoder} {fs : List Formula}, Returns values e fs e' →
      EncodedAll M args e fs e') (h : Returns (encodeFunc name args values) e f e') :
    Encoded M (.func name args) e f e' := by
  unfold encodeFunc at h
  dsimp only at h
  split at h
  case h_1 hop | h_2 hop =>
    obtain ⟨fs, e₁, hfs, h₁⟩ := returns_bind.mp h
    obtain ⟨rfl, rfl⟩ := returns_pure.mp h₁
    refine (hvalues hfs).func (fun hall => ?_) fun hop' hq => ?_
    · simpa using hall
    · cases hop.symm.trans hop'
      cases hq
      rw [Formula.value]
  · next hop hlen =>
      obtain ⟨fs, e₁, hfs, h₁⟩ := returns_bind.mp h
      have hfs := hvalues hfs
      obtain ⟨a, b, rfl⟩ := List.length_eq_two.mp (hfs.length.trans hlen)
      obtain ⟨rfl, rfl⟩ := returns_pure.mp h₁
      refine hfs.func (fun hall => ⟨rfl, hall _ (by simp), hall _ (by simp)⟩)
        fun {R K ρ op q} hop' hq => ?_
      cases hop.symm.trans hop'
      simp only [Formula.valueAll, Operation.result?] at hq
      split at hq
      · cases hq
      · next hzero =>
          cases hq
          rw [Formula.value, if_neg hzero]
  · next hop hlen =>
      obtain ⟨fs, e₁, hfs, h₁⟩ := returns_bind.mp h
      have hfs := hvalues hfs
      obtain ⟨a, b, rfl⟩ := List.length_eq_two.mp (hfs.length.trans hlen)
      obtain ⟨rfl, rfl⟩ := returns_pure.mp h₁
      refine hfs.func (fun hall => ⟨rfl, hall _ (by simp), hall _ (by simp)⟩)
        fun hop' hq => ?_
      cases hop.symm.trans hop'
      cases hq
      rw [Formula.value]
  · next hop hlen =>
      obtain ⟨fs, e₁, hfs, h₁⟩ := returns_bind.mp h
      have hfs := hvalues hfs
      obtain ⟨a, rfl⟩ := List.length_eq_one_iff.mp (hfs.length.trans hlen)
      obtain ⟨rfl, rfl⟩ := returns_pure.mp h₁
      refine hfs.func (fun hall => ⟨rfl, Formula.built_zero _ _, hall _ (by simp)⟩)
        fun hop' hq => ?_
      cases hop.symm.trans hop'
      cases hq
      rw [Formula.value, Formula.value_zero, zero_sub]
  · next hplus htimes hdivide hminus hneg =>
      have hnone : ∀ w, (Term.func name args).meaning w = none :=
        meaning_func_eq_none hplus htimes hdivide hminus hneg
      split at h
      · next hcount =>
          obtain ⟨v, e₁, hv, h₁⟩ := returns_bind.mp h
          obtain ⟨rfl, rfl⟩ := returns_pure.mp h₁
          obtain ⟨heffect, hglobal⟩ := counting_ok hcount hv
          exact encoded_of_none heffect (fun ht => ⟨rfl, .inl (hglobal ht)⟩) hnone
      · -- A square root is encoded as the functions are that nothing is known of.
        split at h
        all_goals
          obtain ⟨fs, e₁, hfs, h₁⟩ := returns_bind.mp h
          obtain ⟨rfl, rfl⟩ := returns_pure.mp h₁
          have hfs := hvalues hfs
          exact encoded_of_none hfs.effect (fun ht => built_func (hfs.built ht)) hnone

/-! ### Terms -/

theorem encodeVar_ok (hclean : ∀ x, M x → Clean x) {attr x : String} (hx : M x)
    (hattr : '!' ∉ attr.toList) (h : Returns (encode (.var (.proj attr x))) e f e') :
    Encoded M (.var (.proj attr x)) e f e' := by
  rw [encode] at h
  obtain ⟨e₀, e₁, hget, h₁⟩ := returns_bind.mp h
  obtain ⟨rfl, rfl⟩ := returns_get.mp hget
  obtain ⟨rfl, rfl⟩ := returns_pure.mp h₁
  refine ⟨.refl _, fun ht => ?_, fun {L R K w ρ} hw _ s hs => ?_⟩
  · rw [column_eq]
    exact ⟨rfl, visible_owner hx (Symbol.owner?_column (hclean x hx) hattr _)⟩
  · rw [Term.meaning] at hs
    obtain ⟨c, hc, rfl⟩ := Option.map_eq_some_iff.mp hs
    obtain ⟨r, hr, hc⟩ := Option.bind_eq_some_iff.mp hc
    rw [Formula.value, column_eq, schemaOf?, hw.schemas x hx]
    exact hw.depicted x (hclean x hx) _ _ (.column hr hc hattr)

theorem encodePlaceholder_ok {x : String} (hx : M x)
    (h : Returns (encode (.var (.base x))) e f e') : Encoded M (.var (.base x)) e f e' := by
  rw [encode] at h
  obtain ⟨e₀, e₁, hget, h₁⟩ := returns_bind.mp h
  obtain ⟨rfl, rfl⟩ := returns_get.mp hget
  split at h₁
  · obtain ⟨rfl, rfl⟩ := returns_pure.mp h₁
    refine ⟨.refl _, fun _ => ⟨rfl, .inr ⟨x, hx, .inr rfl⟩⟩, fun {L R K w ρ} hw _ s hs => ?_⟩
    rw [Term.meaning] at hs
    obtain ⟨n, hn, hs⟩ := Option.bind_eq_some_iff.mp hs
    obtain ⟨q, rfl, rfl⟩ := Scalar.ofNumber_eq_some.mp hs
    exact hw.marks x q hn
  · exact absurd h₁ not_returns_refuse

/-- The formula of a term has the value of the term. -/
theorem encode_ok (hclean : ∀ x, M x → Clean x) {t : Term}
    (hM : ∀ x, t.mentions x = true → M x) (hregular : t.Regular) {e e' : Encoder} {f : Formula}
    (h : Returns (encode t) e f e') : Encoded M t e f e' := by
  have members : ∀ {ts : List Term}, (∀ x, Term.mentionsAny x ts = true → M x) →
      Term.AllRegular ts →
      (∀ t ∈ ts, (∀ x, t.mentions x = true → M x) → t.Regular → ∀ {e e' : Encoder} {f : Formula},
        Returns (encode t) e f e' → Encoded M t e f e') →
      ∀ t ∈ ts, ∀ {e e' : Encoder} {f : Formula}, Returns (encode t) e f e' →
        Encoded M t e f e' := by
    intro ts hM hregular ih t ht
    refine ih t ht (fun x hx => hM x ?_) (Term.allRegular_iff.mp hregular t ht)
    rw [Term.mentionsAny_eq, List.any_eq_true]
    exact ⟨t, ht, hx⟩
  induction t using Term.induct generalizing e e' f with
  | sum vars body _ =>
      rw [encode] at h
      exact absurd h not_returns_refuse
  | add ts ih =>
      rw [encode] at h
      obtain ⟨fs, e₁, hfs, h₁⟩ := returns_bind.mp h
      obtain ⟨rfl, rfl⟩ := returns_pure.mp h₁
      exact (encodeList_ok (members hM hregular ih) hfs).add
  | mul ts ih =>
      rw [encode] at h
      obtain ⟨o, e₁, ho, h₁⟩ := returns_bind.mp h
      have ho := (encodeFactors_ok (members hM hregular ih) ho).mul
      cases o with
      | none | some fs =>
          obtain ⟨rfl, rfl⟩ := returns_pure.mp h₁
          exact ho
  | neg t ih =>
      rw [encode] at h
      obtain ⟨g, e₁, hg, h₁⟩ := returns_bind.mp h
      obtain ⟨rfl, rfl⟩ := returns_pure.mp h₁
      exact (ih hM hregular hg).neg
  | squash t ih =>
      rw [encode] at h
      obtain ⟨g, e₁, hg, h₁⟩ := returns_bind.mp h
      obtain ⟨rfl, rfl⟩ := returns_pure.mp h₁
      exact (ih hM hregular hg).squash
  | pred kind ts ih =>
      rw [encode] at h
      exact (encodePred_ok hclean hM hregular (encodeList_ok (members hM hregular ih)) h).pred
  | var v =>
      cases v with
      | base x => exact encodePlaceholder_ok (hM x (decide_eq_true rfl)) h
      | proj attr x => exact encodeVar_ok hclean (hM x (decide_eq_true rfl)) hregular h
  | const q =>
      rw [encode] at h
      obtain ⟨rfl, rfl⟩ := returns_pure.mp h
      refine ⟨.refl _, fun _ => ⟨rfl, hregular⟩, fun _ _ s hs => ?_⟩
      cases hs
      rw [Formula.value]
      rfl
  | table name v =>
      rw [encode.eq_def] at h
      cases v with
      | base x =>
          have hx : M x := hM x (decide_eq_true rfl)
          obtain ⟨rfl, rfl⟩ := returns_pure.mp h
          refine ⟨.refl _, fun ht => ⟨rfl, visible_owner hx
            (Symbol.owner?_count (hclean x hx) name .nat)⟩, fun hw _ s hs => ?_⟩
          rw [Term.meaning] at hs
          obtain ⟨r, hr, rfl⟩ := Option.map_eq_some_iff.mp hs
          exact hw.depicted x (hclean x hx) _ _ (.count hr name)
      | proj attr x => exact absurd h not_returns_refuse
  | func name ts ih =>
      rw [encode] at h
      exact encodeFunc_ok (encodeList_ok (members hM hregular ih)) h
  | str s =>
      rw [encode] at h
      obtain ⟨v, e₁, hv, h₁⟩ := returns_bind.mp h
      obtain ⟨rfl, rfl⟩ := returns_pure.mp h₁
      obtain ⟨heffect, hget⟩ := literal_ok (returns_step.mp hv)
      refine ⟨heffect, fun ht => ⟨rfl, .inl ((heffect.tidy ht).global_of_literal hget)⟩,
        fun _ hρ q hq => ?_⟩
      cases hq
      exact hρ s v hget

/-! ### Constraints -/

/-- What is known of constraints on the null flags of some tuples. -/
structure Related (M : String → Prop) (e : Encoder) (fs : List Formula) (e' : Encoder) : Prop where
  effect : Effect M e e'
  equations : e'.equations = e.equations
  built : e.Tidy → ∀ f ∈ fs, f.Built (visible M) false .truth
  holds : ∀ {L R K w ρ}, e.Views M L w ρ → ∀ f ∈ fs, f.Holds R K ρ

theorem equations_nullFlag (base attr : String) (e : Encoder) :
    (e.nullFlag base attr).2.equations = e.equations := by
  unfold nullFlag
  dsimp only
  split <;> rfl

/-- Equal tuples agree on whether a column is null. -/
theorem relateNulls_ok (hclean : ∀ x, M x → Clean x) {q : TupleEquation} {c : String × String}
    (hq : q.Compares e.schemas) (hx : M q.left) (hy : M q.right) (hc : c ∈ q.columns) :
    Related M e (relateNulls q c e).1 (relateNulls q c e).2 := by
  unfold relateNulls
  split
  · refine ⟨(effect_nullFlag _ _ e).trans (effect_nullFlag _ _ _),
      (equations_nullFlag _ _ _).trans (equations_nullFlag _ _ e), fun ht => ?_,
      fun {L R K w ρ} hw => ?_⟩
    · obtain ⟨sx, sy, hsx, hsy, hcolumns⟩ := hq.columns
      rw [hcolumns] at hc
      obtain ⟨p, hp, rfl⟩ := List.mem_map.mp hc
      obtain ⟨hp₁, hp₂⟩ := List.of_mem_zip hp
      have hleft : (isZero ⟨nullName q.left p.1.name, .nat⟩).Built (visible M) false .truth :=
        ⟨rfl, ⟨rfl, visible_owner hx (Symbol.owner?_null (hclean _ hx)
          (ht.columns _ sx hsx _ hp₁) .nat)⟩, Formula.built_zero _ _⟩
      have hright : (isZero ⟨nullName q.right p.2.name, .nat⟩).Built (visible M) false .truth :=
        ⟨rfl, ⟨rfl, visible_owner hy (Symbol.owner?_null (hclean _ hy)
          (ht.columns _ sy hsy _ hp₂) .nat)⟩, Formula.built_zero _ _⟩
      have hcondition := ht.built_condition hclean hq hx hy
      simpa [Formula.implies, Formula.iff] using ⟨hcondition, ⟨hleft, hright⟩, hright, hleft⟩
    · obtain ⟨sx, sy, a, b, hsx, hsy, ha, hb, hfa, hfb, hcolumns⟩ := hq.rows hw hx hy
      rw [hcolumns] at hc
      obtain ⟨p, hp, rfl⟩ := List.mem_map.mp hc
      obtain ⟨hp₁, hp₂⟩ := List.of_mem_zip hp
      rw [List.forall_mem_singleton, Formula.holds_implies,
        hq.holds_iff hw hclean hx hy hsx hsy ha hb]
      intro hagree
      have hnull := hw.depicted.null_eq (hclean _ hx) (hclean _ hy) ha hb hfa hfb hp₁ hp₂
        (hagree p hp)
      rw [Formula.holds_iff, isZero, isZero, Formula.holds_eq, Formula.holds_eq, Formula.value,
        Formula.value]
      exact hnull ▸ Iff.rfl
  · exact ⟨.refl e, rfl, by simp, by simp⟩

theorem relateAll_ok (hclean : ∀ x, M x → Clean x)
    {ps : List (TupleEquation × (String × String))}
    (hps : ∀ p ∈ ps, p.1.Compares e.schemas ∧ M p.1.left ∧ M p.1.right ∧ p.2 ∈ p.1.columns) :
    Related M e (relateAll ps e).1 (relateAll ps e).2 := by
  induction ps generalizing e with
  | nil => exact ⟨.refl e, rfl, by simp [relateAll], by simp [relateAll]⟩
  | cons p ps ih =>
      rw [List.forall_mem_cons] at hps
      obtain ⟨⟨hq, hx, hy, hc⟩, hps⟩ := hps
      have hhead := relateNulls_ok hclean hq hx hy hc
      rw [← hhead.effect.schemas] at hps
      have htail := ih hps
      refine ⟨hhead.effect.trans htail.effect, htail.equations.trans hhead.equations,
        fun ht => ?_, fun hw => ?_⟩
      · exact List.forall_mem_append.mpr ⟨hhead.built ht, htail.built (hhead.effect.tidy ht)⟩
      · exact List.forall_mem_append.mpr ⟨hhead.holds hw,
          htail.holds (hw.growth hhead.effect.toGrowth)⟩

/-- Equal tuples agree on which columns are null. -/
theorem congruence_ok (hclean : ∀ x, M x → Clean x)
    (he : ∀ q ∈ e.equations, q.Compares e.schemas ∧ M q.left ∧ M q.right) :
    Related M { e with equations := [] } e.congruence.1 e.congruence.2 := by
  refine relateAll_ok hclean fun p hp => ?_
  obtain ⟨q, hq, hp⟩ := List.mem_flatMap.mp hp
  obtain ⟨c, hc, rfl⟩ := List.mem_map.mp hp
  obtain ⟨hcompares, hx, hy⟩ := he q hq
  exact ⟨hcompares, hx, hy, hc⟩

theorem mem_of_mem_pairs {α : Type} {R : α → α → Prop} {xs : List α} (hxs : xs.Pairwise R)
    {p : α × α} (hp : p ∈ pairs xs) : p.1 ∈ xs ∧ p.2 ∈ xs ∧ R p.1 p.2 := by
  induction xs with
  | nil => cases hp
  | cons x xs ih =>
      rw [List.pairwise_cons] at hxs
      rcases List.mem_append.mp hp with hp | hp
      · obtain ⟨y, hy, rfl⟩ := List.mem_map.mp hp
        exact ⟨List.mem_cons_self, List.mem_cons_of_mem _ hy, hxs.1 y hy⟩
      · obtain ⟨h₁, h₂, h₃⟩ := ih hxs.2 hp
        exact ⟨List.mem_cons_of_mem _ h₁, List.mem_cons_of_mem _ h₂, h₃⟩

/-- Different literals have different values. -/
theorem distinctness_ok (hf : f ∈ e.distinctness) :
    (e.Tidy → f.Built (visible M) false .truth) ∧
      ∀ {L R K ρ}, e.Spells L ρ → f.Holds R K ρ := by
  obtain ⟨⟨u, v⟩, hp, rfl⟩ := List.mem_map.mp hf
  have hpairwise : (e.literals.entries.map Prod.snd).Pairwise fun u v =>
      ∃ s t, s ≠ t ∧ e.literals.get? s = some u ∧ e.literals.get? t = some v := by
    refine List.pairwise_map.mpr (e.literals.sorted.imp_of_mem fun ha hb hlt => ?_)
    refine ⟨_, _, ?_, NameMap.get?_of_mem ha, NameMap.get?_of_mem hb⟩
    exact fun heq => String.lt_irrefl _ (heq ▸ hlt)
  obtain ⟨-, -, s, t, hne, hs, ht⟩ := mem_of_mem_pairs hpairwise hp
  refine ⟨fun htidy => ?_, fun {L R K ρ} hρ => ?_⟩
  · exact ⟨rfl, rfl, ⟨rfl, .inl (htidy.global_of_literal hs)⟩,
      rfl, .inl (htidy.global_of_literal ht)⟩
  · rw [Formula.holds_not, Formula.holds_eq, Formula.value, Formula.value, hρ s u hs, hρ t v ht]
    exact fun heq => hne (L.text_strictMono.injective heq)

end Encoder

end BagEquiv
