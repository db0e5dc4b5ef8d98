/-
**Which terms have a formula, and of which type.**

Encoding a term without summations is refused for three reasons only: a tuple stands where a value
is needed, a membership is not one of a tuple, or a predicate does not fit its arguments.  None of
them depends on more of the state than which names are placeholders and how many columns the
tuples have, and a factor behind one that is constantly zero is not looked at.  So whether a term
has a formula is a question about the term, and a run that does not fault answers it.  The type of
the formula is one too, given the types of the columns.

Main definition:

* `Vocabulary.accepts` — **the terms that have a formula**.

Main result:

* `Encoder.decides_encode` — **encoding decides whether a term is accepted**, and gives it
  a formula of its type.
-/

import BagEquiv.Proofs.Overflow
import BagEquiv.Proofs.TermEncoding

set_option autoImplicit false

namespace BagEquiv

/-! ### Acceptance -/

/-- The type of a column, an integer if it is not known. -/
def columnType (schema : Option Schema) (attr : String) : SymbolType :=
  ((schema.bind (·.typeOf? attr)).map SymbolType.ofDataType).getD .int

/-- What is known of names: the placeholders, and the columns of the tuples. -/
structure Vocabulary where
  isCount : String → Bool
  /-- The number of columns of a tuple. -/
  arity : String → Option Nat
  /-- The types of the columns of a tuple. -/
  column : String → String → SymbolType
  /-- Whether a summation counts as a placeholder for itself. -/
  sums : Bool

mutual

/-- Whether the formula of the term is the constant zero. -/
def Term.vanishes : Term → Bool
  | .const q => q.isZero
  | .mul factors => vanishesAny factors
  | _ => false

def Term.vanishesAny : List Term → Bool
  | [] => false
  | t :: ts => vanishes t || vanishesAny ts

end

/-- Whether the formula of the term is the constant one. -/
def Term.isUnit : Term → Bool
  | .const q => q.isOne
  | _ => false

namespace Vocabulary

variable (v : Vocabulary)

/-- Whether two tuples have as many columns as each other. -/
def sameArity (x y : String) : Bool :=
  match v.arity x, v.arity y with
  | some m, some n => m = n
  | _, _ => false

/-- Whether two tuples can be compared in that way. -/
def compares (kind : Pred) (x y : String) : Bool :=
  v.sameArity x y && (kind = .eq || kind = .ne)

/-- The tuples that two arguments name, unless one is a placeholder. -/
def tuples? : List Term → Option (String × String)
  | [.var (.base x), .var (.base y)] => if v.isCount x || v.isCount y then none else some (x, y)
  | _ => none

/-- Whether two arguments can be compared in that way. -/
def acceptsBinary (kind : Pred) (args : List Term) (values : Bool) : Bool :=
  match v.tuples? args with
  | some (x, y) => v.compares kind x y
  | none => values

/-- Whether a predicate fits its arguments; `values` tells whether these have formulas. -/
def acceptsPred (kind : Pred) (args : List Term) (values : Bool) : Bool :=
  match kind, args with
  | .isNull, [arg] => arg.column?.isSome || values
  | .isNull, _ => false
  | .named _, [arg] => arg.column?.isSome || values
  | .named _, _ => values
  | kind, [a, b] => v.acceptsBinary kind [a, b] values
  | _, _ => false

mutual

/-- Whether the term has a formula. -/
def accepts : Term → Bool
  | .sum _ _ => v.sums
  | .add terms => acceptsAll terms
  | .mul factors => acceptsFactors factors
  | .neg term => accepts term
  | .squash term => accepts term
  | .pred kind args => v.acceptsPred kind args (acceptsAll args)
  | .var (.proj _ _) => true
  | .var (.base x) => v.isCount x
  | .const _ => true
  | .table _ (.base _) => true
  | .table _ (.proj _ _) => false
  | .func name args => isCounting name.toLower || acceptsAll args
  | .str _ => true

def acceptsAll : List Term → Bool
  | [] => true
  | t :: ts => accepts t && acceptsAll ts

/-- The factors behind one that vanishes are not looked at. -/
def acceptsFactors : List Term → Bool
  | [] => true
  | t :: ts => accepts t && (t.vanishes || acceptsFactors ts)

end

/-! ### Types -/

/-- The type of a number that is real or whole. -/
def numberType (real : Bool) : SymbolType := if real then .real else .int

/-- The type of an application of a function; `real` tells whether an argument is real. -/
def funcType (lower : String) (arity : ℕ) (real : Bool) : SymbolType :=
  if isCounting lower then .nat
  else numberType (real || (lower = "sqrt" && arity = 1) ||
    (Operation.ofName? lower = some .divide && arity = 2))

mutual

/-- The type of the formula of the term. -/
def type : Term → SymbolType
  | .sum _ _ => .int
  | .add terms => numberType (anyReal terms)
  | .mul factors => numberType (!Term.vanishesAny factors && anyRealFactor factors)
  | .neg _ => .int
  | .squash _ => .int
  | .pred _ _ => .int
  | .var (.proj attr x) => v.column x attr
  | .var (.base _) => .int
  | .const q => numberType !q.isWhole
  | .table _ _ => .nat
  | .func name args => funcType name.toLower args.length (anyReal args)
  | .str _ => .str

def anyReal : List Term → Bool
  | [] => false
  | t :: ts => type t = .real || anyReal ts

/-- The factors that are one are left out. -/
def anyRealFactor : List Term → Bool
  | [] => false
  | t :: ts => (!t.isUnit && type t = .real) || anyRealFactor ts

end

end Vocabulary

namespace Encoder

variable {α β : Type} {e e' : Encoder}

/-- What the encoder knows of names. -/
def vocabulary (e : Encoder) : Vocabulary where
  isCount := e.isCount
  arity x := (e.schemaOf? x).map fun s => s.columns.length
  column x := columnType (e.schemaOf? x)
  sums := false

/-- The conditions of the equations between tuples have no stars. -/
def StarFree (e : Encoder) : Prop := ∀ q ∈ e.equations, q.condition.hasStar = false

/-- The symbols of literals are texts, and those of functions that count are natural numbers. -/
structure Typed (e : Encoder) : Prop where
  literals : ∀ s v, e.literals.get? s = some v → v.type = .str
  counted : ∀ p ∈ e.counted.toList, p.2.type = .nat

/-- A change that introduces neither placeholders nor tuples nor stars. -/
structure Quiet (e e' : Encoder) : Prop where
  schemas : e'.schemas = e.schemas
  counts : e'.counts = e.counts
  next : e.next ≤ e'.next
  starFree : e.StarFree → e'.StarFree
  typed : e.Typed → e'.Typed

theorem Quiet.refl (e : Encoder) : Quiet e e := ⟨rfl, rfl, le_refl _, id, id⟩

theorem Quiet.trans {e e' e'' : Encoder} (h : Quiet e e') (h' : Quiet e' e'') : Quiet e e'' :=
  ⟨h'.schemas.trans h.schemas, h'.counts.trans h.counts, h.next.trans h'.next,
    h'.starFree ∘ h.starFree, h'.typed ∘ h.typed⟩

theorem Quiet.vocabulary (h : Quiet e e') : e'.vocabulary = e.vocabulary := by
  unfold Encoder.vocabulary isCount schemaOf?
  rw [h.schemas, h.counts]

/-! ### Computations that decide a condition -/

/-- The computation returns only if `A` holds, and then with `P`; it is refused only if `A` does
not hold, or for want of time, and that only if it is `late`; and it faults only by an overflow,
which says nothing about `A`. -/
structure Decides (late : Prop) (x : EncodeM α) (e : Encoder) (A : Prop)
    (P : α → Encoder → Prop) : Prop where
  returned : ∀ {a e'}, Returns x e a e' → A ∧ P a e'
  refused : ∀ {err}, Fails x e (.error err) → err ≠ .timeout → ¬A
  delayed : Fails x e (.error .timeout) → late
  faulted : ∀ {f}, Fails x e (.fault f) → f = .overflow

variable {late A B : Prop} {P : α → Encoder → Prop} {Q : β → Encoder → Prop}

theorem Decides.bind {x : EncodeM α} {f : α → EncodeM β} (hx : Decides late x e A P)
    (hf : ∀ a e', A → P a e' → Decides late (f a) e' B Q) : Decides late (x >>= f) e (A ∧ B) Q where
  returned h := by
    obtain ⟨a, e₁, h₁, h₂⟩ := returns_bind.mp h
    obtain ⟨hA, hP⟩ := hx.returned h₁
    obtain ⟨hB, hQ⟩ := (hf a e₁ hA hP).returned h₂
    exact ⟨⟨hA, hB⟩, hQ⟩
  refused h herr hAB := by
    rcases fails_bind.mp h with h₁ | ⟨a, e₁, h₁, h₂⟩
    · exact hx.refused h₁ herr hAB.1
    · obtain ⟨hA, hP⟩ := hx.returned h₁
      exact (hf a e₁ hA hP).refused h₂ herr hAB.2
  delayed h := by
    rcases fails_bind.mp h with h₁ | ⟨a, e₁, h₁, h₂⟩
    · exact hx.delayed h₁
    · obtain ⟨hA, hP⟩ := hx.returned h₁
      exact (hf a e₁ hA hP).delayed h₂
  faulted h := by
    rcases fails_bind.mp h with h₁ | ⟨a, e₁, h₁, h₂⟩
    · exact hx.faulted h₁
    · obtain ⟨hA, hP⟩ := hx.returned h₁
      exact (hf a e₁ hA hP).faulted h₂

theorem Decides.congr {x : EncodeM α} (h : Decides late x e A P) (hAB : A ↔ B) :
    Decides late x e B P :=
  ⟨fun hx => (h.returned hx).imp_left hAB.mp, fun hx herr hB => h.refused hx herr (hAB.mpr hB),
    h.delayed, h.faulted⟩

theorem Decides.mono {x : EncodeM α} {P' : α → Encoder → Prop} (h : Decides late x e A P)
    (hP : ∀ a e', A → P a e' → P' a e') : Decides late x e A P' :=
  ⟨fun hx => ⟨(h.returned hx).1, hP _ _ (h.returned hx).1 (h.returned hx).2⟩, h.refused,
    h.delayed, h.faulted⟩

/-- What the run itself tells may be used later on. -/
theorem Decides.traced {x : EncodeM α} (h : Decides late x e A P) :
    Decides late x e A fun a e' => P a e' ∧ Returns x e a e' :=
  ⟨fun hx => ⟨(h.returned hx).1, (h.returned hx).2, hx⟩, h.refused, h.delayed, h.faulted⟩

/-- A first step that is never refused decides nothing. -/
theorem Decides.after {x : EncodeM α} {f : α → EncodeM β} (hx : Decides late x e True P)
    (hf : ∀ a e', P a e' → Decides late (f a) e' B Q) : Decides late (x >>= f) e B Q :=
  (hx.bind fun a e' _ => hf a e').congr (iff_of_eq (true_and B))

/-- A last step that is never refused decides nothing. -/
theorem Decides.before {x : EncodeM α} {f : α → EncodeM β} (hx : Decides late x e A P)
    (hf : ∀ a e', A → P a e' → Decides late (f a) e' True Q) : Decides late (x >>= f) e A Q :=
  (hx.bind hf).congr (iff_of_eq (and_true A))

theorem decides_pure {a : α} (hA : A) (h : P a e) : Decides late (pure a) e A P where
  returned hx := by
    obtain ⟨rfl, rfl⟩ := returns_pure.mp hx
    exact ⟨hA, h⟩
  refused hx := by cases hx
  delayed hx := by cases hx
  faulted hx := by cases hx

theorem decides_refuse {err : Error} (hA : ¬A) (herr : err ≠ .timeout) :
    Decides late (refuse err) e A P where
  returned hx := absurd hx not_returns_refuse
  refused _ _ := hA
  delayed hx := by
    cases hx
    exact absurd rfl herr
  faulted hx := by cases hx

/-- A last step that neither fails nor changes the state. -/
theorem Decides.map {x : EncodeM α} {g : α → β} (h : Decides late x e A P)
    (hP : ∀ a e', P a e' → Q (g a) e') : Decides late (do return g (← x)) e A Q :=
  h.before fun a e' _ hPa => decides_pure trivial (hP a e' hPa)

theorem decides_get : Decides late get e True fun a e' => a = e ∧ e' = e where
  returned hx := ⟨trivial, returns_get.mp hx⟩
  refused hx := by cases hx
  delayed hx := by cases hx
  faulted hx := by cases hx

theorem decides_step {f : Encoder → α × Encoder} (h : P (f e).1 (f e).2) :
    Decides late (step f) e True P where
  returned hx := by
    have := returns_step.mp hx
    rw [this] at h
    exact ⟨trivial, h⟩
  refused hx := by cases hx
  delayed hx := by cases hx
  faulted hx := by cases hx

theorem decides_set {s : Encoder} : Decides late (set s) e True fun _ e' => e' = s where
  returned hx := ⟨trivial, returns_set.mp hx⟩
  refused hx := by cases hx
  delayed hx := by cases hx
  faulted hx := by cases hx

theorem decides_attempt {r : Except Fault α} (h : MayOverflow r) :
    Decides late (attempt r) e True fun a e' => r = .ok a ∧ e' = e where
  returned hx := ⟨trivial, returns_attempt.mp hx⟩
  refused hx := by cases r <;> cases hx
  delayed hx := by cases r <;> cases hx
  faulted hx := by
    cases r with
    | ok a => cases hx
    | error f =>
        cases hx
        exact h _ rfl

/-! ### Steps -/

/-- The result of a step is a formula without stars, of which it is known whether it is the constant
zero or one and of which type it is, and the step was quiet. -/
structure Written (zero one : Bool) (type : SymbolType) (e : Encoder) (f : Formula)
    (e' : Encoder) : Prop where
  quiet : Quiet e e'
  starFree : f.hasStar = false
  zero : f.constant?.any Fraction.isZero = zero
  one : f.constant?.any Fraction.isOne = one
  typed : e.Typed → f.type = type

/-- The same of a list of formulas, of which `n` are expected; `real` tells whether one is real. -/
structure WrittenAll (n : ℕ) (real : Bool) (e : Encoder) (fs : List Formula) (e' : Encoder) :
    Prop where
  quiet : Quiet e e'
  length : fs.length = n
  starFree : Formula.hasStarAny fs = false
  typed : e.Typed → Formula.anyReal fs = real

theorem Written.after {zero one : Bool} {type : SymbolType} {e₁ : Encoder} {f : Formula}
    (h : Written zero one type e₁ f e') (hquiet : Quiet e e₁) : Written zero one type e f e' :=
  ⟨hquiet.trans h.quiet, h.starFree, h.zero, h.one, h.typed ∘ hquiet.typed⟩

theorem quiet_nullFlag (base attr : String) (e : Encoder) : Quiet e (e.nullFlag base attr).2 := by
  unfold nullFlag
  dsimp only
  split
  · exact .refl e
  · exact ⟨rfl, rfl, le_refl _, id, fun h => ⟨h.literals, h.counted⟩⟩

theorem quiet_fresh (start : String) (e : Encoder) : Quiet e (e.fresh start).2 :=
  ⟨rfl, rfl, Nat.le_succ _, id, fun h => ⟨h.literals, h.counted⟩⟩

theorem quiet_literal (s : String) (e : Encoder) :
    Quiet e (e.literal s).2 ∧ (e.Typed → (e.literal s).1.type = .str) := by
  unfold literal
  split
  · next v hv => exact ⟨.refl e, fun h => h.literals s v hv⟩
  · refine ⟨⟨rfl, rfl, Nat.le_succ _, id, fun h => ⟨fun t v ht => ?_, h.counted⟩⟩, fun _ => rfl⟩
    replace ht := (NameMap.get?_insert _ _ _ _).symm.trans ht
    split at ht
    · cases ht
      rfl
    · exact h.literals t v ht

theorem decides_counting (name : String) (app : Term) :
    Decides late (counting name app) e True fun v e' =>
      Quiet e e' ∧ (e.Typed → v.type = .nat) := by
  refine decides_get.after ?_
  rintro e₀ e₁ ⟨rfl, rfl⟩
  have horder : ∀ entry : Term × Symbol, MayOverflow (app.compare entry.1) :=
    fun entry => app.mayOverflow_compare entry.1
  refine (decides_attempt (SearchTree.mayOverflow_find horder _)).after ?_
  rintro found e₂ ⟨hfind, rfl⟩
  cases found with
  | some p =>
      refine decides_pure trivial ⟨.refl _, fun h => ?_⟩
      exact h.counted _ (SearchTree.mem_of_find _ hfind)
  | none =>
      refine (decides_attempt (SearchTree.mayOverflow_insert horder _ _)).after ?_
      rintro tree e₃ ⟨hinsert, rfl⟩
      refine decides_set.after ?_
      rintro _ e₄ rfl
      refine decides_pure trivial ⟨⟨rfl, rfl, Nat.le_succ _, id, fun h => ⟨h.literals, ?_⟩⟩,
        fun _ => rfl⟩
      intro p hp
      rcases (SearchTree.mem_insert hinsert p).mp hp with rfl | hp
      · rfl
      · exact h.counted p hp

theorem decides_tupleEquation (x y : String) :
    Decides late (tupleEquation x y) e (e.vocabulary.sameArity x y = true) fun f e' =>
      Quiet e e' ∧ f.hasStar = false := by
  refine decides_get.after ?_
  rintro _ e₁ ⟨rfl, rfl⟩
  unfold Vocabulary.sameArity vocabulary
  cases hx : e₁.schemaOf? x with
  | none => exact decides_refuse (by simp [hx]) (by simp)
  | some sx =>
      cases hy : e₁.schemaOf? y with
      | none => exact decides_refuse (by simp [hx, hy]) (by simp)
      | some sy =>
          dsimp only
          rw [hx, hy]
          split
          · next hlength =>
              refine ((decides_refuse (P := fun _ _ => True) not_false (by simp)).before
                fun _ _ h _ => h.elim).congr ?_
              simp [hlength]
          · next hlength =>
              refine decides_set.after ?_
              rintro _ _ rfl
              have hcondition : ∀ ps : List (String × String), (Formula.and (ps.map fun p =>
                  .eq (.sym (e₁.column x p.1)) (.sym (e₁.column y p.2)))).hasStar = false := by
                intro ps
                simp [Formula.hasStar, Formula.hasStarAny_eq]
              refine decides_pure (by simpa using hlength) ⟨⟨rfl, rfl, le_refl _, fun he => ?_,
                fun h => ⟨h.literals, h.counted⟩⟩, hcondition _⟩
              exact List.forall_mem_append.mpr ⟨he, List.forall_mem_singleton.mpr (hcondition _)⟩

theorem decides_tupleComparison (kind : Pred) (x y : String) :
    Decides late (tupleComparison kind x y) e (e.vocabulary.compares kind x y = true)
      (Written false false .int e) := by
  unfold Vocabulary.compares
  rw [Bool.and_eq_true]
  refine (decides_tupleEquation x y).bind fun f e' _ hf => ?_
  have hwritten : ∀ c : Formula, c.hasStar = f.hasStar →
      Written false false .int e (.indicator c) e' := by
    intro c hc
    refine ⟨hf.1, ?_, rfl, rfl, fun _ => rfl⟩
    simp [Formula.indicator, Formula.hasStar, hc, hf.2, Formula.one, Formula.zero, Formula.int]
  cases kind with
  | eq => exact decides_pure rfl (hwritten f rfl)
  | ne => exact decides_pure rfl (hwritten (.not f) rfl)
  | lt | le | gt | ge | isNull | named => exact decides_refuse (by simp) (by simp)

/-- Comparisons are accepted, and nothing else is. -/
theorem decides_comparison {kind : Pred} {a b : Formula} (ha : a.hasStar = false)
    (hb : b.hasStar = false) (hkind : ∀ name, kind ≠ .named name) (hnull : kind ≠ .isNull) :
    Decides late (comparison kind a b) e True (Written false false .int e) := by
  have hwritten : ∀ c : Formula, c.hasStar = false →
      Written false false .int e (.indicator c) e := by
    intro c hc
    refine ⟨.refl e, ?_, rfl, rfl, fun _ => rfl⟩
    simp [Formula.indicator, Formula.hasStar, hc, Formula.one, Formula.zero, Formula.int]
  cases kind with
  | eq | ne | lt | le | gt | ge =>
      exact decides_pure trivial (hwritten _ (by simp [Formula.hasStar, ha, hb]))
  | isNull => exact absurd rfl hnull
  | named name => exact absurd rfl (hkind name)

variable {n : ℕ} {real : Bool}

theorem decides_encodeBinary {kind : Pred} {a b : Term} {values : EncodeM (List Formula)}
    {accepted : Bool} (hkind : ∀ name, kind ≠ .named name) (hnull : kind ≠ .isNull)
    (hvalues : Decides late values e (accepted = true) (WrittenAll 2 real e)) :
    Decides late (encodeBinary kind [a, b] values) e
      (e.vocabulary.acceptsBinary kind [a, b] accepted = true) (Written false false .int e) := by
  refine decides_get.after ?_
  rintro _ e₁ ⟨rfl, rfl⟩
  unfold Vocabulary.acceptsBinary
  change Decides late (match e₁.vocabulary.tuples? [a, b] with
    | some (x, y) => tupleComparison kind x y
    | none => _) _ _ _
  cases e₁.vocabulary.tuples? [a, b] with
  | some p => exact decides_tupleComparison kind p.1 p.2
  | none =>
      refine hvalues.before fun fs e₂ _ hfs => ?_
      obtain ⟨f, g, rfl⟩ := List.length_eq_two.mp hfs.length
      have hstars := hfs.starFree
      simp only [Formula.hasStarAny, Bool.or_false, Bool.or_eq_false_iff] at hstars
      exact (decides_comparison hstars.1 hstars.2 hkind hnull).mono fun h e₃ _ hh =>
        hh.after hfs.quiet

/-- A function value that counts as true unless it is zero. -/
theorem WrittenAll.holds_func {fs : List Formula} (h : WrittenAll n real e fs e') (name : String)
    (type : SymbolType) : Written false false .int e (holds (.func name fs type)) e' := by
  refine ⟨h.quiet, ?_, rfl, rfl, fun _ => rfl⟩
  simp [holds, Formula.indicator, Formula.hasStar, h.starFree, Formula.one, Formula.zero,
    Formula.int]

theorem decides_encodeTest {flag : String → String → EncodeM Symbol} {name : String} {arg : Term}
    {values : EncodeM (List Formula)}
    (hflag : ∀ base attr, Decides late (flag base attr) e True fun _ e' => Quiet e e')
    (hvalues : Decides late values e A (WrittenAll n real e)) :
    Decides late (encodeTest flag name arg values) e (arg.column?.isSome = true ∨ A)
      (Written false false .int e) := by
  unfold encodeTest
  split
  · next attr base =>
      refine ((hflag base attr).map fun v e' he => ?_).congr (iff_of_true trivial (.inl rfl))
      exact ⟨he, rfl, rfl, rfl, fun _ => rfl⟩
  · next hcolumn =>
      have hnone : ¬arg.column?.isSome = true := by
        intro hsome
        obtain ⟨p, hp⟩ := Option.isSome_iff_exists.mp hsome
        exact hcolumn _ _ (Term.column?_eq_some.mp hp)
      refine (hvalues.map fun fs e' hfs => ?_).congr (or_iff_right hnone).symm
      exact hfs.holds_func name .int

theorem decides_encodePred {kind : Pred} {args : List Term} {values : EncodeM (List Formula)}
    {accepted : Bool}
    (hvalues : Decides late values e (accepted = true) (WrittenAll args.length real e)) :
    Decides late (encodePred kind args values) e
      (e.vocabulary.acceptsPred kind args accepted = true) (Written false false .int e) := by
  have hnull : ∀ base attr,
      Decides late (step (nullFlag base attr)) e True fun _ e' => Quiet e e' :=
    fun base attr => decides_step (quiet_nullFlag base attr e)
  cases kind with
  | isNull =>
      match args, hvalues with
      | [], _ | _ :: _ :: _, _ => exact decides_refuse (by simp [Vocabulary.acceptsPred]) (by simp)
      | [arg], hvalues =>
          refine (decides_encodeTest hnull hvalues).congr ?_
          simp [Vocabulary.acceptsPred]
  | named name =>
      match args, hvalues with
      | [], hvalues | _ :: _ :: _, hvalues =>
          exact hvalues.map fun fs e' hfs => hfs.holds_func name .int
      | [arg], hvalues =>
          refine (decides_encodeTest (fun _ _ => decides_pure trivial (.refl e)) hvalues).congr ?_
          simp [Vocabulary.acceptsPred]
  | eq | ne | lt | le | gt | ge =>
      match args, hvalues with
      | [], _ | [_], _ | _ :: _ :: _ :: _, _ =>
          exact decides_refuse (by simp [Vocabulary.acceptsPred]) (by simp)
      | [a, b], hvalues => exact decides_encodeBinary (by simp) (by simp) hvalues

/-- The functions that count something are no operations of arithmetic. -/
theorem ofName?_of_isCounting {name : String} (h : isCounting name = true) :
    Operation.ofName? name = none := by
  unfold isCounting at h
  rw [decide_eq_true_eq] at h
  simp only [List.mem_cons, List.not_mem_nil, or_false] at h
  rcases h with rfl | rfl | rfl | rfl | rfl <;> rfl

theorem anyReal_eq_any (fs : List Formula) :
    Formula.anyReal fs = fs.any fun f => f.type = .real := by
  induction fs with
  | nil => rfl
  | cons f fs ih => rw [Formula.anyReal, ih, List.any_cons]

/-- The type of an application that is neither a count nor a root nor a quotient. -/
theorem funcType_eq {lower : String} {arity : ℕ} (hcounting : isCounting lower = false)
    (hroot : ¬(lower = "sqrt" ∧ arity = 1))
    (hquotient : ¬(Operation.ofName? lower = some .divide ∧ arity = 2)) (real : Bool) :
    Vocabulary.funcType lower arity real = Vocabulary.numberType real := by
  have hroot' : (decide (lower = "sqrt") && decide (arity = 1)) = false := by
    simpa using hroot
  have hquotient' :
      (decide (Operation.ofName? lower = some .divide) && decide (arity = 2)) = false := by
    simpa using hquotient
  rw [Vocabulary.funcType, if_neg (Bool.eq_false_iff.mp hcounting), hroot', hquotient',
    Bool.or_false, Bool.or_false]

theorem decides_encodeFunc {name : String} {args : List Term} {values : EncodeM (List Formula)}
    {accepted : Bool}
    (hvalues : Decides late values e (accepted = true) (WrittenAll args.length real e)) :
    Decides late (encodeFunc name args values) e ((isCounting name.toLower || accepted) = true)
      (Written false false (Vocabulary.funcType name.toLower args.length real) e) := by
  -- The arguments of all other functions are looked at.
  have hother : isCounting name.toLower = false →
      (accepted = true ↔ (isCounting name.toLower || accepted) = true) := by
    intro h
    rw [h, Bool.false_or]
  have hoperation : ∀ {op}, Operation.ofName? name.toLower = some op →
      isCounting name.toLower = false := by
    intro op hop
    rw [Bool.eq_false_iff]
    intro h
    cases hop.symm.trans (ofName?_of_isCounting h)
  have hnumber : ∀ {op}, Operation.ofName? name.toLower = some op → op ≠ .divide →
      Vocabulary.numberType real = Vocabulary.funcType name.toLower args.length real := by
    intro op hop hne
    refine (funcType_eq (hoperation hop) ?_ ?_ real).symm
    · rintro ⟨hsqrt, -⟩
      rw [hsqrt] at hop
      cases hop
    · rintro ⟨hdivide, -⟩
      exact hne (Option.some.inj (hop.symm.trans hdivide))
  have hpure : ∀ {fs : List Formula} {f : Formula} {e' : Encoder},
      WrittenAll args.length real e fs e' → f.hasStar = Formula.hasStarAny fs →
      f.constant? = none →
      (Formula.anyReal fs = real →
        f.type = Vocabulary.funcType name.toLower args.length real) →
      Written false false (Vocabulary.funcType name.toLower args.length real) e f e' := by
    intro fs f e' hfs hf hconstant htype
    exact ⟨hfs.quiet, hf.trans hfs.starFree, by rw [hconstant]; rfl, by rw [hconstant]; rfl,
      fun h => htype (hfs.typed h)⟩
  unfold encodeFunc
  dsimp only
  split
  case h_1 hop | h_2 hop =>
    refine (hvalues.map fun _ _ hfs => hpure hfs rfl rfl ?_).congr (hother (hoperation hop))
    rintro rfl
    exact hnumber hop (by decide)
  · next hop hlength =>
      refine (hvalues.before fun fs e' _ hfs => ?_).congr (hother (hoperation hop))
      obtain ⟨a, b, rfl⟩ := List.length_eq_two.mp (hfs.length.trans hlength)
      refine decides_pure trivial (hpure hfs (by simp [Formula.hasStar, Formula.hasStarAny]) rfl ?_)
      intro _
      simp [Formula.type, Vocabulary.funcType, Vocabulary.numberType, hoperation hop, hop, hlength]
  · next hop hlength =>
      refine (hvalues.before fun fs e' _ hfs => ?_).congr (hother (hoperation hop))
      obtain ⟨a, b, rfl⟩ := List.length_eq_two.mp (hfs.length.trans hlength)
      refine decides_pure trivial (hpure hfs (by simp [Formula.hasStar, Formula.hasStarAny]) rfl ?_)
      rintro rfl
      rw [← hnumber hop (by decide)]
      simp [Formula.type, Formula.anyReal, Vocabulary.numberType]
  · next hop hlength =>
      refine (hvalues.before fun fs e' _ hfs => ?_).congr (hother (hoperation hop))
      obtain ⟨a, rfl⟩ := List.length_eq_one_iff.mp (hfs.length.trans hlength)
      refine decides_pure trivial (hpure hfs ?_ rfl ?_)
      · simp [Formula.hasStar, Formula.hasStarAny, Formula.zero, Formula.int]
      · rintro rfl
        rw [← hnumber hop (by decide)]
        simp [Formula.type, Formula.anyReal, Vocabulary.numberType, Formula.zero, Formula.int,
          Fraction.isWhole, Fraction.ofWord]
  · next hquotient _ _ =>
    split
    · next hcounting =>
        refine ((decides_counting _ _).map fun v e' he => ?_).congr (by simp [hcounting])
        refine ⟨he.1, rfl, rfl, rfl, fun h => (he.2 h).trans ?_⟩
        rw [Vocabulary.funcType, if_pos hcounting]
    · next hcounting =>
        rw [Bool.not_eq_true] at hcounting
        split
        · next hroot =>
            refine (hvalues.map fun _ _ hfs => hpure hfs rfl rfl fun _ => ?_).congr
              (hother hcounting)
            rw [Vocabulary.funcType, if_neg (Bool.eq_false_iff.mp hcounting)]
            simp [Formula.type, Vocabulary.numberType, hroot]
        · next hroot =>
            refine (hvalues.map fun fs _ hfs => hpure hfs rfl rfl ?_).congr (hother hcounting)
            rintro rfl
            rw [funcType_eq hcounting hroot fun h => hquotient h.1 h.2, Formula.type,
              ← anyReal_eq_any]
            rfl

/-! ### Terms -/

theorem decides_encodeList {ts : List Term}
    (hts : ∀ t ∈ ts, ∀ e, Decides late (encode t) e (e.vocabulary.accepts t = true)
      (Written t.vanishes t.isUnit (e.vocabulary.type t) e)) (e : Encoder) :
    Decides late (encodeList ts) e (e.vocabulary.acceptsAll ts = true)
      (WrittenAll ts.length (e.vocabulary.anyReal ts) e) := by
  induction ts generalizing e with
  | nil =>
      rw [encodeList]
      exact decides_pure rfl ⟨.refl e, rfl, rfl, fun _ => rfl⟩
  | cons t ts ih =>
      rw [List.forall_mem_cons] at hts
      rw [encodeList, Vocabulary.acceptsAll, Bool.and_eq_true]
      refine (hts.1 e).bind fun f e₁ _ hf => ?_
      rw [← hf.quiet.vocabulary]
      refine (ih hts.2 e₁).map fun fs e₂ hfs => ?_
      refine ⟨hf.quiet.trans hfs.quiet, congrArg (· + 1) hfs.length, ?_, fun he => ?_⟩
      · rw [Formula.hasStarAny, hf.starFree, hfs.starFree, Bool.or_false]
      · rw [Formula.anyReal, Vocabulary.anyReal, hf.quiet.vocabulary, hf.typed he,
          hfs.typed (hf.quiet.typed he), hf.quiet.vocabulary]

/-- The factors of a product that are not one, unless one of them is zero; `real` tells whether one
of them is real. -/
structure WrittenFactors (zero real : Bool) (e : Encoder) (fs : Option (List Formula))
    (e' : Encoder) : Prop where
  quiet : Quiet e e'
  starFree : ∀ gs ∈ fs, Formula.hasStarAny gs = false
  isNone : fs.isNone = zero
  typed : e.Typed → ∀ gs ∈ fs, Formula.anyReal gs = real

theorem decides_encodeFactors {ts : List Term}
    (hts : ∀ t ∈ ts, ∀ e, Decides late (encode t) e (e.vocabulary.accepts t = true)
      (Written t.vanishes t.isUnit (e.vocabulary.type t) e)) (e : Encoder) :
    Decides late (encodeFactors ts) e (e.vocabulary.acceptsFactors ts = true)
      (WrittenFactors (Term.vanishesAny ts) (e.vocabulary.anyRealFactor ts) e) := by
  induction ts generalizing e with
  | nil =>
      rw [encodeFactors]
      refine decides_pure rfl ⟨.refl e, ?_, rfl, fun _ => ?_⟩
      · rintro gs ⟨⟩
        rfl
      · rintro gs ⟨⟩
        rfl
  | cons t ts ih =>
      rw [List.forall_mem_cons] at hts
      rw [encodeFactors, Vocabulary.acceptsFactors, Bool.and_eq_true]
      refine (hts.1 e).bind fun f e₁ _ hf => ?_
      rw [hf.zero, hf.one, Term.vanishesAny, Vocabulary.anyRealFactor]
      cases t.vanishes with
      | true =>
          refine decides_pure rfl ⟨hf.quiet, ?_, rfl, fun _ => ?_⟩
          · rintro gs ⟨⟩
          · rintro gs ⟨⟩
      | false =>
          rw [Bool.false_or, Bool.false_or, ← hf.quiet.vocabulary]
          have htail := ih hts.2 e₁
          rw [if_neg Bool.false_ne_true]
          cases t.isUnit with
          | true =>
              rw [if_pos rfl]
              refine htail.mono fun fs e₂ _ hfs => ⟨hf.quiet.trans hfs.quiet, hfs.starFree,
                hfs.isNone, fun he => hfs.typed (hf.quiet.typed he)⟩
          | false =>
              rw [if_neg Bool.false_ne_true]
              refine htail.map fun fs e₂ hfs => ⟨hf.quiet.trans hfs.quiet, ?_, ?_, fun he => ?_⟩
              · intro gs hgs
                obtain ⟨hs, hhs, rfl⟩ := Option.mem_map.mp hgs
                rw [Formula.hasStarAny, hf.starFree, hfs.starFree hs hhs, Bool.or_false]
              · rw [Option.isNone_map, hfs.isNone]
              · intro gs hgs
                obtain ⟨hs, hhs, rfl⟩ := Option.mem_map.mp hgs
                rw [Formula.anyReal, hf.typed he, hfs.typed (hf.quiet.typed he) hs hhs,
                  hf.quiet.vocabulary]
                rfl

/-- Encoding a term decides whether it is accepted; its formula has no stars and is of the type of
the term. -/
theorem decides_encode (t : Term) (e : Encoder) :
    Decides late (encode t) e (e.vocabulary.accepts t = true)
      (Written t.vanishes t.isUnit (e.vocabulary.type t) e) := by
  induction t using Term.induct generalizing e with
  | sum vars body _ =>
      rw [encode]
      exact decides_refuse Bool.false_ne_true (by simp)
  | add ts ih =>
      rw [encode]
      refine (decides_encodeList ih e).map fun fs e' hfs =>
        ⟨hfs.quiet, hfs.starFree, rfl, rfl, fun he => ?_⟩
      rw [Formula.type, hfs.typed he]
      rfl
  | mul ts ih =>
      rw [encode]
      refine (decides_encodeFactors ih e).before fun o e' _ ho => ?_
      cases o with
      | none =>
          refine decides_pure trivial ⟨ho.quiet, rfl, ho.isNone, rfl, fun _ => ?_⟩
          rw [Vocabulary.type, ← ho.isNone]
          rfl
      | some fs =>
          refine decides_pure trivial ⟨ho.quiet, ho.starFree fs rfl, ho.isNone, rfl, fun he => ?_⟩
          rw [Vocabulary.type, ← ho.isNone, Formula.type, ho.typed he fs rfl]
          rfl
  | neg t ih | squash t ih =>
      rw [encode]
      refine (ih e).map fun f e' hf => ⟨hf.quiet, ?_, rfl, rfl, fun _ => rfl⟩
      simp [Formula.hasStar, hf.starFree, Formula.one, Formula.zero, Formula.int]
  | pred kind ts ih =>
      rw [encode]
      exact decides_encodePred (decides_encodeList ih e)
  | var v =>
      cases v with
      | proj attr x =>
          rw [encode]
          refine (decides_get.map ?_).congr (iff_of_true trivial rfl)
          rintro _ _ ⟨rfl, rfl⟩
          exact ⟨.refl _, rfl, rfl, rfl, fun _ => congrArg Symbol.type (column_eq _ x attr)⟩
      | base x =>
          rw [encode]
          refine decides_get.after ?_
          rintro _ e₁ ⟨rfl, rfl⟩
          split
          · next hcount => exact decides_pure hcount ⟨.refl _, rfl, rfl, rfl, fun _ => rfl⟩
          · next hcount => exact decides_refuse hcount (by simp)
  | const q =>
      rw [encode]
      refine decides_pure rfl ⟨.refl e, rfl, rfl, rfl, fun _ => ?_⟩
      rw [Formula.type, Vocabulary.type, Vocabulary.numberType]
      cases q.isWhole <;> rfl
  | table name v =>
      rw [encode.eq_def]
      cases v with
      | base x => exact decides_pure rfl ⟨.refl e, rfl, rfl, rfl, fun _ => rfl⟩
      | proj attr x => exact decides_refuse Bool.false_ne_true (by simp)
  | func name ts ih =>
      rw [encode]
      exact decides_encodeFunc (decides_encodeList ih e)
  | str s =>
      rw [encode]
      have hstep : Decides late (step (literal s)) e True fun v e' =>
          Quiet e e' ∧ (e.Typed → v.type = .str) := decides_step (quiet_literal s e)
      exact (hstep.map fun v e' he => ⟨he.1, rfl, rfl, rfl, he.2⟩).congr (iff_of_true trivial rfl)

theorem written_of_encode {t : Term} {f : Formula} (h : Returns (encode t) e f e') :
    Written t.vanishes t.isUnit (e.vocabulary.type t) e f e' :=
  ((decides_encode t e : Decides True _ _ _ _).returned h).2

/-! ### Constraints -/

/-- Relating null flags changes nothing but which are in use. -/
theorem relateNulls_quiet (q : TupleEquation) (c : String × String) (e : Encoder) :
    Quiet e (relateNulls q c e).2 ∧ (q.condition.hasStar = false →
      ∀ f ∈ (relateNulls q c e).1, f.hasStar = false) := by
  unfold relateNulls
  split
  · refine ⟨(quiet_nullFlag q.left c.1 e).trans (quiet_nullFlag q.right c.2 _), fun hq => ?_⟩
    rw [List.forall_mem_singleton]
    simp [Formula.implies, Formula.iff, Formula.hasStar, Formula.hasStarAny, hq, isZero,
      Formula.zero, Formula.int]
  · exact ⟨.refl e, fun _ f hf => by cases hf⟩

theorem relateAll_quiet (ps : List (TupleEquation × (String × String))) (e : Encoder) :
    Quiet e (relateAll ps e).2 ∧ ((∀ p ∈ ps, p.1.condition.hasStar = false) →
      ∀ f ∈ (relateAll ps e).1, f.hasStar = false) := by
  induction ps generalizing e with
  | nil => exact ⟨.refl e, fun _ f hf => by cases hf⟩
  | cons p ps ih =>
      obtain ⟨hquiet, hstars⟩ := relateNulls_quiet p.1 p.2 e
      obtain ⟨hquiet', hstars'⟩ := ih (relateNulls p.1 p.2 e).2
      refine ⟨hquiet.trans hquiet', fun hps => ?_⟩
      rw [List.forall_mem_cons] at hps
      exact List.forall_mem_append.mpr ⟨hstars hps.1, hstars' hps.2⟩

/-- Constraints on null flags introduce nothing and have no stars. -/
theorem congruence_quiet (e : Encoder) :
    Quiet e e.congruence.2 ∧ (e.StarFree → ∀ f ∈ e.congruence.1, f.hasStar = false) := by
  obtain ⟨hquiet, hstars⟩ := relateAll_quiet
    (e.equations.flatMap fun q => q.columns.map fun c => (q, c)) { e with equations := [] }
  have hclear : Quiet e { e with equations := [] } :=
    ⟨rfl, rfl, le_refl _, fun _ q hq => absurd hq List.not_mem_nil,
      fun h => ⟨h.literals, h.counted⟩⟩
  refine ⟨hclear.trans hquiet, fun he => hstars fun p hp => ?_⟩
  obtain ⟨q, hq, hp⟩ := List.mem_flatMap.mp hp
  obtain ⟨c, _, rfl⟩ := List.mem_map.mp hp
  exact he q hq

theorem distinctness_starFree (e : Encoder) : ∀ f ∈ e.distinctness, f.hasStar = false := by
  rw [distinctness, List.forall_mem_map]
  exact fun _ _ => rfl

end Encoder

end BagEquiv
