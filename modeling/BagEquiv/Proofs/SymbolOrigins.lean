/-
**Where the symbols of a formula come from.**

The encoder writes symbols of a few kinds only.  There are numbered symbols for counts, for literals
and for functions that count something; all others belong to a tuple that the encoded term mentions.
The encoder keeps an account of what it may write later: the symbols of literals and counts, and the
tuples that were compared.  Encoding a term keeps this account in order.

Main definition:

* `Formula.occurring` — the symbols that occur anywhere in a formula.

Main result:

* `Encoder.preserves_encode` — **all symbols of an encoded term have an origin**.
-/

import BagEquiv.Proofs.EncodeRuns

set_option autoImplicit false

namespace BagEquiv

/-! ### Symbols that occur -/

namespace Formula

mutual

/-- The symbols that occur anywhere, in the vectors and bodies of stars as well. -/
def occurring : Formula → List Symbol
  | .const _ => []
  | .bool _ => []
  | .sym s => [s]
  | .plus terms => occurringAll terms
  | .minus a b => occurring a ++ occurring b
  | .mul factors => occurringAll factors
  | .div a b => occurring a ++ occurring b
  | .ite c a b => occurring c ++ occurring a ++ occurring b
  | .eq a b => occurring a ++ occurring b
  | .le a b => occurring a ++ occurring b
  | .lt a b => occurring a ++ occurring b
  | .not a => occurring a
  | .and terms => occurringAll terms
  | .or terms => occurringAll terms
  | .func _ args _ => occurringAll args
  | .star outer inner _ body => outer ++ inner ++ occurring body

def occurringAll : List Formula → List Symbol
  | [] => []
  | t :: ts => occurring t ++ occurringAll ts

end

theorem occurringAll_eq (ts : List Formula) : occurringAll ts = ts.flatMap occurring := by
  induction ts with
  | nil => rfl
  | cons t ts ih => rw [occurringAll, ih, List.flatMap_cons]

theorem collects_occurring : Collects occurring where
  operator f hf := by
    cases f with
    | sym | star => cases hf
    | _ => simp [occurring, children, occurringAll_eq]
  star h := h.append_left _

/-- Simplification brings in no symbol. -/
theorem occurring_simplify {f g : Formula} (h : f.simplify = .ok g) :
    g.occurring ⊆ f.occurring := (collects_occurring.simplify h).subset

/-- All symbols that occur have a property. -/
def Over (V : Symbol → Prop) (f : Formula) : Prop := ∀ s ∈ f.occurring, V s

section Over

variable {V : Symbol → Prop} {a b c : Formula} {ts : List Formula}

theorem forall_mem_occurringAll : (∀ s ∈ occurringAll ts, V s) ↔ ∀ t ∈ ts, t.Over V := by
  rw [occurringAll_eq]
  exact List.forall_mem_flatMap

@[simp] theorem over_const (q : Fraction) : (Formula.const q).Over V := fun _ h => by cases h

@[simp] theorem over_zero : zero.Over V := over_const _

@[simp] theorem over_one : one.Over V := over_const _

@[simp] theorem over_sym {s : Symbol} : (Formula.sym s).Over V ↔ V s := List.forall_mem_singleton

@[simp] theorem over_plus : (Formula.plus ts).Over V ↔ ∀ t ∈ ts, t.Over V :=
  forall_mem_occurringAll

@[simp] theorem over_mul : (Formula.mul ts).Over V ↔ ∀ t ∈ ts, t.Over V :=
  forall_mem_occurringAll

@[simp] theorem over_and : (Formula.and ts).Over V ↔ ∀ t ∈ ts, t.Over V :=
  forall_mem_occurringAll

@[simp] theorem over_or : (Formula.or ts).Over V ↔ ∀ t ∈ ts, t.Over V :=
  forall_mem_occurringAll

@[simp] theorem over_func {name : String} {type : SymbolType} :
    (Formula.func name ts type).Over V ↔ ∀ t ∈ ts, t.Over V := forall_mem_occurringAll

@[simp] theorem over_minus : (Formula.minus a b).Over V ↔ a.Over V ∧ b.Over V :=
  List.forall_mem_append

@[simp] theorem over_div : (Formula.div a b).Over V ↔ a.Over V ∧ b.Over V :=
  List.forall_mem_append

@[simp] theorem over_eq : (Formula.eq a b).Over V ↔ a.Over V ∧ b.Over V :=
  List.forall_mem_append

@[simp] theorem over_le : (Formula.le a b).Over V ↔ a.Over V ∧ b.Over V :=
  List.forall_mem_append

@[simp] theorem over_lt : (Formula.lt a b).Over V ↔ a.Over V ∧ b.Over V :=
  List.forall_mem_append

@[simp] theorem over_not : (Formula.not a).Over V ↔ a.Over V := Iff.rfl

@[simp] theorem over_ite : (Formula.ite c a b).Over V ↔ (c.Over V ∧ a.Over V) ∧ b.Over V := by
  rw [Over, occurring, List.forall_mem_append, List.forall_mem_append]
  rfl

@[simp] theorem over_star {outer inner : List Symbol} {sides : List Side} :
    (Formula.star outer inner sides a).Over V ↔
      ((∀ s ∈ outer, V s) ∧ ∀ s ∈ inner, V s) ∧ a.Over V := by
  rw [Over, occurring, List.forall_mem_append, List.forall_mem_append]
  rfl

@[simp] theorem over_indicator : (indicator c).Over V ↔ c.Over V := by simp [indicator]

/-- The symbols of a formula are those of its leaves. -/
theorem Made.over {P : Formula → Prop} (hP : ∀ l, P l → l.Over V) {f : Formula} (h : f.Made P) :
    f.Over V := by
  induction f using Formula.induct with
  | const => exact over_const _
  | bool => exact fun _ hs => by cases hs
  | sym => exact hP _ (made_sym.mp h)
  | and => exact hP _ (made_and.mp h)
  | star => exact hP _ (List.forall_mem_singleton.mp h)
  | plus ts ih => exact over_plus.mpr fun t ht => ih t ht (made_plus.mp h t ht)
  | mul ts ih => exact over_mul.mpr fun t ht => ih t ht (made_mul.mp h t ht)
  | or ts ih => exact over_or.mpr fun t ht => ih t ht (made_or.mp h t ht)
  | func _ ts _ ih => exact over_func.mpr fun t ht => ih t ht (made_func.mp h t ht)
  | minus a b iha ihb =>
      rw [made_minus] at h
      exact over_minus.mpr ⟨iha h.1, ihb h.2⟩
  | div a b iha ihb =>
      rw [made_div] at h
      exact over_div.mpr ⟨iha h.1, ihb h.2⟩
  | eq a b iha ihb =>
      rw [made_eq] at h
      exact over_eq.mpr ⟨iha h.1, ihb h.2⟩
  | le a b iha ihb =>
      rw [made_le] at h
      exact over_le.mpr ⟨iha h.1, ihb h.2⟩
  | lt a b iha ihb =>
      rw [made_lt] at h
      exact over_lt.mpr ⟨iha h.1, ihb h.2⟩
  | not a ih => exact over_not.mpr (ih h)
  | ite c a b ihc iha ihb =>
      rw [made_ite] at h
      exact over_ite.mpr ⟨⟨ihc h.1.1, iha h.1.2⟩, ihb h.2⟩

end Over

end Formula

/-! ### Origins -/

/-- The names of some tuples and of some columns. -/
structure Lexicon where
  tuple : String → Prop
  column : String → Prop

instance : LE Lexicon := ⟨fun N M => (∀ x, N.tuple x → M.tuple x) ∧ ∀ a, N.column a → M.column a⟩

/-- What a symbol stands for.  The tuples and columns of symbols are among those of `N`. -/
inductive Symbol.Origin (N : Lexicon) : Symbol → Prop
  /-- The number of a summation. -/
  | placeholder (k : ℕ) : Origin N ⟨"#u" ++ toString k, .int⟩
  /-- The count of a row of a star. -/
  | rowCount (k : ℕ) : Origin N ⟨"#v" ++ toString k, .int⟩
  | literal (k : ℕ) : Origin N ⟨"#s" ++ toString k, .str⟩
  /-- The value of a function that counts something. -/
  | counted {name : String} (h : isCounting name = true) (k : ℕ) :
      Origin N ⟨name ++ "#" ++ toString k, .nat⟩
  | column {x attr : String} (hx : N.tuple x) (hattr : N.column attr) (type : SymbolType) :
      Origin N ⟨columnName x attr, type⟩
  /-- The number of times that a tuple is in a table. -/
  | membership {x : String} (hx : N.tuple x) (table : String) : Origin N ⟨countName table x, .nat⟩
  | null {x attr : String} (hx : N.tuple x) (hattr : N.column attr) :
      Origin N ⟨nullName x attr, .nat⟩
  /-- The flag of a test of a column. -/
  | test {x attr : String} (hx : N.tuple x) (hattr : N.column attr) (name : String) :
      Origin N (Encoder.testFlag name x attr)

namespace Symbol.Origin

variable {N M : Lexicon} {s : Symbol}

theorem mono (h : s.Origin N) (hNM : N ≤ M) : s.Origin M := by
  cases h with
  | placeholder k => exact .placeholder k
  | rowCount k => exact .rowCount k
  | literal k => exact .literal k
  | counted h k => exact .counted h k
  | column hx hattr type => exact .column (hNM.1 _ hx) (hNM.2 _ hattr) type
  | membership hx table => exact .membership (hNM.1 _ hx) table
  | null hx hattr => exact .null (hNM.1 _ hx) (hNM.2 _ hattr)
  | test hx hattr name => exact .test (hNM.1 _ hx) (hNM.2 _ hattr) name

/-- The tuple that a symbol belongs to is in its name. -/
theorem tuple_of_owner? (h : s.Origin N) (hclean : ∀ x, N.tuple x → Clean x)
    (hcolumn : ∀ a, N.column a → '!' ∉ a.toList) {x : String} (hx : s.owner? = some x) :
    N.tuple x := by
  -- Numbered symbols belong to no tuple.
  have hnumbered : ∀ {start : String} {k : ℕ} {type : SymbolType}, Clean start →
      (⟨start ++ toString k, type⟩ : Symbol).owner? ≠ some x := by
    intro start k type hstart
    have hname : Clean (⟨start ++ toString k, type⟩ : Symbol).name :=
      hstart.append (clean_toString k)
    rw [owner?_of_clean hname]
    exact nofun
  have howned : ∀ {y : String}, N.tuple y → s.owner? = some y → N.tuple x :=
    fun hy howner => Option.some.inj (howner.symm.trans hx) ▸ hy
  cases h with
  | placeholder | rowCount | literal => exact absurd hx (hnumbered (by decide))
  | @counted name h k =>
      have hclean : ∀ name ∈ ["count", "count_distinct", "length", "char_length", "abs"],
          Clean (name ++ "#") := by decide
      exact absurd hx (hnumbered (hclean name (of_decide_eq_true h)))
  | column hy hattr type => exact howned hy (owner?_column (hclean _ hy) (hcolumn _ hattr) type)
  | membership hy table => exact howned hy (owner?_count (hclean _ hy) table .nat)
  | null hy hattr => exact howned hy (owner?_null (hclean _ hy) (hcolumn _ hattr) .nat)
  | test hy hattr name => exact howned hy (owner?_flag (hclean _ hy) (hcolumn _ hattr) name .nat)

end Symbol.Origin

/-! ### The account of the encoder -/

/-- The columns of a schema are among those of `N`. -/
def Schema.Within (N : Lexicon) (S : Schema) : Prop := ∀ col ∈ S.columns, N.column col.name

/-- The tuples of an equation are among those of `N`, and the symbols of its condition have an
origin there. -/
structure TupleEquation.Accounted (N : Lexicon) (q : TupleEquation) : Prop where
  left : N.tuple q.left
  right : N.tuple q.right
  columns : ∀ c ∈ q.columns, N.column c.1 ∧ N.column c.2
  condition : q.condition.Over (Symbol.Origin N)

namespace Encoder

variable {N : Lexicon}

/-- Whatever the encoder keeps has an origin, the tuples being among those of `N`. -/
structure Accounted (N : Lexicon) (e : Encoder) : Prop where
  counts : ∀ x ∈ e.counts, ∃ k : ℕ, x = "#u" ++ toString k
  literals : ∀ s v, e.literals.get? s = some v → v.Origin N
  counted : ∀ p ∈ e.counted.toList, p.2.Origin N
  columns : ∀ x S, e.schemas.get? x = some S → S.Within N
  equations : ∀ q ∈ e.equations, q.Accounted N

theorem Accounted.mono {M : Lexicon} {e : Encoder} (h : e.Accounted N) (hNM : N ≤ M) :
    e.Accounted M where
  counts := h.counts
  literals s v hv := (h.literals s v hv).mono hNM
  counted p hp := (h.counted p hp).mono hNM
  columns x S hS col hcol := hNM.2 _ (h.columns x S hS col hcol)
  equations q hq :=
    have hq := h.equations q hq
    ⟨hNM.1 _ hq.left, hNM.1 _ hq.right,
      fun c hc => ⟨hNM.2 _ (hq.columns c hc).1, hNM.2 _ (hq.columns c hc).2⟩,
      fun s hs => (hq.condition s hs).mono hNM⟩

theorem accounted_ofSchemas {schemas : SchemaMap}
    (h : ∀ x S, schemas.get? x = some S → S.Within N) :
    (ofSchemas schemas).Accounted N where
  counts x hx := by cases hx
  literals s v hv := by cases hv
  counted p hp := by cases hp
  columns := h
  equations q hq := by cases hq

/-- The account while placeholders `C` and tuples `T` are in use and numbers up to `n` are drawn. -/
structure Steady (N : Lexicon) (C : List String) (T : List TupleInfo) (n : ℕ)
    (e : Encoder) : Prop extends Accounted N e where
  counts_eq : e.counts = C
  tuples_eq : e.tuples = T
  next_le : n ≤ e.next

/-- Started with the invariant, the computation ends with it, and what it returns has the
property. -/
def Preserves {α : Type} (I : Encoder → Prop) (x : EncodeM α) (P : α → Prop) : Prop :=
  ∀ e a e', I e → Returns x e a e' → I e' ∧ P a

theorem preserves_step {α : Type} {I : Encoder → Prop} {P : α → Prop} {f : Encoder → α × Encoder}
    (h : ∀ e, I e → I (f e).2 ∧ P (f e).1) : Preserves I (step f) P := by
  intro e a e' he hreturns
  have hf := returns_step.mp hreturns
  have hstep := h e he
  rwa [hf] at hstep

/-! ### Symbols -/

variable {C : List String} {T : List TupleInfo} {n : ℕ} {e e' : Encoder}

theorem Steady.literal (h : e.Steady N C T n) (s : String) :
    (e.literal s).2.Steady N C T n ∧ (e.literal s).1.Origin N := by
  unfold Encoder.literal
  split
  · next v hv => exact ⟨h, h.literals s v hv⟩
  · refine ⟨{ h with
      literals := fun t v hv => ?_
      next_le := h.next_le.trans (Nat.le_succ _) }, .literal _⟩
    replace hv : (e.literals.insert s ⟨"#s" ++ toString e.next, .str⟩).get? t = some v := hv
    rw [NameMap.get?_insert] at hv
    split at hv
    · cases hv
      exact .literal _
    · exact h.literals t v hv

theorem Steady.nullFlag (h : e.Steady N C T n) (base attr : String) :
    (e.nullFlag base attr).2.Steady N C T n := by
  unfold Encoder.nullFlag
  dsimp only
  split
  · exact h
  · exact { h with }

theorem origin_column (e : Encoder) {x attr : String} (hx : N.tuple x) (hattr : N.column attr) :
    (e.column x attr).Origin N := by
  rw [column_eq]
  exact .column hx hattr _

theorem Steady.counting (h : e.Steady N C T n) {name : String} (hname : isCounting name = true)
    {app : Term} {v : Symbol} (hv : Returns (counting name app) e v e') :
    e'.Steady N C T n ∧ v.Origin N := by
  rcases returns_counting hv with ⟨rfl, p, hp, rfl⟩ | ⟨rfl, tree, htree, rfl⟩
  · exact ⟨h, h.counted p hp⟩
  · refine ⟨{ h with
      counted := fun p hp => ?_
      next_le := h.next_le.trans (Nat.le_succ _) }, .counted hname _⟩
    rcases (htree p).mp hp with rfl | hp
    · exact .counted hname _
    · exact h.counted p hp

/-- An equation between two tuples of `N` is accounted for. -/
theorem accounted_equation (h : e.Accounted N) {q : TupleEquation} (hq : q.Compares e.schemas)
    (hx : N.tuple q.left) (hy : N.tuple q.right) : q.Accounted N := by
  have hcolumns : ∀ c ∈ q.columns, N.column c.1 ∧ N.column c.2 := by
    obtain ⟨sx, sy, hsx, hsy, heq⟩ := hq.columns
    rw [heq, List.forall_mem_map]
    rintro ⟨c, d⟩ hcd
    obtain ⟨hc, hd⟩ := List.of_mem_zip hcd
    exact ⟨h.columns _ sx hsx c hc, h.columns _ sy hsy d hd⟩
  refine ⟨hx, hy, hcolumns, ?_⟩
  rw [hq.condition, Formula.over_and, List.forall_mem_map]
  intro c hc
  obtain ⟨hleft, hright⟩ := hcolumns c hc
  exact Formula.over_eq.mpr ⟨Formula.over_sym.mpr (.column hx hleft _),
    Formula.over_sym.mpr (.column hy hright _)⟩

theorem Steady.equation (h : e.Steady N C T n) {q : TupleEquation} (hq : q.Accounted N) :
    ({ e with equations := e.equations ++ [q] } : Encoder).Steady N C T n :=
  { h with
    equations := List.forall_mem_append.mpr ⟨h.equations, List.forall_mem_singleton.mpr hq⟩ }

end Encoder

/-! ### Terms -/

/-- The element is about tuples and columns of `N`, or a placeholder among `C`. -/
def Element.About (N : Lexicon) (C : List String) : Element → Prop
  | .tuple x => N.tuple x ∨ x ∈ C
  | .column x attr => N.tuple x ∧ N.column attr
  | .membership _ x => N.tuple x
  | .test _ => True

namespace Encoder

variable {N : Lexicon} {C : List String} {T : List TupleInfo} {n : ℕ}

/-- The symbols of a formula have an origin. -/
abbrev Sourced (N : Lexicon) (f : Formula) : Prop := f.Over (Symbol.Origin N)

/-- What is written has an origin among the tuples that the term is about. -/
theorem encodeRule_sourced : EncodeRule (Element.About N C) (Steady N C T n)
    (fun e e' => e.Steady N C T n → e'.Steady N C T n) (fun _ => Sourced N) where
  refl _ := id
  trans h h' := h' ∘ h
  keep h := h
  mono _ h := h
  placeholder he hx := by
    obtain ⟨k, rfl⟩ := he.counts _ hx
    exact Formula.over_sym.mpr (.placeholder k)
  column h := Formula.over_sym.mpr (origin_column _ h.1 h.2)
  membership h := Formula.over_sym.mpr (.membership h _)
  test _ h := Formula.over_sym.mpr (.test h.1 h.2 _)
  null _ h := ⟨fun he => he.nullFlag _ _, Formula.over_sym.mpr (.null h.1 h.2)⟩
  literal s he := ⟨fun _ => (he.literal s).1, Formula.over_sym.mpr (he.literal s).2⟩
  counting he hname hv :=
    ⟨fun _ => (he.counting hname hv).1, Formula.over_sym.mpr (he.counting hname hv).2⟩
  equation := by
    intro e q he hq hx hy hcx hcy
    -- A placeholder stands for a number and is not compared as a tuple.
    have hcount : ∀ {z}, N.tuple z ∨ z ∈ C → e.isCount z = false → N.tuple z := by
      rintro z (hz | hz) hfalse
      · exact hz
      · rw [isCount, he.counts_eq, decide_eq_false_iff_not] at hfalse
        exact absurd hz hfalse
    have hq := accounted_equation he.toAccounted hq (hcount hx hcx) (hcount hy hcy)
    exact ⟨fun he => he.equation hq, hq.condition⟩

/-- All symbols of an encoded term have an origin among the tuples that it is about. -/
theorem preserves_encode {t : Term} (ht : ∀ k ∈ t.elements, k.About N C) :
    Preserves (Steady N C T n) (encode t) (Sourced N) := by
  intro e f e' he h
  obtain ⟨hkeep, hmade⟩ := encodeRule_sourced.encode ht he f e' h
  exact ⟨hkeep he, hmade.over fun _ => id⟩

/-! ### Constraints -/

variable {e : Encoder}

theorem steady_relateNulls {q : TupleEquation} {c : String × String} (he : e.Steady N C T n)
    (hq : q.Accounted N) (hc : c ∈ q.columns) :
    (relateNulls q c e).2.Steady N C T n ∧ ∀ f ∈ (relateNulls q c e).1, Sourced N f := by
  obtain ⟨hleft, hright⟩ := hq.columns c hc
  unfold relateNulls
  split
  · refine ⟨(he.nullFlag _ _).nullFlag _ _, List.forall_mem_singleton.mpr ?_⟩
    have hx : Sourced N (isZero ⟨nullName q.left c.1, .nat⟩) := by
      simpa [isZero] using Symbol.Origin.null hq.left hleft
    have hy : Sourced N (isZero ⟨nullName q.right c.2, .nat⟩) := by
      simpa [isZero] using Symbol.Origin.null hq.right hright
    simpa [Formula.implies, Formula.iff] using ⟨hq.condition, ⟨hx, hy⟩, hy, hx⟩
  · exact ⟨he, by simp⟩

theorem steady_relateAll {ps : List (TupleEquation × (String × String))} (he : e.Steady N C T n)
    (hps : ∀ p ∈ ps, p.1.Accounted N ∧ p.2 ∈ p.1.columns) :
    (relateAll ps e).2.Steady N C T n ∧ ∀ f ∈ (relateAll ps e).1, Sourced N f := by
  induction ps generalizing e with
  | nil => exact ⟨he, by simp [relateAll]⟩
  | cons p ps ih =>
      rw [List.forall_mem_cons] at hps
      obtain ⟨hsteady, hfs⟩ := steady_relateNulls he hps.1.1 hps.1.2
      obtain ⟨hsteady', hgs⟩ := ih hsteady hps.2
      exact ⟨hsteady', List.forall_mem_append.mpr ⟨hfs, hgs⟩⟩

/-- The symbols of the constraints on null flags have an origin. -/
theorem preserves_congruence :
    Preserves (Steady N C T n) (step congruence) fun fs => ∀ f ∈ fs, Sourced N f := by
  refine preserves_step fun e he => ?_
  -- The equations are used up.
  have hcleared : ({ e with equations := [] } : Encoder).Steady N C T n :=
    { he with equations := fun q hq => by cases hq }
  refine steady_relateAll hcleared fun p hp => ?_
  obtain ⟨q, hq, hp⟩ := List.mem_flatMap.mp hp
  obtain ⟨c, hc, rfl⟩ := List.mem_map.mp hp
  exact ⟨he.equations q hq, hc⟩

/-- Literals have an origin. -/
theorem Accounted.distinctness (h : e.Accounted N) : ∀ f ∈ e.distinctness, Sourced N f := by
  have hall : ∀ v ∈ e.literals.entries.map Prod.snd, v.Origin N := by
    rw [List.forall_mem_map]
    exact fun entry hentry => h.literals entry.1 entry.2 (NameMap.get?_of_mem hentry)
  rw [Encoder.distinctness, List.forall_mem_map]
  rintro ⟨u, v⟩ huv
  obtain ⟨hu, hv, -⟩ := mem_of_mem_pairs (R := fun _ _ => True)
    (List.pairwise_of_forall fun _ _ => trivial) huv
  simpa using ⟨hall u hu, hall v hv⟩

end Encoder

end BagEquiv
