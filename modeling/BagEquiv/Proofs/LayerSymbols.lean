/-
**The symbols of a layer.**

The conjunctions in the formula of a term are conditions that the encoder remembers; its symbols are
numbered ones, or stand for something in the term.  The null flags among them are in use from then
on, since the encoder forgets neither flags nor, before it relates the flags of equal tuples,
equations.

What is resolved at a layer becomes equations for the rows of a star, or for the two terms at the
top, with constraints on the null flags of equal tuples.  After that the encoder remembers no
equation until the next layer starts.  If tuples and columns have names that can be read back, then
a symbol of these formulas is a numbered one or stands for something known: a membership that is in
the terms of the layer, or a null flag that is in use.

Main definition:

* `Encoder.Groundwork` — **the formulas of a layer without its stars**.

Main results:

* `Encoder.encodeRule_composed` — **the formula of a term is made from its elements**;
* `Encoder.Groundwork.over_all` — **what the symbols of a layer stand for**.
-/

import BagEquiv.Proofs.NullCongruence
import BagEquiv.Proofs.SymbolOrigins
import BagEquiv.Proofs.Quantities

set_option autoImplicit false

namespace BagEquiv

namespace Encoder

variable {K : Element → Prop} {e e' e'' : Encoder}

/-! ### Advances -/

/-- A part of a run that introduces no tuple and forgets no null flag and no equation; new equations
are between tuples with clean names. -/
structure Advance (e e' : Encoder) : Prop extends Growth Clean e e' where
  nulls : e.nulls ⊆ e'.nulls
  tuples : e'.tuples = e.tuples

theorem Advance.refl (e : Encoder) : Advance e e := ⟨.refl e, List.Subset.refl _, rfl⟩

theorem Advance.trans (h : Advance e e') (h' : Advance e' e'') : Advance e e'' :=
  ⟨h.toGrowth.trans h'.toGrowth, List.Subset.trans h.nulls h'.nulls, h'.tuples.trans h.tuples⟩

theorem Advance.equations_subset (h : Advance e e') : e.equations ⊆ e'.equations := by
  obtain ⟨qs, hqs, -⟩ := h.equations
  exact hqs ▸ List.subset_append_left _ _

theorem tuples_nullFlag (base attr : String) (e : Encoder) :
    (e.nullFlag base attr).2.tuples = e.tuples := by
  unfold nullFlag
  dsimp only
  split <;> rfl

theorem advance_nullFlag (base attr : String) (e : Encoder) :
    Advance e (e.nullFlag base attr).2 :=
  ⟨(effect_nullFlag base attr e).toGrowth, nulls_subset_nullFlag base attr e,
    tuples_nullFlag base attr e⟩

theorem nullFlag_mem (base attr : String) (e : Encoder) :
    (base, attr) ∈ (e.nullFlag base attr).2.nulls := by
  unfold nullFlag
  dsimp only
  split
  · assumption
  · exact List.mem_cons_self

theorem advance_literal (s : String) (e : Encoder) : Advance e (e.literal s).2 := by
  refine ⟨(literal_ok (v := (e.literal s).1) rfl).1.toGrowth, ?_, ?_⟩
  · unfold literal
    split <;> exact List.Subset.refl _
  · unfold literal
    split <;> rfl

theorem advance_counting {name : String} {app : Term} {v : Symbol}
    (hname : isCounting name = true) (h : Returns (counting name app) e v e') : Advance e e' := by
  have hgrowth := (counting_ok (M := Clean) hname h).1.toGrowth
  rcases returns_counting h with ⟨rfl, -⟩ | ⟨-, tree, -, rfl⟩
  · exact .refl e'
  · exact ⟨hgrowth, List.Subset.refl _, rfl⟩

/-! ### Ingredients -/

/-- What the formula of a term is made from when the encoder is in a state.  The elements that
symbols stand for have the property `K`. -/
inductive Ingredient (K : Element → Prop) (e : Encoder) : Formula → Prop
  /-- A placeholder, a literal or a function that counts something. -/
  | numbered {s : Symbol} (h : Clean s.name) : Ingredient K e (.sym s)
  | column {x attr : String} (h : K (.column x attr)) (type : SymbolType) :
      Ingredient K e (.sym ⟨columnName x attr, type⟩)
  | membership {table x : String} (h : K (.membership table x)) :
      Ingredient K e (.sym ⟨countName table x, .nat⟩)
  /-- A null flag that is in use. -/
  | null {x attr : String} (h : K (.column x attr)) (hnull : (x, attr) ∈ e.nulls) :
      Ingredient K e (.sym ⟨nullName x attr, .nat⟩)
  | test {name x attr : String} (hname : K (.test name)) (h : K (.column x attr)) :
      Ingredient K e (.sym (testFlag name x attr))
  /-- The condition of an equation that is remembered. -/
  | equation {q : TupleEquation} (hq : q ∈ e.equations) : Ingredient K e q.condition

theorem Ingredient.advance {l : Formula} (h : Ingredient K e l) (he : Advance e e') :
    Ingredient K e' l := by
  cases h with
  | numbered h => exact .numbered h
  | column h type => exact .column h type
  | membership h => exact .membership h
  | null h hnull => exact .null h (he.nulls hnull)
  | test hname h => exact .test hname h
  | equation hq => exact .equation (he.equations_subset hq)

/-- Made from ingredients. -/
abbrev Composed (K : Element → Prop) (e : Encoder) (f : Formula) : Prop := f.Made (Ingredient K e)

theorem Composed.advance {f : Formula} (h : Composed K e f) (he : Advance e e') :
    Composed K e' f := h.mono fun _ hl => hl.advance he

/-- The steps of the encoder write ingredients. -/
theorem encodeRule_composed (hK : ∀ x, K (.tuple x) → Clean x) :
    EncodeRule K Tidy Advance (Ingredient K) where
  refl := .refl
  trans := .trans
  keep h := h.tidy
  mono h hl := hl.advance h
  placeholder he hx := by
    obtain ⟨k, rfl⟩ := he.counts _ hx
    exact .numbered (Clean.append (by decide) (clean_toString k))
  column h := by
    rw [column_eq]
    exact .column h _
  membership h := .membership h
  test hname h := .test hname h
  null _ h := ⟨advance_nullFlag _ _ _, .null h (nullFlag_mem _ _ _)⟩
  literal := by
    intro e s he
    obtain ⟨heffect, hget⟩ := literal_ok (M := Clean) (v := (e.literal s).1) rfl
    exact ⟨advance_literal s e, .numbered ((heffect.tidy he).global_of_literal hget).clean⟩
  counting he hname hv := ⟨advance_counting hname hv,
    .numbered ((counting_ok (M := Clean) hname hv).2 he).clean⟩
  equation _ hq hx hy _ _ :=
    ⟨⟨(effect_equation hq (hK _ hx) (hK _ hy)).toGrowth, List.Subset.refl _, rfl⟩,
      .equation (List.mem_append_right _ (List.mem_singleton_self _))⟩

/-! ### Rows of stars -/

/-- Outside its summations the term has elements with the property `K` only, placeholders
included. -/
def Shows (K : Element → Prop) (t : Term) : Prop :=
  ∀ e : Encoder, ∀ k ∈ (t.strip freshCount e).1.elements, K k

theorem shows_of_elements {t : Term} (hcount : ∀ n : ℕ, K (.tuple ("#u" ++ toString n)))
    (ht : ∀ k ∈ t.elements, K k) : Shows K t := by
  intro e k hk
  rcases Term.mem_elements_strip hk with ⟨hk, -⟩ | ⟨st, hst, rfl⟩
  · exact ht k hk
  · obtain ⟨n, -, -, hn⟩ := (draws_strip t e).exists_number (List.mem_map_of_mem hst)
    exact hn ▸ hcount n

theorem advance_stripTerm {t t' : Term} {side : Side} {found : List Counted}
    (h : Returns (stripTerm t side) e (t', found) e') : Advance e e' := by
  have hgrowth := (stripTerm_ok h).growth.mono (N := Clean) fun x => False.elim
  have hstate := congrArg Prod.snd (returns_step.mp h)
  rw [← show _ = e' from hstate, (draws_strip t e).state] at hgrowth ⊢
  exact ⟨hgrowth, List.Subset.refl _, rfl⟩

/-- Without its summations a term is encoded as a formula that is made from its elements. -/
theorem encode_strip_made {t t' : Term} {side : Side} {found : List Counted} {f : Formula}
    {e₁ e₂ : Encoder} (hK : ∀ x, K (.tuple x) → Clean x) (ht : Shows K t) (he : e₁.Tidy)
    (hstrip : Returns (stripTerm t side) e (t', found) e') (h : Returns (encode t') e₁ f e₂) :
    Advance e₁ e₂ ∧ Composed K e₂ f := by
  have hstripped := congrArg (fun p => p.1.1) (returns_step.mp hstrip)
  obtain rfl : (t.strip freshCount e).1 = t' := hstripped
  exact (encodeRule_composed hK).encode (ht e) he f e₂ h

/-- The equations for the rows of a star are made from what is left of its members. -/
theorem starRows_made {tuple : String} {ms : List Member} {rows : List (Symbol × Formula)}
    {below : List Counted} (hK : ∀ x, K (.tuple x) → Clean x)
    (hms : ∀ m ∈ ms, Shows K (m.sum.rest m.matched tuple)) (he : e.Tidy)
    (h : Returns (starRows tuple ms) e (rows, below) e') :
    Advance e e' ∧ ∀ r ∈ rows, Composed K e' r.2 := by
  replace h := rowRun_of_starRows h
  induction h with
  | nil e => exact ⟨.refl e, by simp⟩
  | @cons _ _ _ _ _ _ _ _ e₁ _ _ hstrip hencode _ ih =>
      rw [List.forall_mem_cons] at hms
      have hstripped := advance_stripTerm hstrip
      have hmarked : Advance e₁ { e₁ with next := e₁.next + 1 } :=
        ⟨growth_fresh "#v" e₁, List.Subset.refl _, rfl⟩
      have htidy := (hstripped.trans hmarked).tidy he
      obtain ⟨hencoded, hf⟩ := encode_strip_made hK hms.1 htidy hstrip hencode
      obtain ⟨hrest, hrows⟩ := ih hms.2 (hencoded.tidy htidy)
      have hclean : Clean ("#v" ++ toString e₁.next) := Clean.append (by decide) (clean_toString _)
      refine ⟨((hstripped.trans hmarked).trans hencoded).trans hrest,
        List.forall_mem_cons.mpr ⟨?_, hrows⟩⟩
      exact Formula.made_eq.mpr ⟨Formula.made_sym.mpr (.numbered hclean), hf.advance hrest⟩

end Encoder

/-! ### Sound elements -/

namespace Element

/-- Tuples have clean names, and columns names without exclamation marks. -/
def Sound : Element → Prop
  | .tuple x => Clean x
  | .column x attr => Clean x ∧ '!' ∉ attr.toList
  | .membership _ x => Clean x
  | .test _ => True

instance : (k : Element) → Decidable k.Sound
  | .tuple x => inferInstanceAs (Decidable (Clean x))
  | .column _ _ => inferInstanceAs (Decidable (_ ∧ _))
  | .membership _ x => inferInstanceAs (Decidable (Clean x))
  | .test _ => inferInstanceAs (Decidable True)

theorem Sound.renamed {k : Element} {source target : String} (h : k.Sound)
    (htarget : Clean target) : (k.renamed source target).Sound := by
  have hname : ∀ {x : String}, Clean x → Clean (if x = source then target else x) := by
    intro x hx
    split
    · exact htarget
    · exact hx
  cases k with
  | tuple x => exact hname h
  | column x attr => exact ⟨hname h.1, h.2⟩
  | membership table x => exact hname h
  | test name => trivial

end Element

namespace Encoder

variable {K K' : Element → Prop} {e e₁ e' : Encoder} {s : Symbol} {f l : Formula}

/-! ### What symbols stand for -/

/-- Quantities that formulas may be about: memberships and tests are elements, and null flags are in
use. -/
inductive Attests (K : Element → Prop) (e : Encoder) : Quantity → Prop
  | column (x attr : String) : Attests K e (.column x attr)
  | count {table x : String} (h : K (.membership table x)) : Attests K e (.count table x)
  | null {x attr : String} (h : (x, attr) ∈ e.nulls) : Attests K e (.null x attr)
  | test {name : String} (x attr : String) (h : K (.test name)) : Attests K e (.ofTest name x attr)

/-- A numbered symbol, or the symbol of such a quantity. -/
def Denotes (K : Element → Prop) (e : Encoder) (s : Symbol) : Prop :=
  Clean s.name ∨ ∃ q : Quantity, q.Readable ∧ s.name = q.name ∧ Attests K e q

/-- The quantity can be told from the symbol. -/
theorem Denotes.attests (h : Denotes K e s) {q : Quantity} (hq : q.Readable)
    (hs : s.name = q.name) : Attests K e q := by
  rcases h with h | ⟨p, hp, hname, hattests⟩
  · exact absurd (hs ▸ h) q.not_clean_name
  · exact Quantity.eq_of_name hp hq (hname.symm.trans hs) ▸ hattests

theorem Denotes.mono (h : Denotes K e s) (hK : ∀ k, K k → K' k) (hnulls : e.nulls ⊆ e'.nulls) :
    Denotes K' e' s := by
  refine h.imp_right ?_
  rintro ⟨q, hq, hname, hattests⟩
  refine ⟨q, hq, hname, ?_⟩
  cases hattests with
  | column x attr => exact .column x attr
  | count h => exact .count (hK _ h)
  | null h => exact .null (hnulls h)
  | test x attr h => exact .test x attr (hK _ h)

/-- The equation compares tuples with clean names. -/
structure Equates (e : Encoder) (q : TupleEquation) : Prop where
  compares : q.Compares e.schemas
  left : Clean q.left
  right : Clean q.right

theorem denotes_column {x attr : String} (schema : Option Schema) (hx : Clean x)
    (hattr : '!' ∉ attr.toList) : Denotes K e (columnSymbol schema x attr) :=
  .inr ⟨.column x attr, ⟨hx, hattr⟩, rfl, .column x attr⟩

/-- The columns of an equation have names without exclamation marks. -/
theorem Equates.columns {q : TupleEquation} (h : Equates e q) (ht : e.Tidy) :
    ∀ c ∈ q.columns, '!' ∉ c.1.toList ∧ '!' ∉ c.2.toList := by
  obtain ⟨sx, sy, hsx, hsy, hcolumns⟩ := h.compares.columns
  rw [hcolumns, List.forall_mem_map]
  intro p hp
  obtain ⟨hp₁, hp₂⟩ := List.of_mem_zip hp
  exact ⟨ht.columns _ sx hsx _ hp₁, ht.columns _ sy hsy _ hp₂⟩

theorem Equates.over_condition {q : TupleEquation} (h : Equates e q) (ht : e.Tidy) :
    q.condition.Over (Denotes K e') := by
  rw [h.compares.condition, Formula.over_and, List.forall_mem_map]
  intro c hc
  obtain ⟨hleft, hright⟩ := h.columns ht c hc
  exact Formula.over_eq.mpr ⟨Formula.over_sym.mpr (denotes_column _ h.left hleft),
    Formula.over_sym.mpr (denotes_column _ h.right hright)⟩

theorem Ingredient.over (hK : ∀ k, K k → k.Sound) (ht : e.Tidy)
    (hequations : ∀ q ∈ e.equations, Equates e q) (h : Ingredient K e l) :
    l.Over (Denotes K e) := by
  cases h with
  | numbered h => exact Formula.over_sym.mpr (.inl h)
  | column h type => exact Formula.over_sym.mpr (.inr ⟨.column _ _, hK _ h, rfl, .column _ _⟩)
  | membership h => exact Formula.over_sym.mpr (.inr ⟨.count _ _, hK _ h, rfl, .count h⟩)
  | null h hnull => exact Formula.over_sym.mpr (.inr ⟨.null _ _, hK _ h, rfl, .null hnull⟩)
  | @test name x attr hname h =>
      refine Formula.over_sym.mpr (.inr ⟨.ofTest name x attr, ?_, ?_, .test x attr hname⟩)
      · exact Quantity.readable_ofTest.mpr (hK _ h)
      · exact (Quantity.name_ofTest ..).symm
  | equation hq => exact (hequations _ hq).over_condition ht

/-- Flags of different literals are about numbered symbols. -/
theorem over_distinctness (ht : e.Tidy) : ∀ g ∈ e.distinctness, g.Over (Denotes K e') := by
  have hclean : ∀ v ∈ e.literals.entries.map Prod.snd, Denotes K e' v := by
    rw [List.forall_mem_map]
    intro p hp
    exact .inl (ht.global_of_literal (NameMap.get?_of_mem hp)).clean
  intro g hg
  obtain ⟨⟨u, v⟩, hp, rfl⟩ := List.mem_map.mp hg
  obtain ⟨hu, hv, -⟩ := mem_of_mem_pairs (R := fun _ _ => True) (List.pairwise_of_forall_mem_list
    fun _ _ _ _ => trivial) hp
  exact Formula.over_not.mpr (Formula.over_eq.mpr ⟨Formula.over_sym.mpr (hclean u hu),
    Formula.over_sym.mpr (hclean v hv)⟩)

/-! ### Constraints -/

theorem tuples_relateNulls (q : TupleEquation) (c : String × String) (e : Encoder) :
    (relateNulls q c e).2.tuples = e.tuples := by
  unfold relateNulls
  split
  · exact (tuples_nullFlag _ _ _).trans (tuples_nullFlag _ _ e)
  · rfl

theorem nulls_subset_relateAll (ps : List (TupleEquation × (String × String))) (e : Encoder) :
    e.nulls ⊆ (relateAll ps e).2.nulls := by
  induction ps generalizing e with
  | nil => exact List.Subset.refl _
  | cons p ps ih => exact List.Subset.trans (nulls_subset_relateNulls p.1 p.2 e) (ih _)

theorem tuples_relateAll (ps : List (TupleEquation × (String × String))) (e : Encoder) :
    (relateAll ps e).2.tuples = e.tuples := by
  induction ps generalizing e with
  | nil => rfl
  | cons p ps ih => exact (ih _).trans (tuples_relateNulls p.1 p.2 e)

/-- A constraint is about two null flags, which are in use from then on. -/
theorem of_mem_relateNulls {q : TupleEquation} {c : String × String}
    (h : f ∈ (relateNulls q c e).1) :
    f = nullConstraint q c ∧ (q.left, c.1) ∈ (relateNulls q c e).2.nulls ∧
      (q.right, c.2) ∈ (relateNulls q c e).2.nulls := by
  unfold relateNulls at h ⊢
  split at h
  · next hflag =>
      rw [if_pos hflag]
      exact ⟨List.mem_singleton.mp h, nulls_subset_nullFlag _ _ _ (nullFlag_mem _ _ e),
        nullFlag_mem _ _ _⟩
  · cases h

theorem of_mem_relateAll {ps : List (TupleEquation × (String × String))}
    (h : f ∈ (relateAll ps e).1) :
    ∃ p ∈ ps, f = nullConstraint p.1 p.2 ∧ (p.1.left, p.2.1) ∈ (relateAll ps e).2.nulls ∧
      (p.1.right, p.2.2) ∈ (relateAll ps e).2.nulls := by
  induction ps generalizing e with
  | nil => cases h
  | cons p ps ih =>
      rcases List.mem_append.mp h with h | h
      · obtain ⟨hf, hleft, hright⟩ := of_mem_relateNulls h
        have hsubset := nulls_subset_relateAll ps (relateNulls p.1 p.2 e).2
        exact ⟨p, List.mem_cons_self, hf, hsubset hleft, hsubset hright⟩
      · obtain ⟨p', hp', hf⟩ := ih h
        exact ⟨p', List.mem_cons_of_mem _ hp', hf⟩

/-! ### Between layers -/

/-- The encoder between two layers: it remembers no equation. -/
structure AtRest (e : Encoder) : Prop where
  tidy : e.Tidy
  equations : e.equations = []

/-- Formulas that were made in turn, starting at rest, and the constraints that come of the
equations in them. -/
structure Groundwork (K : Element → Prop) (e : Encoder) (fs : List Formula) (e₁ : Encoder)
    (nulls : List Formula) (e' : Encoder) : Prop where
  advance : Advance e e₁
  composed : ∀ f ∈ fs, Composed K e₁ f
  equates : ∀ q ∈ e₁.equations, Equates e₁ q
  tidy : e₁.Tidy
  congruence : e₁.congruence = (nulls, e')
  schemas : e'.schemas = e.schemas
  atRest : e'.AtRest

theorem groundwork_of_advance {fs nulls : List Formula} (he : e.AtRest) (hadvance : Advance e e₁)
    (hfs : ∀ f ∈ fs, Composed K e₁ f) (h : Returns (step Encoder.congruence) e₁ nulls e') :
    Groundwork K e fs e₁ nulls e' := by
  have hcongruence := returns_step.mp h
  have hequates : ∀ q ∈ e₁.equations, Equates e₁ q := by
    obtain ⟨qs, hqs, hall⟩ := hadvance.equations
    rw [he.equations, List.nil_append] at hqs
    rw [hqs]
    intro q hq
    obtain ⟨hcompares, hleft, hright⟩ := hall q hq
    exact ⟨hadvance.schemas ▸ hcompares, hleft, hright⟩
  have htidy := hadvance.tidy he.tidy
  have hrelated := congruence_ok (e := e₁) (M := Clean) (fun _ => id) fun q hq =>
    ⟨(hequates q hq).compares, (hequates q hq).left, (hequates q hq).right⟩
  rw [hcongruence] at hrelated
  exact ⟨hadvance, hfs, hequates, htidy, hcongruence,
    hrelated.effect.schemas.trans hadvance.schemas,
    hrelated.effect.tidy ((later_equations e₁ []).tidy htidy), hrelated.equations⟩

namespace Groundwork

variable {fs nulls : List Formula} (h : Groundwork K e fs e₁ nulls e')
include h

theorem nulls_subset : e₁.nulls ⊆ e'.nulls := by
  have hsubset := nulls_subset_relateAll
    (e₁.equations.flatMap fun q => q.columns.map fun c => (q, c)) { e₁ with equations := [] }
  exact (congrArg (fun r => r.2.nulls) h.congruence :) ▸ hsubset

theorem tuples : e'.tuples = e.tuples := by
  have htuples := tuples_relateAll
    (e₁.equations.flatMap fun q => q.columns.map fun c => (q, c)) { e₁ with equations := [] }
  exact ((congrArg (fun r => r.2.tuples) h.congruence).symm.trans htuples).trans h.advance.tuples

/-- A constraint comes of an equation, and the flags in it are in use from then on. -/
theorem of_mem_nulls {g : Formula} (hg : g ∈ nulls) :
    ∃ q ∈ e₁.equations, ∃ c ∈ q.columns, g = nullConstraint q c ∧
      (q.left, c.1) ∈ e'.nulls ∧ (q.right, c.2) ∈ e'.nulls := by
  have hmem : g ∈ e₁.congruence.1 := h.congruence ▸ hg
  obtain ⟨⟨q, c⟩, hp, rfl, hleft, hright⟩ := of_mem_relateAll hmem
  obtain ⟨q', hq', hp⟩ := List.mem_flatMap.mp hp
  obtain ⟨c', hc', heq⟩ := List.mem_map.mp hp
  cases heq
  have hstate : (relateAll (e₁.equations.flatMap fun q => q.columns.map fun c => (q, c))
      { e₁ with equations := [] }).2 = e' := congrArg Prod.snd h.congruence
  exact ⟨q, hq', c, hc', rfl, hstate ▸ hleft, hstate ▸ hright⟩

theorem over_rows (hK : ∀ k, K k → k.Sound) : ∀ g ∈ fs, g.Over (Denotes K e₁) :=
  fun g hg => (h.composed g hg).over fun _ hl => hl.over hK h.tidy h.equates

/-- What the symbols of a layer stand for, those of its stars apart. -/
theorem over_all (hK : ∀ k, K k → k.Sound) : ∀ g ∈ fs ++ nulls, g.Over (Denotes K e') := by
  refine List.forall_mem_append.mpr ⟨fun g hg => ?_, fun g hg => ?_⟩
  · exact fun s hs => (h.over_rows hK g hg s hs).mono (fun _ => id) h.nulls_subset
  · obtain ⟨q, hq, c, hc, rfl, hleft, hright⟩ := h.of_mem_nulls hg
    have hequates := h.equates q hq
    obtain ⟨hc₁, hc₂⟩ := hequates.columns h.tidy c hc
    have hflag : ∀ {x attr : String}, Clean x → '!' ∉ attr.toList → (x, attr) ∈ e'.nulls →
        (isZero ⟨nullName x attr, .nat⟩).Over (Denotes K e') := fun hx hattr hmem =>
      Formula.over_eq.mpr ⟨Formula.over_sym.mpr (.inr ⟨.null _ _, ⟨hx, hattr⟩, rfl, .null hmem⟩),
        Formula.over_zero⟩
    have hflags := And.intro (hflag hequates.left hc₁ hleft) (hflag hequates.right hc₂ hright)
    simpa [nullConstraint, Formula.implies, Formula.iff, and_comm] using
      ⟨hequates.over_condition h.tidy, hflags⟩

end Groundwork

/-- The equations for the rows of a star, and their constraints. -/
theorem groundwork_of_starRows {tuple : String} {ms : List Member}
    {rows : List (Symbol × Formula)} {below : List Counted} {nulls : List Formula}
    (he : e.AtRest) (hK : ∀ x, K (.tuple x) → Clean x)
    (hms : ∀ m ∈ ms, Shows K (m.sum.rest m.matched tuple))
    (hrows : Returns (starRows tuple ms) e (rows, below) e₁)
    (hnulls : Returns (step Encoder.congruence) e₁ nulls e') :
    Groundwork K e (rows.map Prod.snd) e₁ nulls e' := by
  obtain ⟨hadvance, hcomposed⟩ := starRows_made hK hms he.tidy hrows
  exact groundwork_of_advance he hadvance
    (List.forall_mem_map.mpr hcomposed) hnulls

/-- The equation that the formulas of two terms differ, and its constraints. -/
theorem groundwork_of_terms {left right l r : Term} {lscope rscope : List Counted} {a b : Formula}
    {nulls : List Formula} {e₂ e₃ e₄ : Encoder} (he : e.AtRest)
    (hK : ∀ x, K (.tuple x) → Clean x) (hshows : Shows K left ∧ Shows K right)
    (hleft : Returns (stripTerm left .left) e (l, lscope) e₁)
    (hright : Returns (stripTerm right .right) e₁ (r, rscope) e₂)
    (ha : Returns (encode l) e₂ a e₃) (hb : Returns (encode r) e₃ b e₄)
    (hnulls : Returns (step Encoder.congruence) e₄ nulls e') :
    Groundwork K e [.not (.eq a b)] e₄ nulls e' := by
  have hstripped := (advance_stripTerm hleft).trans (advance_stripTerm hright)
  have ht₂ := hstripped.tidy he.tidy
  obtain ⟨hadvance, hcomposed⟩ := encode_strip_made hK hshows.1 ht₂ hleft ha
  obtain ⟨hadvance', hcomposed'⟩ := encode_strip_made hK hshows.2 (hadvance.tidy ht₂) hright hb
  refine groundwork_of_advance he ((hstripped.trans hadvance).trans hadvance') ?_ hnulls
  exact List.forall_mem_singleton.mpr (Formula.made_not.mpr (Formula.made_eq.mpr
    ⟨hcomposed.advance hadvance', hcomposed'⟩))

/-! ### Stations -/

section Station

variable {st : Station}

theorem clean_enter (st : Station) (e : Encoder) : Clean (st.enter e).1 := by
  cases st with
  | common schema ms =>
      rw [Station.enter, groupTuple_eq]
      exact Clean.append (by decide) (clean_toString _)
  | single m => exact (by decide : Clean "")

theorem nulls_enter (st : Station) (e : Encoder) : (st.enter e).2.nulls = e.nulls := by
  cases st with
  | common schema ms =>
      rw [Station.enter, groupTuple_eq]
  | single m => rfl

theorem atRest_enter {e₀ : Encoder} (hst : st.Proper e₀.schemas) (he₀ : e₀.Tidy) (he : e.AtRest) :
    (st.enter e).2.AtRest := by
  cases st with
  | common schema ms =>
      obtain ⟨x, hx⟩ := hst.exists_schema
      refine ⟨tidy_groupTuple _ (fun S hS => he₀.columns x S (hx.trans hS)) he.tidy, ?_⟩
      rw [Station.enter, groupTuple_eq]
      exact he.equations
  | single m =>
      obtain ⟨⟨literals, injective, counted, counts, columns⟩, equations⟩ := he
      exact ⟨⟨literals, injective, counted, counts, columns⟩, equations⟩

end Station

end Encoder

end BagEquiv
