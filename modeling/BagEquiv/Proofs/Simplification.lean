/-
**Replacing a formula by the simplified one.**

A formula is *built* from some symbols if it puts values and truths where they belong, its constants
have positive denominators, and outside the bodies of stars it has no other symbols.  Simplification
keeps the value of such a formula and what it is built from.  In a reading whose scopes grow with
what the bodies of stars mention this is so for formulas without stars.

Main definition:

* `Formula.Built` — **formulas that fit together**.

Main result:

* `Formula.simplify_refines` — **a formula can be replaced by the simplified one**.
-/

import BagEquiv.Proofs.SimplifiedValues

set_option autoImplicit false

namespace BagEquiv

namespace Formula

variable {V : Set Symbol} {stars : Bool} {k : Kind} {f : Formula}

/-! ### Formulas that fit together -/

mutual

/-- The formula is of the given kind, the denominators of its constants are positive, and the
symbols outside the bodies of stars are among the given ones; whether there may be stars is given
as well. -/
@[simp] def Built (V : Set Symbol) (stars : Bool) : Kind → Formula → Prop
  | k, .const q => k = .value ∧ q.Positive
  | k, .bool _ => k = .truth
  | k, .sym s => k = .value ∧ s ∈ V
  | k, .plus terms => k = .value ∧ AllBuilt V stars .value terms
  | k, .minus a b => k = .value ∧ Built V stars .value a ∧ Built V stars .value b
  | k, .mul factors => k = .value ∧ AllBuilt V stars .value factors
  | k, .div a b => k = .value ∧ Built V stars .value a ∧ Built V stars .value b
  | k, .ite c a b => Built V stars .truth c ∧ Built V stars k a ∧ Built V stars k b
  | k, .eq a b => k = .truth ∧ Built V stars .value a ∧ Built V stars .value b
  | k, .le a b => k = .truth ∧ Built V stars .value a ∧ Built V stars .value b
  | k, .lt a b => k = .truth ∧ Built V stars .value a ∧ Built V stars .value b
  | k, .not a => k = .truth ∧ Built V stars .truth a
  | k, .and terms => k = .truth ∧ AllBuilt V stars .truth terms
  | k, .or terms => k = .truth ∧ AllBuilt V stars .truth terms
  | k, .func _ args _ => k = .value ∧ AllBuilt V stars .value args
  | k, .star outer _ _ body =>
      k = .truth ∧ stars = true ∧ (∀ s ∈ outer, s ∈ V) ∧ Built Set.univ true .truth body

def AllBuilt (V : Set Symbol) (stars : Bool) (k : Kind) : List Formula → Prop
  | [] => True
  | t :: ts => Built V stars k t ∧ AllBuilt V stars k ts

end

@[simp] theorem allBuilt_iff {ts : List Formula} :
    AllBuilt V stars k ts ↔ ∀ t ∈ ts, Built V stars k t := by
  induction ts with
  | nil => simp [AllBuilt]
  | cons t ts ih => rw [AllBuilt, ih, List.forall_mem_cons]

mutual

/-- The symbols outside the bodies of stars. -/
def surface : Formula → List Symbol
  | .const _ => []
  | .bool _ => []
  | .sym s => [s]
  | .plus terms => surfaceAll terms
  | .minus a b => surface a ++ surface b
  | .mul factors => surfaceAll factors
  | .div a b => surface a ++ surface b
  | .ite c a b => surface c ++ surface a ++ surface b
  | .eq a b => surface a ++ surface b
  | .le a b => surface a ++ surface b
  | .lt a b => surface a ++ surface b
  | .not a => surface a
  | .and terms => surfaceAll terms
  | .or terms => surfaceAll terms
  | .func _ args _ => surfaceAll args
  | .star outer _ _ _ => outer

def surfaceAll : List Formula → List Symbol
  | [] => []
  | t :: ts => surface t ++ surfaceAll ts

end

theorem surfaceAll_eq (ts : List Formula) : surfaceAll ts = ts.flatMap surface := by
  induction ts with
  | nil => rfl
  | cons t ts ih => rw [surfaceAll, ih, List.flatMap_cons]

/-- The smallest set of symbols that a formula is built from is its surface. -/
theorem built_iff_surface :
    f.Built V stars k ↔ f.Built Set.univ stars k ∧ ∀ s ∈ f.surface, s ∈ V := by
  have members : ∀ {ts : List Formula} {k : Kind},
      (∀ t ∈ ts, ∀ {k : Kind},
        t.Built V stars k ↔ t.Built Set.univ stars k ∧ ∀ s ∈ t.surface, s ∈ V) →
      ((∀ t ∈ ts, t.Built V stars k) ↔
        (∀ t ∈ ts, t.Built Set.univ stars k) ∧ ∀ s ∈ surfaceAll ts, s ∈ V) := by
    intro ts k ih
    rw [surfaceAll_eq]
    simp only [List.mem_flatMap]
    constructor
    · intro h
      refine ⟨fun t ht => ((ih t ht).mp (h t ht)).1, ?_⟩
      rintro s ⟨t, ht, hs⟩
      exact ((ih t ht).mp (h t ht)).2 s hs
    · rintro ⟨h, hs⟩ t ht
      exact (ih t ht).mpr ⟨h t ht, fun s hst => hs s ⟨t, ht, hst⟩⟩
  induction f using Formula.induct generalizing k with
  | const | bool => simp [surface]
  | sym s => simp [surface]
  | plus ts ih | mul ts ih | and ts ih | or ts ih | func _ ts _ ih =>
      simp only [Built, allBuilt_iff, surface, members ih, and_assoc]
  | minus a b iha ihb | div a b iha ihb | eq a b iha ihb | le a b iha ihb | lt a b iha ihb =>
      simp only [Built, surface, List.forall_mem_append, @iha .value, @ihb .value]
      tauto
  | not a ih => simp only [Built, surface, @ih .truth, and_assoc]
  | ite c a b ihc iha ihb =>
      simp only [Built, surface, List.forall_mem_append, @ihc .truth, @iha k, @ihb k]
      tauto
  | star outer inner sides body _ =>
      simp only [Built, surface, Set.mem_univ, implies_true, true_and]
      tauto

theorem Built.mono {V W : Set Symbol} {stars stars' : Bool} (h : f.Built V stars k) (hV : V ⊆ W)
    (hs : stars = true → stars' = true) : f.Built W stars' k := by
  induction f using Formula.induct generalizing k with
  | const | bool => exact h
  | sym s => exact ⟨h.1, hV h.2⟩
  | plus ts ih | mul ts ih | and ts ih | or ts ih | func _ ts _ ih =>
      simp only [Built, allBuilt_iff] at h ⊢
      exact ⟨h.1, fun t ht => ih t ht (h.2 t ht)⟩
  | minus a b iha ihb | div a b iha ihb | eq a b iha ihb | le a b iha ihb | lt a b iha ihb =>
      exact ⟨h.1, iha h.2.1, ihb h.2.2⟩
  | not a ih => exact ⟨h.1, ih h.2⟩
  | ite c a b ihc iha ihb => exact ⟨ihc h.1, iha h.2.1, ihb h.2.2⟩
  | star outer inner sides body _ => exact ⟨h.1, hs h.2.1, fun s hs => hV (h.2.2.1 s hs), h.2.2.2⟩

theorem Built.hasStar_eq (h : f.Built V false k) : f.hasStar = false := by
  induction f using Formula.induct generalizing k with
  | const | bool | sym => rfl
  | plus ts ih | mul ts ih | and ts ih | or ts ih | func _ ts _ ih =>
      simp only [Built, allBuilt_iff] at h
      rw [hasStar, hasStarAny_eq, List.any_eq_false]
      exact fun t ht => by simpa using ih t ht (h.2 t ht)
  | minus a b iha ihb | div a b iha ihb | eq a b iha ihb | le a b iha ihb | lt a b iha ihb =>
      rw [hasStar, iha h.2.1, ihb h.2.2, Bool.or_false]
  | not a ih => exact ih h.2
  | ite c a b ihc iha ihb =>
      rw [hasStar, ihc h.1, iha h.2.1, ihb h.2.2, Bool.or_false, Bool.or_false]
  | star outer inner sides body _ => cases h.2.1

theorem Built.mem_of_freeSymbols (h : f.Built V false k) {s : Symbol} (hs : s ∈ f.freeSymbols) :
    s ∈ V := by
  induction f using Formula.induct generalizing k with
  | const | bool => cases hs
  | sym u => exact List.mem_singleton.mp hs ▸ h.2
  | plus ts ih | mul ts ih | and ts ih | or ts ih | func _ ts _ ih =>
      simp only [Built, allBuilt_iff] at h
      rw [freeSymbols, freeSymbolsAll_eq] at hs
      obtain ⟨t, ht, hs⟩ := List.mem_flatMap.mp hs
      exact ih t ht (h.2 t ht) hs
  | minus a b iha ihb | div a b iha ihb | eq a b iha ihb | le a b iha ihb | lt a b iha ihb =>
      rcases List.mem_append.mp hs with hs | hs
      · exact iha h.2.1 hs
      · exact ihb h.2.2 hs
  | not a ih => exact ih h.2 hs
  | ite c a b ihc iha ihb =>
      rcases List.mem_append.mp hs with hs | hs
      · rcases List.mem_append.mp hs with hs | hs
        · exact ihc h.1 hs
        · exact iha h.2.1 hs
      · exact ihb h.2.2 hs
  | star outer inner sides body _ => cases h.2.1

/-- Without stars the value depends on the values of the symbols that a formula is built from. -/
theorem Built.value_congr (h : f.Built V false k) {R : Reading} {K L : Set Symbol}
    {ρ σ : Interpretation} (hρ : ∀ s ∈ V, ρ s = σ s) : f.value R K ρ = f.value R L σ :=
  value_of_starFree f h.hasStar_eq fun _ hs => hρ _ (h.mem_of_freeSymbols hs)

/-- What a formula is built from is kept. -/
theorem typing_built : Typing (fun i : Set Symbol × Bool × Kind => i.2.2 = .value)
    (fun i => i.2.2 = .truth) fun i f => f.Built i.1 i.2.1 i.2.2 where
  const hi hq := ⟨hi, hq⟩
  bool hi := hi
  plus := and_congr_right fun hi => by rw [hi, allBuilt_iff]
  mul := and_congr_right fun hi => by rw [hi, allBuilt_iff]
  minus := and_congr_right fun hi => by rw [hi]
  div := and_congr_right fun hi => by rw [hi]
  not := and_congr_right fun hi => by rw [hi]
  and := and_congr_right fun hi => by rw [hi, allBuilt_iff]
  or := and_congr_right fun hi => by rw [hi, allBuilt_iff]
  ite hi := hi.2
  eq hi := hi.1
  le hi := hi.1
  lt hi := hi.1
  ite_congr hc ha hb i hi := ⟨hc (i.1, i.2.1, .truth) hi.1, ha i hi.2.1, hb i hi.2.2⟩
  eq_congr ha hb i hi :=
    ⟨hi.1, ha (i.1, i.2.1, .value) hi.2.1, hb (i.1, i.2.1, .value) hi.2.2⟩
  le_congr ha hb i hi :=
    ⟨hi.1, ha (i.1, i.2.1, .value) hi.2.1, hb (i.1, i.2.1, .value) hi.2.2⟩
  lt_congr ha hb i hi :=
    ⟨hi.1, ha (i.1, i.2.1, .value) hi.2.1, hb (i.1, i.2.1, .value) hi.2.2⟩
  func_congr h i hi := by
    simp only [Built, allBuilt_iff] at hi ⊢
    exact ⟨hi.1, Typing.all h (i := (i.1, i.2.1, .value)) hi.2⟩
  star_congr ha _ hi := ⟨hi.1, hi.2.1, hi.2.2.1, ha (Set.univ, true, .truth) hi.2.2.2⟩

theorem Built.ofKind (h : f.Built V stars k) : f.OfKind k := by
  induction f using Formula.induct generalizing V stars k with
  | const | sym => exact h.1
  | bool => exact h
  | plus ts ih | mul ts ih | and ts ih | or ts ih =>
      simp only [Built, allBuilt_iff] at h
      simp only [OfKind, allOfKind_iff]
      exact ⟨h.1, fun t ht => ih t ht (h.2 t ht)⟩
  | func name ts type ih =>
      simp only [Built, allBuilt_iff] at h
      simp only [OfKind, eachOfKind_iff]
      exact ⟨h.1, fun t ht => ⟨.value, ih t ht (h.2 t ht)⟩⟩
  | minus a b iha ihb | div a b iha ihb | le a b iha ihb | lt a b iha ihb =>
      exact ⟨h.1, iha h.2.1, ihb h.2.2⟩
  | eq a b iha ihb => exact ⟨h.1, .value, iha h.2.1, ihb h.2.2⟩
  | not a ih => exact ⟨h.1, ih h.2⟩
  | ite c a b ihc iha ihb => exact ⟨ihc h.1, iha h.2.1, ihb h.2.2⟩
  | star outer inner sides body ih => exact ⟨h.1, ih h.2.2.2⟩

theorem Built.positive_of_offered (h : f.Built V stars k) : ∀ q ∈ f.offered, q.Positive := by
  induction f using Formula.induct with
  | const q => exact List.forall_mem_singleton.mpr h.2
  | ite c a b _ iha ihb => exact List.forall_mem_append.mpr ⟨iha h.2.1, ihb h.2.2⟩
  | _ => exact nofun

theorem Built.positive_of_compared (h : f.Built V stars k) : ∀ q ∈ f.compared, q.Positive := by
  induction f using Formula.induct generalizing V stars k with
  | const | bool | sym => exact nofun
  | plus ts ih | mul ts ih | and ts ih | or ts ih | func _ ts _ ih =>
      simp only [Built, allBuilt_iff] at h
      rw [compared, comparedAll_eq, List.forall_mem_flatMap]
      exact fun t ht => ih t ht (h.2 t ht)
  | minus a b iha ihb | div a b iha ihb | eq a b iha ihb =>
      exact List.forall_mem_append.mpr ⟨iha h.2.1, ihb h.2.2⟩
  | le a b iha ihb | lt a b iha ihb =>
      simp only [compared, List.forall_mem_append]
      exact ⟨⟨⟨h.2.1.positive_of_offered, h.2.2.positive_of_offered⟩, iha h.2.1⟩, ihb h.2.2⟩
  | not a ih => exact ih h.2
  | ite c a b ihc iha ihb =>
      simp only [compared, List.forall_mem_append]
      exact ⟨⟨ihc h.1, iha h.2.1⟩, ihb h.2.2⟩
  | star outer inner sides body ih => exact ih h.2.2.2

/-! ### Replacing formulas -/

/-- The first formula can be replaced by the second one: it is built from the same symbols, and it
has the same value.  If scopes depend on the bodies of stars, this is said of formulas without stars
only. -/
structure Refines (f g : Formula) : Prop where
  built : ∀ {V stars k}, f.Built V stars k → g.Built V stars k
  value : ∀ {V stars k} {R : Reading}, f.Built V stars k → R.Uniform ∨ stars = false →
    ∀ K ρ, g.value R K ρ = f.value R K ρ

/-- A formula can be replaced by the simplified one. -/
theorem simplify_refines {f g : Formula} (h : f.simplify = .ok g) : Refines f g where
  built hf := typing_built.simplify h (_, _, _) hf
  value hf hR := value_simplify hf.ofKind hf.positive_of_compared
    (hR.imp_right fun hstars => (hstars ▸ hf).hasStar_eq) h

/-! ### Scopes that grow with the bodies of stars -/

theorem Built.of_starFree (h : f.Built V stars k) (hf : f.hasStar = false) : f.Built V false k := by
  induction f using Formula.induct generalizing k with
  | const | bool | sym => exact h
  | plus ts ih | mul ts ih | and ts ih | or ts ih | func _ ts _ ih =>
      simp only [Built, allBuilt_iff] at h ⊢
      rw [hasStar, hasStarAny_eq, List.any_eq_false] at hf
      exact ⟨h.1, fun t ht => ih t ht (h.2 t ht) (by simpa using hf t ht)⟩
  | minus a b iha ihb | div a b iha ihb | eq a b iha ihb | le a b iha ihb | lt a b iha ihb =>
      rw [hasStar, Bool.or_eq_false_iff] at hf
      exact ⟨h.1, iha h.2.1 hf.1, ihb h.2.2 hf.2⟩
  | not a ih => exact ⟨h.1, ih h.2 hf⟩
  | ite c a b ihc iha ihb =>
      rw [hasStar, Bool.or_eq_false_iff, Bool.or_eq_false_iff] at hf
      exact ⟨ihc h.1 hf.1.1, iha h.2.1 hf.1.2, ihb h.2.2 hf.2⟩
  | star => cases hf

end Formula

/-- The reading in which the summands of a star share what is in scope, and in the body of a star
the symbols outside of further stars come into scope. -/
def Reading.lexical (admits : SymbolType → Set ℚ) (apply : String → SymbolType → List ℚ → ℚ)
    (overZero : ℚ → ℚ) : Reading where
  admits := admits
  apply := apply
  overZero := overZero
  shared K _ _ := K
  inside K body := K ∪ {s | s ∈ body.surface}

namespace Formula

theorem simplifyAnd_holds {R : Reading} {K : Set Symbol} {ρ : Interpretation} {ts : List Formula}
    {g : Formula} (h : simplifyAnd ts = .ok g) (hts : ∀ t ∈ ts, t.Holds R K ρ) :
    g.Holds R K ρ := by
  obtain ⟨r, hr, h⟩ := Fault.ok_of_bind h
  rw [← forall_mem_flattenAnd] at hts
  cases r with
  | none => simpa using hts _ (distinctMembers_none hr)
  | some us =>
      obtain ⟨-, hsub, -⟩ := distinctMembers_some hr
      have hus : ∀ u ∈ us, u.Holds R K ρ := fun u hu => hts u (by simpa using hsub hu)
      match us, h with
      | [], h =>
          cases h
          simp
      | [t], h =>
          cases h
          exact hus _ (List.mem_singleton_self _)
      | t :: u :: us, h =>
          cases h
          exact holds_and.mpr hus

/-- What holds in a scope holds, simplified, in every smaller scope. -/
theorem simplify_holds {admits : SymbolType → Set ℚ} {apply : String → SymbolType → List ℚ → ℚ}
    {overZero : ℚ → ℚ} {f g : Formula} (hf : f.Conjunctive)
    (hbuilt : f.Built Set.univ true .truth) (h : f.simplify = .ok g) {K L : Set Symbol}
    (hKL : L ⊆ K) {ρ : Interpretation} (hold : f.Holds (.lexical admits apply overZero) K ρ) :
    g.Holds (.lexical admits apply overZero) L ρ := by
  induction hf generalizing g K L ρ with
  | @starFree f hfree =>
      have hbuilt := hbuilt.of_starFree hfree
      rw [Holds, (simplify_refines h).value hbuilt (.inr rfl)]
      exact holds_of_starFree hfree hold
  | @and ts hts ih =>
      obtain ⟨us, hus, h⟩ := Fault.ok_of_bind h
      simp only [Built, allBuilt_iff] at hbuilt
      refine simplifyAnd_holds h fun u hu => ?_
      obtain ⟨t, ht, hsimp⟩ := exists_mem_of_simplifyAll hus hu
      exact ih t ht (hbuilt.2 t ht) hsimp hKL (holds_and.mp hold t ht)
  | @star outer inner sides body hbody ih =>
      obtain ⟨body', hbody', h⟩ := Fault.ok_of_bind h
      cases h
      rw [holds_star] at hold ⊢
      obtain ⟨σs, hσs, hsums⟩ := hold
      refine ⟨σs, fun σ hσ => ?_, hsums⟩
      obtain ⟨hadmits, hshared, hholds⟩ := hσs σ hσ
      refine ⟨hadmits, fun s hs => hshared s (hKL hs), ih hbuilt.2.2.2 hbody' ?_ hholds⟩
      -- The simplified body has no new symbols.
      have hsurface := (simplify_refines hbody').built (built_iff_surface.mpr
        ⟨hbuilt.2.2.2, fun s hs => (hs : s ∈ {s | s ∈ body.surface})⟩)
      exact Set.union_subset_union hKL (built_iff_surface.mp hsurface).2

end Formula

end BagEquiv
