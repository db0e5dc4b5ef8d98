/-
**Which null flags are related in a layer.**

An equation between two tuples is about the values of their columns only, so a layer ends with
constraints: if the tuples are equal, then the null flags of two corresponding columns agree.  There
is a constraint in the layer of the equation for every column of which one of the two flags is in
use by then, that is in the formulas of the layer or of a layer that was closed before it.  A flag
that comes into use later, in a layer below or beside, or by a constraint of the same layer, is not
related any more.

Main definition:

* `Formula.layers` — **the layers of a formula, in the order in which they are closed**.

Main result:

* `Encoder.nullConstraint_mem_of_layers` — **equal tuples are constrained in all columns
  with a flag in use**.
-/

import BagEquiv.Proofs.LayerSymbols

set_option autoImplicit false

namespace BagEquiv

/-! ### Layers of formulas -/

namespace Formula

def isStar : Formula → Bool
  | .star .. => true
  | _ => false

mutual

/-- The layers of a formula: the conjuncts that are no stars, then the layers inside the stars. -/
def layers : Formula → List (List Formula)
  | .and terms => terms.filter (fun f => !f.isStar) :: layersAll terms
  | .star _ _ _ body => layers body
  | _ => []

def layersAll : List Formula → List (List Formula)
  | [] => []
  | t :: ts => layers t ++ layersAll ts

end

theorem layersAll_eq (ts : List Formula) : layersAll ts = ts.flatMap layers := by
  induction ts with
  | nil => rfl
  | cons t ts ih => rw [layersAll, ih, List.flatMap_cons]

theorem layersAll_append (ts us : List Formula) :
    layersAll (ts ++ us) = layersAll ts ++ layersAll us := by
  simp only [layersAll_eq, List.flatMap_append]

theorem layersAll_singleton (t : Formula) : layersAll [t] = t.layers := List.append_nil _

/-- The formula has no layers. -/
def Flat (f : Formula) : Prop := f.isStar = false ∧ f.layers = []

/-- The layers of a conjunction of flat formulas and stars. -/
theorem layers_and {fs stars gs : List Formula} (hfs : ∀ f ∈ fs, f.Flat)
    (hstars : ∀ f ∈ stars, f.isStar = true) (hgs : ∀ f ∈ gs, f.Flat) :
    (Formula.and (fs ++ stars ++ gs)).layers = (fs ++ gs) :: layersAll stars := by
  have hnone : ∀ {fs : List Formula}, (∀ f ∈ fs, f.Flat) → layersAll fs = [] := fun hfs => by
    rw [layersAll_eq, List.flatMap_eq_nil_iff]
    exact fun f hf => (hfs f hf).2
  have hall : ∀ {fs : List Formula}, (∀ f ∈ fs, f.Flat) → fs.filter (fun f => !f.isStar) = fs :=
    fun hfs => List.filter_eq_self.mpr fun f hf => by rw [(hfs f hf).1]; rfl
  have hno : stars.filter (fun f => !f.isStar) = [] :=
    List.filter_eq_nil_iff.mpr fun f hf => by simp [hstars f hf]
  rw [layers, layersAll_append, layersAll_append, hnone hfs, hnone hgs, List.filter_append,
    List.filter_append, hall hfs, hall hgs, hno]
  simp

/-- The null flag of a column is in the formula. -/
def HasFlag (f : Formula) (c : String × String) : Prop := ⟨nullName c.1 c.2, .nat⟩ ∈ f.occurring

instance (f : Formula) (c : String × String) : Decidable (f.HasFlag c) :=
  inferInstanceAs (Decidable (_ ∈ _))

end Formula

/-! ### Plain elements -/

/-- Sound, and no test has the name of the null flags. -/
def Element.Plain (k : Element) : Prop := k.Sound ∧ k ≠ .test "isnull"

instance (k : Element) : Decidable k.Plain := inferInstanceAs (Decidable (_ ∧ _))

theorem Element.Plain.renamed {k : Element} {source target : String} (h : k.Plain)
    (htarget : Clean target) : (k.renamed source target).Plain := by
  refine ⟨h.1.renamed htarget, ?_⟩
  cases k with
  | test name => exact h.2
  | tuple | column | membership => nofun

namespace Encoder

variable {K : Element → Prop} {e e₁ e' : Encoder}

/-- A constraint on null flags. -/
def IsConstraint (f : Formula) : Prop := ∃ q c, f = nullConstraint q c

/-! ### Equal tuples -/

/-- Tuples that are equal in an ingredient are those of an equation. -/
theorem Ingredient.exists_equation {ts : List Formula} (h : Ingredient K e (.and ts)) :
    ∃ q ∈ e.equations, q.condition = .and ts := by
  generalize hl : Formula.and ts = l at h
  cases h with
  | equation hq => exact ⟨_, hq, rfl⟩
  | numbered | column | membership | null | test => cases hl

/-- A pair of columns is compared in the condition of an equation only if it is one of its pairs. -/
theorem Equates.mem_columns {q : TupleEquation} (hq : Equates e q) {x y : String} {sx sy : Schema}
    (hx : Clean x) (hy : Clean y) (h : q.condition = columnsEqual x y sx sy) {p : Column × Column}
    (hp : p ∈ sx.columns.zip sy.columns) :
    (p.1.name, p.2.name) ∈ q.columns ∧ q.left = x ∧ q.right = y := by
  rw [hq.compares.condition, columnsEqual, Formula.and.injEq] at h
  have hmem := List.mem_map_of_mem (f := fun p : Column × Column =>
    Formula.eq (.sym (columnSymbol (some sx) x p.1.name))
      (.sym (columnSymbol (some sy) y p.2.name))) hp
  rw [← h] at hmem
  obtain ⟨c, hc, heq⟩ := List.mem_map.mp hmem
  obtain ⟨hleft, hright⟩ := Formula.eq.inj heq
  have hname : ∀ {s s' : Option Schema} {z z' a a' : String}, Clean z → Clean z' →
      Formula.sym (columnSymbol s z a) = .sym (columnSymbol s' z' a') → z = z' ∧ a = a' :=
    fun hz hz' h => (columnName_inj hz.1 hz'.1).mp (congrArg Symbol.name (Formula.sym.inj h))
  obtain ⟨hx, hc₁⟩ := hname hq.left hx hleft
  obtain ⟨hy, hc₂⟩ := hname hq.right hy hright
  exact ⟨hc₁ ▸ hc₂ ▸ hc, hx, hy⟩

/-- The leaves of a constraint: the condition of the equation, and what it implies. -/
theorem mem_leaves_nullConstraint {q : TupleEquation} {c : String × String} {ts : List Formula}
    (hq : q.condition = .and ts) {l : Formula} (h : l ∈ (nullConstraint q c).leaves) :
    l = .and ts ∨ ∃ a b, l = .and [.or a, .or b] := by
  rw [nullConstraint, Formula.implies, hq, Formula.iff] at h
  rcases List.mem_cons.mp h with rfl | h
  · exact .inl rfl
  · exact .inr ⟨_, _, List.mem_singleton.mp h⟩

/-- The flag of a null is in use. -/
theorem Attests.null_mem {x attr : String} (h : Attests K e (.null x attr))
    (htest : ¬K (.test "isnull")) : (x, attr) ∈ e.nulls := by
  generalize hq : Quantity.null x attr = q at h
  cases h with
  | column | count => cases hq
  | null h =>
      cases hq
      exact h
  | test y attr' h =>
      unfold Quantity.ofTest at hq
      split at hq
      · next hname => exact absurd (hname ▸ h) htest
      · cases hq

theorem mem_nulls_of_hasFlag {g : Formula} (hg : g.Over (Denotes K e))
    (htest : ¬K (.test "isnull")) {x attr : String} (hx : Clean x) (hattr : '!' ∉ attr.toList)
    (h : g.HasFlag (x, attr)) : (x, attr) ∈ e.nulls :=
  ((hg _ h).attests (q := .null x attr) ⟨hx, hattr⟩ rfl).null_mem htest

/-! ### Closing a layer -/

/-- What is known of the formulas of a layer, when the encoder went from one state to another: their
flags are in use from then on, and tuples that are equal in them are constrained in every column
with a flag that was in use before or is in one of the formulas, the constraints apart. -/
structure Closes (e : Encoder) (own : List Formula) (e' : Encoder) : Prop where
  nulls : e.nulls ⊆ e'.nulls
  flags : ∀ {x attr}, Clean x → '!' ∉ attr.toList → (∃ g ∈ own, g.HasFlag (x, attr)) →
    (x, attr) ∈ e'.nulls
  columns : ∀ {x y sx sy}, Clean x → Clean y → columnsEqual x y sx sy ∈ Formula.leavesAll own →
    ∀ p ∈ sx.columns.zip sy.columns, '!' ∉ p.1.name.toList ∧ '!' ∉ p.2.name.toList
  covered : ∀ {x y sx sy}, Clean x → Clean y → columnsEqual x y sx sy ∈ Formula.leavesAll own →
    ∀ p ∈ sx.columns.zip sy.columns, ∀ z, z = (x, p.1.name) ∨ z = (y, p.2.name) →
      z ∈ e.nulls ∨ (∃ g ∈ own, ¬IsConstraint g ∧ g.HasFlag z) →
      nullConstraint (equation x y sx sy) (p.1.name, p.2.name) ∈ own

/-- Layers that were closed one after the other. -/
inductive ClosesAll : Encoder → List (List Formula) → Encoder → Prop
  | nil (e : Encoder) : ClosesAll e [] e
  | cons {e e₁ e' : Encoder} {own : List Formula} {rest : List (List Formula)}
      (h : Closes e own e₁) (hrest : ClosesAll e₁ rest e') : ClosesAll e (own :: rest) e'

namespace ClosesAll

variable {before after : List (List Formula)}

theorem append (h : ClosesAll e before e₁) (h' : ClosesAll e₁ after e') :
    ClosesAll e (before ++ after) e' := by
  induction h with
  | nil => exact h'
  | cons h _ ih => exact .cons h (ih h')

theorem exists_of_append (h : ClosesAll e (before ++ after) e') :
    ∃ e₁, ClosesAll e before e₁ ∧ ClosesAll e₁ after e' := by
  induction before generalizing e with
  | nil => exact ⟨e, .nil e, h⟩
  | cons own before ih =>
      cases h with
      | cons h hrest =>
          obtain ⟨e₁, hbefore, hafter⟩ := ih hrest
          exact ⟨e₁, .cons h hbefore, hafter⟩

theorem nulls (h : ClosesAll e before e') : e.nulls ⊆ e'.nulls := by
  induction h with
  | nil => exact List.Subset.refl _
  | cons h _ ih => exact List.Subset.trans h.nulls ih

/-- The flags of closed layers are in use. -/
theorem flags (h : ClosesAll e before e') {x attr : String} (hx : Clean x)
    (hattr : '!' ∉ attr.toList) (hflag : ∃ g ∈ before.flatten, g.HasFlag (x, attr)) :
    (x, attr) ∈ e'.nulls := by
  induction h with
  | nil =>
      obtain ⟨g, hg, -⟩ := hflag
      cases hg
  | cons h hrest ih =>
      obtain ⟨g, hg, hflag⟩ := hflag
      rcases List.mem_append.mp hg with hg | hg
      · exact hrest.nulls (h.flags hx hattr ⟨g, hg, hflag⟩)
      · exact ih ⟨g, hg, hflag⟩

end ClosesAll

section Groundwork

variable {fs nulls : List Formula} {late : Encoder}

/-- Tuples are equal in a layer only if the encoder remembers an equation between them. -/
theorem Groundwork.exists_equation (h : Groundwork K e fs e₁ nulls e') {x y : String}
    {sx sy : Schema} (hx : Clean x) (hy : Clean y)
    (hequal : columnsEqual x y sx sy ∈ Formula.leavesAll (fs ++ nulls ++ late.distinctness))
    {p : Column × Column} (hp : p ∈ sx.columns.zip sy.columns) :
    ∃ q ∈ e₁.equations, q.condition = columnsEqual x y sx sy ∧ (p.1.name, p.2.name) ∈ q.columns ∧
      q.left = x ∧ q.right = y := by
  suffices hequation : ∃ q ∈ e₁.equations, q.condition = columnsEqual x y sx sy by
    obtain ⟨q, hq, hcondition⟩ := hequation
    exact ⟨q, hq, hcondition, (h.equates q hq).mem_columns hx hy hcondition hp⟩
  rw [Formula.leavesAll_eq] at hequal
  obtain ⟨g, hg, hleaf⟩ := List.mem_flatMap.mp hequal
  rcases List.mem_append.mp hg with hg | hg
  · rcases List.mem_append.mp hg with hg | hg
    · exact (h.composed g hg _ hleaf).exists_equation
    · obtain ⟨q, hq, c, hc, rfl, -⟩ := h.of_mem_nulls hg
      have hcondition := (h.equates q hq).compares.condition
      rcases mem_leaves_nullConstraint hcondition hleaf with heq | ⟨a, b, heq⟩
      · exact ⟨q, hq, hcondition.trans heq.symm⟩
      · -- What the constraint implies is about null flags, and compares no columns.
        rw [columnsEqual, Formula.and.injEq] at heq
        have hmem := List.mem_map_of_mem (f := fun p : Column × Column =>
          Formula.eq (.sym (columnSymbol (some sx) x p.1.name))
            (.sym (columnSymbol (some sy) y p.2.name))) hp
        rw [heq] at hmem
        simp at hmem
  · obtain ⟨u, -, rfl⟩ := List.mem_map.mp hg
    simp [Formula.leaves, columnsEqual] at hleaf

/-- A layer is closed with its constraints. -/
theorem Groundwork.closes (h : Groundwork K e fs e₁ nulls e') (hK : ∀ k, K k → k.Sound)
    (htest : ¬K (.test "isnull")) (hlate : late.Tidy) :
    Closes e (fs ++ nulls ++ late.distinctness) e' := by
  constructor
  · exact List.Subset.trans h.advance.nulls h.nulls_subset
  · rintro x attr hx hattr ⟨g, hg, hflag⟩
    refine mem_nulls_of_hasFlag ?_ htest hx hattr hflag
    rcases List.mem_append.mp hg with hg | hg
    · exact h.over_all hK g hg
    · exact over_distinctness hlate g hg
  · intro x y sx sy hx hy hequal p hp
    obtain ⟨q, hq, -, hc, -⟩ := h.exists_equation hx hy hequal hp
    exact (h.equates q hq).columns h.tidy _ hc
  · intro x y sx sy hx hy hequal p hp z hz hflag
    obtain ⟨q, hq, hcondition, hc, rfl, rfl⟩ := h.exists_equation hx hy hequal hp
    obtain ⟨hp₁, hp₂⟩ := (h.equates q hq).columns h.tidy _ hc
    have hz' : Clean z.1 ∧ '!' ∉ z.2.toList := by
      rcases hz with rfl | rfl
      · exact ⟨hx, hp₁⟩
      · exact ⟨hy, hp₂⟩
    have hnull : z ∈ e₁.nulls := by
      rcases hflag with hmem | ⟨g, hg, hconstraint, hflag⟩
      · exact h.advance.nulls hmem
      · refine mem_nulls_of_hasFlag (K := K) ?_ htest hz'.1 hz'.2 hflag
        rcases List.mem_append.mp hg with hg | hg
        · rcases List.mem_append.mp hg with hg | hg
          · exact h.over_rows hK g hg
          · obtain ⟨q', -, c', -, hg, -⟩ := h.of_mem_nulls hg
            exact absurd ⟨q', c', hg⟩ hconstraint
        · exact over_distinctness hlate g hg
    have hnulls : (q.left, p.1.name) ∈ e₁.nulls ∨ (q.right, p.2.name) ∈ e₁.nulls := by
      rcases hz with rfl | rfl
      · exact .inl hnull
      · exact .inr hnull
    have hmem := nullConstraint_mem_congruence hq hc hnulls
    have hsame : nullConstraint (equation q.left q.right sx sy) (p.1.name, p.2.name) =
        nullConstraint q (p.1.name, p.2.name) := by
      rw [nullConstraint, nullConstraint, hcondition]
      rfl
    rw [h.congruence] at hmem
    rw [hsame]
    exact List.mem_append_left _ (List.mem_append_right _ hmem)

end Groundwork

/-! ### The layers of a pair -/

theorem flat_distinctness (e : Encoder) : ∀ g ∈ e.distinctness, g.Flat := by
  intro g hg
  obtain ⟨p, -, rfl⟩ := List.mem_map.mp hg
  exact ⟨rfl, rfl⟩

theorem Groundwork.flat_nulls {fs nulls : List Formula} (h : Groundwork K e fs e₁ nulls e') :
    ∀ g ∈ nulls, g.Flat := by
  intro g hg
  obtain ⟨q, -, c, -, rfl, -⟩ := h.of_mem_nulls hg
  exact ⟨rfl, rfl⟩

theorem shows_plain {t : Term} (h : ∀ k ∈ t.elements, k.Plain) : Shows Element.Plain t :=
  shows_of_elements (fun n => ⟨Clean.append (by decide) (clean_toString n), nofun⟩) h

/-- The layers below are closed one after the other. -/
theorem closesAll_rule (m : Matching) : LayerRule m
    (fun _ _ e₀ e scope => e₀.AtRest ∧ e.AtRest ∧ ∀ p ∈ scope, ∀ k ∈ p.2.body.elements, k.Plain)
    (fun _ _ _ e fs e' => (e.AtRest → e'.AtRest) ∧ ClosesAll e (Formula.layersAll fs) e' ∧
      ∀ f ∈ fs, f.isStar = true) where
  zero _ := ⟨id, .nil _, by simp⟩
  nil _ := ⟨id, .nil _, by simp⟩
  cons _ h h' := by
    rw [Formula.layersAll_singleton] at h
    exact ⟨h'.1 ∘ h.1, h.2.1.append h'.2.1, List.forall_mem_cons.mpr
      ⟨h.2.2 _ (List.mem_singleton_self _), h'.2.2⟩⟩
  perm _ h := h
  mono hsub h := ⟨h.1, h.2.1, fun p hp => h.2.2 p (hsub.subset hp)⟩
  keep h hscope := ⟨hscope.1, h.1 hscope.2.1, hscope.2.2⟩
  resolve := by
    intro fuel depth e₀ e st f e' next hnext _ hst ⟨h₀, he, hscope⟩ h
    obtain ⟨tuple, e₁, henter, hstar⟩ := returns_bind.mp h
    obtain ⟨rows, below, nulls, stars, e₂, e₃, hrows, hnulls, hstars, rfl⟩ := exists_of_star hstar
    have hrest₁ := atRest_enter hst h₀.tidy he
    have hclean := clean_enter st e
    have hflags := nulls_enter st e
    rw [returns_step.mp henter] at hrest₁ hclean hflags
    have hmembers : ∀ mem ∈ st.members, ∀ k ∈ (mem.sum.rest mem.matched tuple).elements,
        k.Plain := by
      intro mem hmem k hk
      have hbody := hscope _ (List.mem_map_of_mem hmem)
      rcases OpenSum.mem_elements_rest hk with ⟨hk, -⟩ | ⟨v, -, k', hk', rfl⟩
      · exact hbody k hk
      · exact (hbody k' hk').renamed hclean
    have hground := groundwork_of_starRows hrest₁ (fun x hx => hx.1)
      (fun mem hmem => shows_plain (hmembers mem hmem)) hrows hnulls
    have hbelow : ∀ p ∈ below, ∀ k ∈ p.2.body.elements, k.Plain := by
      intro p hp k hk
      have hmem := starRows_below hrows ▸ List.mem_map_of_mem (f := Prod.snd) hp
      obtain ⟨mem, hmem, hpeel⟩ := List.mem_flatMap.mp hmem
      exact hmembers mem hmem k (Term.elements_of_mem_summations (OpenSum.mem_ofTerm hpeel) hk)
    obtain ⟨hkeep, hinner, hall⟩ :=
      hnext below e₃ stars e' ⟨hground.atRest, hground.atRest, hbelow⟩ hstars
    have hend := hkeep hground.atRest
    have hflat : ∀ g ∈ rows.map Prod.snd ++ nulls, g.Flat := by
      refine List.forall_mem_append.mpr ⟨List.forall_mem_map.mpr fun r hr => ?_, hground.flat_nulls⟩
      obtain ⟨g, hg⟩ := starRows_eq hrows r hr
      exact hg ▸ ⟨rfl, rfl⟩
    have hcloses := hground.closes (fun _ hk => hk.1) (fun hk => hk.2 rfl) hend.tidy
    refine ⟨fun _ => hend, ?_, List.forall_mem_singleton.mpr rfl⟩
    rw [Formula.layersAll_singleton, Formula.layers,
      Formula.layers_and hflat hall (flat_distinctness e')]
    exact .cons { hcloses with
      nulls := hflags ▸ hcloses.nulls
      covered := hflags ▸ hcloses.covered } hinner

/-- The layers of the formula that two terms differ are closed one after the other. -/
theorem closesAll_difference {schemas : SchemaMap} {m : Matching} {budget : Budget}
    {left right : Term} {f : Formula}
    (hcolumns : ∀ x S, schemas.get? x = some S → ∀ col ∈ S.columns, '!' ∉ col.name.toList)
    (helements : ∀ k ∈ left.elements ++ right.elements, k.Plain)
    (h : Returns (difference m budget left right) (.ofSchemas schemas) f e) :
    ∃ e', ClosesAll (.ofSchemas schemas) f.layers e' := by
  obtain ⟨aligned, l, lscope, r, rscope, a, b, nulls, stars, e₁, e₂, e₃, e₄, e₅, -, hleft, hright,
    ha, hb, hnulls, hstars, rfl⟩ := exists_of_difference h
  rw [List.forall_mem_append] at helements
  have hrest : (ofSchemas schemas).AtRest := ⟨tidy_ofSchemas hcolumns, rfl⟩
  have hground := groundwork_of_terms hrest (fun x hx => hx.1)
    ⟨shows_plain helements.1, shows_plain helements.2⟩ hleft hright ha hb hnulls
  have hscope : ∀ p ∈ lscope ++ rscope, ∀ k ∈ p.2.body.elements, k.Plain := by
    have hside : ∀ {t t' : Term} {side : Side} {scope : List Counted} {e e' : Encoder},
        (∀ k ∈ t.elements, k.Plain) → Returns (stripTerm t side) e (t', scope) e' →
        ∀ p ∈ scope, ∀ k ∈ p.2.body.elements, k.Plain := by
      intro t t' side scope e e' ht hstrip p hp k hk
      have hmem := (stripTerm_ok hstrip).sums ▸ List.mem_map_of_mem (f := Prod.snd) hp
      exact ht k (Term.elements_of_mem_summations (OpenSum.mem_ofTerm hmem) hk)
    exact List.forall_mem_append.mpr ⟨hside helements.1 hleft, hside helements.2 hright⟩
  obtain ⟨hkeep, hinner, hall⟩ :=
    (closesAll_rule aligned).layer _ ⟨hground.atRest, hground.atRest, hscope⟩ hstars
  have hflat : ∀ g ∈ Formula.not (.eq a b) :: nulls, g.Flat :=
    List.forall_mem_cons.mpr ⟨⟨rfl, rfl⟩, hground.flat_nulls⟩
  refine ⟨e, ?_⟩
  rw [Formula.layers_and hflat hall (flat_distinctness e)]
  exact .cons (hground.closes (fun _ hk => hk.1) (fun hk => hk.2 rfl)
    (hkeep hground.atRest).tidy) hinner

/-- If two tuples are equal in a layer of the formula that two terms differ, and the null flag of a
column of one of them is in a formula of the layer that is no constraint, or in a layer that was
closed before, then the layer has the constraint that the flags of the two columns agree. -/
theorem nullConstraint_mem_of_layers {schemas : SchemaMap} {m : Matching} {budget : Budget}
    {left right : Term} {f : Formula}
    (hcolumns : ∀ x S, schemas.get? x = some S → ∀ col ∈ S.columns, '!' ∉ col.name.toList)
    (helements : ∀ k ∈ left.elements ++ right.elements, k.Plain)
    (h : Returns (difference m budget left right) (.ofSchemas schemas) f e)
    {before after : List (List Formula)} {own : List Formula}
    (hlayers : f.layers = before ++ own :: after) {x y : String} {sx sy : Schema} (hx : Clean x)
    (hy : Clean y) (hequal : columnsEqual x y sx sy ∈ Formula.leavesAll own)
    {p : Column × Column} (hp : p ∈ sx.columns.zip sy.columns) {z : String × String}
    (hz : z = (x, p.1.name) ∨ z = (y, p.2.name))
    (hflag : (∃ g ∈ before.flatten, g.HasFlag z) ∨ ∃ g ∈ own, ¬IsConstraint g ∧ g.HasFlag z) :
    nullConstraint (equation x y sx sy) (p.1.name, p.2.name) ∈ own := by
  obtain ⟨e', hall⟩ := closesAll_difference hcolumns helements h
  rw [hlayers] at hall
  obtain ⟨e₁, hbefore, hfrom⟩ := hall.exists_of_append
  cases hfrom with
  | cons hown _ =>
      obtain ⟨hp₁, hp₂⟩ := hown.columns hx hy hequal p hp
      have hz' : Clean z.1 ∧ '!' ∉ z.2.toList := by
        rcases hz with rfl | rfl
        · exact ⟨hx, hp₁⟩
        · exact ⟨hy, hp₂⟩
      exact hown.covered hx hy hequal p hp z hz
        (hflag.imp_left fun hflag => hbefore.flags hz'.1 hz'.2 hflag)

end Encoder

/-! ### Flags that come into use too late -/

/-- The rows of a table that are equal to the output. -/
def Term.equalToOutput : Term :=
  .sumOver ["x#0"] (.mul [.table "r" (.base "x#0"), .comparison .eq "x#0" "out"])

/-- The rows of a table, if the output is null. -/
def Term.ifOutputNull : Term :=
  .sumOver ["y#1"] (.mul [.table "r" (.base "y#1"), .pred .isNull [.attr "a" "out"]])

/-- Three tuples are equal, and the last is null. -/
def Term.chained : Term :=
  .sumOver ["x#0", "y#1", "w#2"] (.mul [.comparison .eq "x#0" "y#1", .comparison .eq "y#1" "w#2",
    .pred .isNull [.attr "a" "w#2"]])

namespace Encoder

/-- The count of a row that is equal to the output. -/
def equalToOutputRow (v : String) : Formula :=
  .eq (.sym ⟨v, .int⟩) (.mul [.sym ⟨"r!x#0", .nat⟩,
    .indicator (columnsEqual "x#0" "out" .single .single)])

/-- The count of a row, if the output is null. -/
def ifOutputNullRow (v : String) : Formula :=
  .eq (.sym ⟨v, .int⟩) (.mul [.sym ⟨"r!y#1", .nat⟩,
    .ite (isZero ⟨nullName "out" "a", .nat⟩) .zero .one])

/-- The count of three equal rows. -/
def chainedRow (v : String) : Formula :=
  .eq (.sym ⟨v, .int⟩) (.mul [.indicator (columnsEqual "x#0" "y#1" .single .single),
    .indicator (columnsEqual "y#1" "w#2" .single .single),
    .ite (isZero ⟨nullName "w#2" "a", .nat⟩) .zero .one])

/-- The formula that the sums of two counts differ. -/
def twoStars (row row' : Formula) (nulls : List Formula) : Formula :=
  .and [.not (.eq (.sym ⟨"#u0", .int⟩) (.sym ⟨"#u1", .int⟩)),
    .star [⟨"#u0", .int⟩] [⟨"#v2", .int⟩] [.left] (.and [row]),
    .star [⟨"#u1", .int⟩] [⟨"#v3", .int⟩] [.right] (.and (row' :: nulls))]

/-- The flag is in use in the first star, and the tuples are equal in the second. -/
theorem nullConstraint_mem_of_layers_earlierStar : ∃ f e before own after,
    Returns (difference ⟨[]⟩ .unlimited .ifOutputNull .equalToOutput) (.ofSchemas .uniform) f e ∧
    f.layers = before ++ own :: after ∧
    columnsEqual "x#0" "out" .single .single ∈ Formula.leavesAll own ∧
    (∃ g ∈ before.flatten, g.HasFlag ("out", "a")) ∧
    nullConstraint (equation "x#0" "out" .single .single) ("a", "a") ∈ own := by
  have hcolumns : ∀ x S, SchemaMap.uniform.get? x = some S →
      ∀ col ∈ S.columns, '!' ∉ col.name.toList := by
    have hall : ∀ entry ∈ SchemaMap.uniform.entries, ∀ col ∈ entry.2.columns,
        '!' ∉ col.name.toList := by
      decide +kernel
    exact fun x S hS => hall _ (NameMap.mem_of_get? hS)
  have helements : ∀ k ∈ Term.ifOutputNull.elements ++ Term.equalToOutput.elements, k.Plain := by
    decide +kernel
  obtain ⟨_, e, hrun, rfl⟩ := exists_returns
    (x := difference ⟨[]⟩ .unlimited .ifOutputNull .equalToOutput) (s := .ofSchemas .uniform)
    (P := (· = twoStars (ifOutputNullRow "#v2") (equalToOutputRow "#v3")
      [nullConstraint (equation "x#0" "out" .single .single) ("a", "a")])) (by decide +kernel)
  have hequal : columnsEqual "x#0" "out" .single .single ∈ Formula.leavesAll
      [equalToOutputRow "#v3",
        nullConstraint (equation "x#0" "out" .single .single) ("a", "a")] := by
    decide +kernel
  have hflag : ∃ g ∈ [[Formula.not (.eq (.sym ⟨"#u0", .int⟩) (.sym ⟨"#u1", .int⟩))],
      [ifOutputNullRow "#v2"]].flatten, g.HasFlag ("out", "a") := by
    decide +kernel
  have hpair : ((⟨"a", .integer⟩, ⟨"a", .integer⟩) : Column × Column) ∈
      Schema.single.columns.zip Schema.single.columns := by
    decide
  exact ⟨_, e, _, _, [], hrun, rfl, hequal, hflag, nullConstraint_mem_of_layers hcolumns helements
    hrun rfl (by decide) (by decide) hequal hpair (.inr rfl) (.inl hflag)⟩

/-- If the flag comes into use in a star behind the one in which the tuples are equal, then there is
no constraint.  Nor is there one if it comes into use by a constraint on tuples that are compared
later in the same star. -/
theorem difference_lateFlag :
    (∃ f e before own after,
      Returns (difference ⟨[]⟩ .unlimited .equalToOutput .ifOutputNull) (.ofSchemas .uniform) f e ∧
      f.layers = before ++ own :: after ∧
      columnsEqual "x#0" "out" .single .single ∈ Formula.leavesAll own ∧
      (∃ g ∈ after.flatten, g.HasFlag ("out", "a")) ∧
      nullConstraint (equation "x#0" "out" .single .single) ("a", "a") ∉ own) ∧
    ∃ f e before own after,
      Returns (difference ⟨[]⟩ .unlimited .chained (.const .zero)) (.ofSchemas .uniform) f e ∧
      f.layers = before ++ own :: after ∧
      columnsEqual "x#0" "y#1" .single .single ∈ Formula.leavesAll own ∧
      (∃ g ∈ own, g.HasFlag ("y#1", "a")) ∧
      nullConstraint (equation "x#0" "y#1" .single .single) ("a", "a") ∉ own := by
  constructor
  · obtain ⟨_, e, hrun, rfl⟩ := exists_returns
      (x := difference ⟨[]⟩ .unlimited .equalToOutput .ifOutputNull) (s := .ofSchemas .uniform)
      (P := (· = twoStars (equalToOutputRow "#v2") (ifOutputNullRow "#v3") [])) (by decide +kernel)
    exact ⟨_, e, [_], [equalToOutputRow "#v2"], [[ifOutputNullRow "#v3"]], hrun, rfl,
      by decide +kernel, by decide +kernel, by decide +kernel⟩
  · obtain ⟨_, e, hrun, rfl⟩ := exists_returns
      (x := difference ⟨[]⟩ .unlimited .chained (.const .zero)) (s := .ofSchemas .uniform)
      (P := (· = .and [.not (.eq (.sym ⟨"#u0", .int⟩) .zero),
        .star [⟨"#u0", .int⟩] [⟨"#v1", .int⟩] [.left] (.and [chainedRow "#v1",
          nullConstraint (equation "y#1" "w#2" .single .single) ("a", "a")])])) (by decide +kernel)
    exact ⟨_, e, [_], [chainedRow "#v1", nullConstraint (equation "y#1" "w#2" .single .single)
      ("a", "a")], [], hrun, rfl, by decide +kernel, by decide +kernel, by decide +kernel⟩

end Encoder

end BagEquiv
