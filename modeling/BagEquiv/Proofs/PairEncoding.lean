/-
**The formula that two terms differ.**

The formula of a pair of terms says that the formulas of the terms, with placeholders for their
summations, have different values, and it has the stars of the summations.  In a world in which the
terms stand for different numbers it is satisfied: the symbols of the tuples show the world, and the
placeholders have the numbers of their summations.

Main definition:

* `Encoder.Contrasted` — **what is known of the formula that two terms differ**.

Main result:

* `Encoder.difference_ok` — the formula before simplification.
-/

import BagEquiv.Proofs.LayerEncoding

set_option autoImplicit false

namespace BagEquiv

variable {g ρ : Interpretation}

namespace Encoder

variable {e e₁ e₂ e₃ e₄ e' : Encoder} {left right : Term} {scope : List Counted} {a b f : Formula}

/-! ### The formulas of two terms -/

/-- What is known of the formulas of two terms whose summations were taken out. -/
structure Posed (left right : Term) (scope : List Counted) (a b : Formula) (e e' : Encoder) :
    Prop where
  growth : Growth (Involved [left, right] scope) e e'
  sums : scope.map Prod.snd = OpenSum.scope left right
  placed : Placed e'.next scope
  built : a.Built (visible (Involved [left, right] scope)) false .value ∧
    b.Built (visible (Involved [left, right] scope)) false .value
  value : ∀ {L R K w ρ}, e.Scene (Mentioned [left, right]) L w ρ → e'.Spells L ρ →
    (∀ p ∈ scope, LessDefined (p.2.number w) (ρ p.1)) →
    LessDefined (left.number w) (a.value R K ρ) ∧ LessDefined (right.number w) (b.value R K ρ)

theorem posed_of_returns {l r : Term} {lscope rscope : List Counted} (ht : e.Tidy)
    (hready : Ready e.next [left, right])
    (hleft : Returns (stripTerm left .left) e (l, lscope) e₁)
    (hright : Returns (stripTerm right .right) e₁ (r, rscope) e₂)
    (ha : Returns (encode l) e₂ a e₃) (hb : Returns (encode r) e₃ b e₄) :
    Posed left right (lscope ++ rscope) a b e e₄ := by
  have hl := stripTerm_ok hleft
  have hr := stripTerm_ok hright
  have ht₂ : e₂.Tidy := hr.growth.tidy (hl.growth.tidy ht)
  have hfree : ∀ t ∈ [left, right], ∀ x, t.mentions x = true → Settled e.next x :=
    fun t ht x hx => hready.free x ⟨t, ht, hx⟩
  have hmemₗ : left ∈ [left, right] := List.mem_cons_self
  have hmemᵣ : right ∈ [left, right] := List.mem_cons_of_mem _ List.mem_cons_self
  obtain ⟨haeffect, habuilt, havalue⟩ := hl.encode_ok ht₂
    (fun p hp => hr.kept _ (hl.counts p hp)) (hfree left hmemₗ) (hready.regular _ hmemₗ) ha
  obtain ⟨hbeffect, hbbuilt, hbvalue⟩ := hr.encode_ok (haeffect.tidy ht₂)
    (fun p hp => haeffect.counts ▸ hr.counts p hp) (hfree right hmemᵣ)
    (hready.regular _ hmemᵣ) hb
  have hnamesₗ : ∀ x, Names left lscope x → Involved [left, right] (lscope ++ rscope) x := by
    rintro x (hx | ⟨p, hp, rfl⟩)
    · exact .inl ⟨left, hmemₗ, hx⟩
    · exact .inr ⟨p, List.mem_append_left _ hp, rfl⟩
  have hnamesᵣ : ∀ x, Names right rscope x → Involved [left, right] (lscope ++ rscope) x := by
    rintro x (hx | ⟨p, hp, rfl⟩)
    · exact .inl ⟨right, hmemᵣ, hx⟩
    · exact .inr ⟨p, List.mem_append_right _ hp, rfl⟩
  have hnext₁ : e.next ≤ e₁.next := hl.growth.next
  have hnext₂ : e₁.next ≤ e₂.next := hr.growth.next
  have hnext₃ : e₂.next ≤ e₃.next := haeffect.next
  have hnext₄ : e₃.next ≤ e₄.next := hbeffect.next
  have hschemas : e₂.schemas = e.schemas := hr.growth.schemas.trans hl.growth.schemas
  constructor
  · refine ((hl.growth.trans hr.growth).mono fun x hx => hx.elim).trans ?_
    exact (haeffect.toGrowth.mono hnamesₗ).trans (hbeffect.toGrowth.mono hnamesᵣ)
  · rw [List.map_append, hl.sums, hr.sums]
    rfl
  · refine ⟨List.forall_mem_append.mpr ⟨fun p hp => ?_, fun p hp => ?_⟩, ?_⟩
    · obtain ⟨k, _, hk, heq⟩ := hl.symbols p hp
      exact ⟨k, by omega, heq⟩
    · obtain ⟨k, _, hk, heq⟩ := hr.symbols p hp
      exact ⟨k, by omega, heq⟩
    · rw [List.map_append, List.nodup_append]
      refine ⟨hl.nodup, hr.nodup, fun s hs u hu => ?_⟩
      obtain ⟨p, hp, rfl⟩ := List.mem_map.mp hs
      obtain ⟨q, hq, rfl⟩ := List.mem_map.mp hu
      obtain ⟨j, _, hj, hp⟩ := hl.symbols p hp
      obtain ⟨k, hk, _, hq⟩ := hr.symbols q hq
      rw [hp, hq]
      exact ne_of_number_lt Symbol.unnumbered_u (by omega)
  · exact ⟨habuilt.mono (visible_mono hnamesₗ) id, hbbuilt.mono (visible_mono hnamesᵣ) id⟩
  · intro L R K w ρ hw hspells hscope
    rw [List.forall_mem_append] at hscope
    have hscene : ∀ t ∈ [left, right], e₂.Scene (fun x => t.mentions x = true) L w ρ :=
      fun t ht => ⟨hw.depicted, hw.furnished, hw.plain, fun x hx => by
        rw [hschemas, hw.schemas x (hx.imp_left fun hx => ⟨t, ht, hx⟩)]⟩
    exact ⟨havalue (hscene left hmemₗ) (hspells.of_growth hbeffect.toGrowth) hscope.1,
      hbvalue ((hscene right hmemᵣ).of_schemas haeffect.schemas) hspells hscope.2⟩

theorem Posed.terms_eq (h : Posed left right scope a b e e') :
    terms scope = ([(left, Side.left), (right, Side.right)].flatMap fun t =>
      OpenSum.ofTerm t.1 t.2).map OpenSum.term := by
  have hterms : terms scope = (scope.map Prod.snd).map OpenSum.term := by
    rw [terms, List.map_map]
    rfl
  rw [hterms, h.sums, OpenSum.scope, List.flatMap_cons, List.flatMap_singleton]

theorem Posed.ready {n : ℕ} (h : Posed left right scope a b e e') (hready : Ready n [left, right]) :
    Ready n (terms scope) := by
  rw [h.terms_eq]
  have hready : Ready n ([(left, Side.left), (right, Side.right)].map Prod.fst) := hready
  exact hready.summations

theorem Posed.flatMap_boundVars (h : Posed left right scope a b e e') :
    (terms scope).flatMap Term.boundVars = [left, right].flatMap Term.boundVars := by
  rw [h.terms_eq, flatMap_boundVars_summations]
  rfl

theorem Posed.mentioned (h : Posed left right scope a b e e') {x : String}
    (hx : Mentioned (terms scope) x) : Mentioned [left, right] x := by
  obtain ⟨t, ht, hx⟩ := hx
  rw [h.terms_eq] at ht
  obtain ⟨s, hs, rfl⟩ := List.mem_map.mp ht
  obtain ⟨⟨t, side⟩, ht, hs⟩ := List.mem_flatMap.mp hs
  refine ⟨t, ?_, Term.mentions_of_mem_summations (OpenSum.mem_ofTerm hs) hx⟩
  exact List.mem_map_of_mem (f := Prod.fst) ht

/-! ### Satisfying the formula -/

/-- What is known of the formula that two terms differ. -/
structure Contrasted (left right : Term) (e : Encoder) (f : Formula) (e' : Encoder) : Prop where
  tidy : e'.Tidy
  built : f.Built Set.univ true .truth
  conjunctive : f.Conjunctive
  sound : ∀ (apply overZero) {L : Legend} {w ρ₀}, e.Scene (Mentioned [left, right]) L w ρ₀ →
    e'.Spells L ρ₀ → (∀ s, ρ₀ s ∈ L.admits s.type) → w.Listed → w.Stocked L [left, right] →
    ∀ {p q : ℚ}, left.number w = p → right.number w = q → p ≠ q →
    ∃ ρ : Interpretation, (∀ s, ρ s ∈ L.admits s.type) ∧
      f.Holds (.lexical L.admits apply overZero) {s | s ∈ f.surface} ρ

open Classical in
/-- Values for placeholders, and for all other symbols. -/
noncomputable def placing (scope : List Counted) (g ρ : Interpretation) : Interpretation := fun s =>
  if ∃ p ∈ scope, p.1 = s then g s else ρ s

theorem placing_of_mem {p : Counted} (hp : p ∈ scope) :
    placing scope g ρ p.1 = g p.1 := if_pos ⟨p, hp, rfl⟩

theorem placing_unmarked {n : ℕ} (h : Placed n scope) {s : Symbol} (hs : ∀ k, ¬s.IsMark k) :
    placing scope g ρ s = ρ s := by
  refine if_neg ?_
  rintro ⟨p, hp, rfl⟩
  obtain ⟨k, _, hk⟩ := h.symbols p hp
  exact hs k (.inl (congrArg Symbol.name hk))

theorem admits_placing {n : ℕ} (h : Placed n scope) {L : Legend} (hρ : ∀ s, ρ s ∈ L.admits s.type)
    (s : Symbol) : placing scope g ρ s ∈ L.admits s.type := by
  unfold placing
  split
  · next hs =>
      obtain ⟨p, hp, rfl⟩ := hs
      obtain ⟨k, _, hk⟩ := h.symbols p hp
      rw [hk]
      exact Set.mem_univ _
  · exact hρ s

theorem depicted_placing {n : ℕ} (h : Placed n scope) {L : Legend} {w : World}
    (hw : w.Depicted L ρ) : w.Depicted L (placing scope g ρ) := by
  intro x hx s q hshows
  rw [placing_unmarked h, hw x hx s q hshows]
  intro k hk
  cases hk.owner?.symm.trans (hshows.owner? hx)

theorem spells_placing {n : ℕ} (h : Placed n scope) {L : Legend} (ht : e.Tidy) (hρ : e.Spells L ρ) :
    e.Spells L (placing scope g ρ) := fun t v hv => by
  rw [placing_unmarked h (ht.global_of_literal hv).unmarked, hρ t v hv]

/-- The formula that two terms differ, from its parts. -/
theorem contrasted_of_posed {nulls stars : List Formula} (ht : e.Tidy)
    (hready : Ready e.next [left, right]) (hposed : Posed left right scope a b e e₁)
    (hrelated : Related (Involved [left, right] scope) { e₁ with equations := [] } nulls e₂)
    (hlayered : Layered scope e₂ stars e₃) :
    Contrasted left right e
      (.and (.not (.eq a b) :: nulls ++ stars ++ e₃.distinctness)) e₃ := by
  have hsymbols := hposed.placed.symbols
  have ht₁ : ({ e₁ with equations := [] } : Encoder).Tidy :=
    (later_equations e₁ []).tidy (hposed.growth.tidy ht)
  have ht₃ : e₃.Tidy := hlayered.later.tidy (hrelated.effect.tidy ht₁)
  have hlater : Later e e₂ :=
    hposed.growth.later.trans ((later_equations e₁ []).trans hrelated.effect.toGrowth.later)
  have hplaceholder : {s | ∃ p ∈ scope, p.1 = s} ⊆ visible (Involved [left, right] scope) := by
    rintro s ⟨p, hp, rfl⟩
    obtain ⟨k, _, hk⟩ := hsymbols p hp
    exact .inr ⟨p.1.name, .inr ⟨p, hp, rfl⟩, .inr (by rw [hk])⟩
  have hbuilt : (Formula.and (.not (.eq a b) :: nulls ++ stars ++ e₃.distinctness)).Built
      (visible (Involved [left, right] scope)) true .truth := by
    simp only [Formula.Built, Formula.allBuilt_iff, List.cons_append, List.forall_mem_cons,
      List.forall_mem_append, true_and]
    refine ⟨⟨hposed.built.1.mono subset_rfl (by simp), hposed.built.2.mono subset_rfl (by simp)⟩,
      ⟨fun f hf => ?_, fun f hf => ?_⟩, fun f hf => ?_⟩
    · exact (hrelated.built ht₁ f hf).mono subset_rfl (by simp)
    · exact (hlayered.built f hf).mono hplaceholder id
    · exact ((distinctness_ok hf).1 ht₃).mono subset_rfl (by simp)
  refine ⟨ht₃, hbuilt.mono (Set.subset_univ _) id, .and ?_, ?_⟩
  · simp only [List.cons_append, List.forall_mem_cons, List.forall_mem_append]
    refine ⟨.starFree ?_, ⟨fun f hf => ?_, hlayered.conjunctive⟩, fun f hf => ?_⟩
    · simp [Formula.hasStar, hposed.built.1.hasStar_eq, hposed.built.2.hasStar_eq]
    · exact .starFree (hrelated.built ht₁ f hf).hasStar_eq
    · exact .starFree
        ((distinctness_ok (M := Involved [left, right] scope) hf).1 ht₃).hasStar_eq
  intro apply overZero L w ρ₀ hw hspells hadmits hlisted hstocked p q hp hq hne
  have hstocked' : w.Stocked L (terms scope) := by
    rw [World.Stocked, hposed.flatMap_boundVars]
    exact hstocked
  obtain ⟨g, hg, hsolves⟩ := hlayered.sound apply overZero
    (hw.later hlater (fun x hx => hposed.mentioned hx)
      fun x hx => hready.free x (hposed.mentioned hx)) hspells hadmits hlisted hstocked'
  have hdepicted := depicted_placing (g := g) hposed.placed hw.depicted
  have hρspells := spells_placing (g := g) hposed.placed ht₃ hspells
  have hscene : e.Scene (Mentioned [left, right]) L w (placing scope g ρ₀) :=
    ⟨hdepicted, hw.furnished, hw.plain, hw.schemas⟩
  have hspells₁ : e₁.Spells L (placing scope g ρ₀) :=
    ((hρspells.of_later hlayered.later).of_later hrelated.effect.toGrowth.later).of_later
      (later_equations e₁ [])
  obtain ⟨hleft, hright⟩ := hposed.value (R := .lexical L.admits apply overZero)
    (K := {s | s ∈ (Formula.and (.not (.eq a b) :: nulls ++ stars ++ e₃.distinctness)).surface})
    hscene hspells₁ fun p hp => by
      rw [placing_of_mem hp]
      exact hg p hp
  refine ⟨placing scope g ρ₀, admits_placing hposed.placed hadmits, ?_⟩
  simp only [Formula.holds_and, List.cons_append, List.forall_mem_cons, List.forall_mem_append]
  refine ⟨?_, ⟨fun f hf => ?_, fun f hf => ?_⟩, fun f hf => ?_⟩
  · rw [Formula.holds_not, Formula.holds_eq]
    intro heq
    refine hne (WithTop.coe_inj.mp ?_)
    rw [← hleft.eq_of_coe hp, ← hright.eq_of_coe hq]
    exact congrArg _ heq
  · refine hrelated.holds ⟨hdepicted, fun _ _ _ hS => hw.furnished.row hS, fun x hx => ?_⟩ f hf
    change e₁.schemas.get? x = w.schemas x
    rw [hposed.growth.schemas]
    refine hw.schemas x (hx.imp_right ?_)
    rintro ⟨p, hp, rfl⟩ j hj
    obtain ⟨k, _, hk⟩ := hsymbols p hp
    rw [hk] at hj
    exact absurd (Symbol.unnumbered_u.append_inj unnumbered_common hj).1 (by decide)
  · have hnames : {x | x ∈ boundNames (terms scope)} = {x | x ∈ boundNames [left, right]} := by
      rw [boundNames, hposed.flatMap_boundVars]
      rfl
    refine hsolves f hf ?_ (admits_placing hposed.placed hadmits)
      (fun s hs => placing_unmarked hposed.placed hs) ?_
    · rw [hnames]
      intro s hs
      exact clear_visible hready hsymbols hlater.next
        (le_trans (later_equations e₁ []).next hrelated.effect.next) s
        ((Formula.built_iff_surface.mp hbuilt).2 s hs)
    · rintro s ⟨p, hp, rfl⟩
      exact placing_of_mem hp
  · exact (distinctness_ok (M := Involved [left, right] scope) hf).2 hρspells

/-- The parts of a run for two terms, in their order. -/
theorem exists_of_difference {matching : Matching} {budget : Budget}
    (h : Returns (difference matching budget left right) e f e') :
    ∃ aligned l lscope r rscope a b nulls stars e₁ e₂ e₃ e₄ e₅,
      matching.aligned left right = .ok aligned ∧
      Returns (stripTerm left .left) e (l, lscope) e₁ ∧
      Returns (stripTerm right .right) e₁ (r, rscope) e₂ ∧
      Returns (encode l) e₂ a e₃ ∧ Returns (encode r) e₃ b e₄ ∧
      Returns (step congruence) e₄ nulls e₅ ∧
      Returns (layer aligned budget (left.binderCount + right.binderCount) 0 (lscope ++ rscope)) e₅
        stars e' ∧
      f = .and (.not (.eq a b) :: nulls ++ stars ++ e'.distinctness) := by
  obtain ⟨_, e', hpoll, h₁⟩ := returns_bind.mp h
  obtain rfl := returns_poll hpoll
  obtain ⟨aligned, e', hattempt, h₂⟩ := returns_bind.mp h₁
  obtain ⟨haligned, rfl⟩ := returns_attempt.mp hattempt
  obtain ⟨⟨l, lscope⟩, e₁, hleft, h₃⟩ := returns_bind.mp h₂
  obtain ⟨⟨r, rscope⟩, e₂, hright, h₄⟩ := returns_bind.mp h₃
  obtain ⟨a, e₃, ha, h₅⟩ := returns_bind.mp h₄
  obtain ⟨b, e₄, hb, h₆⟩ := returns_bind.mp h₅
  obtain ⟨nulls, e₅, hnulls, h₇⟩ := returns_bind.mp h₆
  obtain ⟨stars, e₆, hstars, h₈⟩ := returns_bind.mp h₇
  obtain ⟨_, e₇, hget, h₉⟩ := returns_bind.mp h₈
  obtain ⟨rfl, rfl⟩ := returns_get.mp hget
  obtain ⟨rfl, rfl⟩ := returns_pure.mp h₉
  exact ⟨aligned, l, lscope, r, rscope, a, b, nulls, stars, e₁, e₂, e₃, e₄, e₅, haligned, hleft,
    hright, ha, hb, hnulls, hstars, rfl⟩

/-- The formula that two terms differ, before simplification. -/
theorem difference_ok {matching : Matching} {budget : Budget} (ht : e.Tidy)
    (he : e.equations = []) (hready : Ready e.next [left, right])
    (h : Returns (difference matching budget left right) e f e') :
    Contrasted left right e f e' := by
  obtain ⟨aligned, l, lscope, r, rscope, a, b, nulls, stars, e₁, e₂, e₃, e₄, e₅, -, hleft, hright,
    ha, hb, hnulls, hstars, rfl⟩ := exists_of_difference h
  have hposed := posed_of_returns ht hready hleft hright ha hb
  have hrelated : Related (Involved [left, right] (lscope ++ rscope))
      { e₄ with equations := [] } nulls e₅ := by
    have hcongruence := congruence_ok (e := e₄) (M := Involved [left, right] (lscope ++ rscope))
      (fun x hx => hx.clean hready hposed.placed.symbols) fun q hq => ?_
    · rwa [returns_step.mp hnulls] at hcongruence
    · obtain ⟨qs, hqs, hcompares⟩ := hposed.growth.equations
      rw [hqs, he, List.nil_append] at hq
      rw [hposed.growth.schemas]
      exact hcompares q hq
  refine contrasted_of_posed ht hready hposed hrelated
    ((layered_rule _).layer _ ⟨?_, .refl _⟩ hstars)
  have hnext : e₄.next ≤ e₅.next := hrelated.effect.next
  constructor
  · exact hrelated.effect.tidy ((later_equations e₄ []).tidy (hposed.growth.tidy ht))
  · exact hrelated.equations
  · exact hposed.ready (hready.mono (le_trans hposed.growth.next hnext))
  · refine ⟨fun p hp => ?_, hposed.placed.nodup⟩
    obtain ⟨k, hk, heq⟩ := hposed.placed.symbols p hp
    exact ⟨k, lt_of_lt_of_le hk hnext, heq⟩
  · have hcount : ((lscope ++ rscope).map fun p => p.2.binderCount) =
        (OpenSum.scope left right).map OpenSum.binderCount := by
      rw [← hposed.sums, List.map_map]
      rfl
    rw [hcount, OpenSum.sum_binderCount_scope]

end Encoder

end BagEquiv
