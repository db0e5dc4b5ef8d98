/-
**The shape of an encoding.**

Replacing stars by invariants, or by a single summand, looks at stars only and not at what is
around them.  It is right because of where the encoder puts stars and how it names their symbols:
a star stands as a conjunct of the formula or of the body of another star, its vectors have one
component for each of its members, the count of a member in a row is drawn afresh, and every
placeholder of a summation is resolved by exactly one star.  Simplification keeps all of this but
for the last, since it may drop a star together with the conjunction it is in.

Main definition:

* `Formula.WellShaped` — **where the stars of a formula are and how they are named**.

Main result:

* `encodePair_wellShaped` — **the shape of every encoding**.
-/

import BagEquiv.Proofs.EncodingSoundness
import BagEquiv.Proofs.TermAcceptance

set_option autoImplicit false

namespace BagEquiv

/-- Stars stand only in conjunctions and in the bodies of stars, their vectors have the same
length, and the inner symbols are each that of one component of one star and of no outer one. -/
structure Formula.WellShaped (f : Formula) : Prop where
  conjunctive : f.Conjunctive
  lengths : ∀ s ∈ f.stars, s.inner.length = s.outer.length ∧ s.sides.length = s.outer.length
  inners_nodup : f.inners.Nodup
  disjoint : ∀ s ∈ f.inners, s ∉ f.outers

namespace Encoder

/-! ### Numbered symbols -/

/-- Different symbols that start in the same way and have numbers from `lo` on and below `hi`. -/
structure Numbered (start : String) (lo hi : ℕ) (ss : List Symbol) : Prop where
  nodup : ss.Nodup
  number : ∀ s ∈ ss, ∃ k, lo ≤ k ∧ k < hi ∧ s = ⟨start ++ toString k, .int⟩

variable {start : String} {i j k : ℕ} {ss ts : List Symbol}

theorem Numbered.nil : Numbered start i j [] := ⟨List.nodup_nil, fun _ h => by cases h⟩

theorem Numbered.mono (h : Numbered start j k ss) {i' k' : ℕ} (hi : i' ≤ j) (hk : k ≤ k') :
    Numbered start i' k' ss := by
  refine ⟨h.nodup, fun s hs => ?_⟩
  obtain ⟨n, hj, hn, rfl⟩ := h.number s hs
  exact ⟨n, by omega, by omega, rfl⟩

theorem Numbered.perm (h : Numbered start i j ss) (hperm : ss.Perm ts) : Numbered start i j ts :=
  ⟨hperm.nodup_iff.mp h.nodup, fun s hs => h.number s (hperm.mem_iff.mpr hs)⟩

/-- Ranges of numbers that follow one another. -/
theorem Numbered.append (hstart : Unnumbered start) (h : Numbered start i j ss)
    (h' : Numbered start j k ts) (hij : i ≤ j) (hjk : j ≤ k) :
    Numbered start i k (ss ++ ts) := by
  refine ⟨List.nodup_append.mpr ⟨h.nodup, h'.nodup, fun s hs t ht => ?_⟩,
    List.forall_mem_append.mpr ⟨(h.mono (le_refl i) hjk).number, (h'.mono hij (le_refl k)).number⟩⟩
  obtain ⟨m, _, hm, rfl⟩ := h.number s hs
  obtain ⟨n, hn, _, rfl⟩ := h'.number t ht
  exact ne_of_number_lt hstart (by omega)

/-! ### Placeholders -/

/-- The symbols that stand for summations. -/
def placeholders (e : Encoder) : List Symbol := e.counts.map fun x => ⟨x, .int⟩

/-- The placeholders differ from each other, and no condition of an equation has stars. -/
structure Orderly (e : Encoder) : Prop where
  placeholders : Numbered "#u" 0 e.next e.placeholders
  starFree : e.StarFree

variable {e e' e₁ e₂ : Encoder}

theorem Orderly.of_counts (h : e.Orderly) (hcounts : e'.counts = e.counts)
    (hnext : e.next ≤ e'.next) (hstars : e'.StarFree) : e'.Orderly := by
  refine ⟨?_, hstars⟩
  unfold Encoder.placeholders
  rw [hcounts]
  exact h.placeholders.mono (le_refl 0) hnext

theorem Quiet.placeholders (h : Quiet e e') : e'.placeholders = e.placeholders := by
  unfold Encoder.placeholders
  rw [h.counts]

theorem Quiet.orderly (h : Quiet e e') (he : e.Orderly) : e'.Orderly :=
  he.of_counts h.counts h.next (h.starFree he.starFree)

theorem orderly_ofSchemas (schemas : SchemaMap) : (ofSchemas schemas).Orderly :=
  ⟨.nil, fun _ h => by cases h⟩

/-- The placeholders `us` are drawn between two states. -/
structure Draft (us : List Symbol) (e e' : Encoder) : Prop where
  next : e.next ≤ e'.next
  orderly : e'.Orderly
  drawn : ∀ s, e'.placeholders.count s = us.count s + e.placeholders.count s

theorem stripTerm_draft {t t' : Term} {side : Side} {found : List Counted} (he : e.Orderly)
    (h : Returns (stripTerm t side) e (t', found) e') : Draft (found.map Prod.fst) e e' := by
  have hopened := stripTerm_ok h
  obtain ⟨hresult, rfl⟩ := Prod.mk.inj (returns_step.mp h)
  obtain ⟨rfl, rfl⟩ := Prod.mk.inj hresult
  have hstate := (draws_strip t e).state
  have hnew : Numbered "#u" e.next (t.strip freshCount e).2.2.next
      (((t.strip freshCount e).2.1.map fun s => ((⟨s.name, .int⟩, ⟨side, s.vars, s.body⟩) :
        Counted)).map Prod.fst) := by
    refine ⟨hopened.nodup, fun s hs => ?_⟩
    obtain ⟨p, hp, rfl⟩ := List.mem_map.mp hs
    exact hopened.symbols p hp
  have hnext : e.next ≤ (t.strip freshCount e).2.2.next := hopened.growth.next
  rw [List.map_map] at hnew ⊢
  have hperm : (t.strip freshCount e).2.2.placeholders.Perm
      (e.placeholders ++ (t.strip freshCount e).2.1.map
        (Prod.fst ∘ fun s => ((⟨s.name, .int⟩, ⟨side, s.vars, s.body⟩) : Counted))) := by
    rw [placeholders, hstate, List.map_append, List.map_reverse, List.map_map]
    exact (List.reverse_perm _).append_right _ |>.trans List.perm_append_comm
  refine ⟨hnext, ⟨?_, ?_⟩, fun s => ?_⟩
  · exact ((he.placeholders.append Symbol.unnumbered_u hnew (Nat.zero_le _) hnext).perm hperm.symm)
  · rw [StarFree, hstate]
    exact he.starFree
  · rw [hperm.count_eq, List.count_append, Nat.add_comm]

/-! ### Rows -/

/-- What is known of the rows of a star with `n` members. -/
structure RowTally (n : ℕ) (rows : List (Symbol × Formula)) (below : List Counted)
    (e e' : Encoder) : Prop extends Draft (below.map Prod.fst) e e' where
  length : rows.length = n
  counts : Numbered "#v" e.next e'.next (rows.map Prod.fst)
  starFree : ∀ f ∈ rows.map Prod.snd, f.hasStar = false

theorem starRows_tally {tuple : String} {ms : List Member} {rows : List (Symbol × Formula)}
    {below : List Counted} (he : e.Orderly)
    (h : Returns (starRows tuple ms) e (rows, below) e') :
    RowTally ms.length rows below e e' := by
  replace h := rowRun_of_starRows h
  induction h with
  | nil => exact ⟨⟨le_refl _, he, by simp⟩, rfl, .nil, by simp⟩
  | @cons _ _ t _ _ _ _ e e₁ e₃ _ hstrip hf _ ih =>
      have hdraft := stripTerm_draft he hstrip
      have hfresh := quiet_fresh "#v" e₁
      have hwritten := written_of_encode hf
      have hquiet := hfresh.trans hwritten.quiet
      have hrest := ih (hquiet.orderly hdraft.orderly)
      have hnext := hdraft.next
      have hnext' : e₁.next + 1 ≤ e₃.next := hwritten.quiet.next
      have hnext'' := hrest.next
      refine ⟨⟨by omega, hrest.orderly, fun s => ?_⟩, congrArg (· + 1) hrest.length, ?_, ?_⟩
      · rw [hrest.drawn, hquiet.placeholders, hdraft.drawn, List.map_append, List.count_append]
        omega
      · have hfirst : Numbered "#v" e.next (e₁.next + 1) [⟨(e₁.fresh "#v").1, .int⟩] := by
          refine ⟨List.nodup_singleton _, List.forall_mem_singleton.mpr ?_⟩
          exact ⟨e₁.next, hnext, Nat.lt_succ_self _, rfl⟩
        exact hfirst.append Symbol.unnumbered_v (hrest.counts.mono hnext' (le_refl _)) (by omega)
          (by omega)
      · refine List.forall_mem_cons.mpr ⟨?_, hrest.starFree⟩
        rw [Formula.hasStar, Formula.hasStar, hwritten.starFree, Bool.or_false]

/-! ### Stars -/

theorem stars_and_append (fs gs : List Formula) :
    (Formula.and (fs ++ gs)).stars = (Formula.and fs).stars ++ (Formula.and gs).stars := by
  simp only [Formula.stars, Formula.starsAll_eq, List.flatMap_append]

theorem stars_and_singleton (f : Formula) : (Formula.and [f]).stars = f.stars :=
  Formula.starsAll_singleton f

theorem stars_and_eq_nil {fs : List Formula} (h : ∀ f ∈ fs, f.hasStar = false) :
    (Formula.and fs).stars = [] := by
  rw [Formula.stars_eq_nil_iff, Formula.hasStar, Formula.hasStarAny_eq, List.any_eq_false]
  simpa using h

/-- The stars resolve the placeholders of the scope and those that are drawn meanwhile, and nothing
else. -/
structure Tally (scope : List Symbol) (fs : List Formula) (e e' : Encoder) : Prop where
  next : e.next ≤ e'.next
  orderly : e'.Orderly
  conjunctive : ∀ f ∈ fs, f.Conjunctive
  lengths : ∀ s ∈ (Formula.and fs).stars,
    s.inner.length = s.outer.length ∧ s.sides.length = s.outer.length
  inners : Numbered "#v" e.next e'.next (Formula.and fs).inners
  outers : ∀ s, (Formula.and fs).outers.count s + e.placeholders.count s =
    scope.count s + e'.placeholders.count s

theorem Tally.nil (he : e.Orderly) : Tally [] [] e e := by
  refine ⟨le_refl _, he, ?_, ?_, .nil, fun s => ?_⟩
  · simp
  · simp [Formula.stars, Formula.starsAll]
  · simp [Formula.outers, Formula.stars, Formula.starsAll]

theorem Tally.append {scope scope' : List Symbol} {fs gs : List Formula} {e'' : Encoder}
    (h : Tally scope fs e e') (h' : Tally scope' gs e' e'') :
    Tally (scope ++ scope') (fs ++ gs) e e'' := by
  have hstars := stars_and_append fs gs
  have hnext := h.next
  have hnext' := h'.next
  refine ⟨by omega, h'.orderly, List.forall_mem_append.mpr ⟨h.conjunctive, h'.conjunctive⟩, ?_, ?_,
    fun s => ?_⟩
  · rw [hstars]
    exact List.forall_mem_append.mpr ⟨h.lengths, h'.lengths⟩
  · rw [Formula.inners, hstars, List.flatMap_append]
    exact h.inners.append Symbol.unnumbered_v h'.inners hnext hnext'
  · have hs := h.outers s
    have hs' := h'.outers s
    rw [Formula.outers, hstars, List.flatMap_append, List.count_append, List.count_append]
    rw [Formula.outers] at hs hs'
    omega

theorem Tally.perm {scope scope' : List Symbol} {fs : List Formula} (h : Tally scope fs e e')
    (hperm : scope.Perm scope') : Tally scope' fs e e' :=
  { h with outers := fun s => by rw [h.outers, hperm.count_eq] }

/-- A step before that draws no placeholders. -/
theorem Tally.after {scope : List Symbol} {fs : List Formula} (h : Tally scope fs e₁ e')
    (hcounts : e₁.counts = e.counts) (hnext : e.next ≤ e₁.next) : Tally scope fs e e' :=
  { h with
    next := hnext.trans h.next
    inners := h.inners.mono hnext (le_refl _)
    outers := fun s => by
      have := h.outers s
      unfold placeholders at this ⊢
      rwa [hcounts] at this }

/-- A computation that makes stars for the summations of a scope. -/
def Tallies (fuel : ℕ) (next : List Counted → EncodeM (List Formula)) : Prop :=
  ∀ {scope : List Counted} {e e' : Encoder} {fs : List Formula}, e.Orderly → binders scope ≤ fuel →
    Returns (next scope) e fs e' → Tally (scope.map Prod.fst) fs e e'

variable {fuel : ℕ} {next : List Counted → EncodeM (List Formula)}

theorem tally_star {tuple : String} {ms : List Member} {f : Formula} (hnext : Tallies fuel next)
    (he : e.Orderly) (hms : ms ≠ []) (hvars : ∀ m ∈ ms, ∀ v ∈ m.matched, v ∈ m.sum.vars)
    (hfuel : binders (ms.map Member.counted) ≤ fuel + 1) (h : Returns (star next tuple ms) e f e') :
    Tally (ms.map Member.symbol) [f] e e' := by
  obtain ⟨rows, below, nulls, stars, e₁, e₂, hrows, hnulls, hstars, rfl⟩ := exists_of_star h
  have htally := starRows_tally he hrows
  have hbelow := binders_below_lt hrows hms hvars
  obtain ⟨hquiet, hfree⟩ := congruence_quiet e₁
  rw [returns_step.mp hnulls] at hquiet hfree
  have hinner := hnext (hquiet.orderly htally.orderly) (by omega) hstars
  -- The other conjuncts of the body have no stars.
  have hbody : (Formula.and (rows.map Prod.snd ++ nulls ++ stars ++ e'.distinctness)).stars =
      (Formula.and stars).stars := by
    rw [stars_and_append, stars_and_append, stars_and_append, stars_and_eq_nil htally.starFree,
      stars_and_eq_nil (hfree htally.orderly.starFree),
      stars_and_eq_nil (distinctness_starFree e'), List.append_nil]
    rfl
  have hnext₁ := htally.next
  have hnext₂ := hquiet.next
  have hnext₃ := hinner.next
  refine ⟨by omega, hinner.orderly, List.forall_mem_singleton.mpr (.star (.and ?_)), ?_, ?_,
    fun s => ?_⟩
  · simp only [List.forall_mem_append]
    exact ⟨⟨⟨fun f hf => .starFree (htally.starFree f hf),
      fun f hf => .starFree (hfree htally.orderly.starFree f hf)⟩, hinner.conjunctive⟩,
      fun f hf => .starFree (distinctness_starFree e' f hf)⟩
  · rw [stars_and_singleton, Formula.stars, hbody]
    refine List.forall_mem_cons.mpr ⟨?_, hinner.lengths⟩
    simp only [List.length_map, htally.length, and_self]
  · rw [Formula.inners, stars_and_singleton, Formula.stars, hbody]
    exact (htally.counts.mono (le_refl _) hnext₂).append Symbol.unnumbered_v hinner.inners
      (by omega) (by omega)
  · have hs := hinner.outers s
    rw [hquiet.placeholders, htally.drawn] at hs
    rw [Formula.outers, stars_and_singleton, Formula.stars, hbody, List.flatMap_cons,
      List.count_append]
    change (ms.map Member.symbol).count s + (Formula.and stars).outers.count s + _ = _
    omega

/-! ### Layers -/

theorem tally_resolve {st : Station} {schemas : SchemaMap} {f : Formula} (hnext : Tallies fuel next)
    (he : e.Orderly) (hst : st.Proper schemas)
    (hvars : ∀ m ∈ st.members, ∀ v ∈ m.matched, v ∈ m.sum.vars)
    (hfuel : binders (st.members.map Member.counted) ≤ fuel + 1)
    (h : Returns (resolve next st) e f e') : Tally (st.members.map Member.symbol) [f] e e' := by
  obtain ⟨tuple, e₁, henter, h₁⟩ := returns_bind.mp h
  have henter := returns_step.mp henter
  have hcounts : e₁.counts = e.counts ∧ e.next ≤ e₁.next ∧ e₁.equations = e.equations := by
    cases st with
    | common schema ms =>
        rw [Station.enter, groupTuple_eq] at henter
        cases henter
        exact ⟨rfl, Nat.le_succ _, rfl⟩
    | single m =>
        cases henter
        exact ⟨rfl, le_refl _, rfl⟩
  have he₁ : e₁.Orderly := he.of_counts hcounts.1 hcounts.2.1 (by
    rw [StarFree, hcounts.2.2]
    exact he.starFree)
  exact (tally_star hnext he₁ hst.members_ne_nil hvars hfuel h₁).after hcounts.1 hcounts.2.1

/-- The stars of a layer resolve the placeholders of its scope. -/
theorem tally_rule (m : Matching) : LayerRule m
    (fun fuel _ _ e scope => e.Orderly ∧ binders scope ≤ fuel)
    (fun _ _ scope e fs e' => Tally (scope.map Prod.fst) fs e e') where
  zero h := by
    obtain rfl := eq_nil_of_binders (Nat.le_zero.mp h.2)
    exact .nil h.1
  nil h := .nil h.1
  cons _ h h' := by
    rw [List.map_append]
    exact h.append h'
  perm hperm h := h.perm (hperm.map _)
  mono hsub h := ⟨h.1, (binders_le_of_subperm hsub).trans h.2⟩
  keep h hscope := ⟨h.orderly, hscope.2⟩
  resolve := by
    intro fuel depth e₀ e st f e' next hnext hmatched hst he h
    have htally := tally_resolve (fun he hfuel h => hnext _ _ _ _ ⟨he, hfuel⟩ h) he.1 hst
      (fun mem hmem v hv => mem_of_matchedIn? ((hmatched mem hmem).symm.trans hv)) he.2 h
    rwa [List.map_map]

/-! ### Pairs of terms -/

/-- The stars of the difference of two terms resolve all placeholders. -/
theorem tally_difference {m : Matching} {budget : Budget} {left right : Term} {f : Formula}
    (he : e.Orderly) (hcounts : e.counts = [])
    (h : Returns (difference m budget left right) e f e') :
    f.WellShaped ∧ e'.Orderly ∧ f.outers.Perm e'.placeholders := by
  obtain ⟨aligned, l, lscope, r, rscope, g, g', nulls, stars, e₁, e₂, e₃, e₄, e₅, -, hleft, hright,
    hg, hg', hnulls, hstars, rfl⟩ := exists_of_difference h
  have hldraft := stripTerm_draft he hleft
  have hrdraft := stripTerm_draft hldraft.orderly hright
  have hlwritten := written_of_encode hg
  have hrwritten := written_of_encode hg'
  have hquiet := hlwritten.quiet.trans hrwritten.quiet
  obtain ⟨hquiet', hfree⟩ := congruence_quiet e₄
  rw [returns_step.mp hnulls] at hquiet' hfree
  have he₄ := hquiet.orderly hrdraft.orderly
  have hfuel : binders (lscope ++ rscope) ≤ left.binderCount + right.binderCount := by
    rw [binders_append, binders_stripTerm hleft, binders_stripTerm hright]
  have htally := (tally_rule aligned).layer _ ⟨hquiet'.orderly he₄, hfuel⟩ hstars
  have hhead : ∀ f ∈ Formula.not (.eq g g') :: nulls, f.hasStar = false := by
    refine List.forall_mem_cons.mpr ⟨?_, hfree he₄.starFree⟩
    rw [Formula.hasStar, Formula.hasStar, hlwritten.starFree, hrwritten.starFree, Bool.or_false]
  have hstars' : (Formula.and (.not (.eq g g') :: nulls ++ stars ++ e'.distinctness)).stars =
      (Formula.and stars).stars := by
    rw [stars_and_append, stars_and_append, stars_and_eq_nil hhead,
      stars_and_eq_nil (distinctness_starFree e'), List.append_nil, List.nil_append]
  have houters : (Formula.and (.not (.eq g g') :: nulls ++ stars ++ e'.distinctness)).outers.Perm
      e'.placeholders := by
    rw [Formula.outers, hstars', List.perm_iff_count]
    intro s
    have hs := htally.outers s
    rw [hquiet'.placeholders, hquiet.placeholders, hrdraft.drawn, hldraft.drawn, List.map_append,
      List.count_append, placeholders, hcounts, List.map_nil, List.count_nil] at hs
    change (Formula.and stars).outers.count s = _
    omega
  refine ⟨⟨.and ?_, ?_, ?_, ?_⟩, htally.orderly, houters⟩
  · simp only [List.forall_mem_append]
    exact ⟨⟨fun f hf => .starFree (hhead f hf), htally.conjunctive⟩,
      fun f hf => .starFree (distinctness_starFree e' f hf)⟩
  · rw [hstars']
    exact htally.lengths
  · rw [Formula.inners, hstars']
    exact htally.inners.nodup
  · -- An inner symbol is a row count, an outer one a placeholder.
    intro s hs hs'
    rw [Formula.inners, hstars'] at hs
    obtain ⟨j, _, _, hj⟩ := htally.inners.number s hs
    obtain ⟨k, _, _, hk⟩ := htally.orderly.placeholders.number s (houters.mem_iff.mp hs')
    have hname := congrArg Symbol.name (hj.symm.trans hk)
    exact absurd (Symbol.unnumbered_v.append_inj Symbol.unnumbered_u hname).1 (by decide)

end Encoder

/-- Simplification keeps the shape of a formula. -/
theorem Formula.WellShaped.simplify {f g : Formula} (hf : f.WellShaped) (h : f.simplify = .ok g) :
    g.WellShaped := by
  have hsub := Formula.stars_simplify h
  refine ⟨hf.conjunctive.simplify h, fun s hs => hf.lengths s (hsub.subset hs),
    hf.inners_nodup.sublist (hsub.flatMap _), fun s hs hs' => ?_⟩
  exact hf.disjoint s ((hsub.flatMap _).subset hs) ((hsub.flatMap _).subset hs')

/-- The encoding of every pair of terms is well shaped, before and after simplification.  Every
placeholder for a summation is a component of the outer vector of exactly one star before, and of
at most one after. -/
theorem encodePair_wellShaped {schemas : SchemaMap} {m : Matching} {budget : Budget}
    {left right : Term} {F : Encoding} (h : encodePair schemas m budget left right = .ok F) :
    F.formula.WellShaped ∧ ∃ f e,
      Returns (Encoder.difference m budget left right) (.ofSchemas schemas) f e ∧
      f.simplify = .ok F.formula ∧ f.WellShaped ∧
      ∀ x ∈ e.counts, f.outers.count ⟨x, .int⟩ = 1 ∧ F.formula.outers.count ⟨x, .int⟩ ≤ 1 := by
  obtain ⟨f, e, hrun, hsimplify⟩ := encodePair_eq_ok h
  obtain ⟨hshape, horderly, hperm⟩ :=
    Encoder.tally_difference (Encoder.orderly_ofSchemas schemas) rfl hrun
  refine ⟨hshape.simplify hsimplify, f, e, hrun, hsimplify, hshape, fun x hx => ?_⟩
  have hone : f.outers.count ⟨x, .int⟩ = 1 := by
    rw [hperm.count_eq]
    exact List.count_eq_one_of_mem horderly.placeholders.nodup (List.mem_map_of_mem hx)
  refine ⟨hone, ?_⟩
  rw [← hone]
  exact ((Formula.stars_simplify hsimplify).flatMap _).count_le _

theorem encodePair_wellShaped_unmatchedRows : ∃ F : Encoding,
    encodePair .uniform
      ⟨[.ofList [.base "x#0", .base "z#3"], .ofList [.base "y#1"]]⟩ .unlimited
      (.unmatchedRows "x#0" "y#1") (.twoRows "z#3" "w#2" (.ofWord 2)) = .ok F ∧
    F.formula.WellShaped ∧ ∃ f e,
      Returns (Encoder.difference
        ⟨[.ofList [.base "x#0", .base "z#3"], .ofList [.base "y#1"]]⟩ .unlimited
        (.unmatchedRows "x#0" "y#1") (.twoRows "z#3" "w#2" (.ofWord 2))) (.ofSchemas .uniform) f e ∧
      f.simplify = .ok F.formula ∧ f.WellShaped ∧
      ∀ x ∈ e.counts, f.outers.count ⟨x, .int⟩ = 1 ∧ F.formula.outers.count ⟨x, .int⟩ ≤ 1 := by
  have hok : (encodePair .uniform
      ⟨[.ofList [.base "x#0", .base "z#3"], .ofList [.base "y#1"]]⟩ .unlimited
      (.unmatchedRows "x#0" "y#1") (.twoRows "z#3" "w#2" (.ofWord 2))).isOk = true := by
    decide +kernel
  obtain ⟨F, hF⟩ := exists_of_isOk hok
  exact ⟨F, hF, encodePair_wellShaped hF⟩

end BagEquiv
