/-
**What a run tells of the pieces of two terms.**

Whatever the matching is, every summation in scope is resolved at one station, and what is left of
it is taken apart at the next layer, until its body has no more variables to be resolved.  So each
body is looked at exactly once, with common tuples in the place of some of its variables.  A run
that neither faults nor runs out of time therefore answers whether the two terms can be translated,
which is a question about the terms alone, and its formula tells which bodies are real.

The placeholders and the common tuples must not be mistaken for tuples of the terms.

Main definition:

* `Formula.rows`, `Formula.WellSorted` — the counts of rows, and **counts that are
  integers only where the formulas they are equated with are**.

Main result:

* `Encoder.decides_difference` — **a run decides whether two terms can be translated**, and
  its formula is well sorted only if they have no real bodies.
-/

import BagEquiv.Proofs.LayerEncoding
import BagEquiv.Proofs.Translatability

set_option autoImplicit false

namespace BagEquiv

/-! ### Counts of rows -/

namespace Formula

/-- The equations for some symbols in a conjunction. -/
def equationsFor (symbols : List Symbol) : Formula → List (Symbol × Formula)
  | .and terms => terms.filterMap fun
      | .eq (.sym v) f => if v ∈ symbols then some (v, f) else none
      | _ => none
  | _ => []

mutual

/-- The counts of rows of all stars, with the formulas they are equated with. -/
def rows : Formula → List (Symbol × Formula)
  | .and terms => rowsAll terms
  | .star _ inner _ body => equationsFor inner body ++ rows body
  | _ => []

def rowsAll : List Formula → List (Symbol × Formula)
  | [] => []
  | t :: ts => rows t ++ rowsAll ts

end

/-- No count of rows is equated with a real formula, unless it is real itself. -/
def WellSorted (f : Formula) : Prop := ∀ row ∈ f.rows, row.2.type = .real → row.1.type = .real

instance (f : Formula) : Decidable f.WellSorted :=
  inferInstanceAs (Decidable (∀ row ∈ f.rows, row.2.type = .real → row.1.type = .real))

theorem mem_equationsFor {symbols : List Symbol} {terms : List Formula} {v : Symbol} {f : Formula}
    (hv : v ∈ symbols) (hf : .eq (.sym v) f ∈ terms) :
    (v, f) ∈ equationsFor symbols (.and terms) :=
  List.mem_filterMap.mpr ⟨_, hf, if_pos hv⟩

theorem wellSorted_and {terms : List Formula} :
    (Formula.and terms).WellSorted ↔ ∀ f ∈ terms, f.WellSorted := by
  rw [WellSorted, rows]
  induction terms with
  | nil => simp [rowsAll]
  | cons f fs ih => rw [rowsAll, List.forall_mem_append, ih, List.forall_mem_cons, WellSorted]

theorem WellSorted.star {outer inner : List Symbol} {sides : List Side} {body : Formula}
    (h : (Formula.star outer inner sides body).WellSorted) :
    (∀ row ∈ equationsFor inner body, row.2.type = .real → row.1.type = .real) ∧
      body.WellSorted := by
  rwa [WellSorted, rows, List.forall_mem_append] at h

end Formula

/-! ### Names that are known -/

/-- The name is no placeholder, and if it is one of the names of common tuples it is one of the
first `n`. -/
structure Known (n : ℕ) (x : String) : Prop where
  uncounted : ∀ k : ℕ, x ≠ "#u" ++ toString k
  common : ∀ k : ℕ, x = "#ct" ++ toString k → k < n

theorem Known.mono {m n : ℕ} {x : String} (h : Known m x) (hmn : m ≤ n) : Known n x :=
  ⟨h.uncounted, fun k hk => lt_of_lt_of_le (h.common k hk) hmn⟩

theorem known_common {k n : ℕ} (h : k < n) : Known n ("#ct" ++ toString k) where
  uncounted j heq := absurd (unnumbered_common.append_inj Symbol.unnumbered_u heq).1 (by decide)
  common j hj := (unnumbered_common.append_inj unnumbered_common hj).2 ▸ h

/-- Where only names that are known have schemas, the common tuples to come have none. -/
theorem get?_common_eq_none {schemas : SchemaMap}
    (h : ∀ x S, schemas.get? x = some S → Known 0 x) (k : ℕ) :
    schemas.get? ("#ct" ++ toString k) = none := by
  rw [Option.eq_none_iff_forall_ne_some]
  intro S hS
  exact absurd ((h _ S hS).common k rfl) (Nat.not_lt_zero k)

/-- All names of the term are known. -/
def Term.Known (n : ℕ) (t : Term) : Prop := ∀ x ∈ t.names, BagEquiv.Known n x

theorem Term.Known.mono {m n : ℕ} {t : Term} (h : t.Known m) (hmn : m ≤ n) : t.Known n :=
  fun x hx => (h x hx).mono hmn

namespace OpenSum

variable {s : OpenSum} {n : ℕ}

theorem known_body (h : s.term.Known n) : s.body.Known n :=
  fun x hx => h x (List.mem_append_right _ hx)

theorem known_var (h : s.term.Known n) {v : Var} (hv : v ∈ s.vars) : Known n v.tuple :=
  h _ (List.mem_append_left _ (List.mem_map_of_mem hv))

/-- What is left of a summation names the tuple of the layer, and otherwise what it named. -/
theorem known_rest (h : s.term.Known n) {matched : Option Var} {tuple : String}
    (htuple : matched.isSome → Known n tuple) : (s.rest matched tuple).Known n := by
  cases matched with
  | none => exact known_body h
  | some v =>
      have hbody : (s.body.rename v.tuple tuple).Known n := by
        intro x hx
        rcases Term.names_rename hx with rfl | hx
        · exact htuple rfl
        · exact known_body h x hx
      rw [rest_some]
      split
      · exact hbody
      · refine List.forall_mem_append.mpr ⟨List.forall_mem_map.mpr fun u hu => ?_, hbody⟩
        exact known_var h (VarSet.mem_erase.mp hu).1

theorem known_peel {t : Term} {side : Side} (h : t.Known n) : ∀ s ∈ ofTerm t side,
    s.term.Known n := by
  rw [ofTerm, List.forall_mem_map]
  exact fun p hp x hx => h x (Term.names_of_mem_summations hp hx)

/-- All pieces of what is left of a summation pass a test if those of its body do. -/
theorem throughout_rest {p : SchemaMap → Term → Bool} (hp : PieceTest p) {S T : SchemaMap}
    {v : Var} {tuple : String} (h : Vocabulary.Carries S T v.tuple tuple s.body.names) :
    Throughout p S (s.rest (some v) tuple) ↔ Throughout p T s.body := by
  rw [rest_some]
  split
  · exact throughout_rename hp h
  · rw [throughout_sum hp, throughout_rename hp h]

end OpenSum

namespace Encoder

variable {e e' e'' : Encoder} {t : Term} {late : Prop}

/-! ### States -/

/-- The placeholders are numbered, the common tuples to come have no schemas, and literals and
counted functions have symbols of their types. -/
structure Prepared (e : Encoder) : Prop where
  counts : ∀ x ∈ e.counts, ∃ k : ℕ, x = "#u" ++ toString k
  schemas : ∀ k : ℕ, e.next ≤ k → e.schemas.get? ("#ct" ++ toString k) = none
  typed : e.Typed

theorem prepared_ofSchemas {schemas : SchemaMap}
    (h : ∀ k : ℕ, schemas.get? ("#ct" ++ toString k) = none) : (ofSchemas schemas).Prepared where
  counts _ hx := absurd hx List.not_mem_nil
  schemas k _ := h k
  typed := ⟨fun _ _ h => (nomatch h), fun _ h => (nomatch h)⟩

/-- What is known of names stays known. -/
structure Onward (e e' : Encoder) : Prop where
  next : e.next ≤ e'.next
  schemas : ∀ x, Known e.next x → e'.schemas.get? x = e.schemas.get? x
  prepared : e'.Prepared

theorem Prepared.onward (h : e.Prepared) : Onward e e := ⟨le_refl _, fun _ _ => rfl, h⟩

theorem Onward.trans (h : Onward e e') (h' : Onward e' e'') : Onward e e'' :=
  ⟨h.next.trans h'.next, fun x hx => (h'.schemas x (hx.mono h.next)).trans (h.schemas x hx),
    h'.prepared⟩

theorem Quiet.onward (h : Quiet e e') (he : e.Prepared) : Onward e e' := by
  refine ⟨h.next, fun x _ => by rw [h.schemas], fun x hx => ?_, fun k hk => ?_, h.typed he.typed⟩
  · exact he.counts x (h.counts ▸ hx)
  · rw [h.schemas]
    exact he.schemas k (h.next.trans hk)

/-- The pieces of a term that was known pass a test as before. -/
theorem Onward.throughout (h : Onward e e') {p : SchemaMap → Term → Bool} (hp : PieceTest p)
    (ht : t.Known e.next) : Throughout p e'.schemas t ↔ Throughout p e.schemas t :=
  throughout_congr hp fun x hx => h.schemas x (ht x hx)

/-- Taking the summations out of a term leaves one that agrees with it, as long as the placeholders
are kept. -/
structure Stripping (t : Term) (side : Side) (e : Encoder) (a : Term × List Counted)
    (e' : Encoder) : Prop where
  onward : Onward e e'
  schemas : e'.schemas = e.schemas
  kept : ∀ x ∈ e.counts, x ∈ e'.counts
  agrees : ∀ {e'' : Encoder}, e''.Prepared → e''.schemas = e.schemas →
    (∀ x ∈ e'.counts, x ∈ e''.counts) → Vocabulary.Agree e''.vocabulary e.schemas.vocabulary a.1 t
  sums : a.2.map Prod.snd = OpenSum.ofTerm t side

theorem decides_stripTerm (he : e.Prepared) (ht : t.Known e.next) (side : Side) :
    Decides late (stripTerm t side) e True (Stripping t side e) := by
  have hdraws := draws_strip t e
  have hopened := stripTerm_ok (returns_step.mpr rfl : Returns (stripTerm t side) e _ _)
  have hcounts : ∀ x ∈ (t.strip freshCount e).2.2.counts, ∃ k : ℕ, x = "#u" ++ toString k := by
    intro x hx
    rw [hdraws.state] at hx
    rcases List.mem_append.mp hx with hx | hx
    · obtain ⟨k, -, -, hk⟩ := hdraws.exists_number (List.mem_reverse.mp hx)
      exact ⟨k, hk⟩
    · exact he.counts x hx
  have hschemas := hopened.growth.schemas
  have htyped : (t.strip freshCount e).2.2.Typed := by
    rw [hdraws.state]
    exact ⟨he.typed.literals, he.typed.counted⟩
  refine decides_step ⟨⟨hopened.growth.next, fun x _ => by rw [hschemas], hcounts, fun k hk => ?_,
    htyped⟩, hschemas, hopened.kept, fun he'' hschemas'' hkept => ?_, hopened.sums⟩
  · rw [hschemas]
    exact he.schemas k (hopened.growth.next.trans hk)
  · refine Vocabulary.agree_strip rfl t e (fun st hst => ?_) fun x hx => ⟨?_, ?_, ?_⟩
    · exact decide_eq_true (hkept _ (hopened.counts _ (List.mem_map_of_mem hst)))
    · refine decide_eq_false fun hmem => ?_
      obtain ⟨k, hk⟩ := he''.counts x hmem
      exact (ht x hx).uncounted k hk
    · exact congrArg (fun S : SchemaMap => (S.get? x).map fun s => s.columns.length) hschemas''
    · exact congrArg (fun S : SchemaMap => columnType (S.get? x)) hschemas''

/-- Every member has an integer count that is equated with a formula of the type of what is left of
the member. -/
structure RowTypes (tuple : String) (ms : List Member) (e : Encoder)
    (rows : List (Symbol × Formula) × List Counted) (e' : Encoder) : Prop where
  onward : Onward e e'
  schemas : e'.schemas = e.schemas
  row : ∀ m ∈ ms, ∃ v f, (v, Formula.eq (.sym v) f) ∈ rows.1 ∧ v.type = .int ∧
    f.type = e.schemas.vocabulary.type (m.rest tuple)

/-- What is left of the members, in their order, is looked at. -/
theorem decides_starRows {tuple : String} {ms : List Member} (he : e.Prepared)
    (hms : ∀ m ∈ ms, (m.rest tuple).Known e.next) :
    Decides late (starRows tuple ms) e (∀ m ∈ ms, e.schemas.accepts (m.rest tuple) = true)
      (RowTypes tuple ms e) := by
  induction ms generalizing e with
  | nil => exact decides_pure (by simp) ⟨he.onward, rfl, by simp⟩
  | cons m ms ih =>
      rw [List.forall_mem_cons] at hms ⊢
      refine (decides_stripTerm he hms.1 m.sum.side).after fun ⟨t, below⟩ e₁ hstrip => ?_
      refine (decides_step (P := fun _ e' => Quiet e₁ e') (quiet_fresh "#v" e₁)).after
        fun v e₂ hv => ?_
      have hprepared := (hv.onward hstrip.onward.prepared).prepared
      have hagrees := hstrip.agrees hprepared (hv.schemas.trans hstrip.schemas) fun x hx =>
        hv.counts ▸ hx
      rw [SchemaMap.accepts, ← hagrees.accepts]
      refine (decides_encode t e₂).bind fun f e₃ _ hf => ?_
      have honward := hstrip.onward.trans ((hv.trans hf.quiet).onward hstrip.onward.prepared)
      have hschemas : e₃.schemas = e.schemas := by
        rw [hf.quiet.schemas, hv.schemas, hstrip.schemas]
      have hrest := ih honward.prepared fun m hm => (hms.2 m hm).mono honward.next
      rw [hschemas] at hrest
      refine hrest.before fun ⟨rows, more⟩ e₄ _ hrows => decides_pure trivial ?_
      refine ⟨honward.trans hrows.onward, hrows.schemas.trans hschemas,
        List.forall_mem_cons.mpr ⟨?_, fun m hm => ?_⟩⟩
      · exact ⟨_, f, List.mem_cons_self, rfl, (hf.typed hprepared.typed).trans hagrees.type⟩
      · obtain ⟨v', f', hmem, hint, htype⟩ := hrows.row m hm
        rw [hschemas] at htype
        exact ⟨v', f', List.mem_cons_of_mem _ hmem, hint, htype⟩

/-- Where the formula is well sorted, some bodies are not real, nor are those of the summations
inside them. -/
structure Resolved (S : SchemaMap) (bodies : List Term) (e : Encoder) (f : Formula)
    (e' : Encoder) : Prop where
  onward : Onward e e'
  isDiscrete : f.WellSorted → ∀ t ∈ bodies, Throughout SchemaMap.isDiscrete S t

/-- A computation that decides whether summations with few enough binders can be translated. -/
def DecidesScopes (late : Prop) (fuel : ℕ) (next : List Counted → EncodeM (List Formula)) :
    Prop :=
  ∀ scope e, e.Prepared → (∀ p ∈ scope, p.2.term.Known e.next) → binders scope ≤ fuel →
    Decides late (next scope) e (∀ p ∈ scope, Translatable e.schemas p.2.body) fun fs e' =>
      Resolved e.schemas ((scope.map Prod.snd).map OpenSum.body) e (.and fs) e'

variable {fuel : ℕ} {next : List Counted → EncodeM (List Formula)}

/-- All pieces of what is left of the members pass a test if the first ones do, and those of the
summations inside them. -/
theorem throughout_members {p : SchemaMap → Term → Bool} (hp : PieceTest p) {S : SchemaMap}
    (tuple : String) (ms : List Member) : (∀ m ∈ ms, Throughout p S (m.rest tuple)) ↔
      (∀ m ∈ ms, p S (m.rest tuple) = true) ∧
        ∀ s ∈ ms.flatMap fun m => m.sum.peel m.matched tuple, Throughout p S s.body := by
  simp only [throughout_iff_summations hp (t := Member.rest _ _), List.forall_mem_flatMap,
    OpenSum.peel, OpenSum.ofTerm, List.forall_mem_map, ← forall_and]
  exact Iff.rfl

theorem decides_star (hnext : DecidesScopes late fuel next) {tuple : String} {ms : List Member}
    (he : e.Prepared) (hms : ∀ m ∈ ms, (m.rest tuple).Known e.next) (hne : ms ≠ [])
    (hvars : ∀ m ∈ ms, ∀ v ∈ m.matched, v ∈ m.sum.vars)
    (hfuel : binders (ms.map Member.counted) ≤ fuel + 1) :
    Decides late (star next tuple ms) e (∀ m ∈ ms, Translatable e.schemas (m.rest tuple))
      (Resolved e.schemas (ms.map fun m => m.rest tuple) e) := by
  -- The rows tell of the first pieces, and the next layer tells the rest.
  refine Decides.congr ?_ (throughout_members pieceTest_accepts tuple ms).symm
  refine (decides_starRows he hms).traced.bind fun ⟨rows, below⟩ e₁ _ ⟨hrows, hreturns⟩ => ?_
  refine (decides_step (P := fun _ e' => Quiet e₁ e') (congruence_quiet e₁).1).after
    fun nulls e₂ hquiet => ?_
  have honward := hrows.onward.trans (hquiet.onward hrows.onward.prepared)
  have hbelow := starRows_below hreturns
  have hknown : ∀ p ∈ below, p.2.term.Known e₂.next := by
    intro p hp
    have hmem : p.2 ∈ ms.flatMap fun m => m.sum.peel m.matched tuple :=
      hbelow ▸ List.mem_map_of_mem hp
    obtain ⟨m, hm, hpeel⟩ := List.mem_flatMap.mp hmem
    exact OpenSum.known_peel ((hms m hm).mono honward.next) p.2 hpeel
  have hlt := binders_below_lt hreturns hne hvars
  have hlayer := hnext below e₂ honward.prepared hknown (by omega)
  rw [hquiet.schemas, hrows.schemas] at hlayer
  refine (hlayer.before fun stars e₃ _ hstars => ?_).congr ?_
  · refine decides_get.after fun e₄ e₅ hget => ?_
    obtain ⟨rfl, rfl⟩ := hget
    refine decides_pure trivial ⟨honward.trans hstars.onward, fun hsorted => ?_⟩
    obtain ⟨hcounts, hbody⟩ := hsorted.star
    rw [List.forall_mem_map]
    refine (throughout_members pieceTest_isDiscrete tuple ms).mpr ⟨fun m hm => ?_, ?_⟩
    · obtain ⟨v, f, hmem, hint, htype⟩ := hrows.row m hm
      refine decide_eq_true fun hreal => ?_
      have hreal' := hcounts (v, f) (Formula.mem_equationsFor (List.mem_map_of_mem hmem) ?_)
        (htype.trans hreal)
      · cases hint.symm.trans hreal'
      · exact List.mem_append_left _ (List.mem_append_left _ (List.mem_append_left _
          (List.mem_map_of_mem hmem)))
    · rw [Formula.wellSorted_and, List.forall_mem_append, List.forall_mem_append] at hbody
      have hinside := hstars.isDiscrete (Formula.wellSorted_and.mpr hbody.1.2)
      rwa [hbelow, List.forall_mem_map] at hinside
  · rw [← hbelow, List.forall_mem_map]

/-! ### Layers -/

/-- At a station, the pieces of what is left of a member pass a test if those of its body do. -/
structure Entered (st : Station) (e : Encoder) (tuple : String) (e' : Encoder) : Prop where
  onward : Onward e e'
  known : ∀ m ∈ st.members, (m.rest tuple).Known e'.next
  throughout : ∀ {p}, PieceTest p → ∀ m ∈ st.members,
    (Throughout p e'.schemas (m.rest tuple) ↔ Throughout p e.schemas m.sum.body)

theorem onward_groupTuple (he : e.Prepared) (schema : Option Schema) (table : Option String) :
    Onward e (groupTuple schema table e).2 ∧
      (groupTuple schema table e).2.schemas.get? ("#ct" ++ toString e.next) = schema := by
  have hschemas := fun x => schemas_groupTuple schema table e (x := x)
  rw [groupTuple_eq] at hschemas ⊢
  refine ⟨⟨Nat.le_succ _, fun x hx => ?_, he.counts, fun k hk => ?_, ?_⟩, ?_⟩
  · have hne : x ≠ "#ct" ++ toString e.next := fun heq => lt_irrefl _ (hx.common e.next heq)
    rw [hschemas x (.inl hne), if_neg hne]
  · have hne : "#ct" ++ toString k ≠ "#ct" ++ toString e.next := fun heq =>
      (Nat.lt_of_succ_le hk).ne' (unnumbered_common.append_inj unnumbered_common heq).2
    rw [hschemas _ (.inl hne), if_neg hne]
    exact he.schemas k (Nat.le_of_succ_le hk)
  · exact ⟨he.typed.literals, he.typed.counted⟩
  · cases schema with
    | none => exact he.schemas e.next (le_refl _)
    | some S => rw [hschemas _ (.inr rfl), if_pos rfl]

theorem entered {st : Station} (he : e.Prepared) (hst : st.Proper e.schemas)
    (hknown : ∀ m ∈ st.members, m.sum.term.Known e.next) :
    Entered st e (st.enter e).1 (st.enter e).2 := by
  cases st with
  | single m =>
      have honward : Onward e (localTuples m.sum e) := ⟨le_refl _, fun _ _ => rfl, he.counts,
        he.schemas, he.typed.literals, he.typed.counted⟩
      refine ⟨honward, List.forall_mem_singleton.mpr ?_, fun _ => List.forall_mem_singleton.mpr ?_⟩
      · rw [rest_of_unmatched hst]
        exact OpenSum.known_body (hknown m (List.mem_singleton.mpr rfl))
      · rw [rest_of_unmatched hst]
        exact Iff.rfl
  | common schema ms =>
      obtain ⟨honward, htuple⟩ := onward_groupTuple he schema (groupTable? ms)
      have hnext : (groupTuple schema (groupTable? ms) e).2.next = e.next + 1 := by
        rw [groupTuple_eq]
      refine ⟨honward, fun m hm => ?_, fun hp m hm => ?_⟩
      · refine OpenSum.known_rest ((hknown m hm).mono honward.next) fun _ => ?_
        rw [Station.enter, hnext]
        exact known_common (Nat.lt_succ_self _)
      · obtain ⟨v, hv, hschema⟩ := hst.matched m hm
        rw [Member.rest, hv]
        refine OpenSum.throughout_rest hp ⟨fun x hx => ?_, fun _ => htuple.trans hschema.symm⟩
        exact honward.schemas x (OpenSum.known_body (hknown m hm) x hx)

/-- The matched variables of a station keep their schemas. -/
theorem Station.Proper.onward {st : Station} (hst : st.Proper e.schemas) (h : Onward e e')
    (hknown : ∀ m ∈ st.members, m.sum.term.Known e.next)
    (hvars : ∀ m ∈ st.members, ∀ v ∈ m.matched, v ∈ m.sum.vars) : st.Proper e'.schemas := by
  cases st with
  | single m => exact hst
  | common schema ms =>
      refine ⟨hst.nonempty, fun m hm => ?_⟩
      obtain ⟨v, hv, hschema⟩ := hst.matched m hm
      refine ⟨v, hv, ?_⟩
      rw [h.schemas _ (OpenSum.known_var (hknown m hm) (hvars m hm v hv)), hschema]

theorem decides_resolve (hnext : DecidesScopes late fuel next) {st : Station} (he : e.Prepared)
    (hst : st.Proper e.schemas) (hknown : ∀ m ∈ st.members, m.sum.term.Known e.next)
    (hvars : ∀ m ∈ st.members, ∀ v ∈ m.matched, v ∈ m.sum.vars)
    (hfuel : binders (st.members.map Member.counted) ≤ fuel + 1) :
    Decides late (resolve next st) e (∀ m ∈ st.members, Translatable e.schemas m.sum.body)
      (Resolved e.schemas (st.members.map fun m => m.sum.body) e) := by
  refine (decides_step (P := Entered st e) (entered he hst hknown)).after fun tuple e₁ h => ?_
  refine ((decides_star hnext h.onward.prepared h.known hst.members_ne_nil hvars hfuel).mono
    fun _ _ _ h' => ⟨h.onward.trans h'.onward, fun hsorted => ?_⟩).congr
      (forall₂_congr (h.throughout pieceTest_accepts))
  have hrest := h'.isDiscrete hsorted
  rw [List.forall_mem_map] at hrest ⊢
  exact fun m hm => (h.throughout pieceTest_isDiscrete m hm).mp (hrest m hm)

/-- A list of computations, each of which decides a condition. -/
theorem decides_mapM {ι α : Type} {f : ι → EncodeM α} {A : ι → Prop} {P : ι → α → Prop}
    {xs : List ι} (he : e.Prepared) (h : ∀ i ∈ xs, ∀ e', Onward e e' →
      Decides late (f i) e' (A i) fun a e'' => Onward e' e'' ∧ P i a) :
    Decides late (xs.mapM f) e (∀ i ∈ xs, A i) fun as e' =>
      Onward e e' ∧ ∀ i ∈ xs, ∃ a ∈ as, P i a := by
  induction xs generalizing e with
  | nil => exact decides_pure (by simp) ⟨he.onward, by simp⟩
  | cons i xs ih =>
      rw [List.forall_mem_cons] at h ⊢
      rw [List.mapM_cons]
      refine (h.1 e he.onward).bind fun a e₁ _ h₁ => ?_
      have hrest := ih h₁.1.prepared fun i hi e' h' => h.2 i hi e' (h₁.1.trans h')
      refine hrest.map fun as e₂ h₂ => ⟨h₁.1.trans h₂.1, List.forall_mem_cons.mpr
        ⟨⟨a, List.mem_cons_self, h₁.2⟩, fun j hj => ?_⟩⟩
      obtain ⟨b, hb, hP⟩ := h₂.2 j hj
      exact ⟨b, List.mem_cons_of_mem _ hb, hP⟩

theorem decides_poll (budget : Budget) :
    Decides (budget.expired = true) (poll budget) e True fun _ e' => e' = e := by
  unfold poll Budget.check
  split
  · exact decides_pure trivial rfl
  · next err h =>
      split at h
      · next hexpired =>
        cases h
        refine ⟨fun hx => absurd hx not_returns_refuse, fun hx herr => ?_, fun _ => hexpired,
          fun hx => by cases hx⟩
        cases hx
        exact absurd rfl herr
      · cases h

/-- A layer decides whether the summations in scope can be translated, whatever is matched. -/
theorem decides_layer (m : Matching) (budget : Budget) (fuel : ℕ) :
    ∀ depth, DecidesScopes (budget.expired = true) fuel (layer m budget fuel depth) := by
  induction fuel with
  | zero =>
      intro depth scope e he _ hfuel
      obtain rfl := eq_nil_of_binders (Nat.le_zero.mp hfuel)
      refine (decides_poll budget).after ?_
      rintro _ e₁ rfl
      exact decides_pure (by simp) ⟨he.onward, fun _ => by simp⟩
  | succ fuel ih =>
      intro depth scope e he hknown hfuel
      rw [layer_succ]
      refine (decides_poll budget).after ?_
      rintro _ e₁ rfl
      refine decides_get.after ?_
      rintro _ e₂ ⟨rfl, rfl⟩
      obtain ⟨hperm, hproper⟩ := stations_ok e₂ (membersAt m depth scope)
      have hmem : ∀ st ∈ stations e₂ (membersAt m depth scope), ∀ mem ∈ st.members,
          mem ∈ membersAt m depth scope := fun st hst mem hmem =>
        hperm.mem_iff.mp (List.mem_flatMap.mpr ⟨st, hst, hmem⟩)
      have hmembers : ∀ mem ∈ membersAt m depth scope, mem.sum.term.Known e₂.next := by
        rw [membersAt, List.forall_mem_map]
        exact hknown
      have hstation : ∀ st ∈ stations e₂ (membersAt m depth scope), ∀ e', Onward e₂ e' →
          Decides (budget.expired = true) (resolve (layer m budget fuel (depth + 1)) st) e'
            (∀ mem ∈ st.members, Translatable e₂.schemas mem.sum.body)
            fun f e'' => Onward e' e'' ∧ (f.WellSorted → ∀ mem ∈ st.members,
              Throughout SchemaMap.isDiscrete e₂.schemas mem.sum.body) := by
        intro st hst e' h'
        have hst' := fun mem hm => hmembers mem (hmem st hst mem hm)
        have hvars := fun mem hm => mem_of_mem_membersAt mem (hmem st hst mem hm)
        have hkept : ∀ {p}, PieceTest p → ∀ mem ∈ st.members,
            (Throughout p e'.schemas mem.sum.body ↔ Throughout p e₂.schemas mem.sum.body) :=
          fun hp mem hm => h'.throughout hp (OpenSum.known_body (hst' mem hm))
        refine ((decides_resolve (ih (depth + 1)) h'.prepared
          ((hproper st hst).onward h' hst' hvars) (fun mem hm => (hst' mem hm).mono h'.next) hvars
          ((binders_station_le hst).trans hfuel)).mono fun f e'' _ hf =>
            ⟨hf.onward, fun hsorted => ?_⟩).congr (forall₂_congr (hkept pieceTest_accepts))
        have hbodies := hf.isDiscrete hsorted
        rw [List.forall_mem_map] at hbodies
        exact fun mem hm => (hkept pieceTest_isDiscrete mem hm).mp (hbodies mem hm)
      -- Every summation in scope is a member of one station.
      have hall : ∀ {P : Member → Prop}, (∀ st ∈ stations e₂ (membersAt m depth scope),
          ∀ mem ∈ st.members, P mem) ↔ ∀ mem ∈ membersAt m depth scope, P mem := by
        intro P
        rw [← List.forall_mem_flatMap (p := P)]
        simp only [hperm.mem_iff]
      refine ((decides_mapM he hstation).mono fun fs e' _ hfs =>
        ⟨hfs.1, fun hsorted => ?_⟩).congr ?_
      · rw [hall, membersAt, List.forall_mem_map]
      · have hbodies : ∀ mem ∈ membersAt m depth scope,
            Throughout SchemaMap.isDiscrete e₂.schemas mem.sum.body := by
          refine hall.mp fun st hst => ?_
          obtain ⟨f, hf, hdiscrete⟩ := hfs.2 st hst
          exact hdiscrete (Formula.wellSorted_and.mp hsorted f hf)
        rw [membersAt, List.forall_mem_map] at hbodies
        rwa [List.forall_mem_map, List.forall_mem_map]

/-! ### Pairs of terms -/

/-- All pieces of two terms pass a test if the first ones do, and those of their summations. -/
theorem throughout_pair {p : SchemaMap → Term → Bool} (hp : PieceTest p) {S : SchemaMap}
    (left right : Term) : Throughout p S left ∧ Throughout p S right ↔
      p S left = true ∧ p S right = true ∧
        ∀ s ∈ OpenSum.scope left right, Throughout p S s.body := by
  rw [throughout_iff_summations hp, throughout_iff_summations hp, OpenSum.scope,
    List.forall_mem_append, OpenSum.ofTerm, OpenSum.ofTerm, List.forall_mem_map,
    List.forall_mem_map]
  tauto

/-- A run decides whether two terms can be translated, and its formula is well sorted only if no
summation of the terms has a real body. -/
theorem decides_difference {left right : Term} (m : Matching) (budget : Budget) (he : e.Prepared)
    (hleft : left.Known e.next) (hright : right.Known e.next) :
    Decides (budget.expired = true) (difference m budget left right) e
      (Translatable e.schemas left ∧ Translatable e.schemas right) fun f _ =>
        f.WellSorted → left.everyBody e.schemas.isDiscrete = true ∧
          right.everyBody e.schemas.isDiscrete = true := by
  refine Decides.congr ?_ (throughout_pair pieceTest_accepts left right).symm
  refine (decides_poll budget).after ?_
  rintro _ e₀ rfl
  refine (decides_attempt (m.mayOverflow_aligned left right)).after ?_
  rintro aligned e ⟨-, rfl⟩
  refine (decides_stripTerm he hleft .left).traced.after fun ⟨l, lscope⟩ e₁ ⟨hl, hlrun⟩ => ?_
  refine (decides_stripTerm hl.onward.prepared (hright.mono hl.onward.next) .right).traced.after
    fun ⟨r, rscope⟩ e₂ ⟨hr, hrrun⟩ => ?_
  have honward := hl.onward.trans hr.onward
  have hschemas := hr.schemas.trans hl.schemas
  rw [SchemaMap.accepts, SchemaMap.accepts, ← (hl.agrees honward.prepared hschemas hr.kept).accepts]
  refine (decides_encode l e₂).bind fun f e₃ _ hf => ?_
  have hf' := hf.quiet.onward honward.prepared
  rw [← hl.schemas, ← (hr.agrees hf'.prepared (hf.quiet.schemas.trans hr.schemas) fun x hx =>
    hf.quiet.counts ▸ hx).accepts, hl.schemas]
  refine (decides_encode r e₃).bind fun g e₄ _ hg => ?_
  refine (decides_step (P := fun _ e' => Quiet e₄ e') (congruence_quiet e₄).1).after
    fun nulls e₅ hnulls => ?_
  have hquiet := (hf.quiet.trans hg.quiet).trans hnulls
  have honward₅ := honward.trans (hquiet.onward honward.prepared)
  have hscope : (lscope ++ rscope).map Prod.snd = OpenSum.scope left right := by
    rw [List.map_append, hl.sums, hr.sums, OpenSum.scope]
  have hknown : ∀ p ∈ lscope ++ rscope, p.2.term.Known e₅.next := by
    have hall : ∀ s ∈ OpenSum.scope left right, s.term.Known e₅.next :=
      List.forall_mem_append.mpr ⟨OpenSum.known_peel (hleft.mono honward₅.next),
        OpenSum.known_peel (hright.mono honward₅.next)⟩
    rwa [← hscope, List.forall_mem_map] at hall
  have hfuel : binders (lscope ++ rscope) ≤ left.binderCount + right.binderCount := by
    rw [binders_append, binders_stripTerm hlrun, binders_stripTerm hrrun]
  have hlayer := decides_layer aligned budget _ 0 _ e₅ honward₅.prepared hknown hfuel
  rw [hquiet.schemas, hschemas] at hlayer
  refine (hlayer.before fun stars e₆ _ hstars => ?_).congr ?_
  · refine decides_get.map fun _ _ _ hsorted => ?_
    rw [Formula.wellSorted_and, List.forall_mem_append, List.forall_mem_append] at hsorted
    have hbodies := hstars.isDiscrete (Formula.wellSorted_and.mpr hsorted.1.2)
    rw [hscope, List.forall_mem_map, OpenSum.scope, List.forall_mem_append, OpenSum.ofTerm,
      OpenSum.ofTerm, List.forall_mem_map, List.forall_mem_map] at hbodies
    rwa [everyBody_iff_summations pieceTest_isDiscrete,
      everyBody_iff_summations pieceTest_isDiscrete]
  · rw [← hscope, List.forall_mem_map]

end Encoder

end BagEquiv
