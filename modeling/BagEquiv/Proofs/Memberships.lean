/-
**Memberships and the tables of tuples.**

The formula of a pair of terms counts how often a tuple is in a table.  For a database to be read
off an assignment, the tuple has to be listed with that table.  A count for a tuple that was
introduced comes of a membership of a bound variable in one of the terms, and the tuple is listed
with the table that the variable ranges over, or, if it became part of a common tuple, with the one
that the first variable of the group ranges over.  So a count is read from a model unless these
tables differ, which they do if a variable is a member of two tables, if it is not a member where
its summation looks for its table, or if variables of different tables were unified.

Main definition:

* `Setting.Lists`, `Setting.Diverts` — **where a count of a tuple comes from**.

Main result:

* `encodePair_membership` — **which memberships reach the database**.
-/

import BagEquiv.Proofs.LayerSymbols
import BagEquiv.Proofs.ReadDatabases
import BagEquiv.Proofs.ReportedTuples

set_option autoImplicit false

namespace BagEquiv

/-! ### Bound names -/

/-- A summation in the term binds the tuple. -/
def Term.Quantifies (t : Term) (x : String) : Prop := ∃ b ∈ t.boundVars, b.var.tuple = x

namespace OpenSum

variable {s : OpenSum} {v : Var} {tuple x : String}

theorem quantifies_term :
    s.term.Quantifies x ↔ (∃ v ∈ s.vars, v.tuple = x) ∨ s.body.Quantifies x := by
  rw [Term.Quantifies, s.boundVars_term, boundVars]
  constructor
  · rintro ⟨b, hb, rfl⟩
    rcases List.mem_append.mp hb with hb | hb
    · exact .inl ⟨b.var, (mem_ofBinder.mp hb).1, rfl⟩
    · exact .inr ⟨b, hb, rfl⟩
  · rintro (⟨v, hv, rfl⟩ | ⟨b, hb, rfl⟩)
    · exact ⟨_, List.mem_append_left _ (mem_ofBinder_self hv), rfl⟩
    · exact ⟨b, List.mem_append_right _ hb, rfl⟩

/-- What is left binds the other tuples. -/
theorem Admits.quantifies_rest (h : s.Admits tuple) (hv : v ∈ s.vars) :
    (s.rest (some v) tuple).Quantifies x ↔ s.term.Quantifies x ∧ x ≠ v.tuple := by
  rw [quantifies_term, Term.Quantifies, h.boundVars_rest hv]
  constructor
  · rintro ⟨b, hb, rfl⟩
    rcases List.mem_append.mp hb with hb | hb
    · obtain ⟨hb, hne⟩ := List.mem_filter.mp hb
      have hvar := (mem_ofBinder.mp hb).1
      exact ⟨.inl ⟨b.var, hvar, rfl⟩, h.ne_of_mem_vars hv hvar (of_decide_eq_true hne)⟩
    · exact ⟨.inr ⟨b, hb, rfl⟩, h.ne_of_mem_body hv hb⟩
  · rintro ⟨⟨w, hw, rfl⟩ | ⟨b, hb, rfl⟩, hne⟩
    · refine ⟨⟨w, s.body.tableOf? w.tuple⟩, List.mem_append_left _ ?_, rfl⟩
      refine List.mem_filter.mpr ⟨mem_ofBinder_self hw, decide_eq_true ?_⟩
      exact fun heq => hne (heq ▸ rfl)
    · exact ⟨b, List.mem_append_right _ hb, rfl⟩

end OpenSum

/-! ### Where memberships come from -/

/-- Two terms, with the schemas of their tuples and the matching of their variables. -/
structure Setting where
  schemas : SchemaMap
  aligned : Matching
  left : Term
  right : Term

namespace Setting

variable {c : Setting} {tuples tuples' : List TupleInfo}

/-- The bound variables of the terms. -/
def bound (c : Setting) : List BoundVar := c.left.boundVars ++ c.right.boundVars

/-- A term says that the tuple is a member of the table. -/
def Says (c : Setting) (table x : String) : Prop :=
  .membership table x ∈ c.left.elements ++ c.right.elements

instance (c : Setting) (table x : String) : Decidable (c.Says table x) :=
  inferInstanceAs (Decidable (_ ∈ _))

/-- The variables are the same, or become one tuple: they are matched in one layer, and their
schemas are the same. -/
def Couples (c : Setting) (b b' : BoundVar) : Prop :=
  b = b' ∨ ∃ depth layer, c.aligned.layer? depth = some layer ∧ b.var ∈ layer ∧ b'.var ∈ layer ∧
    c.schemas.get? b.var.tuple = c.schemas.get? b'.var.tuple

/-- The tuple is listed with the table of a variable, and this or one that became the same tuple is
a member of the given table. -/
def Lists (c : Setting) (tuples : List TupleInfo) (table x : String) : Prop :=
  ∃ b ∈ c.bound, ∃ b' ∈ c.bound, c.Says table b.var.tuple ∧ c.Couples b b' ∧
    ∃ info ∈ tuples, info.name = x ∧ info.table = b'.table

/-- The tuple is free in a term, or listed. -/
def Backs (c : Setting) (tuples : List TupleInfo) (table x : String) : Prop :=
  Mentioned [c.left, c.right] x ∨ c.Lists tuples table x

/-- The tuple is listed with the table of a variable, while one that became the same tuple is a
member of the given table, which is another. -/
def Diverts (c : Setting) (tuples : List TupleInfo) (table x : String) : Prop :=
  ∃ b ∈ c.bound, ∃ b' ∈ c.bound, c.Says table b.var.tuple ∧ c.Couples b b' ∧
    b'.table ≠ some table ∧ ∀ info ∈ tuples, info.name = x → info.table = b'.table

/-- The variables that are members of the table range over it, and so do those that become the same
tuples. -/
def Confines (c : Setting) (table : String) : Prop :=
  ∀ b ∈ c.bound, ∀ b' ∈ c.bound, c.Says table b.var.tuple → c.Couples b b' → b'.table = some table

theorem Confines.not_diverts {table x : String} (h : c.Confines table) :
    ¬c.Diverts tuples table x := by
  rintro ⟨b, hb, b', hb', hsays, hcouples, hother, -⟩
  exact hother (h b hb b' hb' hsays hcouples)

theorem Backs.mono {table x : String} (h : c.Backs tuples table x) (hsub : tuples ⊆ tuples') :
    c.Backs tuples' table x := by
  refine h.imp_right ?_
  rintro ⟨b, hb, b', hb', hsays, hcouples, info, hinfo, hlisted⟩
  exact ⟨b, hb, b', hb', hsays, hcouples, info, hsub hinfo, hlisted⟩

/-- What is known of a term below some layers: it binds variables of the pair, each once and none
that it mentions otherwise; the memberships of these variables are in the pair, and those of other
tuples are backed. -/
structure Traced (c : Setting) (tuples : List TupleInfo) (t : Term) : Prop where
  nodup : (t.boundVars.map fun b => b.var.tuple).Nodup
  within : t.boundVars ⊆ c.bound
  uncommon : ∀ x, t.Quantifies x → ∀ k : ℕ, x ≠ "#ct" ++ toString k
  apart : ∀ x, t.mentions x = true → ¬t.Quantifies x
  sound : ∀ k ∈ t.elements, k.Sound
  said : ∀ table x, .membership table x ∈ t.elements → t.Quantifies x → c.Says table x
  backed : ∀ table x, .membership table x ∈ t.elements → ¬t.Quantifies x → c.Backs tuples table x

namespace Traced

variable {t : Term} {s : OpenSum} {v : Var}

theorem mono (h : c.Traced tuples t) (hsub : tuples ⊆ tuples') : c.Traced tuples' t :=
  { h with backed := fun table x hk hx => (h.backed table x hk hx).mono hsub }

/-- The terms of a pair whose names are apart. -/
theorem of_pair (hnames : NamedApart c.schemas c.left c.right)
    (hcolumns : ∀ attr ∈ c.left.columns ++ c.right.columns, '!' ∉ attr.toList) :
    ∀ t ∈ [c.left, c.right], c.Traced [] t := by
  intro t ht
  have hsub : t.boundVars.Sublist ([c.left, c.right].flatMap Term.boundVars) :=
    List.sublist_flatten_of_mem (List.mem_map_of_mem ht)
  have hbound : ∀ x, t.Quantifies x → x ∈ boundNames [c.left, c.right] := by
    rintro x ⟨b, hb, rfl⟩
    exact List.mem_map_of_mem (hsub.subset hb)
  have helements : t.elements ⊆ c.left.elements ++ c.right.elements := by
    rcases List.mem_pair.mp ht with rfl | rfl
    · exact List.subset_append_left _ _
    · exact List.subset_append_right _ _
  have hattrs : t.columns ⊆ c.left.columns ++ c.right.columns := by
    rcases List.mem_pair.mp ht with rfl | rfl
    · exact List.subset_append_left _ _
    · exact List.subset_append_right _ _
  have hclean : ∀ k ∈ t.elements, ∀ x, k.owner? = some x → Clean x := by
    intro k hk x hx
    rcases Term.mentions_of_mem_elements hx hk with hx | hx
    · exact (hnames.free x ⟨t, ht, hx⟩).settled.clean
    · exact (hnames.bound x (hbound x hx)).settled.clean
  constructor
  · exact hnames.distinct.sublist (hsub.map _)
  · simpa [bound] using hsub.subset
  · exact fun x hx => (hnames.bound x (hbound x hx)).settled.ne_common
  · exact fun x hx hquantifies => hnames.apart x ⟨t, ht, hx⟩ (hbound x hquantifies)
  · intro k hk
    cases k with
    | tuple x => exact hclean _ hk x rfl
    | column x attr =>
        exact ⟨hclean _ hk x rfl, hcolumns _ (hattrs (Term.mem_columns_of_elements hk))⟩
    | membership table x => exact hclean _ hk x rfl
    | test name => trivial
  · exact fun table x hk _ => helements hk
  · intro table x hk hx
    exact .inl ⟨t, ht, (Term.mentions_of_mem_elements rfl hk).resolve_right hx⟩

/-- The outermost summations of a term. -/
theorem summation (h : c.Traced tuples t) {side : Side} (hs : s ∈ OpenSum.ofTerm t side) :
    c.Traced tuples s.term := by
  have hmem := OpenSum.mem_ofTerm hs
  have hsub : s.term.boundVars.Sublist t.boundVars := by
    rw [s.boundVars_term, ← OpenSum.flatMap_boundVars_ofTerm t side]
    exact List.sublist_flatten_of_mem (List.mem_map_of_mem hs)
  have hquantifies : ∀ x, s.term.Quantifies x → t.Quantifies x := by
    rintro x ⟨b, hb, rfl⟩
    exact ⟨b, hsub.subset hb, rfl⟩
  have helements : s.term.elements ⊆ t.elements := Term.elements_of_mem_summations hmem
  constructor
  · exact h.nodup.sublist (hsub.map _)
  · exact List.Subset.trans hsub.subset h.within
  · exact fun x hx => h.uncommon x (hquantifies x hx)
  · exact fun x hx hbound =>
      h.apart x (Term.mentions_of_mem_summations hmem hx) (hquantifies x hbound)
  · exact fun k hk => h.sound k (helements hk)
  · exact fun table x hk hx => h.said table x (helements hk) (hquantifies x hx)
  · intro table x hk hx
    -- A tuple that is not bound here is mentioned here, so that it is bound nowhere.
    have hmentions := (Term.mentions_of_mem_elements rfl hk).resolve_right hx
    exact h.backed table x (helements hk)
      (h.apart x (Term.mentions_of_mem_summations hmem hmentions))

theorem admits (h : c.Traced tuples s.term) (k : ℕ) : s.Admits ("#ct" ++ toString k) where
  nodup := s.boundVars_term ▸ h.nodup
  fresh b hb := h.uncommon _ ⟨b, s.boundVars_term ▸ hb, rfl⟩ k

/-- A variable of a summation became a common tuple. -/
theorem rest_some (h : c.Traced tuples s.term) (hv : v ∈ s.vars) (k : ℕ) (hsub : tuples ⊆ tuples')
    (hbacked : ∀ table, c.Says table v.tuple → c.Backs tuples' table ("#ct" ++ toString k)) :
    c.Traced tuples' (s.rest (some v) ("#ct" ++ toString k)) := by
  have hadmits := h.admits k
  have hquantifies := fun x => hadmits.quantifies_rest (x := x) hv
  have hbound : (s.rest (some v) ("#ct" ++ toString k)).boundVars.Sublist s.term.boundVars := by
    rw [hadmits.boundVars_rest hv, s.boundVars_term, OpenSum.boundVars]
    exact List.filter_sublist.append_right _
  have hfresh : ¬(s.rest (some v) ("#ct" ++ toString k)).Quantifies ("#ct" ++ toString k) :=
    fun hx => h.uncommon _ ((hquantifies _).mp hx).1 k rfl
  have helements : ∀ k' ∈ (s.rest (some v) ("#ct" ++ toString k)).elements,
      ∃ k₀ ∈ s.term.elements, k' = k₀.renamed v.tuple ("#ct" ++ toString k) := by
    intro k' hk'
    rcases OpenSum.mem_elements_rest hk' with ⟨-, hshadowed⟩ | ⟨w, hw, k₀, hk₀, rfl⟩
    · obtain ⟨b, hb, heq⟩ := hshadowed v rfl
      exact absurd heq (hadmits.ne_of_mem_body hv hb)
    · cases hw
      exact ⟨k₀, hk₀, rfl⟩
  -- A membership of the variable is one of the common tuple, and the others stay as they are.
  have hmembership : ∀ {table x},
      .membership table x ∈ (s.rest (some v) ("#ct" ++ toString k)).elements →
      (x = "#ct" ++ toString k ∧ .membership table v.tuple ∈ s.term.elements) ∨
        (x ≠ v.tuple ∧ .membership table x ∈ s.term.elements) := by
    intro table x hk
    obtain ⟨k₀, hk₀, heq⟩ := helements _ hk
    cases k₀ with
    | membership table₀ x₀ =>
        obtain ⟨rfl, hx⟩ := Element.membership.inj heq
        split at hx
        · next hsource => exact .inl ⟨hx, hsource ▸ hk₀⟩
        · next hsource => exact .inr ⟨hx ▸ hsource, hx ▸ hk₀⟩
    | tuple | column | test => cases heq
  constructor
  · exact h.nodup.sublist (hbound.map _)
  · exact List.Subset.trans hbound.subset h.within
  · exact fun x hx => h.uncommon x ((hquantifies x).mp hx).1
  · intro x hx hbound
    rcases OpenSum.mentions_rest hadmits hv hx with rfl | hx
    · exact hfresh hbound
    · exact h.apart x hx ((hquantifies x).mp hbound).1
  · intro k' hk'
    obtain ⟨k₀, hk₀, rfl⟩ := helements k' hk'
    exact (h.sound k₀ hk₀).renamed (Clean.append (by decide) (clean_toString k))
  · intro table x hk hx
    rcases hmembership hk with ⟨rfl, -⟩ | ⟨-, hk⟩
    · exact absurd hx hfresh
    · exact h.said table x hk ((hquantifies x).mp hx).1
  · intro table x hk hx
    rcases hmembership hk with ⟨rfl, hvar⟩ | ⟨hne, hother⟩
    · have hbinds := OpenSum.quantifies_term.mpr (.inl ⟨v, hv, rfl⟩)
      exact hbacked table (h.said table v.tuple hvar hbinds)
    · have hunbound : ¬s.term.Quantifies x := fun hx' => hx ((hquantifies x).mpr ⟨hx', hne⟩)
      exact (h.backed table x hother hunbound).mono hsub

/-- All variables of a summation became tuples. -/
theorem rest_none (h : c.Traced tuples s.term) (hsub : tuples ⊆ tuples')
    (hbacked : ∀ v ∈ s.vars, ∀ table, c.Says table v.tuple → c.Backs tuples' table v.tuple) :
    c.Traced tuples' s.body := by
  have hbound : s.body.boundVars.Sublist s.term.boundVars := by
    rw [s.boundVars_term, OpenSum.boundVars]
    exact List.sublist_append_right _ _
  have hquantifies : ∀ x, s.body.Quantifies x → s.term.Quantifies x :=
    fun x hx => OpenSum.quantifies_term.mpr (.inr hx)
  constructor
  · exact h.nodup.sublist (hbound.map _)
  · exact List.Subset.trans hbound.subset h.within
  · exact fun x hx => h.uncommon x (hquantifies x hx)
  · intro x hx hinner
    rcases OpenSum.mentions_body hx with hx | ⟨v, hv, rfl⟩
    · exact h.apart x hx (hquantifies x hinner)
    · obtain ⟨b, hb, heq⟩ := hinner
      exact (h.admits 0).ne_of_mem_body hv hb heq
  · exact h.sound
  · exact fun table x hk hx => h.said table x hk (hquantifies x hx)
  · intro table x hk hx
    by_cases houter : s.term.Quantifies x
    · obtain ⟨v, hv, rfl⟩ := (OpenSum.quantifies_term.mp houter).resolve_right hx
      exact hbacked v hv table (h.said table v.tuple hk houter)
    · exact (h.backed table x hk houter).mono hsub

end Traced

/-! ### Counts of formulas -/

/-- If the symbol is a count, then it is backed. -/
def Vouches (c : Setting) (tuples : List TupleInfo) (s : Symbol) : Prop :=
  ∀ table x, Clean x → s.name = countName table x → c.Backs tuples table x

/-- A sound element, which is backed if it is a membership. -/
def Allows (c : Setting) (tuples : List TupleInfo) (k : Element) : Prop :=
  k.Sound ∧ ∀ table x, k = .membership table x → c.Backs tuples table x

theorem vouches_mono (hsub : tuples ⊆ tuples') {s : Symbol} (h : c.Vouches tuples s) :
    c.Vouches tuples' s := fun table x hx hs => (h table x hx hs).mono hsub

theorem vouches_of_clean {s : Symbol} (hs : Clean s.name) : c.Vouches tuples s :=
  fun table x _ hname =>
    absurd (show Clean (countName table x) from hname ▸ hs) (Quantity.count table x).not_clean_name

theorem vouches_of_denotes {e : Encoder} {s : Symbol} (h : e.Denotes (c.Allows tuples) s) :
    c.Vouches tuples s := by
  intro table x hx hs
  have hattests := h.attests (q := .count table x) hx hs
  generalize hq : Quantity.count table x = q at hattests
  cases hattests with
  | count h =>
      cases hq
      exact h.2 table x rfl
  | column | null => cases hq
  | test y attr h =>
      unfold Quantity.ofTest at hq
      split at hq <;> cases hq

/-- Outside its summations a term has backed memberships only. -/
theorem Traced.shows {t : Term} (h : c.Traced tuples t) : Encoder.Shows (c.Allows tuples) t := by
  intro e k hk
  rcases Term.mem_elements_strip hk with ⟨hk, hmentions⟩ | ⟨st, hst, rfl⟩
  · refine ⟨h.sound k hk, ?_⟩
    rintro table x rfl
    exact h.backed table x hk (h.apart x (hmentions x rfl))
  · obtain ⟨n, -, -, hn⟩ := (Encoder.draws_strip t e).exists_number (List.mem_map_of_mem hst)
    refine ⟨?_, nofun⟩
    rw [show st.name = _ from hn]
    exact Clean.append (by decide) (clean_toString n)

/-! ### Layers -/

/-- The encoder is at rest, and only common tuples have got schemas. -/
structure Standing (c : Setting) (e : Encoder) : Prop where
  atRest : e.AtRest
  schemas : ∀ x, (∀ k : ℕ, x ≠ "#ct" ++ toString k) → e.schemas.get? x = c.schemas.get? x

section Layers

open Encoder

variable {e e₀ e₁ e' : Encoder} {st : Station}

theorem standing_enter (hst : st.Proper e₀.schemas) (he₀ : c.Standing e₀) (he : c.Standing e) :
    c.Standing (st.enter e).2 := by
  refine ⟨atRest_enter hst he₀.atRest.tidy he.atRest, fun x hx => ?_⟩
  rw [← he.schemas x hx]
  cases st with
  | common schema ms =>
      rw [Station.enter, schemas_groupTuple _ _ _ (.inl (hx e.next)), if_neg (hx e.next)]
  | single m => rfl

theorem tuples_subset_enter (st : Station) (e : Encoder) : e.tuples ⊆ (st.enter e).2.tuples := by
  cases st with
  | common schema ms =>
      rw [Station.enter, groupTuple_eq]
      exact List.subset_append_left _ _
  | single m => exact List.subset_append_left _ _

theorem Standing.groundwork {K : Element → Prop} {fs nulls : List Formula} (he : c.Standing e)
    (h : Groundwork K e fs e₁ nulls e') : c.Standing e' :=
  ⟨h.atRest, fun x hx => h.schemas ▸ he.schemas x hx⟩

theorem exists_layer_of_matchedIn? {m : Matching} {depth : ℕ} {s : OpenSum} {v : Var}
    (h : m.matchedIn? depth s = some v) : ∃ layer, m.layer? depth = some layer ∧ v ∈ layer := by
  unfold Matching.matchedIn? at h
  split at h
  · next layer hlayer =>
      have hmem := List.find?_some h
      exact ⟨layer, hlayer, by simpa using hmem⟩
  · cases h

/-- The memberships of what is left at a station: those of its variables are of the tuples that are
listed for it. -/
theorem traced_enter {depth : ℕ} (hst : st.Proper e₀.schemas) (he₀ : c.Standing e₀)
    (hmatched : ∀ mem ∈ st.members, mem.matched = c.aligned.matchedIn? depth mem.sum)
    (h : ∀ mem ∈ st.members, c.Traced e.tuples mem.sum.term) :
    ∀ mem ∈ st.members,
      c.Traced (st.enter e).2.tuples (mem.sum.rest mem.matched (st.enter e).1) := by
  have hsub := tuples_subset_enter st e
  have hself : ∀ mem ∈ st.members, ∀ v ∈ mem.sum.vars,
      ⟨v, mem.sum.tableOf? v⟩ ∈ mem.sum.term.boundVars := fun mem _ v hv => by
    rw [OpenSum.boundVars_term]
    exact List.mem_append_left _ (OpenSum.mem_ofBinder_self hv)
  cases st with
  | common schema ms =>
      -- All matched variables are coupled to that of the first member, whose table is listed.
      obtain ⟨first, hfirst⟩ : ∃ first, ms.head? = some first :=
        Option.isSome_iff_exists.mp (List.isSome_head?.mpr hst.nonempty)
      have hfirst' := List.mem_of_mem_head? hfirst
      obtain ⟨w, hw, hschemaw⟩ := hst.matched first hfirst'
      obtain ⟨layer, hlayer, hwlayer⟩ :=
        exists_layer_of_matchedIn? ((hmatched first hfirst').symm.trans hw)
      have hwvars := mem_of_matchedIn? ((hmatched first hfirst').symm.trans hw)
      have htable : groupTable? ms = first.sum.tableOf? w := by
        rw [groupTable?, hfirst, Option.bind_eq_bind, Option.bind_some, hw]
        rfl
      intro mem hmem
      obtain ⟨v, hv, hschemav⟩ := hst.matched mem hmem
      obtain ⟨layer', hlayer', hvlayer⟩ :=
        exists_layer_of_matchedIn? ((hmatched mem hmem).symm.trans hv)
      have hvvars := mem_of_matchedIn? ((hmatched mem hmem).symm.trans hv)
      cases hlayer.symm.trans hlayer'
      have hschemas : ∀ {mem : Member} {v : Var}, mem ∈ ms → v ∈ mem.sum.vars →
          e₀.schemas.get? v.tuple = c.schemas.get? v.tuple := fun hmem hv =>
        he₀.schemas _ fun k => (h _ hmem).uncommon _ ⟨_, hself _ hmem _ hv, rfl⟩ k
      rw [Station.enter, groupTuple_eq] at hsub ⊢
      rw [hv]
      refine (h mem hmem).rest_some hvvars e.next hsub fun table hsays => .inr ?_
      refine ⟨_, (h mem hmem).within (hself mem hmem v hvvars), _,
        (h first hfirst').within (hself first hfirst' w hwvars), hsays, .inr ?_, ?_⟩
      · refine ⟨depth, layer, hlayer, hvlayer, hwlayer, ?_⟩
        rw [← hschemas hmem hvvars, ← hschemas hfirst' hwvars, hschemav, hschemaw]
      · exact ⟨_, List.mem_append_right _ (List.mem_singleton_self _), rfl, htable⟩
  | single mem =>
      refine List.forall_mem_singleton.mpr ?_
      have hmem := List.mem_singleton_self mem
      rw [show mem.matched = none from hst, OpenSum.rest_none]
      refine (h mem hmem).rest_none hsub fun v hv table hsays => .inr ?_
      have hbound := (h mem hmem).within (hself mem hmem v hv)
      exact ⟨_, hbound, _, hbound, hsays, .inl rfl, _,
        List.mem_append_right _ (List.mem_map_of_mem hv), rfl, rfl⟩

/-- The counts of the stars of a layer are backed. -/
theorem vouches_rule (c : Setting) : LayerRule c.aligned
    (fun _ _ e₀ e scope => c.Standing e₀ ∧ c.Standing e ∧
      ∀ p ∈ scope, Clean p.1.name ∧ c.Traced e.tuples p.2.term)
    (fun _ _ _ e fs e' => (c.Standing e → c.Standing e') ∧ e.tuples ⊆ e'.tuples ∧
      ∀ f ∈ fs, f.Over (c.Vouches e'.tuples)) where
  zero _ := ⟨id, List.Subset.refl _, by simp⟩
  nil _ := ⟨id, List.Subset.refl _, by simp⟩
  cons _ h h' := by
    refine ⟨h'.1 ∘ h.1, List.Subset.trans h.2.1 h'.2.1, List.forall_mem_cons.mpr ⟨?_, h'.2.2⟩⟩
    exact fun s hs => vouches_mono h'.2.1 (h.2.2 _ (List.mem_singleton_self _) s hs)
  perm _ h := h
  mono hsub h := ⟨h.1, h.2.1, fun p hp => h.2.2 p (hsub.subset hp)⟩
  keep h hscope := ⟨hscope.1, h.1 hscope.2.1, fun p hp =>
    ⟨(hscope.2.2 p hp).1, (hscope.2.2 p hp).2.mono h.2.1⟩⟩
  resolve := by
    intro fuel depth e₀ e st f e' next hnext hmatched hst ⟨h₀, he, hscope⟩ h
    obtain ⟨tuple, e₁, henter, hstar⟩ := returns_bind.mp h
    obtain ⟨rows, below, nulls, stars, e₂, e₃, hrows, hnulls, hstars, rfl⟩ := exists_of_star hstar
    have hstanding := standing_enter hst h₀ he
    have hentered := tuples_subset_enter st e
    have htraced := traced_enter hst h₀ hmatched fun mem hmem =>
      (hscope _ (List.mem_map_of_mem hmem)).2
    rw [returns_step.mp henter] at hstanding hentered htraced
    have hground := groundwork_of_starRows hstanding.atRest (fun x hx => hx.1)
      (fun mem hmem => (htraced mem hmem).shows) hrows hnulls
    have htuples : e₃.tuples = e₁.tuples := hground.tuples
    have hbelow : ∀ p ∈ below, Clean p.1.name ∧ c.Traced e₃.tuples p.2.term := by
      intro p hp
      refine ⟨clean_of_mem_below hrows p hp, ?_⟩
      have hmem := starRows_below hrows ▸ List.mem_map_of_mem (f := Prod.snd) hp
      obtain ⟨mem, hmem, hpeel⟩ := List.mem_flatMap.mp hmem
      exact htuples ▸ (htraced mem hmem).summation hpeel
    obtain ⟨hkeep, hinner, hall⟩ :=
      hnext below e₃ stars e' ⟨hstanding.groundwork hground, hstanding.groundwork hground, hbelow⟩
        hstars
    have hend := hkeep (hstanding.groundwork hground)
    have hsub : e₁.tuples ⊆ e'.tuples := htuples ▸ hinner
    have hrows' : ∀ g ∈ rows.map Prod.snd ++ nulls, g.Over (c.Vouches e'.tuples) :=
      fun g hg s hs => vouches_mono hsub
        (vouches_of_denotes (hground.over_all (fun _ hk => hk.1) g hg s hs))
    have hdistinct : ∀ g ∈ e'.distinctness, g.Over (c.Vouches e'.tuples) :=
      fun g hg s hs => vouches_of_denotes (e := e') (over_distinctness hend.atRest.tidy g hg s hs)
    refine ⟨fun _ => hend, List.Subset.trans hentered hsub, List.forall_mem_singleton.mpr ?_⟩
    rw [Formula.over_star, List.forall_mem_map, List.forall_mem_map, Formula.over_and]
    refine ⟨⟨fun mem hmem => ?_, fun r hr => ?_⟩, ?_⟩
    · exact vouches_of_clean (hscope _ (List.mem_map_of_mem hmem)).1
    · obtain ⟨g, hg⟩ := starRows_eq hrows r hr
      have hrow := hrows' _ (List.mem_append_left _ (List.mem_map_of_mem hr))
      rw [hg] at hrow
      exact Formula.over_sym.mp (Formula.over_eq.mp hrow).1
    · exact List.forall_mem_append.mpr ⟨List.forall_mem_append.mpr ⟨hrows', hall⟩, hdistinct⟩

/-- The counts of the formula that two terms differ are backed by the tuples of the run. -/
theorem vouches_difference {schemas : SchemaMap} {m : Matching} {budget : Budget}
    {left right : Term} {f : Formula} (hnames : NamedApart schemas left right)
    (hcolumns : ∀ attr ∈ left.columns ++ right.columns, '!' ∉ attr.toList)
    (h : Returns (difference m budget left right) (.ofSchemas schemas) f e) :
    ∃ aligned, m.aligned left right = .ok aligned ∧
      f.Over (Vouches ⟨schemas, aligned, left, right⟩ e.tuples) := by
  obtain ⟨aligned, l, lscope, r, rscope, a, b, nulls, stars, e₁, e₂, e₃, e₄, e₅, haligned, hleft,
    hright, ha, hb, hnulls, hstars, rfl⟩ := exists_of_difference h
  let c : Setting := ⟨schemas, aligned, left, right⟩
  have htraced : ∀ t ∈ [left, right], c.Traced [] t := Traced.of_pair (c := c) hnames hcolumns
  rw [List.forall_mem_cons, List.forall_mem_singleton] at htraced
  have hstanding : c.Standing (.ofSchemas schemas) :=
    ⟨⟨tidy_ofSchemas hnames.columns, rfl⟩, fun _ _ => rfl⟩
  have hground := groundwork_of_terms hstanding.atRest (fun x hx => hx.1)
    ⟨htraced.1.shows, htraced.2.shows⟩ hleft hright ha hb hnulls
  have htuples : e₅.tuples = [] := hground.tuples
  have hscope : ∀ p ∈ lscope ++ rscope, Clean p.1.name ∧ c.Traced e₅.tuples p.2.term := by
    have hside : ∀ {t t' : Term} {side : Side} {scope : List Counted} {e e' : Encoder},
        c.Traced [] t → Returns (stripTerm t side) e (t', scope) e' →
        ∀ p ∈ scope, Clean p.1.name ∧ c.Traced e₅.tuples p.2.term := by
      intro t t' side scope e e' ht hstrip p hp
      have hmem := (stripTerm_ok hstrip).sums ▸ List.mem_map_of_mem (f := Prod.snd) hp
      exact ⟨clean_of_mem_stripTerm hstrip p hp, htuples ▸ ht.summation hmem⟩
    exact List.forall_mem_append.mpr ⟨hside htraced.1 hleft, hside htraced.2 hright⟩
  obtain ⟨hkeep, -, hall⟩ := c.vouches_rule.layer _
    ⟨hstanding.groundwork hground, hstanding.groundwork hground, hscope⟩ hstars
  have hend := hkeep (hstanding.groundwork hground)
  refine ⟨aligned, haligned, Formula.over_and.mpr ?_⟩
  refine List.forall_mem_append.mpr ⟨List.forall_mem_append.mpr ⟨fun g hg s hs => ?_, hall⟩, ?_⟩
  · exact vouches_mono (List.nil_subset _)
      (vouches_of_denotes (hground.over_all (fun _ hk => hk.1) g hg s hs))
  · exact fun g hg s hs =>
      vouches_of_denotes (e := e) (over_distinctness hend.atRest.tidy g hg s hs)

end Layers

end Setting

/-! ### What reaches a database -/

/-- The tuple is listed with the table, and if a model says that it is in the table, then the table
has its row. -/
def Encoding.Reaches (F : Encoding) (table x : String) : Prop :=
  (∃ info ∈ F.tuples, info.name = x ∧ info.table = some table) ∧
    ∀ (a : Assignment) (output : String) (schemas : SchemaMap) (db : Database),
      Database.ofAssignment a F.tuples output schemas = .ok db → 0 < a.copies (countName table x) →
      ∃ r ∈ db.rows table, r.same (Database.ownRow a schemas F.tuples x) = true

/-- A tuple that is listed with a table contributes to it. -/
theorem Encoding.reaches_of_mem {F : Encoding} {info : TupleInfo} {table : String}
    (hinfo : info ∈ F.tuples) (htable : info.table = some table) : F.Reaches table info.name := by
  refine ⟨⟨info, hinfo, rfl, htable⟩, fun a output schemas db h hcount => ?_⟩
  obtain ⟨-, hgathers, -⟩ := Database.gathers_of_ofAssignment h
  refine Table.exists_of_multiplicity_pos (lt_of_lt_of_le hcount ?_)
  have hown : info.copies a table = a.copies (countName table info.name) := if_pos htable
  have hle := List.le_sum_of_mem (List.mem_map_of_mem (f := fun t : TupleInfo =>
    if (Database.ownRow a schemas F.tuples t.name).same
      (Database.ownRow a schemas F.tuples info.name) then t.copies a table else 0) hinfo)
  rw [if_pos (Row.same_refl _), hown] at hle
  exact hle.trans_eq (hgathers.multiplicity_eq table _).symm

/-- A count in an encoding of freshened terms that is about a reported tuple reaches the database if
and only if it does not come of a variable that became the same tuple as one that ranges over
another table.  So all counts of a table do if the variables that are members of it range over it,
with those that they are unified with. -/
theorem encodePair_membership {input fresh : Input}
    (hnames : ∀ x ∈ input.left.names ++ input.right.names, Clean x ∧ '#' ∉ x.toList)
    (hfresh : input.freshen = .ok fresh) {schemas : SchemaMap} {m : Matching} {budget : Budget}
    (hcolumns : ∀ attr, (Lexicon.ofPair schemas fresh.left fresh.right).column attr →
      '!' ∉ attr.toList)
    {F : Encoding} (h : encodePair schemas m budget fresh.left fresh.right = .ok F) :
    ∃ aligned, m.aligned fresh.left fresh.right = .ok aligned ∧
      ∀ table x, ⟨countName table x, .nat⟩ ∈ F.formula.occurring →
        x ∈ F.tuples.map TupleInfo.name →
        (F.Reaches table x ↔
          ¬Setting.Diverts ⟨schemas, aligned, fresh.left, fresh.right⟩ F.tuples table x) ∧
        (Setting.Confines ⟨schemas, aligned, fresh.left, fresh.right⟩ table →
          F.Reaches table x) := by
  have happart : NamedApart schemas fresh.left fresh.right :=
    Input.namedApart_of_freshen hnames hfresh fun x S hS col hcol =>
      hcolumns _ (.inr ⟨x, S, hS, List.mem_map_of_mem hcol⟩)
  obtain ⟨f, e, hreturns, hsimplify⟩ := encodePair_eq_ok h
  obtain ⟨aligned, haligned, hover⟩ :=
    Setting.vouches_difference happart (fun attr hattr => hcolumns attr (.inl hattr)) hreturns
  obtain ⟨aligned', haligned', hintroduces⟩ := Encoder.introduces_difference hreturns
  cases haligned.symm.trans haligned'
  obtain ⟨hnodup, hforms⟩ := hintroduces.names_of_pair
    ⟨happart.distinct, happart.apart, happart.bound, happart.free, fun x S hS => by cases hS⟩
  rw [← tuples_of_encodePair h hreturns] at hover hnodup hforms
  refine ⟨aligned, haligned, fun table x hcount hx => ?_⟩
  suffices hiff : F.Reaches table x ↔
      ¬Setting.Diverts ⟨schemas, aligned, fresh.left, fresh.right⟩ F.tuples table x from
    ⟨hiff, fun hconfines => hiff.mpr hconfines.not_diverts⟩
  refine ⟨?_, fun hdiverts => ?_⟩
  · rintro ⟨⟨info, hinfo, hname, htable⟩, -⟩ ⟨b, -, b', -, -, -, hother, hlisted⟩
    exact hother ((hlisted info hinfo hname).symm.trans htable)
  · -- Reported names are not free in the terms.
    have hreported : Clean x ∧ ¬Mentioned [fresh.left, fresh.right] x := by
      rcases hforms x hx with ⟨hx, -⟩ | ⟨k, rfl⟩
      · exact ⟨(happart.bound x hx).settled.clean, fun hfree => happart.apart x hfree hx⟩
      · refine ⟨(settled_common (Nat.lt_succ_self k)).clean, fun hfree => ?_⟩
        exact (happart.free _ hfree).settled.ne_common k rfl
    have hbacks := hover _ (Formula.occurring_simplify hsimplify hcount) table x hreported.1 rfl
    obtain ⟨b, hb, b', hb', hsays, hcouples, info, hinfo, rfl, htable⟩ :=
      hbacks.resolve_left hreported.2
    by_contra hreaches
    refine hdiverts ⟨b, hb, b', hb', hsays, hcouples, fun hsame => ?_, fun info' hinfo' hname => ?_⟩
    · exact hreaches (Encoding.reaches_of_mem hinfo (htable.trans hsame))
    · rw [List.inj_on_of_nodup_map hnodup hinfo' hinfo hname, htable]

/-- The rows of two tables, one on each side. -/
def Input.acrossTables : Input where
  schemas := .ofList (["x", "y"].map fun x => (x, .single))
  output := "out"
  left := .sumOver ["x"] (.table "r" (.base "x"))
  right := .sumOver ["y"] (.table "s" (.base "y"))

/-- If the variables of two tables become one tuple, then only the count of the first table reaches
the database. -/
theorem encodePair_membership_acrossTables : ∃ (fresh : Input) (F : Encoding),
    (∀ x ∈ Input.acrossTables.left.names ++ Input.acrossTables.right.names,
      Clean x ∧ '#' ∉ x.toList) ∧
    Input.acrossTables.freshen = .ok fresh ∧
    encodePair fresh.schemas ⟨[.ofList [.base "x#0", .base "y#1"]]⟩ .unlimited fresh.left
      fresh.right = .ok F ∧
    ⟨countName "r" "#ct2", .nat⟩ ∈ F.formula.occurring ∧
    ⟨countName "s" "#ct2", .nat⟩ ∈ F.formula.occurring ∧
    F.Reaches "r" "#ct2" ∧ ¬F.Reaches "s" "#ct2" := by
  have hnames : ∀ x ∈ Input.acrossTables.left.names ++ Input.acrossTables.right.names,
      Clean x ∧ '#' ∉ x.toList := by decide +kernel
  let fresh : Input := ⟨.ofList (["x", "y", "x#0", "y#1"].map fun x => (x, .single)), "out",
    .sumOver ["x#0"] (.table "r" (.base "x#0")), .sumOver ["y#1"] (.table "s" (.base "y#1"))⟩
  have hfresh : Input.acrossTables.freshen = .ok fresh := rfl
  have hcolumns : ∀ attr, (Lexicon.ofPair fresh.schemas fresh.left fresh.right).column attr →
      '!' ∉ attr.toList := by
    rintro attr (hattr | ⟨x, S, hS, hattr⟩)
    · revert attr
      decide +kernel
    · have hall : ∀ p ∈ fresh.schemas.entries, ∀ attr ∈ p.2.columns.map Column.name,
          '!' ∉ attr.toList := by decide +kernel
      exact hall _ (NameMap.mem_of_get? hS) attr hattr
  obtain ⟨F, hF, htuples, hr, hs⟩ := exists_of_decide
    (x := encodePair fresh.schemas ⟨[.ofList [.base "x#0", .base "y#1"]]⟩ .unlimited fresh.left
      fresh.right)
    (P := fun F => F.tuples = [⟨"#ct2", some "r", some .single⟩] ∧
      ⟨countName "r" "#ct2", .nat⟩ ∈ F.formula.occurring ∧
      ⟨countName "s" "#ct2", .nat⟩ ∈ F.formula.occurring) (by decide +kernel)
  obtain ⟨aligned, haligned, hreaches⟩ := encodePair_membership hnames hfresh hcolumns hF
  obtain rfl : (⟨[.ofList [.base "x#0", .base "y#1"]]⟩ : Matching) = aligned :=
    Except.ok.inj haligned
  have hreported : "#ct2" ∈ F.tuples.map TupleInfo.name := by simp [htuples]
  refine ⟨fresh, F, hnames, hfresh, hF, hr, hs, (hreaches "r" "#ct2" hr hreported).1.mpr ?_,
    ?_⟩
  · rintro ⟨b, -, b', -, -, -, hother, hlisted⟩
    exact hother (hlisted _ (htuples ▸ List.mem_singleton_self _) rfl).symm
  · rw [(hreaches "s" "#ct2" hs hreported).1, not_not]
    refine ⟨⟨.base "y#1", some "s"⟩, by decide +kernel, ⟨.base "x#0", some "r"⟩, by decide +kernel,
      by decide +kernel, .inr ⟨0, .ofList [.base "x#0", .base "y#1"], rfl, by decide +kernel,
      by decide +kernel, by decide +kernel⟩, by decide, ?_⟩
    rw [htuples]
    exact List.forall_mem_singleton.mpr fun _ => rfl

/-- The rows that two tables have in common. -/
def Input.twoTables : Input where
  schemas := .ofList [("x", .single)]
  output := "out"
  left := .sumOver ["x"] (.mul [.table "r" (.base "x"), .table "s" (.base "x")])
  right := .const .zero

/-- The count of a tuple in the second table of a product is in the formula, but the tuple is not
listed with that table, and in a model that counts it the table stays empty. -/
theorem encodePair_twoTables : ∃ (fresh : Input) (F : Encoding) (a : Assignment) (db : Database),
    Input.twoTables.freshen = .ok fresh ∧
    encodePair fresh.schemas ⟨[]⟩ .unlimited fresh.left fresh.right = .ok F ∧
    ⟨countName "s" "x#0", .nat⟩ ∈ F.formula.occurring ∧
    "x#0" ∈ F.tuples.map TupleInfo.name ∧ (∀ info ∈ F.tuples, info.table ≠ some "s") ∧
    0 < a.copies (countName "s" "x#0") ∧
    Database.ofAssignment a F.tuples "out" fresh.schemas = .ok db ∧ (db.rows "s").length = 0 := by
  let fresh : Input := ⟨.ofList (["x", "x#0"].map fun x => (x, .single)), "out",
    .sumOver ["x#0"] (.mul [.table "r" (.base "x#0"), .table "s" (.base "x#0")]), .const .zero⟩
  let a : Assignment := .ofList [("r!x#0", .int 1), ("s!x#0", .int 1), ("x#0.a", .int 0)]
  obtain ⟨F, hF, htuples, hs⟩ := exists_of_decide
    (x := encodePair fresh.schemas ⟨[]⟩ .unlimited fresh.left fresh.right)
    (P := fun F => F.tuples = [⟨"x#0", some "r", some .single⟩] ∧
      ⟨countName "s" "x#0", .nat⟩ ∈ F.formula.occurring) (by decide +kernel)
  obtain ⟨db, hdb, hempty⟩ := exists_of_decide
    (x := Database.ofAssignment a [⟨"x#0", some "r", some .single⟩] "out" fresh.schemas)
    (P := fun db => (db.rows "s").length = 0) (by decide +kernel)
  exact ⟨fresh, F, a, db, rfl, hF, hs, by simp [htuples], by simp [htuples], by decide +kernel,
    htuples ▸ hdb, hempty⟩

end BagEquiv
