/-
**Layers of stars.**

The summations of a layer that have a matched variable are grouped by the schema of that variable.
A group is added up over the rows of the tables of all its members, each row once, and a row counts
for nothing in a member whose table does not have it.  A summation without a matched variable is
added up over all choices of rows for its variables.  Below a layer there are fewer summations and
variables, so the stars of all layers hold of the numbers of their summations.

Main definition:

* `World.choices` — the worlds in which some tuples are bound to rows.

Main result:

* `Encoder.layered_rule` — **the stars of a layer and of those below it**.
-/

import Mathlib.Data.List.Dedup
import BagEquiv.Proofs.LayerRuns
import BagEquiv.Proofs.StarEncoding

set_option autoImplicit false

namespace BagEquiv

variable {schema : Option Schema}

/-! ### What is left below a layer -/

namespace OpenSum

variable {s : OpenSum} {v : Var} {tuple x : String}

theorem mentions_body (h : s.body.mentions x = true) :
    s.term.mentions x = true ∨ ∃ v ∈ s.vars, v.tuple = x := by
  rw [← bound_eq_true, term, Term.mentions, h, Bool.and_true]
  cases Term.bound x s.vars <;> simp

theorem mentions_without (h : (s.without v).mentions x = true) (hx : x ≠ v.tuple) :
    s.term.mentions x = true := by
  have hbound : Term.bound x (s.vars.erase v) = false → Term.bound x s.vars = false := by
    simp only [Bool.eq_false_iff, ne_eq, bound_eq_true]
    rintro herase ⟨u, hu, rfl⟩
    exact herase ⟨u, VarSet.mem_erase.mpr ⟨hu, fun heq => hx (heq ▸ rfl)⟩, rfl⟩
  rw [term, Term.mentions, Bool.and_eq_true, Bool.not_eq_true']
  rw [without] at h
  split at h
  · next hempty =>
      refine ⟨hbound ?_, h⟩
      rw [Term.bound, List.isEmpty_iff.mp hempty, List.any_nil]
  · rw [Term.mentions, Bool.and_eq_true, Bool.not_eq_true'] at h
    exact ⟨hbound h.1, h.2⟩

/-- What is left mentions what the summation mentions, and the tuple of the layer. -/
theorem mentions_rest (hs : s.Admits tuple) (hv : v ∈ s.vars)
    (h : (s.rest (some v) tuple).mentions x = true) : x = tuple ∨ s.term.mentions x = true := by
  rw [rest_eq_rename (fun _ => hs.ne_of_mem_vars hv)] at h
  exact (Term.mentions_rename h).imp_right fun h => mentions_without h.2 h.1

theorem regular_rest (h : s.body.Regular) (matched : Option Var) (tuple : String) :
    (s.rest matched tuple).Regular := by
  cases matched with
  | none => exact h
  | some v =>
      rw [rest_some]
      split
      · exact h.rename _ _
      · exact h.rename _ _

end OpenSum

/-- Terms that bind less are ready, if what else they mention is settled. -/
theorem Ready.below {m n : ℕ} {ts us : List Term} (h : Ready m ts) (hmn : m ≤ n)
    (hbound : (us.flatMap Term.boundVars).Sublist (ts.flatMap Term.boundVars))
    (hfree : ∀ x, Mentioned us x → Mentioned ts x ∨ Settled n x ∧ x ∉ boundNames us)
    (hregular : ∀ u ∈ us, u.Regular) : Ready n us := by
  have hnames : (boundNames us).Sublist (boundNames ts) := hbound.map _
  refine ⟨h.nodup.sublist hnames, fun x hx => h.bound x (hnames.subset hx), fun x hx => ?_,
    fun x hx => ?_, hregular⟩
  · rcases hfree x hx with hx | hx
    · exact (h.free x hx).mono hmn
    · exact hx.1
  · rcases hfree x hx with hx | hx
    · exact fun hmem => h.apart x hx (hnames.subset hmem)
    · exact hx.2

theorem Settled.ne_common {x : String} (h : Settled 0 x) (k : ℕ) : x ≠ "#ct" ++ toString k :=
  fun heq => absurd (h.common k heq) (Nat.not_lt_zero k)

/-- A summation of ready terms can be resolved with a new tuple. -/
theorem Ready.admits {n : ℕ} {ts : List Term} (h : Ready n ts) {s : OpenSum} (hs : s.term ∈ ts)
    (k : ℕ) : s.Admits ("#ct" ++ toString k) where
  nodup := by
    have hsub : (s.term.boundVars).Sublist (ts.flatMap Term.boundVars) :=
      List.sublist_flatten_of_mem (List.mem_map_of_mem hs)
    rw [s.boundVars_term] at hsub
    exact h.nodup.sublist (hsub.map _)
  fresh b hb := by
    refine (h.bound _ (List.mem_map.mpr ⟨b, List.mem_flatMap.mpr ⟨_, hs, ?_⟩, rfl⟩)).ne_common k
    rwa [s.boundVars_term]

/-! ### Rows for tuples -/

namespace World

theorem differs_enter (w : World) (x : String) (schema : Option Schema) (r : ExactRow) :
    w.Differs {x} (w.enter x schema r) :=
  ⟨rfl, rfl, rfl, fun _ hy => ⟨Function.update_of_ne hy .., Function.update_of_ne hy ..⟩⟩

theorem Furnished.enter {L : Legend} {w : World} (h : w.Furnished L) {x : String} {S : Schema}
    {r : ExactRow} (hr : r.Fits L S) : (w.enter x (some S) r).Furnished L := by
  constructor
  · intro y q hq
    by_cases hy : y = x
    · subst hy
      cases hq.symm.trans (Function.update_self ..)
      exact ⟨S, Function.update_self .., hr⟩
    · rw [((differs_enter w x (some S) r).other y hy).1] at hq
      rw [((differs_enter w x (some S) r).other y hy).2]
      exact h.fits y q hq
  · intro y T hT
    by_cases hy : y = x
    · subst hy
      exact ⟨r, Function.update_self ..⟩
    · rw [((differs_enter w x (some S) r).other y hy).2] at hT
      rw [((differs_enter w x (some S) r).other y hy).1]
      exact h.full y T hT

/-- The worlds in which the given tuples are bound to rows from the lists given for them. -/
def choices : List (String × List ExactRow) → World → List World
  | [], w => [w]
  | (x, rs) :: rest, w => rs.flatMap fun r => choices rest (w.bind x r)

theorem total_eq_sum_choices (f : World → WithTop ℚ) (ranges : List (String × List ExactRow))
    (w : World) : w.total f ranges = ((w.choices ranges).map f).sum := by
  induction ranges generalizing w with
  | nil => simp [total, choices]
  | cons range ranges ih =>
      obtain ⟨x, rs⟩ := range
      rw [total, choices, List.map_flatMap, List.flatMap_def, List.sum_flatten, List.map_map]
      exact congrArg List.sum (List.map_congr_left fun r _ => ih (w.bind x r))

/-- What the world of a choice has in common with the world before it. -/
theorem of_mem_choices {ranges : List (String × List ExactRow)} {w w' : World}
    (h : w' ∈ w.choices ranges) :
    w.Differs {x | ∃ range ∈ ranges, range.1 = x} w' ∧ w'.schemas = w.schemas ∧
      (∀ x r, w'.tuples x = some r →
        w.tuples x = some r ∨ ∃ range ∈ ranges, range.1 = x ∧ r ∈ range.2) ∧
      ∀ x, (w.tuples x).isSome → (w'.tuples x).isSome := by
  induction ranges generalizing w with
  | nil =>
      obtain rfl := List.mem_singleton.mp h
      exact ⟨⟨rfl, rfl, rfl, fun _ _ => ⟨rfl, rfl⟩⟩, rfl, fun _ _ => .inl, fun _ => id⟩
  | cons range ranges ih =>
      obtain ⟨y, rs⟩ := range
      obtain ⟨r, hr, h⟩ := List.mem_flatMap.mp h
      obtain ⟨hdiffers, hschemas, htuples, hsome⟩ := ih h
      refine ⟨⟨hdiffers.rows, hdiffers.count, hdiffers.placeholders, fun x hx => ?_⟩, hschemas,
        fun x q hq => ?_, fun x hx => hsome x ?_⟩
      · simp only [List.mem_cons, exists_eq_or_imp, Set.mem_ofPred_eq, not_or] at hx
        obtain ⟨htuples, hschemas⟩ := hdiffers.other x hx.2
        exact ⟨htuples.trans (w.tuples_bind_of_ne (Ne.symm hx.1) r), hschemas⟩
      · rcases htuples x q hq with hq | ⟨range, hrange, heq, hmem⟩
        · by_cases hx : x = y
          · subst hx
            rw [tuples_bind_self, Option.some.injEq] at hq
            exact .inr ⟨_, List.mem_cons_self, rfl, hq ▸ hr⟩
          · exact .inl ((w.tuples_bind_of_ne hx r).symm.trans hq)
        · exact .inr ⟨range, List.mem_cons_of_mem _ hrange, heq, hmem⟩
      · by_cases hxy : x = y
        · simp [hxy]
        · rwa [w.tuples_bind_of_ne hxy]

end World

namespace Encoder

theorem terms_counted (ms : List Member) :
    terms (ms.map Member.counted) = ms.map fun m => m.sum.term := by
  rw [terms, List.map_map]
  rfl

variable {e e' : Encoder} {ms : List Member} {lanes : List Lane}

/-! ### The worlds of a group -/

theorem groupTuple_eq (schema : Option Schema) (table : Option String) (e : Encoder) :
    groupTuple schema table e = ("#ct" ++ toString e.next,
      { e with
        next := e.next + 1
        schemas := schema.elim e.schemas (e.schemas.insert ("#ct" ++ toString e.next))
        tuples := e.tuples ++ [⟨"#ct" ++ toString e.next, table, schema⟩] }) := by
  cases schema <;> rfl

theorem schemas_groupTuple (schema : Option Schema) (table : Option String) (e : Encoder)
    {x : String} (hx : x ≠ "#ct" ++ toString e.next ∨ schema.isSome) :
    (groupTuple schema table e).2.schemas.get? x =
      if x = "#ct" ++ toString e.next then schema else e.schemas.get? x := by
  cases schema with
  | none =>
      rw [if_neg (hx.resolve_right (by simp))]
      rfl
  | some S => exact NameMap.get?_insert _ _ _ _

theorem tidy_groupTuple (table : Option String)
    (hschema : ∀ S ∈ schema, ∀ col ∈ S.columns, '!' ∉ col.name.toList) (ht : e.Tidy) :
    (groupTuple schema table e).2.Tidy := by
  have hschemas := fun x => schemas_groupTuple schema table e (x := x)
  rw [groupTuple_eq] at hschemas ⊢
  refine ⟨fun s v hs => ?_, ht.injective, ht.counted, ht.counts, fun x S hS => ?_⟩
  · obtain ⟨k, hk, hv⟩ := ht.literals s v hs
    exact ⟨k, Nat.lt_succ_of_lt hk, hv⟩
  · cases schema with
    | none => exact ht.columns x S hS
    | some T =>
        rw [hschemas x (.inr rfl)] at hS
        split at hS
        · exact hschema S hS
        · exact ht.columns x S hS

/-- The schema of a group is that of a variable. -/
theorem Grouped.exists_schema {schemas : SchemaMap} (h : Grouped schemas (schema, ms)) :
    ∃ x, schemas.get? x = schema := by
  obtain ⟨m, hm⟩ := List.exists_mem_of_ne_nil _ h.nonempty
  obtain ⟨v, -, hv⟩ := h.matched m hm
  exact ⟨v.tuple, hv⟩

theorem later_groupTuple (table : Option String) (h : Grouped e.schemas (schema, ms)) :
    Later e (groupTuple schema table e).2 := by
  have hschemas := fun x => schemas_groupTuple schema table e (x := x)
  obtain ⟨y, hy⟩ := h.exists_schema
  have htidy : e.Tidy → (groupTuple schema table e).2.Tidy := fun ht =>
    tidy_groupTuple table (fun S hS => ht.columns y S (hy.trans hS)) ht
  rw [groupTuple_eq] at hschemas htidy ⊢
  refine ⟨Nat.le_succ _, fun _ _ hs => hs, htidy, fun x hx => ?_⟩
  have hne : x ≠ "#ct" ++ toString e.next := fun heq => lt_irrefl _ (hx e.next heq)
  rw [hschemas x (.inl hne), if_neg hne]

/-- The rows of the tables that the matched variables of some members range over, each once. -/
noncomputable def groupRows (w : World) (ms : List Member) : List ExactRow :=
  open Classical in
  (ms.flatMap fun m => (m.matched.bind m.sum.tableOf?).elim [] w.rows).dedup

theorem mem_groupRows {w : World} {r : ExactRow} :
    r ∈ groupRows w ms ↔ ∃ m ∈ ms, ∃ v, m.matched = some v ∧
      ∃ table, m.sum.tableOf? v = some table ∧ r ∈ w.rows table := by
  classical
  rw [groupRows, List.mem_dedup, List.mem_flatMap]
  refine exists_congr fun m => and_congr_right fun _ => ?_
  cases m.matched with
  | none => simp
  | some v => cases htable : m.sum.tableOf? v <;> simp [htable]

/-- A row that the table of a member does not have counts for nothing in the member, so the member
can be added up over the rows of the whole group. -/
theorem number_eq_sum_groupRows {w : World} (hlisted : w.Listed) {m : Member} (hm : m ∈ ms)
    {v : Var} (hv : m.matched = some v) (hvars : v ∈ m.sum.vars) {tuple : String}
    (hadmits : m.sum.Admits tuple) (hfree : m.sum.body.mentions tuple = false)
    (hp : ∀ x, w.placeholders x = none) :
    LessDefined (m.sum.number w) (((groupRows w ms).map
      (w.enter tuple (w.schemas v.tuple))).map fun w' => (m.rest tuple).number w').sum := by
  by_cases hall : ∀ u ∈ m.sum.vars.toList, (m.sum.body.tableOf? u.tuple).isSome
  · right
    obtain ⟨table, htable⟩ := Option.isSome_iff_exists.mp (hall v hvars)
    have hplace : w.placeholders tuple = w.placeholders v.tuple := by rw [hp, hp]
    rw [Member.rest, hv,
      OpenSum.number_eq_sum_rest hadmits hvars hall htable hfree hplace, List.map_map]
    classical
    have hperm : (groupRows w ms).Perm
        (w.rows table ++ (groupRows w ms).filter fun r => decide (r ∉ w.rows table)) := by
      have hnodup : (groupRows w ms).Nodup := List.nodup_dedup _
      refine (List.perm_ext_iff_of_nodup hnodup (List.nodup_append'.mpr
        ⟨hlisted.nodup table, hnodup.filter _, ?_⟩)).mpr fun r => ?_
      · intro r hr hr'
        exact of_decide_eq_true (List.mem_filter.mp hr').2 hr
      · rw [List.mem_append, List.mem_filter, decide_eq_true_eq]
        refine ⟨fun hr => ?_, fun hr => hr.elim (fun hr => ?_) And.left⟩
        · exact (Classical.em (r ∈ w.rows table)).imp_right fun hr' => ⟨hr, hr'⟩
        · exact mem_groupRows.mpr ⟨m, hm, v, hv, table, htable, hr⟩
    rw [(hperm.map _).sum_eq, List.map_append, List.sum_append]
    have hzero : (((groupRows w ms).filter fun r => decide (r ∉ w.rows table)).map
        ((fun w' => (m.sum.rest (some v) tuple).number w') ∘
          w.enter tuple (w.schemas v.tuple))).sum = 0 := by
      refine List.sum_eq_zero fun n hn => ?_
      obtain ⟨r, hr, rfl⟩ := List.mem_map.mp hn
      exact OpenSum.number_rest_of_count_eq_zero hadmits hvars hall htable hfree hplace
        (hlisted.count table r (of_decide_eq_true (List.mem_filter.mp hr).2))
    rw [hzero, add_zero]
    rfl
  · left
    rw [OpenSum.number_eq, World.summation, if_neg hall]

/-- What is left of the members of a group binds the other variables. -/
theorem sublist_group (h : Ready e.next (ms.map fun m => m.sum.term))
    (hmatched : ∀ m ∈ ms, ∃ v, m.matched = some v ∧ v ∈ m.sum.vars) :
    ((ms.map fun m => m.rest ("#ct" ++ toString e.next)).flatMap Term.boundVars).Sublist
      ((ms.map fun m => m.sum.term).flatMap Term.boundVars) := by
  rw [List.flatMap_map, List.flatMap_map]
  refine List.Sublist.flatMap_right ms fun m hm => ?_
  obtain ⟨v, hv, hvars⟩ := hmatched m hm
  rw [Member.rest, hv, (h.admits (List.mem_map_of_mem hm) e.next).boundVars_rest hvars,
    OpenSum.boundVars_term, OpenSum.boundVars]
  exact List.filter_sublist.append_right _

theorem mentioned_group (h : Ready e.next (ms.map fun m => m.sum.term))
    (hmatched : ∀ m ∈ ms, ∃ v, m.matched = some v ∧ v ∈ m.sum.vars) {x : String}
    (hx : Mentioned (ms.map fun m => m.rest ("#ct" ++ toString e.next)) x) :
    x = "#ct" ++ toString e.next ∨ Mentioned (ms.map fun m => m.sum.term) x := by
  obtain ⟨t, ht, hx⟩ := hx
  obtain ⟨m, hm, rfl⟩ := List.mem_map.mp ht
  obtain ⟨v, hv, hvars⟩ := hmatched m hm
  rw [Member.rest, hv] at hx
  refine (OpenSum.mentions_rest (h.admits (List.mem_map_of_mem hm) e.next) hvars hx).imp_right ?_
  exact fun hx => ⟨_, List.mem_map_of_mem hm, hx⟩

theorem ready_group (h : Ready e.next (ms.map fun m => m.sum.term))
    (hmatched : ∀ m ∈ ms, ∃ v, m.matched = some v ∧ v ∈ m.sum.vars) :
    Ready (e.next + 1) (ms.map fun m => m.rest ("#ct" ++ toString e.next)) := by
  have hsub := sublist_group h hmatched
  refine h.below (Nat.le_succ _) hsub (fun x hx => ?_) fun u hu => ?_
  · rcases mentioned_group h hmatched hx with rfl | hx
    · refine .inr ⟨settled_common (Nat.lt_succ_self _), fun hmem => ?_⟩
      exact (h.bound _ ((hsub.map _).subset hmem)).ne_common _ rfl
    · exact .inl hx
  · obtain ⟨m, hm, rfl⟩ := List.mem_map.mp hu
    exact OpenSum.regular_rest (h.regular m.sum.term (List.mem_map_of_mem hm)) _ _

/-- The members of a group are added up over the rows of their tables. -/
theorem spread_group (table : Option String) (hready : Ready e.next (ms.map fun m => m.sum.term))
    (hsymbols : (ms.map Member.symbol).Nodup) (hgrouped : Grouped e.schemas (schema, ms))
    (hvars : ∀ m ∈ ms, ∀ v ∈ m.matched, v ∈ m.sum.vars) (hlanes : lanes.map Lane.member = ms) :
    Spread (ms.map Member.counted) ("#ct" ++ toString e.next) lanes {"#ct" ++ toString e.next} e
      (groupTuple schema table e).2 := by
  have hmatched : ∀ m ∈ ms, ∃ v, m.matched = some v ∧ v ∈ m.sum.vars := fun m hm => by
    obtain ⟨v, hv, _⟩ := hgrouped.matched m hm
    exact ⟨v, hv, hvars m hm v hv⟩
  have hrests : (lanes.map fun l => l.member.rest ("#ct" ++ toString e.next)) =
      ms.map fun m => m.rest ("#ct" ++ toString e.next) := by
    rw [← hlanes, List.map_map]
    rfl
  have hsub := sublist_group hready hmatched
  constructor
  · exact later_groupTuple table hgrouped
  · rw [← hlanes, List.map_map]
    rfl
  · rwa [List.map_map]
  · intro x hx
    exact .inr ⟨e.next, le_refl _, hx⟩
  · rw [hrests, terms_counted]
    intro b hb
    have hb := hsub.subset hb
    exact ⟨hb, (hready.bound _ (List.mem_map.mpr ⟨b, hb, rfl⟩)).ne_common _⟩
  intro L w ρ hw hlisted hstocked
  rw [terms_counted] at hw hstocked
  rw [hrests]
  -- The matched variables have the schema of the group in the world too.
  have hschema : ∀ m ∈ ms, ∀ v, m.matched = some v → w.schemas v.tuple = schema ∧
      ∃ S, schema = some S ∧ ∀ table ∈ m.sum.tableOf? v, ∀ r ∈ w.rows table, r.Fits L S := by
    intro m hm v hv
    obtain ⟨v', hv', hget⟩ := hgrouped.matched m hm
    cases hv.symm.trans hv'
    have hbound : (⟨v, m.sum.tableOf? v⟩ : BoundVar) ∈
        (ms.map fun m => m.sum.term).flatMap Term.boundVars := by
      refine List.mem_flatMap.mpr ⟨_, List.mem_map_of_mem hm, ?_⟩
      rw [OpenSum.boundVars_term]
      exact List.mem_append_left _ (OpenSum.mem_ofBinder_self (hvars m hm v hv))
    have hsettled := hready.bound _ (List.mem_map.mpr ⟨_, hbound, rfl⟩)
    have hw := (hw.schemas v.tuple (.inr hsettled.ne_common)).symm.trans hget
    obtain ⟨S, hS, hfits⟩ := hstocked _ hbound
    exact ⟨hw, S, hw.symm.trans hS, hfits⟩
  refine ⟨(groupRows w ms).map (w.enter ("#ct" ++ toString e.next) schema), ?_, ?_⟩
  · rw [List.forall_mem_map]
    intro r hr
    obtain ⟨m, hm, v, hv, name, hname, hr⟩ := mem_groupRows.mp hr
    obtain ⟨_, S, rfl, hfits⟩ := hschema m hm v hv
    refine ⟨w.differs_enter _ _ r, hw.furnished.enter (hfits name hname r hr), fun x hx => ?_⟩
    rw [schemas_groupTuple _ _ _ (.inr rfl)]
    split
    · next heq =>
        rw [heq]
        exact (Function.update_self (f := w.schemas) ..).symm
    · next hne =>
        rw [((w.differs_enter _ (some S) r).other x hne).2]
        refine hw.schemas x (hx.imp_left fun hx => ?_)
        exact (mentioned_group hready hmatched hx).resolve_left hne
  · intro l hl
    have hm : l.member ∈ ms := hlanes ▸ List.mem_map_of_mem hl
    obtain ⟨v, hv, hv'⟩ := hmatched _ hm
    have hadmits := hready.admits (List.mem_map_of_mem hm) e.next
    rw [← (hschema _ hm v hv).1]
    refine number_eq_sum_groupRows hlisted hm hv hv' hadmits ?_ hw.plain
    rw [Bool.eq_false_iff]
    intro hmentions
    rcases OpenSum.mentions_body hmentions with hx | ⟨u, hu, hx⟩
    · exact lt_irrefl _ ((hready.free _ ⟨_, List.mem_map_of_mem hm, hx⟩).common e.next rfl)
    · exact hadmits.fresh _ (List.mem_append_left _ (OpenSum.mem_ofBinder_self hu)) hx

/-! ### The worlds of a single summation -/

variable {m : Member} {tuple : String}

theorem rest_of_unmatched (hm : m.matched = none) (tuple : String) :
    m.rest tuple = m.sum.body := by
  rw [Member.rest, hm, OpenSum.rest_none]

theorem sublist_single (m : Member) :
    ([m.sum.body].flatMap Term.boundVars).Sublist ([m.sum.term].flatMap Term.boundVars) := by
  rw [List.flatMap_singleton, List.flatMap_singleton, OpenSum.boundVars_term]
  exact List.sublist_append_right _ _

/-- The variables of a summation are not bound inside it again. -/
theorem notMem_boundNames_single {n : ℕ} (h : Ready n [m.sum.term]) {v : Var}
    (hv : v ∈ m.sum.vars) : v.tuple ∉ boundNames [m.sum.body] := by
  have hnodup := h.nodup
  rw [boundNames, List.flatMap_singleton, OpenSum.boundVars_term, OpenSum.boundVars,
    List.map_append, List.nodup_append] at hnodup
  rw [boundNames, List.flatMap_singleton]
  intro hmem
  exact hnodup.2.2 _ (List.mem_map.mpr ⟨_, OpenSum.mem_ofBinder_self hv, rfl⟩) _ hmem rfl

theorem mem_boundNames_single {v : Var} (hv : v ∈ m.sum.vars) :
    v.tuple ∈ boundNames [m.sum.term] := by
  rw [boundNames, List.flatMap_singleton, OpenSum.boundVars_term]
  exact List.mem_map.mpr ⟨_, List.mem_append_left _ (OpenSum.mem_ofBinder_self hv), rfl⟩

theorem ready_single {n : ℕ} (h : Ready n [m.sum.term]) (hm : m.matched = none)
    (tuple : String) : Ready n [m.rest tuple] := by
  rw [rest_of_unmatched hm]
  refine h.below (le_refl n) (sublist_single m) (fun x hx => ?_) ?_
  · obtain ⟨t, ht, hx⟩ := hx
    obtain rfl := List.mem_singleton.mp ht
    rcases OpenSum.mentions_body hx with hx | ⟨v, hv, rfl⟩
    · exact .inl ⟨_, List.mem_singleton_self _, hx⟩
    · exact .inr ⟨(h.bound _ (mem_boundNames_single hv)).mono (Nat.zero_le n),
        notMem_boundNames_single h hv⟩
  · rw [List.forall_mem_singleton]
    exact h.regular m.sum.term (List.mem_singleton_self _)

theorem later_localTuples (s : OpenSum) (e : Encoder) : Later e (localTuples s e) :=
  ⟨le_refl _, fun _ _ h => h,
    fun h => ⟨h.literals, h.injective, h.counted, h.counts, h.columns⟩, fun _ _ => rfl⟩

/-- A summation without a matched variable is added up over the choices of rows for its
variables. -/
theorem spread_single (hready : Ready e.next [m.sum.term]) (hm : m.matched = none)
    (hlanes : lanes.map Lane.member = [m]) :
    Spread [m.counted] tuple lanes {x | ∃ v ∈ m.sum.vars, v.tuple = x} e
      (localTuples m.sum e) := by
  have hrests : (lanes.map fun l => l.member.rest tuple) = [m.sum.body] := by
    change lanes.map ((fun m => m.rest tuple) ∘ Lane.member) = _
    rw [← List.map_map, hlanes, List.map_singleton, rest_of_unmatched hm]
  have hterms : terms [m.counted] = [m.sum.term] := rfl
  constructor
  · exact later_localTuples m.sum e
  · change [m].map Member.counted = lanes.map (Member.counted ∘ Lane.member)
    rw [← hlanes, List.map_map]
  · exact List.nodup_singleton _
  · rintro x ⟨v, hv, rfl⟩
    exact .inl (mem_boundNames_single hv)
  · rw [hrests]
    refine fun b hb => ⟨(sublist_single m).subset hb, ?_⟩
    rintro ⟨v, hv, heq⟩
    exact notMem_boundNames_single hready hv (heq ▸ List.mem_map.mpr ⟨b, hb, rfl⟩)
  intro L w ρ hw hlisted hstocked
  rw [hrests]
  refine ⟨w.choices (w.ranges m.sum.vars m.sum.body), fun w' hw' => ?_, fun l hl => ?_⟩
  · obtain ⟨hdiffers, hschemas, htuples, hsome⟩ := World.of_mem_choices hw'
    refine ⟨⟨hdiffers.rows, hdiffers.count, hdiffers.placeholders, fun x hx => hdiffers.other x ?_⟩,
      ⟨fun x r hr => ?_, fun x S hS => ?_⟩, fun x hx => ?_⟩
    · rintro ⟨range, hrange, rfl⟩
      obtain ⟨v, hv, rfl⟩ := List.mem_map.mp hrange
      exact hx ⟨v, hv, rfl⟩
    · rw [hschemas]
      rcases htuples x r hr with hr | ⟨range, hrange, rfl, hmem⟩
      · exact hw.furnished.fits x r hr
      · obtain ⟨v, hv, rfl⟩ := List.mem_map.mp hrange
        obtain ⟨S, hS, hfits⟩ := hstocked ⟨v, m.sum.tableOf? v⟩ <| by
          rw [hterms, List.flatMap_singleton, OpenSum.boundVars_term]
          exact List.mem_append_left _ (OpenSum.mem_ofBinder_self hv)
        refine ⟨S, hS, ?_⟩
        change r ∈ (m.sum.tableOf? v).elim [] w.rows at hmem
        cases htable : m.sum.tableOf? v with
        | none => simp [htable] at hmem
        | some table =>
            rw [htable] at hmem hfits
            exact hfits table rfl r hmem
    · rw [hschemas] at hS
      obtain ⟨r, hr⟩ := hw.furnished.full x S hS
      exact Option.isSome_iff_exists.mp (hsome x (by rw [hr]; rfl))
    · rw [hschemas]
      refine hw.schemas x ?_
      rcases hx with ⟨t, ht, hx⟩ | hx
      · obtain rfl := List.mem_singleton.mp ht
        rcases OpenSum.mentions_body hx with hx | ⟨v, hv, rfl⟩
        · exact .inl ⟨_, List.mem_singleton_self _, hx⟩
        · exact .inr (hready.bound _ (mem_boundNames_single hv)).ne_common
      · exact .inr hx
  · have hl : l.member = m := by
      have := List.mem_map_of_mem (f := Lane.member) hl
      rwa [hlanes, List.mem_singleton] at this
    rw [hl, rest_of_unmatched hm, OpenSum.number_eq, World.summation]
    split
    · rw [World.total_eq_sum_choices]
      exact .refl _
    · exact .inl rfl

/-! ### Stars -/

/-- The summations that a layer starts with, and the state that it starts in. -/
structure Due (fuel : ℕ) (scope : List Counted) (e : Encoder) : Prop where
  tidy : e.Tidy
  equations : e.equations = []
  ready : Ready e.next (terms scope)
  placed : Placed e.next scope
  binders : (scope.map fun p => p.2.binderCount).sum ≤ fuel

/-- The computation gives the stars of the summations that it starts with. -/
def Resolves (fuel : ℕ) (next : List Counted → EncodeM (List Formula)) : Prop :=
  ∀ {scope : List Counted} {e e' : Encoder} {fs : List Formula}, Due fuel scope e →
    Returns (next scope) e fs e' → Layered scope e fs e'

variable {fuel : ℕ} {next : List Counted → EncodeM (List Formula)} {f : Formula}

/-- The binders inside the members of a star are those of what is left of them. -/
theorem Laid.sum_binderCount {e₁ : Encoder} (h : Laid tuple lanes e e₁) :
    ((lanes.flatMap Lane.inner).map fun p => p.2.binderCount).sum =
      (lanes.map fun l => (l.member.rest tuple).binderCount).sum := by
  rw [List.map_flatMap, List.flatMap_def, List.sum_flatten, List.map_map]
  refine congrArg List.sum (List.map_congr_left fun l hl => ?_)
  rw [← OpenSum.sum_binderCount_ofTerm _ l.member.sum.side, ← h.sums l hl, List.map_map]
  rfl

/-- The parts of a star. -/
theorem exists_of_star (h : Returns (star next tuple ms) e f e') :
    ∃ rows below nulls stars e₁ e₂, Returns (starRows tuple ms) e (rows, below) e₁ ∧
      Returns (step congruence) e₁ nulls e₂ ∧ Returns (next below) e₂ stars e' ∧
      f = .star (ms.map Member.symbol) (rows.map Prod.fst) (ms.map fun m => m.sum.side)
        (.and (rows.map Prod.snd ++ nulls ++ stars ++ e'.distinctness)) := by
  obtain ⟨⟨rows, below⟩, e₁, hrows, h₁⟩ := returns_bind.mp h
  obtain ⟨nulls, e₂, hnulls, h₂⟩ := returns_bind.mp h₁
  obtain ⟨stars, e₃, hstars, h₃⟩ := returns_bind.mp h₂
  obtain ⟨e₄, e₅, hget, h₄⟩ := returns_bind.mp h₃
  obtain ⟨rfl, rfl⟩ := returns_get.mp hget
  obtain ⟨rfl, rfl⟩ := returns_pure.mp h₄
  exact ⟨rows, below, nulls, stars, e₁, e₂, hrows, hnulls, hstars, rfl⟩

/-- What a star comes from. -/
theorem stage_of_star (ht : e.Tidy) (he : e.equations = [])
    (hready : Ready e.next (ms.map fun m => m.rest tuple))
    (hbinders : (ms.map fun m => (m.rest tuple).binderCount).sum ≤ fuel)
    (hnext : Resolves fuel next) (h : Returns (star next tuple ms) e f e') :
    ∃ lanes nulls stars e₁ e₂, lanes.map Lane.member = ms ∧
      Stage tuple lanes nulls stars e e₁ e₂ e' ∧
      f = .star (lanes.map fun l => l.member.symbol) (lanes.map Lane.count)
        (ms.map fun m => m.sum.side) (starBody lanes nulls stars e'.distinctness) := by
  obtain ⟨rows, below, nulls, stars, e₁, e₂, hrows, hnulls, hstars, rfl⟩ := exists_of_star h
  obtain ⟨lanes, rfl, rfl, rfl, hlaid⟩ := starRows_ok ht (n := e.next) (fun m hm =>
    ⟨fun x hx => hready.free x ⟨_, List.mem_map_of_mem hm, hx⟩,
      hready.regular _ (List.mem_map_of_mem hm)⟩) hrows
  rw [List.map_map] at hready hbinders
  have hrelated : Related (starNames tuple lanes) { e₁ with equations := [] } nulls e₂ := by
    have hcongruence := congruence_ok (e := e₁) (M := starNames tuple lanes)
      (fun x hx => (starNames_eq tuple lanes ▸ hx).clean hready hlaid.symbols_lt) fun q hq => ?_
    · rwa [returns_step.mp hnulls] at hcongruence
    · obtain ⟨qs, hqs, hcompares⟩ := hlaid.growth.equations
      rw [hqs, he, List.nil_append] at hq
      rw [hlaid.growth.schemas]
      exact hcompares q hq
  have hnext₁ : e.next ≤ e₁.next := hlaid.growth.next
  have hnext₂ : e₁.next ≤ e₂.next := hrelated.effect.next
  have hdue : Due fuel (lanes.flatMap Lane.inner) e₂ := by
    constructor
    · exact hrelated.effect.tidy ((later_equations e₁ []).tidy (hlaid.growth.tidy ht))
    · exact hrelated.equations
    · exact (hlaid.ready hready).mono (le_trans hnext₁ hnext₂)
    · refine ⟨fun p hp => ?_, hlaid.symbols_nodup⟩
      obtain ⟨k, _, hk, heq⟩ := hlaid.symbols p hp
      exact ⟨k, lt_of_lt_of_le hk hnext₂, heq⟩
    · rw [hlaid.sum_binderCount]
      exact hbinders
  refine ⟨lanes, nulls, stars, e₁, e₂, rfl, ⟨ht, hready, hlaid, hrelated, hnext hdue hstars⟩, ?_⟩
  simp only [starBody, List.map_map]
  rfl

/-! ### Layers -/

/-- Some of the summations wait while others are resolved. -/
theorem Due.subperm {scope scope' : List Counted} {e₁ : Encoder} (h : Due fuel scope e)
    (hsub : scope'.Subperm scope) (hlater : Later e e₁) (hequations : e₁.equations = []) :
    Due fuel scope' e₁ := by
  obtain ⟨l, hperm, hsub⟩ := hsub
  have hmem : ∀ p ∈ scope', p ∈ scope := fun p hp => hsub.subset (hperm.mem_iff.mpr hp)
  have hmentioned : ∀ x, Mentioned (terms scope') x → Mentioned (terms scope) x := by
    rintro x ⟨t, ht, hx⟩
    obtain ⟨p, hp, rfl⟩ := List.mem_map.mp ht
    exact ⟨_, List.mem_map_of_mem (hmem p hp), hx⟩
  have hnames : (boundNames (terms l)).Perm (boundNames (terms scope')) :=
    ((hperm.map _).flatMap_right _).map _
  have hnames' : (boundNames (terms l)).Sublist (boundNames (terms scope)) :=
    ((hsub.map _).flatMap _).map _
  have hbound : ∀ x ∈ boundNames (terms scope'), x ∈ boundNames (terms scope) :=
    fun x hx => hnames'.subset (hnames.mem_iff.mpr hx)
  refine ⟨hlater.tidy h.tidy, hequations, ⟨?_, ?_, ?_, ?_, ?_⟩, ⟨?_, ?_⟩, ?_⟩
  · exact hnames.nodup_iff.mp (h.ready.nodup.sublist hnames')
  · exact fun x hx => h.ready.bound x (hbound x hx)
  · exact fun x hx => (h.ready.free x (hmentioned x hx)).mono hlater.next
  · exact fun x hx hx' => h.ready.apart x (hmentioned x hx) (hbound x hx')
  · intro t ht
    obtain ⟨p, hp, rfl⟩ := List.mem_map.mp ht
    exact h.ready.regular _ (List.mem_map_of_mem (hmem p hp))
  · intro p hp
    obtain ⟨k, hk, heq⟩ := h.placed.symbols p (hmem p hp)
    exact ⟨k, lt_of_lt_of_le hk hlater.next, heq⟩
  · exact (hperm.map _).nodup_iff.mp (h.placed.nodup.sublist (hsub.map _))
  · rw [← (hperm.map _).sum_eq]
    exact le_trans ((hsub.map _).sum_le_sum fun _ _ => Nat.zero_le _) h.binders

/-- The star of a group. -/
theorem groupStar_ok {table : Option String} (hnext : Resolves fuel next)
    (hdue : Due (fuel + 1) (ms.map Member.counted) e) (hgrouped : Grouped e.schemas (schema, ms))
    (hvars : ∀ m ∈ ms, ∀ v ∈ m.matched, v ∈ m.sum.vars)
    (h : Returns (star next ("#ct" ++ toString e.next) ms) (groupTuple schema table e).2 f e') :
    Layered (ms.map Member.counted) e [f] e' := by
  have hready := hdue.ready
  rw [terms_counted] at hready
  have hmatched : ∀ m ∈ ms, ∃ v, m.matched = some v ∧ v ∈ m.sum.vars := fun m hm => by
    obtain ⟨v, hv, _⟩ := hgrouped.matched m hm
    exact ⟨v, hv, hvars m hm v hv⟩
  have hsymbols : (ms.map Member.symbol).Nodup := by
    have := hdue.placed.nodup
    rwa [List.map_map] at this
  have hlt : (ms.map fun m => (m.rest ("#ct" ++ toString e.next)).binderCount).sum <
      ((ms.map Member.counted).map fun p => p.2.binderCount).sum :=
    sum_binderCount_rest_lt hgrouped.nonempty hvars _
  have hbinders := hdue.binders
  obtain ⟨lanes, nulls, stars, e₁, e₂, hlanes, hstage, rfl⟩ := stage_of_star
    ((later_groupTuple table hgrouped).tidy hdue.tidy) (by rw [groupTuple_eq]; exact hdue.equations)
    (by rw [groupTuple_eq]; exact ready_group hready hmatched) (by omega) hnext h
  exact star_ok hstage (spread_group table hready hsymbols hgrouped hvars hlanes)

/-- The star of a summation without a matched variable. -/
theorem localStar_ok (hnext : Resolves fuel next) (hdue : Due (fuel + 1) [m.counted] e)
    (hm : m.matched = none) (h : Returns (star next "" [m]) (localTuples m.sum e) f e') :
    Layered [m.counted] e [f] e' := by
  have hlt := sum_binderCount_rest_lt (List.cons_ne_nil m []) (by simp [hm]) ""
  have hready : Ready (localTuples m.sum e).next ([m].map fun m => m.rest "") :=
    ready_single hdue.ready hm ""
  obtain ⟨lanes, nulls, stars, e₁, e₂, hlanes, hstage, rfl⟩ := stage_of_star
    ((later_localTuples m.sum e).tidy hdue.tidy) hdue.equations hready
    (Nat.le_of_lt_succ (lt_of_lt_of_le hlt hdue.binders)) hnext h
  exact star_ok hstage (spread_single hdue.ready hm hlanes)

/-- The schemas of matched variables stay as they are. -/
theorem Grouped.later {g : Option Schema × List Member} {e₀ : Encoder} (h : Grouped e₀.schemas g)
    (hlater : Later e₀ e) (hbound : ∀ m ∈ g.2, ∀ v ∈ m.matched, Settled 0 v.tuple) :
    Grouped e.schemas g := by
  refine ⟨h.nonempty, fun m hm => ?_⟩
  obtain ⟨v, hv, hschema⟩ := h.matched m hm
  refine ⟨v, hv, ?_⟩
  rw [hlater.schemas v.tuple, hschema]
  exact fun k hk => absurd hk ((hbound m hm v hv).ne_common k)

theorem Due.settled (h : Due fuel (ms.map Member.counted) e) {v : Var} (hm : m ∈ ms)
    (hv : v ∈ m.sum.vars) : Settled 0 v.tuple := by
  refine h.ready.bound v.tuple ?_
  rw [terms_counted]
  refine mem_boundNames.mpr ⟨_, List.mem_map_of_mem hm, ⟨v, m.sum.tableOf? v⟩, ?_, rfl⟩
  rw [OpenSum.boundVars_term]
  exact List.mem_append_left _ (OpenSum.mem_ofBinder_self hv)

/-- The stars of a layer and of those below it. -/
theorem layered_rule (matching : Matching) : LayerRule matching
    (fun fuel _ e₀ e scope => Due fuel scope e ∧ Later e₀ e)
    (fun _ _ scope e fs e' => Layered scope e fs e') where
  zero h := by
    obtain rfl := eq_nil_of_binders (Nat.le_zero.mp h.1.binders)
    exact .nil h.1.equations
  nil h := .nil h.1.equations
  cons := by
    intro fuel depth e₀ scope scope' e f e₁ fs e' hdue h h'
    refine h.append h' (fun x hx => hdue.1.ready.free x ?_) fun p hp q hq => ?_
    · obtain ⟨t, ht, hx⟩ := hx
      refine ⟨t, ?_, hx⟩
      rw [terms, List.map_append]
      exact List.mem_append_right _ ht
    · have hnodup := hdue.1.placed.nodup
      rw [List.map_append, List.nodup_append] at hnodup
      exact hnodup.2.2 _ (List.mem_map_of_mem hp) _ (List.mem_map_of_mem hq)
  perm hperm h := h.congr fun _ => hperm.mem_iff
  mono hsub h := ⟨h.1.subperm hsub (.refl _) h.1.equations, h.2⟩
  keep h hscope := ⟨hscope.1.subperm (List.Subperm.refl _) h.later h.equations,
    hscope.2.trans h.later⟩
  resolve := by
    intro fuel depth e₀ e st f e' next hnext hmatched hst hdue h
    have hresolves : Resolves fuel next := fun hdue h => hnext _ _ _ _ ⟨hdue, .refl _⟩ h
    have hvars : ∀ m ∈ st.members, ∀ v ∈ m.matched, v ∈ m.sum.vars := fun m hm v hv =>
      mem_of_matchedIn? ((hmatched m hm).symm.trans hv)
    obtain ⟨tuple, e₁, henter, hstar⟩ := returns_bind.mp h
    have henter := returns_step.mp henter
    cases st with
    | common schema ms =>
        obtain rfl : tuple = "#ct" ++ toString e.next := by
          rw [Station.enter, groupTuple_eq] at henter
          exact (Prod.mk.inj henter).1.symm
        obtain rfl : e₁ = _ := (congrArg Prod.snd henter).symm
        exact groupStar_ok hresolves hdue.1 (hst.later hdue.2 fun m hm v hv =>
          hdue.1.settled hm (hvars m hm v hv)) hvars hstar
    | single m =>
        cases henter
        exact localStar_ok hresolves hdue.1 hst hstar

end Encoder

end BagEquiv
