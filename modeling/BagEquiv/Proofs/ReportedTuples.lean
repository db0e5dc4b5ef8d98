/-
**Every tuple of an encoding is reported.**

A database is read off an assignment tuple by tuple, for the tuples that the encoding lists.  So a
formula must not be about others: whatever column, count, null flag or test it has belongs to a
tuple that is free in one of the terms or that is listed, and listed only once.  A bound variable
that became part of a common tuple has left no trace, however deep in predicates, functions and
other summations it stood.

Main definition:

* `Lexicon.ofPair` — the free tuples of two terms, and the columns of them and of schemas.

Main result:

* `encodePair_origin` — **the symbols of an encoding and the tuples they belong to**.
-/

import BagEquiv.Proofs.LayerTuples
import BagEquiv.Proofs.MatchingIndependence

set_option autoImplicit false

namespace BagEquiv

variable {schemas : SchemaMap} {left right : Term} {m : Matching}

/-! ### Runs for pairs of terms -/

/-- The tuples that are free in a term, and the columns of the terms and of schemas. -/
def Lexicon.ofPair (schemas : SchemaMap) (left right : Term) : Lexicon where
  tuple := Mentioned [left, right]
  column a := a ∈ left.columns ++ right.columns ∨
    ∃ x S, schemas.get? x = some S ∧ a ∈ S.columns.map Column.name

namespace Encoder

/-- Two terms lead to common tuples and to those that their matching leaves over. -/
theorem introduces_difference {budget : Budget} {f : Formula} {e : Encoder}
    (h : Returns (difference m budget left right) (.ofSchemas schemas) f e) :
    ∃ aligned, m.aligned left right = .ok aligned ∧
      Introduces (.ofPair schemas left right)
        (((OpenSum.scope left right).map OpenSum.outline).map
          (aligned.leftNames (left.binderCount + right.binderCount) 0)).sum
        (.ofSchemas schemas) [f] e := by
  obtain ⟨aligned, l, lscope, r, rscope, a, b, nulls, stars, e₁, e₂, e₃, e₄, e₅, haligned, hl, hr,
    ha, hb, hnulls, hstars, rfl⟩ := exists_of_difference h
  have hstart : (ofSchemas schemas).Accounted
      ((ofSchemas schemas).reported (.ofPair schemas left right)) :=
    accounted_ofSchemas fun x S hS col hcol =>
      .inr ⟨x, S, hS, List.mem_map_of_mem hcol⟩
  have hleft : left.Within ((ofSchemas schemas).reported (.ofPair schemas left right)) :=
    ⟨fun x hx => .inl ⟨left, by simp, hx⟩, fun a ha => .inl (List.mem_append_left _ ha)⟩
  have hright : right.Within ((ofSchemas schemas).reported (.ofPair schemas left right)) :=
    ⟨fun x hx => .inl ⟨right, by simp, hx⟩, fun a ha => .inl (List.mem_append_right _ ha)⟩
  obtain ⟨hlstrip, hlabout, hlscope⟩ := accounted_stripTerm hstart hleft hl
  obtain ⟨hrstrip, hrabout, hrscope⟩ := accounted_stripTerm hlstrip.toAccounted hright hr
  obtain ⟨hla, hcounts, ha⟩ := Preserves.continues
    (preserves_encode (hlabout _ (stripTerm_ok hr).kept)) hrstrip.toAccounted ha
  obtain ⟨hrb, -, hb⟩ := Preserves.continues
    (preserves_encode (hrabout _ fun x hx => hcounts ▸ hx)) hla.toAccounted hb
  obtain ⟨hcongruence, -, hnulls⟩ := Preserves.continues preserves_congruence hrb.toAccounted hnulls
  -- So far no tuple was introduced; the layers introduce them.
  have hcontinues := (((hlstrip.trans hrstrip).trans hla).trans hrb).trans hcongruence
  have hquiet : Introduces (.ofPair schemas left right) 0 (.ofSchemas schemas)
      (.not (.eq a b) :: nulls) e₅ :=
    hcontinues.introduces (List.forall_mem_cons.mpr ⟨by simpa using ⟨ha, hb⟩, hnulls⟩)
  have hscope : (lscope ++ rscope).map Prod.snd = OpenSum.scope left right := by
    rw [List.map_append, (stripTerm_ok hl).sums, (stripTerm_ok hr).sums, OpenSum.scope]
  have hlayer := (introduces_rule _ aligned).layer _ ⟨hquiet.accounted, hquiet.accounted,
    fun p hp => ((List.forall_mem_append.mpr ⟨hlscope, hrscope⟩) p hp).mono hquiet.reported_le⟩
    hstars
  rw [hscope] at hlayer
  have hall := hquiet.append hlayer
  rw [zero_add] at hall
  refine ⟨aligned, haligned, hall.next_le, hall.tuples, hall.accounted, ?_⟩
  rw [List.forall_mem_singleton, Sourced, Formula.over_and]
  exact List.forall_mem_append.mpr ⟨hall.sourced, hall.accounted.distinctness⟩

end Encoder

/-! ### Names that are bound -/

/-- Outlines bind what the term binds. -/
theorem Term.sum_names_outlines (t : Term) (side : Side) :
    ((t.outlines side).map Outline.names).sum =
      (t.boundVars.map fun b => b.var.tuple : List String) := by
  have members : ∀ {ts : List Term}, (∀ t ∈ ts, ((t.outlines side).map Outline.names).sum =
        (t.boundVars.map fun b => b.var.tuple : List String)) →
      ((outlinesAll side ts).map Outline.names).sum =
        ((ts.flatMap boundVars).map fun b => b.var.tuple : List String) := by
    intro ts ih
    induction ts with
    | nil => rfl
    | cons t ts ihs =>
        rw [List.forall_mem_cons] at ih
        rw [outlinesAll, List.map_append, List.sum_append, ih.1, ihs ih.2, List.flatMap_cons,
          List.map_append, ← Multiset.coe_add]
  induction t using Term.induct with
  | sum vars body ih =>
      rw [outlines, List.map_singleton, List.sum_singleton, Outline.names, Outline.namesAll_eq, ih,
        boundVars_sum, List.map_append, ← Multiset.coe_add, BoundVar.ofBinder, List.map_map]
      rfl
  | add ts ih | mul ts ih | pred _ ts ih | func _ ts ih =>
      rw [boundVars, forest, flatten_nodes_forestAll]
      exact members ih
  | neg t ih | squash t ih => exact ih
  | var | const | table | str => rfl

theorem sum_names_scope (left right : Term) :
    (((OpenSum.scope left right).map OpenSum.outline).map Outline.names).sum =
      (boundNames [left, right] : Multiset String) := by
  rw [OpenSum.scope, List.map_append, OpenSum.map_outline_ofTerm, OpenSum.map_outline_ofTerm,
    List.map_append, List.sum_append, Term.sum_names_outlines, Term.sum_names_outlines,
    Multiset.coe_add, ← List.map_append, boundNames]
  simp

namespace Matching

/-- A variable of this name is matched in a summation at some depth, so that it becomes part of a
common tuple. -/
def Unifies (m : Matching) (left right : Term) (x : String) : Prop :=
  ∃ depth, ∃ s ∈ m.scopeAt left right depth, ∃ v, m.matchedIn? depth s = some v ∧ v.tuple = x

/-- A name that gives way to a common tuple is bound, and it is not left over. -/
theorem Unifies.notMem {x : String} (hnodup : (boundNames [left, right]).Nodup)
    (h : m.Unifies left right x) :
    x ∈ boundNames [left, right] ∧ ∀ fuel,
      x ∉ (((OpenSum.scope left right).map OpenSum.outline).map (m.leftNames fuel 0)).sum := by
  obtain ⟨depth, s, hs, v, hv, rfl⟩ := h
  have hlabel : (s.side, s.vars) ∈
      (((OpenSum.scope left right).map OpenSum.outline).map (m.tier depth 0)).sum := by
    have hlabels := m.labels_scopeAt depth left right
    rw [due, if_pos (Nat.zero_le _), Nat.sub_zero] at hlabels
    rw [← hlabels]
    exact Multiset.mem_coe.mpr (List.mem_map_of_mem hs)
  rw [← Multiset.coe_nodup, ← sum_names_scope] at hnodup
  rw [← Multiset.mem_coe, ← sum_names_scope]
  exact notMem_leftNames hnodup hlabel (by rwa [Nat.zero_add])

end Matching

/-! ### Freshened terms -/

namespace Term

/-- A tuple that is free in a freshened term has a given name, or one that a renaming brings in. -/
theorem mentions_freshenWith {x : String} (t : Term) {ρ : Renaming} {t' : Term} {s u : Supply}
    (h : freshenWith ρ t s = .ok (t', u)) (hx : t'.mentions x = true) :
    x ∈ t.names ∨ ∃ r ∈ ρ, r.2 = x := by
  have name : ∀ {ρ : Renaming} (v : Var), decide ((ρ.apply v).tuple = x) = true →
      x ∈ [v.tuple] ∨ ∃ r ∈ ρ, r.2 = x := by
    intro ρ v hx
    rw [decide_eq_true_eq] at hx
    subst hx
    rcases tuple_apply ρ v with h | ⟨r, hr, h⟩
    · exact .inl (List.mem_singleton.mpr h)
    · exact .inr ⟨r, hr, h.symm⟩
  induction t using Term.induct generalizing ρ t' s u with
  | sum vars body ih =>
      obtain ⟨⟨names', s₁⟩, hnames, ⟨body', s₂⟩, hbody, h⟩ := Fault.ok_of_bind₂ h
      cases h
      rw [mentions, Bool.and_eq_true, Bool.not_eq_true'] at hx
      rcases ih hbody hx.2 with hx' | ⟨r, hr, rfl⟩
      · exact .inl (List.mem_append_right _ hx')
      · rcases List.mem_append.mp hr with hr | hr
        · exact .inr ⟨r, (List.mem_filter.mp hr).1, rfl⟩
        · -- The new names of the summation are bound there.
          have hmem : Var.base r.2 ∈ VarSet.ofList (names'.map fun r => .base r.2) :=
            VarSet.mem_ofList.mpr (List.mem_map.mpr ⟨r, hr, rfl⟩)
          exact absurd (OpenSum.bound_eq_true.mpr ⟨_, hmem, rfl⟩) (Bool.eq_false_iff.mp hx.1)
  | add ts ih | mul ts ih | pred _ ts ih | func _ ts ih =>
      obtain ⟨⟨ts', s₁⟩, hts, hend⟩ := Fault.ok_of_bind h
      cases hend
      clear h
      rw [mentions] at hx
      rw [names]
      induction ts generalizing ts' s with
      | nil =>
          cases hts
          cases hx
      | cons t ts ihs =>
          rw [List.forall_mem_cons] at ih
          obtain ⟨⟨t', s₁⟩, ht, ⟨ts'', s₂⟩, hts, h⟩ := Fault.ok_of_bind₂ hts
          cases h
          rw [mentionsAny, Bool.or_eq_true] at hx
          rcases hx with hx | hx
          · exact (ih.1 ht hx).imp_left (List.mem_append_left _)
          · exact (ihs ih.2 _ hx hts).imp_left (List.mem_append_right _)
  | neg t ih | squash t ih =>
      obtain ⟨⟨t₁, s₁⟩, ht₁, h⟩ := Fault.ok_of_bind h
      cases h
      exact ih ht₁ hx
  | var v | table _ v =>
      cases h
      exact name v hx
  | const | str =>
      cases h
      cases hx

end Term

/-- Freshening leaves bound names that differ from each other and from the free ones. -/
theorem Input.namedApart_of_freshen {input fresh : Input}
    (hnames : ∀ x ∈ input.left.names ++ input.right.names, Clean x ∧ '#' ∉ x.toList)
    (h : input.freshen = .ok fresh)
    (hcolumns : ∀ x S, schemas.get? x = some S → ∀ col ∈ S.columns, '!' ∉ col.name.toList) :
    NamedApart schemas fresh.left fresh.right := by
  obtain ⟨⟨left, s₁⟩, hl, ⟨right, s₂⟩, hr, h⟩ := Fault.ok_of_bind₂ h
  cases h
  have hbound : boundNames [left, right] =
      (left.boundVars ++ right.boundVars).map fun b => b.var.tuple := by simp [boundNames]
  have hfree : ∀ x, Mentioned [left, right] x → x ∈ input.left.names ++ input.right.names := by
    rintro x ⟨t, ht, hx⟩
    rw [List.mem_cons, List.mem_singleton] at ht
    rcases ht with rfl | rfl
    · exact List.mem_append_left _
        ((Term.mentions_freshenWith _ hl hx).resolve_right (by simp))
    · exact List.mem_append_right _
        ((Term.mentions_freshenWith _ hr hx).resolve_right (by simp))
  have hkeep : ∀ x, Clean x ∧ '#' ∉ x.toList → TupleName x := fun x hx => ⟨x, hx.1, hx.2, .inl rfl⟩
  have hnumber : ∀ x (n : ℕ), Clean x ∧ '#' ∉ x.toList → TupleName (x ++ "#" ++ toString n) :=
    fun x n hx => ⟨x, hx.1, hx.2, .inr ⟨n, rfl⟩⟩
  have hnumbered := ((Term.freshenWith_ok _ hl).1.append (Term.freshenWith_ok _ hr).1).numbered
  obtain ⟨hinputLeft, hinputRight⟩ := List.forall_mem_append.mp hnames
  obtain ⟨hleft, -⟩ := Term.freshenWith_names hkeep hnumber _ (by simp) hinputLeft hl
  obtain ⟨hright, -⟩ := Term.freshenWith_names hkeep hnumber _ (by simp) hinputRight hr
  constructor
  · exact hbound ▸ hnumbered.nodup
  · -- A bound name has a number sign in it, and a free one has none.
    intro x hx hmem
    rw [hbound] at hmem
    obtain ⟨b, hb, rfl⟩ := List.mem_map.mp hmem
    obtain ⟨base, n, hn, -⟩ := hnumbered.range b hb
    refine (hnames _ (hfree _ hx)).2 ?_
    rw [hn]
    simp
  · rw [hbound, List.forall_mem_map, List.forall_mem_append]
    exact ⟨fun b hb => hleft _ (Term.tuple_mem_names hb),
      fun b hb => hright _ (Term.tuple_mem_names hb)⟩
  · exact fun x hx => hkeep x (hnames x (hfree x hx))
  · exact hcolumns

/-! ### Encodings -/

/-- The names that an encoding is about: of tuples that are free in a term or reported once, but did
not give way to a common tuple; and of columns. -/
def Encoding.lexicon (F : Encoding) (schemas : SchemaMap) (aligned : Matching)
    (left right : Term) : Lexicon where
  tuple x := (Mentioned [left, right] x ∨ (F.tuples.map TupleInfo.name).count x = 1) ∧
    ¬aligned.Unifies left right x
  column := (Lexicon.ofPair schemas left right).column

theorem tuples_of_encodePair {budget : Budget} {F : Encoding} {f : Formula} {e : Encoder}
    (h : encodePair schemas m budget left right = .ok F)
    (hf : Returns (Encoder.difference m budget left right) (.ofSchemas schemas) f e) :
    F.tuples = e.tuples := by
  have hrun : (Encoder.difference m budget left right).run (.ofSchemas schemas) = (.ok f, e) := hf
  rw [encodePair, hrun] at h
  dsimp only at h
  cases hsimplify : f.simplify with
  | error fault =>
      rw [hsimplify] at h
      cases h
  | ok g =>
      rw [hsimplify] at h
      cases h
      rfl

/-- The tuples of a run have different names: numbers of their own, or bound names. -/
theorem Encoder.Introduces.names {B : Lexicon} {L : Multiset String} {e e' : Encoder}
    {fs : List Formula} (h : Introduces B L e fs e') (he : e.tuples = []) (hnodup : L.Nodup)
    (hcommon : ∀ x ∈ L, ∀ k : ℕ, x ≠ "#ct" ++ toString k) :
    (e'.tuples.map TupleInfo.name).Nodup ∧
      ∀ x ∈ e'.tuples.map TupleInfo.name, x ∈ L ∨ ∃ k : ℕ, x = "#ct" ++ toString k := by
  obtain ⟨new, ks, htuples, hnew, hks, -⟩ := h.tuples
  rw [htuples, he, List.nil_append]
  constructor
  · rw [← Multiset.coe_nodup, hnew, Multiset.nodup_add]
    refine ⟨Multiset.coe_nodup.mpr (hks.map fun j k hjk => ?_), hnodup, ?_⟩
    · exact (unnumbered_common.append_inj unnumbered_common hjk).2
    · rw [Multiset.disjoint_right]
      intro x hx hmem
      obtain ⟨k, -, rfl⟩ := List.mem_map.mp (Multiset.mem_coe.mp hmem)
      exact hcommon _ hx k rfl
  · intro x hx
    rw [← Multiset.mem_coe, hnew, Multiset.mem_add] at hx
    refine hx.symm.imp_right fun hx => ?_
    obtain ⟨k, -, rfl⟩ := List.mem_map.mp (Multiset.mem_coe.mp hx)
    exact ⟨k, rfl⟩

/-- The tuples of a run for two terms have different names: numbers of their own, or bound names
that are left over. -/
theorem Encoder.Introduces.names_of_pair {B : Lexicon} {aligned : Matching} {fuel : ℕ}
    {fs : List Formula} {e : Encoder}
    (h : Introduces B
      (((OpenSum.scope left right).map OpenSum.outline).map (aligned.leftNames fuel 0)).sum
      (.ofSchemas schemas) fs e) (hnames : NamedApart .empty left right) :
    (e.tuples.map TupleInfo.name).Nodup ∧ ∀ x ∈ e.tuples.map TupleInfo.name,
      (x ∈ boundNames [left, right] ∧
        x ∈ (((OpenSum.scope left right).map OpenSum.outline).map (aligned.leftNames fuel 0)).sum) ∨
      ∃ k : ℕ, x = "#ct" ++ toString k := by
  have hle := aligned.sum_leftNames_le fuel 0 ((OpenSum.scope left right).map OpenSum.outline)
  rw [sum_names_scope] at hle
  have hbound : ∀ x ∈ (((OpenSum.scope left right).map OpenSum.outline).map
      (aligned.leftNames fuel 0)).sum, x ∈ boundNames [left, right] :=
    fun x hx => Multiset.mem_coe.mp (Multiset.mem_of_le hle hx)
  obtain ⟨hnodup, hforms⟩ := h.names rfl
    (Multiset.nodup_of_le hle (Multiset.coe_nodup.mpr hnames.distinct))
    (fun x hx => (hnames.bound x (hbound x hx)).settled.ne_common)
  exact ⟨hnodup, fun x hx => (hforms x hx).imp_left fun hx => ⟨hbound x hx, hx⟩⟩

/-- What is introduced is reported once, and nothing of it gave way to a common tuple. -/
theorem Encoder.Introduces.reported_le_lexicon {aligned : Matching} {fuel : ℕ} {fs : List Formula}
    {e : Encoder} {F : Encoding}
    (h : Introduces (.ofPair schemas left right)
      (((OpenSum.scope left right).map OpenSum.outline).map (aligned.leftNames fuel 0)).sum
      (.ofSchemas schemas) fs e) (hF : F.tuples = e.tuples)
    (hnames : NamedApart .empty left right) :
    e.reported (.ofPair schemas left right) ≤ F.lexicon schemas aligned left right ∧
      ∀ x, (F.lexicon schemas aligned left right).tuple x → Clean x := by
  obtain ⟨hnodup, hforms⟩ := h.names_of_pair hnames
  refine ⟨⟨fun x hx => ?_, fun _ => id⟩, fun x hx => ?_⟩
  · rcases hx with hx | hx
    · exact ⟨.inl hx, fun hunified => hnames.apart x hx (hunified.notMem hnames.distinct).1⟩
    · refine ⟨.inr (hF ▸ List.count_eq_one_of_mem hnodup hx), fun hunified => ?_⟩
      obtain ⟨hmem, hleft⟩ := hunified.notMem hnames.distinct
      rcases hforms x hx with ⟨-, hx⟩ | ⟨k, rfl⟩
      · exact hleft fuel hx
      · exact (hnames.bound _ hmem).settled.ne_common k rfl
  · rcases hx.1 with hx | hx
    · exact (hnames.free x hx).settled.clean
    · have hmem : x ∈ F.tuples.map TupleInfo.name := List.count_pos_iff.mp (by omega)
      rcases hforms x (hF ▸ hmem) with ⟨hx, -⟩ | ⟨k, rfl⟩
      · exact (hnames.bound x hx).settled.clean
      · exact (settled_common (Nat.lt_succ_self k)).clean

/-- All symbols of an encoding of freshened terms are numbered, or belong to a tuple that is free in
one of the terms or reported once, and that did not give way to a common tuple.  As long as no
column has an exclamation mark in its name, that is the tuple in the name of the symbol. -/
theorem encodePair_origin {input fresh : Input}
    (hnames : ∀ x ∈ input.left.names ++ input.right.names, Clean x ∧ '#' ∉ x.toList)
    (hfresh : input.freshen = .ok fresh) {schemas : SchemaMap} {m : Matching} {budget : Budget}
    {F : Encoding} (h : encodePair schemas m budget fresh.left fresh.right = .ok F) :
    ∃ aligned, m.aligned fresh.left fresh.right = .ok aligned ∧
      ∀ s ∈ F.formula.occurring,
        s.Origin (F.lexicon schemas aligned fresh.left fresh.right) ∧
        ((∀ a, (F.lexicon schemas aligned fresh.left fresh.right).column a → '!' ∉ a.toList) →
          ∀ x, s.owner? = some x →
            (F.lexicon schemas aligned fresh.left fresh.right).tuple x) := by
  have happart : NamedApart .empty fresh.left fresh.right :=
    Input.namedApart_of_freshen hnames hfresh fun x S hS => by cases hS
  obtain ⟨f, e, hreturns, hsimplify⟩ := encodePair_eq_ok h
  obtain ⟨aligned, haligned, hintroduces⟩ := Encoder.introduces_difference hreturns
  obtain ⟨hle, hclean⟩ :=
    hintroduces.reported_le_lexicon (tuples_of_encodePair h hreturns) happart
  refine ⟨aligned, haligned, fun s hs => ?_⟩
  have hsource := hintroduces.sourced f (List.mem_singleton.mpr rfl) s
    (Formula.occurring_simplify hsimplify hs)
  have horigin := hsource.mono hle
  exact ⟨horigin, fun hcolumns x hx => horigin.tuple_of_owner? hclean hcolumns hx⟩

/-- Of the variables of two terms, two become a common tuple, and no symbol belongs to them; the
others are reported. -/
theorem encodePair_origin_rows : ∃ (fresh : Input) (F : Encoding),
    (∀ x ∈ Input.rows.left.names ++ Input.rows.right.names, Clean x ∧ '#' ∉ x.toList) ∧
    Input.rows.freshen = .ok fresh ∧
    encodePair fresh.schemas ⟨[.ofList [.base "x#0", .base "z#3"]]⟩ .unlimited fresh.left
      fresh.right = .ok F ∧
    F.tuples.map TupleInfo.name = ["#ct2", "y#1", "w#2"] ∧
    (∀ s ∈ F.formula.occurring, s.owner? ≠ some "x#0") ∧
    ∀ s ∈ F.formula.occurring, s.Origin (F.lexicon fresh.schemas
      ⟨[.ofList [.base "x#0", .base "z#3"]]⟩ fresh.left fresh.right) := by
  have hnames : ∀ x ∈ Input.rows.left.names ++ Input.rows.right.names,
      Clean x ∧ '#' ∉ x.toList := by decide +kernel
  let fresh : Input := ⟨.ofList (["x", "y", "w", "z", "x#0", "y#1", "w#2", "z#3"].map fun x =>
    (x, .single)), "out", .unmatchedRows "x#0" "y#1", .twoRows "z#3" "w#2" (.ofWord 2)⟩
  have hfresh : Input.rows.freshen = .ok fresh := rfl
  have hrun : ((encodePair fresh.schemas ⟨[.ofList [.base "x#0", .base "z#3"]]⟩ .unlimited
      fresh.left fresh.right).map fun F => F.tuples.map TupleInfo.name).toOption =
        some ["#ct2", "y#1", "w#2"] := by decide +kernel
  cases h : encodePair fresh.schemas ⟨[.ofList [.base "x#0", .base "z#3"]]⟩ .unlimited fresh.left
      fresh.right with
  | error failure =>
      rw [h] at hrun
      cases hrun
  | ok F =>
      rw [h] at hrun
      obtain ⟨aligned, haligned, horigin⟩ := encodePair_origin hnames hfresh h
      obtain rfl : (⟨[.ofList [.base "x#0", .base "z#3"]]⟩ : Matching) = aligned :=
        Except.ok.inj haligned
      have hcolumns : ∀ a, (Lexicon.ofPair fresh.schemas fresh.left fresh.right).column a →
          '!' ∉ a.toList := by
        rintro a (ha | ⟨x, S, hS, ha⟩)
        · revert a
          decide +kernel
        · have hall : ∀ p ∈ fresh.schemas.entries, ∀ a ∈ p.2.columns.map Column.name,
              '!' ∉ a.toList := by decide +kernel
          exact hall _ (NameMap.mem_of_get? hS) a ha
      have hunifies : Matching.Unifies ⟨[.ofList [.base "x#0", .base "z#3"]]⟩ fresh.left
          fresh.right "x#0" := ⟨0, _, List.mem_cons_self, .base "x#0", rfl, rfl⟩
      refine ⟨fresh, F, hnames, hfresh, h, Option.some.inj hrun, fun s hs howner => ?_,
        fun s hs => (horigin s hs).1⟩
      exact ((horigin s hs).2 hcolumns _ howner).2 hunifies

end BagEquiv
