/-
**Terms under a matching.**

A matching is applied to a term by renaming its variables to placeholders, one after the other.
Together that gives the tuples of the term new names.  A new name depends on the layers of the
variables with the old one only, unless a variable has the name of a placeholder.  If no bound
variable has, the new name tells the layer, so that terms that have become equal have equal
summations over the same layers.

Main definition:

* `Matching.renamedBy` — the new name of a tuple.

Main result:

* `Matching.exists_partner` — **equal terms have equal summations**.
-/

import BagEquiv.Proofs.Rearrangement

set_option autoImplicit false

namespace BagEquiv

namespace Matching

variable {m n : Matching} {left right : Term} {r : List Var × Term}

/-! ### New names -/

/-- The variables of the matching with their layers, in the order in which they are renamed. -/
def entries (m : Matching) : List (Var × ℕ) :=
  m.numbered.flatMap fun p => p.2.toList.map fun v => (v, p.1)

/-- What becomes of a name if variables are renamed to placeholders one after the other. -/
def renamedBy (ps : List (Var × ℕ)) (x : String) : String :=
  ps.foldl (fun x p => if x = p.1.tuple then placeholder p.2 else x) x

theorem renamedBy_cons (p : Var × ℕ) (ps : List (Var × ℕ)) (x : String) :
    renamedBy (p :: ps) x = renamedBy ps (if x = p.1.tuple then placeholder p.2 else x) := rfl

theorem mem_entries {v : Var} {d : ℕ} : (v, d) ∈ m.entries ↔ m.Puts v d := by
  simp only [entries, numbered, List.mem_flatMap, List.mem_map, Prod.exists, Prod.mk.injEq]
  constructor
  · rintro ⟨e, l, ⟨l', e', hmem, rfl, rfl⟩, w, hw, rfl, rfl⟩
    exact ⟨l', by simpa [layer?] using List.mem_zipIdx_iff_getElem?.mp hmem, hw⟩
  · rintro ⟨l, hl, hv⟩
    exact ⟨d, l, ⟨l, d, List.mem_zipIdx_iff_getElem?.mpr hl, rfl, rfl⟩, v, hv, rfl, rfl⟩

/-- Applying a matching gives the tuples other names. -/
theorem apply_eq_relabel (m : Matching) (t : Term) :
    m.apply t = t.relabel (renamedBy m.entries) := by
  have hfold : ∀ (ps : List (Var × ℕ)) (t : Term),
      ps.foldl (fun t p => t.renameAll p.1.tuple (placeholder p.2)) t =
        t.relabel (renamedBy ps) := by
    intro ps
    induction ps with
    | nil => exact fun t => t.relabel_id.symm
    | cons p ps ih =>
        intro t
        rw [List.foldl_cons, ih, Term.renameAll_eq_relabel, Term.relabel_relabel]
        rfl
  rw [← hfold, apply, entries, List.foldl_flatMap]
  simp only [List.foldl_map]

/-- Variables that neither have the name nor that of a placeholder do not matter for it. -/
theorem renamedBy_filter {ps : List (Var × ℕ)} {q : Var → Bool} {x : String}
    (hx : ∀ p ∈ ps, q p.1 = false → p.1.tuple ≠ x)
    (hq : ∀ p ∈ ps, q p.1 = false → ∀ d, p.1.tuple ≠ placeholder d) :
    renamedBy (ps.filter fun p => q p.1) x = renamedBy ps x := by
  induction ps generalizing x with
  | nil => rfl
  | cons p ps ih =>
      rw [List.forall_mem_cons] at hx hq
      rw [renamedBy_cons]
      cases hp : q p.1 with
      | false =>
          rw [List.filter_cons_of_neg (by simp [hp]), if_neg (Ne.symm (hx.1 hp)), ih hx.2 hq.2]
      | true =>
          rw [List.filter_cons_of_pos (by simpa using hp), renamedBy_cons]
          refine ih (fun r hr hfalse => ?_) hq.2
          -- The name may have become a placeholder, and then no variable left out has it either.
          split
          · exact hq.2 r hr hfalse p.2
          · exact hx.2 r hr hfalse

theorem filter_entries (q : Var → Bool) : m.entries.filter (fun p => q p.1) =
    (⟨m.layers.map fun l => l.filter q⟩ : Matching).entries := by
  simp only [entries, numbered, List.filter_flatMap, List.filter_map, List.zipIdx_map,
    List.map_map, List.flatMap_map]
  rfl

/-- Matchings that have the same layers for some variables have the same entries for them. -/
theorem filter_entries_congr (hm : m.Exclusive) (hn : n.Exclusive) (hdepth : n.depth = m.depth)
    {q : Var → Bool} (h : ∀ v, q v = true → n.layerOf? v = m.layerOf? v) :
    n.entries.filter (fun p => q p.1) = m.entries.filter fun p => q p.1 := by
  have hlayer : ∀ {k : Matching} (hk : k.Exclusive) {d : ℕ} (hd : d < k.layers.length) (v : Var),
      v ∈ (k.layers[d]).filter q ↔ k.layerOf? v = some d ∧ q v = true := by
    intro k hk d hd v
    rw [hk.layerOf?_eq_some]
    refine List.mem_filter.trans (and_congr_left fun _ => ?_)
    exact ⟨fun hv => ⟨_, List.getElem?_eq_getElem hd, hv⟩,
      fun ⟨l, hl, hv⟩ => (List.getElem?_eq_some_iff.mp hl).2 ▸ hv⟩
  have hlayers : n.layers.map (fun l => l.filter q) = m.layers.map fun l => l.filter q := by
    refine List.ext_getElem (by simpa [depth] using hdepth) fun d hd hd' => ?_
    rw [List.length_map] at hd hd'
    rw [List.getElem_map, List.getElem_map]
    refine VarSet.eq_of_mem_iff fun v => ?_
    rw [hlayer hn hd, hlayer hm hd']
    exact and_congr_left fun hv => by rw [h v hv]
  rw [filter_entries, filter_entries, hlayers]

/-- Only the layers of the names that occur in a term matter, and those of placeholders. -/
theorem apply_congr (hm : m.Exclusive) (hn : n.Exclusive) (hdepth : n.depth = m.depth) {t : Term}
    (h : ∀ v, n.layerOf? v ≠ m.layerOf? v →
      v.tuple ∉ t.names ∧ ∀ d, v.tuple ≠ placeholder d) : n.apply t = m.apply t := by
  rw [apply_eq_relabel, apply_eq_relabel]
  refine Term.relabel_congr fun x hx => ?_
  let q : Var → Bool := fun v => decide (n.layerOf? v = m.layerOf? v)
  have hother : ∀ v, q v = false → v.tuple ≠ x ∧ ∀ d, v.tuple ≠ placeholder d := by
    intro v hv
    obtain ⟨hout, hplaceholder⟩ := h v (of_decide_eq_false hv)
    exact ⟨fun heq => hout (heq ▸ hx), hplaceholder⟩
  rw [← renamedBy_filter (fun p _ hp => (hother p.1 hp).1) fun p _ hp => (hother p.1 hp).2,
    filter_entries_congr hm hn hdepth fun v hv => of_decide_eq_true hv,
    renamedBy_filter (fun p _ hp => (hother p.1 hp).1) fun p _ hp => (hother p.1 hp).2]

theorem equates_congr (hm : m.Exclusive) (hn : n.Exclusive) (hdepth : n.depth = m.depth)
    {s t : Term} (h : ∀ v, n.layerOf? v ≠ m.layerOf? v →
      v.tuple ∉ s.names ∧ v.tuple ∉ t.names ∧ ∀ d, v.tuple ≠ placeholder d) :
    n.equates s t = m.equates s t := by
  rw [equates, equates,
    apply_congr hm hn hdepth fun v hv => ⟨(h v hv).1, (h v hv).2.2⟩,
    apply_congr hm hn hdepth fun v hv => ⟨(h v hv).2.1, (h v hv).2.2⟩]

/-! ### Equal terms -/

theorem renamedBy_of_forall_ne {ps : List (Var × ℕ)} {x : String}
    (h : ∀ p ∈ ps, p.1.tuple ≠ x) : renamedBy ps x = x := by
  induction ps with
  | nil => rfl
  | cons p ps ih =>
      rw [List.forall_mem_cons] at h
      rw [renamedBy_cons, if_neg (Ne.symm h.1), ih h.2]

/-- A name gets the placeholder of its layer, if it has one layer and placeholders have none. -/
theorem renamedBy_of_mem {ps : List (Var × ℕ)} {v : Var} {d : ℕ} (hv : (v, d) ∈ ps)
    (hone : ∀ p ∈ ps, p.1.tuple = v.tuple → p.2 = d)
    (hplaceholder : ∀ p ∈ ps, ∀ e, p.1.tuple ≠ placeholder e) :
    renamedBy ps v.tuple = placeholder d := by
  induction ps with
  | nil => cases hv
  | cons p ps ih =>
      rw [List.forall_mem_cons] at hone hplaceholder
      rw [renamedBy_cons]
      split
      · next heq =>
          -- From here on it is a placeholder, which no entry renames.
          rw [hone.1 heq.symm]
          exact renamedBy_of_forall_ne fun q hq => hplaceholder.2 q hq d
      · next hne =>
          refine ih ?_ hone.2 hplaceholder.2
          exact (List.mem_cons.mp hv).resolve_left fun heq => hne (heq ▸ rfl)

section Partners

variable (hnames : (boundNames [left, right]).Nodup)
  (hplaceholder : ∀ x ∈ boundNames [left, right], ∀ d, x ≠ placeholder d)
  (hm : m.isValid left right = true)

include hnames in
/-- Bound variables with the same name are the same. -/
theorem eq_of_tuple_eq {b b' : List Var × Term} (hb : b ∈ left.binders ++ right.binders)
    (hb' : b' ∈ left.binders ++ right.binders) {v w : Var} (hv : v ∈ b.1) (hw : w ∈ b'.1)
    (heq : v.tuple = w.tuple) : v = w := by
  refine List.inj_on_of_nodup_map ((Term.binders_pair_perm left right).nodup_iff.mpr hnames) ?_ ?_
    heq
  · exact List.mem_flatMap.mpr ⟨b, hb, hv⟩
  · exact List.mem_flatMap.mpr ⟨b', hb', hw⟩

include hplaceholder in
theorem tuple_ne_placeholder {b : List Var × Term} (hb : b ∈ left.binders ++ right.binders)
    {v : Var} (hv : v ∈ b.1) (d : ℕ) : v.tuple ≠ placeholder d := by
  refine hplaceholder _ ((Term.binders_pair_perm left right).subset ?_) d
  exact List.mem_map_of_mem (List.mem_flatMap.mpr ⟨b, hb, hv⟩)

include hnames hplaceholder hm in
/-- The new name of a bound variable tells its layer. -/
theorem renamedBy_eq_placeholder_iff {b : List Var × Term}
    (hb : b ∈ left.binders ++ right.binders) {v : Var} (hv : v ∈ b.1) {d : ℕ} :
    renamedBy m.entries v.tuple = placeholder d ↔ m.layerOf? v = some d := by
  have hexclusive := (isValid_iff.mp hm).1
  have hentry : ∀ p ∈ m.entries, ∃ b' ∈ left.binders ++ right.binders, p.1 ∈ b'.1 := fun p hp =>
    mem_binders_of_puts hm (mem_entries.mp hp)
  have hsame : ∀ p ∈ m.entries, p.1.tuple = v.tuple → p.1 = v := by
    intro p hp heq
    obtain ⟨b', hb', hp'⟩ := hentry p hp
    exact eq_of_tuple_eq hnames hb' hb hp' hv heq
  cases hlayer : m.layerOf? v with
  | some e =>
      have hmem : (v, e) ∈ m.entries := mem_entries.mpr (puts_of_layerOf? hlayer)
      rw [renamedBy_of_mem hmem]
      · exact ⟨fun h => congrArg some (placeholder_injective h), fun h => by rw [Option.some.inj h]⟩
      · rintro ⟨w, f⟩ hp heq
        obtain rfl : w = v := hsame _ hp heq
        exact Option.some.inj ((hexclusive w f (mem_entries.mp hp)).symm.trans hlayer)
      · intro p hp f
        obtain ⟨b', hb', hp'⟩ := hentry p hp
        exact tuple_ne_placeholder hplaceholder hb' hp' f
  | none =>
      rw [renamedBy_of_forall_ne]
      · exact iff_of_false (tuple_ne_placeholder hplaceholder hb hv d) nofun
      · rintro ⟨w, f⟩ hp heq
        obtain rfl : w = v := hsame _ hp heq
        cases (hexclusive w f (mem_entries.mp hp)).symm.trans hlayer

/-- If the terms are equal, every right summation has a left one with the same new names and an
equal body. -/
theorem exists_sum_of_equates (h : m.equates left right = true) {vars : VarSet} {body : Term}
    (hs : .sum vars body ∈ right.subterms) :
    ∃ lvars lbody, .sum lvars lbody ∈ left.subterms ∧
      lvars.map (Var.relabel (renamedBy m.entries)) =
        vars.map (Var.relabel (renamedBy m.entries)) ∧ m.equates lbody body = true := by
  rw [equates, beq_iff_eq, apply_eq_relabel, apply_eq_relabel] at h
  have hs' : (Term.sum vars body).relabel (renamedBy m.entries) ∈
      (right.relabel (renamedBy m.entries)).subterms :=
    Term.mem_subterms_relabel.mpr ⟨_, hs, rfl⟩
  obtain ⟨u, hu, hkey⟩ := Term.exists_mem_subterms_of_key_eq h.symm hs'
  obtain ⟨t, ht, rfl⟩ := Term.mem_subterms_relabel.mp hu
  rw [Term.relabel] at hkey
  obtain ⟨c, hc, hbody⟩ := (Term.sameNode_of_key_eq hkey).exists_eq_sum
  obtain ⟨lvars, lbody, rfl, hlvars, rfl⟩ := Term.exists_eq_sum_of_relabel hc
  refine ⟨lvars, lbody, ht, hlvars, ?_⟩
  rw [equates, beq_iff_eq, apply_eq_relabel, apply_eq_relabel, hbody]

include hnames hplaceholder hm in
/-- Summations with the same new names have variables in the same layers. -/
theorem exists_mem_of_map_eq {b b' : List Var × Term} (hb : b ∈ left.binders ++ right.binders)
    (hb' : b' ∈ left.binders ++ right.binders) {s s' : VarSet} (hs : b.1 = s.toList)
    (hs' : b'.1 = s'.toList) (hnew : s.map (Var.relabel (renamedBy m.entries)) =
      s'.map (Var.relabel (renamedBy m.entries))) {v : Var} (hv : v ∈ b.1) :
    ∃ w ∈ b'.1, ∀ d, m.layerOf? v = some d ↔ m.layerOf? w = some d := by
  have hmem : v.relabel (renamedBy m.entries) ∈ s'.map (Var.relabel (renamedBy m.entries)) := by
    rw [← hnew]
    rw [hs] at hv
    exact VarSet.mem_map.mpr ⟨v, hv, rfl⟩
  obtain ⟨w, hw, heq⟩ := VarSet.mem_map.mp hmem
  have hw' : w ∈ b'.1 := by
    rw [hs']
    exact hw
  have htuple := congrArg Var.tuple heq
  rw [Var.tuple_relabel, Var.tuple_relabel] at htuple
  refine ⟨w, hw', fun d => ?_⟩
  rw [← renamedBy_eq_placeholder_iff hnames hplaceholder hm hb hv,
    ← renamedBy_eq_placeholder_iff hnames hplaceholder hm hb' hw', htuple]

include hnames hplaceholder hm in
/-- Equal terms have equal summations: each right one equals a left one over the same layers. -/
theorem exists_partner (hone : ∀ b ∈ left.binders ++ right.binders, ∀ ds,
      m.layersOf? b.1 = some ds → ds.Nodup) (hequal : m.equates left right = true)
    (hr : r ∈ right.binders) (hmatched : m.layersOf? r.1 ≠ none) :
    ∃ b ∈ left.binders, m.SameLayers b r ∧ m.equates b.2 r.2 = true := by
  obtain ⟨vars, hvars, hs⟩ := Term.mem_binders.mp hr
  obtain ⟨lvars, lbody, hls, hnew, hbody⟩ := exists_sum_of_equates hequal hs
  have hb : (lvars.toList, lbody) ∈ left.binders := Term.mem_binders.mpr ⟨lvars, rfl, hls⟩
  have hb' := List.mem_append_left right.binders hb
  have hr' := List.mem_append_right left.binders hr
  obtain ⟨es, hes⟩ := Option.ne_none_iff_exists'.mp hmatched
  obtain ⟨ds, hds⟩ : ∃ ds, m.layersOf? lvars.toList = some ds := by
    refine Option.ne_none_iff_exists'.mp fun hnone => ?_
    obtain ⟨w, hw, hlayer⟩ := List.mem_map.mp (layersOf?_eq_none_iff.mp hnone)
    obtain ⟨v, hv, hiff⟩ := exists_mem_of_map_eq hnames hplaceholder hm hb' hr' rfl hvars hnew hw
    have hmem : m.layerOf? v ∈ es.map some :=
      layersOf?_eq_some_iff.mp hes ▸ List.mem_map_of_mem hv
    obtain ⟨e, -, he⟩ := List.mem_map.mp hmem
    cases hlayer.symm.trans ((hiff e).mpr he.symm)
  refine ⟨_, hb, ⟨ds, es, hds, hes, ?_⟩, hbody⟩
  -- New names only tell which layers there are; as none is there twice, that is enough.
  refine (List.perm_ext_iff_of_nodup (hone _ hb' ds hds) (hone _ hr' es hes)).mpr fun d => ?_
  rw [mem_of_layersOf? hds, mem_of_layersOf? hes]
  constructor
  · rintro ⟨w, hw, hlayer⟩
    obtain ⟨v, hv, hiff⟩ := exists_mem_of_map_eq hnames hplaceholder hm hb' hr' rfl hvars hnew hw
    exact ⟨v, hv, (hiff d).mp hlayer⟩
  · rintro ⟨v, hv, hlayer⟩
    obtain ⟨w, hw, hiff⟩ :=
      exists_mem_of_map_eq hnames hplaceholder hm hr' hb' hvars rfl hnew.symm hv
    exact ⟨w, hw, (hiff d).mp hlayer⟩

end Partners

end Matching

end BagEquiv
