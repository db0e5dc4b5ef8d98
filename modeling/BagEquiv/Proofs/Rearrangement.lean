/-
**Matchings that differ in the order of one summation.**

The variables of one summation can be resolved in any order: if they exchange their layers among
each other, the matching stays valid.  Validation goes through the layers with the summations that
are still to be resolved.  For two matchings that differ in such a way, these summations are the
same at every depth, apart from the one whose variables have exchanged their layers: it may have
other variables left, but it has as many, and they are in the same layers.

Main definition:

* `Matching.Puts` — a variable is in a layer.

Main result:

* `Matching.Rearranged.isValid` — **the order in which the variables of a summation are
  resolved does not matter for validity**.
-/

import BagEquiv.Proofs.ReportedTuples
import BagEquiv.Proofs.Subterms

set_option autoImplicit false

namespace BagEquiv

namespace Matching

variable {m n c : Matching} {v w : Var} {d : ℕ}

/-! ### Layers -/

/-- The matching has the variable in the layer. -/
def Puts (m : Matching) (v : Var) (d : ℕ) : Prop := ∃ l, m.layer? d = some l ∧ v ∈ l

/-- No variable is in two layers. -/
def Exclusive (m : Matching) : Prop := ∀ v d, m.Puts v d → m.layerOf? v = some d

theorem Puts.lt_depth (h : m.Puts v d) : d < m.depth := by
  obtain ⟨l, hl, _⟩ := h
  exact (List.getElem?_eq_some_iff.mp hl).1

theorem puts_of_layerOf? (h : m.layerOf? v = some d) : m.Puts v d := by
  obtain ⟨hd, hv, _⟩ := List.findIdx?_eq_some_iff_getElem.mp h
  exact ⟨m.layers[d], List.getElem?_eq_getElem hd, of_decide_eq_true hv⟩

theorem exclusive_iff : m.Exclusive ↔ ∀ v d e, m.Puts v d → m.Puts v e → d = e := by
  constructor
  · exact fun h v d e hd he => Option.some.inj ((h v d hd).symm.trans (h v e he))
  · intro h v d hd
    cases he : m.layerOf? v with
    | some e => rw [h v d e hd (puts_of_layerOf? he)]
    | none =>
        obtain ⟨l, hl, hv⟩ := hd
        have hnone := List.findIdx?_eq_none_iff.mp he l (List.mem_of_getElem? hl)
        exact absurd hv (of_decide_eq_false hnone)

theorem Exclusive.layerOf?_eq_some (hm : m.Exclusive) : m.layerOf? v = some d ↔ m.Puts v d :=
  ⟨puts_of_layerOf?, hm v d⟩

theorem exclusive_iff_nodup : m.Exclusive ↔ (m.layers.flatMap VarSet.toList).Nodup := by
  rw [List.nodup_flatMap, List.pairwise_iff_getElem]
  constructor
  · intro h
    refine ⟨fun l _ => l.nodup, fun i j hi hj hij v hvi hvj => ?_⟩
    have hleft := h v i ⟨_, List.getElem?_eq_getElem hi, hvi⟩
    have hright := h v j ⟨_, List.getElem?_eq_getElem hj, hvj⟩
    exact absurd (Option.some.inj (hleft.symm.trans hright)) (Nat.ne_of_lt hij)
  · rintro ⟨_, hdisjoint⟩ v d ⟨l, hl, hv⟩
    obtain ⟨hd, rfl⟩ := List.getElem?_eq_some_iff.mp hl
    refine List.findIdx?_eq_some_iff_getElem.mpr ⟨hd, decide_eq_true hv, fun j hj => ?_⟩
    rw [decide_eq_true_eq]
    exact fun hvj => hdisjoint j d (hj.trans hd) hd hj hvj hv

/-- Two matchings with the same layer for every variable are the same. -/
theorem eq_of_layerOf? (hm : m.Exclusive) (hn : n.Exclusive) (hdepth : m.depth = n.depth)
    (h : ∀ v, m.layerOf? v = n.layerOf? v) : m = n := by
  suffices m.layers = n.layers by
    cases m
    cases n
    cases this
    rfl
  refine List.ext_getElem hdepth fun d hd hd' => VarSet.eq_of_mem_iff fun v => ?_
  constructor
  · intro hv
    have hlayer := h v ▸ hm v d ⟨_, List.getElem?_eq_getElem hd, hv⟩
    obtain ⟨l, hl, hv⟩ := puts_of_layerOf? hlayer
    rwa [← (List.getElem?_eq_some_iff.mp hl).2] at hv
  · intro hv
    have hlayer := (h v).trans (hn v d ⟨_, List.getElem?_eq_getElem hd', hv⟩)
    obtain ⟨l, hl, hv⟩ := puts_of_layerOf? hlayer
    rwa [← (List.getElem?_eq_some_iff.mp hl).2] at hv

/-- A matching is valid if no variable is in two layers and each is bound at its layer. -/
theorem isValid_iff {left right : Term} : m.isValid left right = true ↔
    m.Exclusive ∧ ∀ v d, m.Puts v d → ∃ s ∈ m.scopeAt left right d, v ∈ s.vars := by
  have hbound := m.firstUnbound?_eq_none_iff left right m.layers 0
  have hrepeated := @firstRepeated?_eq_none_iff [] (m.layers.flatMap VarSet.toList)
  simp only [List.not_mem_nil, not_false_eq_true, implies_true, and_true,
    ← exclusive_iff_nodup] at hrepeated
  simp only [Nat.zero_add] at hbound
  have hputs : (∀ v d, m.Puts v d → ∃ s ∈ m.scopeAt left right d, v ∈ s.vars) ↔
      firstUnbound? m 0 m.layers (OpenSum.scope left right) = none := by
    rw [← scopeAt, hbound]
    exact ⟨fun h d l hl v hv => h v d ⟨l, hl, hv⟩,
      fun h v d hv => hv.elim fun l hl => h d l hl.1 v hl.2⟩
  rw [← hrepeated, hputs, isValid, validate]
  cases firstRepeated? [] (m.layers.flatMap VarSet.toList) with
  | some v => simp
  | none => cases firstUnbound? m 0 m.layers (OpenSum.scope left right) <;> simp

/-- The variable that is matched is the first one that has the layer. -/
theorem Exclusive.matchedAmong?_eq (hm : m.Exclusive) (depth : ℕ) (vars : VarSet) :
    m.matchedAmong? depth vars =
      vars.toList.find? fun v => decide (m.layerOf? v = some depth) := by
  unfold matchedAmong?
  split
  · next l hl =>
      congr 1
      funext v
      refine decide_eq_decide.mpr ?_
      rw [hm.layerOf?_eq_some]
      exact ⟨fun hv => ⟨l, hl, hv⟩, fun ⟨l', hl', hv⟩ =>
        Option.some.inj (hl'.symm.trans hl) ▸ hv⟩
  · next hl =>
      symm
      rw [List.find?_eq_none]
      intro v _ hv
      rw [decide_eq_true_eq, hm.layerOf?_eq_some] at hv
      obtain ⟨l, hl', _⟩ := hv
      cases hl.symm.trans hl'

theorem Exclusive.layerOf?_of_matchedAmong? (hm : m.Exclusive) {vars : VarSet}
    (h : m.matchedAmong? d vars = some v) : m.layerOf? v = some d := by
  rw [hm.matchedAmong?_eq] at h
  simpa using List.find?_some h

theorem Exclusive.matchedAmong?_eq_none (hm : m.Exclusive) {vars : VarSet} :
    m.matchedAmong? d vars = none ↔ some d ∉ vars.toList.map m.layerOf? := by
  rw [hm.matchedAmong?_eq, List.find?_eq_none]
  simp

/-- Of variables in the same layers, some are matched in both cases or none are, and the others are
still in the same layers. -/
theorem matchedAmong?_of_perm (hm : m.Exclusive) (hn : n.Exclusive) {own own' : VarSet}
    (hperm : (own'.toList.map n.layerOf?).Perm (own.toList.map m.layerOf?)) :
    m.matchedAmong? d own = none ∧ n.matchedAmong? d own' = none ∨
      ∃ v v', m.matchedAmong? d own = some v ∧ n.matchedAmong? d own' = some v' ∧
        ((own'.erase v').toList.map n.layerOf?).Perm ((own.erase v).toList.map m.layerOf?) := by
  have hnone : n.matchedAmong? d own' = none ↔ m.matchedAmong? d own = none := by
    rw [hm.matchedAmong?_eq_none, hn.matchedAmong?_eq_none, hperm.mem_iff]
  cases hv : m.matchedAmong? d own with
  | none => exact .inl ⟨rfl, hnone.mpr hv⟩
  | some v =>
      cases hv' : n.matchedAmong? d own' with
      | none => cases hv.symm.trans (hnone.mp hv')
      | some v' =>
          refine .inr ⟨v, v', rfl, rfl, ?_⟩
          have hlayers := ((VarSet.perm_cons_erase (mem_of_matchedAmong? hv')).map
            n.layerOf?).symm.trans
              (hperm.trans ((VarSet.perm_cons_erase (mem_of_matchedAmong? hv)).map m.layerOf?))
          rw [List.map_cons, List.map_cons, hm.layerOf?_of_matchedAmong? hv,
            hn.layerOf?_of_matchedAmong? hv'] at hlayers
          exact hlayers.cons_inv

theorem layersOf?_cons (v : Var) (vs : List Var) : m.layersOf? (v :: vs) =
    (m.layerOf? v).bind fun d => (m.layersOf? vs).bind fun ds => some (d :: ds) := by
  rw [layersOf?, List.mapM_cons]
  rfl

theorem layersOf?_eq_some_iff {vs : List Var} {ds : List ℕ} :
    m.layersOf? vs = some ds ↔ vs.map m.layerOf? = ds.map some := by
  induction vs generalizing ds with
  | nil => cases ds <;> simp [layersOf?]
  | cons v vs ih =>
      rw [layersOf?_cons]
      simp only [Option.bind_eq_some_iff, ih, Option.some.injEq, List.map_cons]
      constructor
      · rintro ⟨d, hd, es, hes, rfl⟩
        rw [List.map_cons, hd, hes]
      · intro h
        cases ds with
        | nil => cases h
        | cons d ds => exact ⟨d, (List.cons.inj h).1, ds, (List.cons.inj h).2, rfl⟩

theorem mem_of_layersOf? {vs : List Var} {ds : List ℕ} (h : m.layersOf? vs = some ds) :
    d ∈ ds ↔ ∃ v ∈ vs, m.layerOf? v = some d := by
  rw [← List.mem_map, layersOf?_eq_some_iff.mp h]
  simp

theorem layersOf?_eq_none_iff {vs : List Var} :
    m.layersOf? vs = none ↔ none ∈ vs.map m.layerOf? := by
  constructor
  · induction vs with
    | nil => simp [layersOf?]
    | cons v vs ih =>
        rw [layersOf?_cons, Option.bind_eq_none_iff, List.map_cons, List.mem_cons]
        intro h
        cases hv : m.layerOf? v with
        | none => exact .inl rfl
        | some d =>
            exact .inr (ih (Option.eq_none_iff_forall_ne_some.mpr (by simpa using h d hv)))
  · intro hmem
    cases hds : m.layersOf? vs with
    | none => rfl
    | some ds => simp [layersOf?_eq_some_iff.mp hds] at hmem

/-- Variables that exchange their layers are matched as before. -/
theorem exists_layersOf?_of_perm {vs : List Var} {ds : List ℕ}
    (hperm : (vs.map n.layerOf?).Perm (vs.map m.layerOf?)) (hds : n.layersOf? vs = some ds) :
    ∃ es, m.layersOf? vs = some es ∧ ds.Perm es := by
  rw [layersOf?_eq_some_iff] at hds
  obtain ⟨es, hes⟩ : ∃ es, m.layersOf? vs = some es := by
    refine Option.ne_none_iff_exists'.mp fun hnone => ?_
    rw [layersOf?_eq_none_iff, ← hperm.mem_iff, hds] at hnone
    simp at hnone
  rw [hds, layersOf?_eq_some_iff.mp hes] at hperm
  exact ⟨es, hes, (List.map_perm_map_iff (Option.some_injective _)).mp hperm⟩

variable {b r : List Var × Term}

/-- Both summations are over the same layers. -/
def SameLayers (m : Matching) (b r : List Var × Term) : Prop :=
  ∃ ds es, m.layersOf? b.1 = some ds ∧ m.layersOf? r.1 = some es ∧ ds.Perm es

theorem SameLayers.symm (h : m.SameLayers b r) : m.SameLayers r b := by
  obtain ⟨ds, es, hds, hes, hperm⟩ := h
  exact ⟨es, ds, hes, hds, hperm.symm⟩

theorem SameLayers.trans {b' : List Var × Term} (h : m.SameLayers b r) (h' : m.SameLayers r b') :
    m.SameLayers b b' := by
  obtain ⟨ds, es, hds, hes, hperm⟩ := h
  obtain ⟨es', fs, hes', hfs, hperm'⟩ := h'
  obtain rfl : es = es' := Option.some.inj (hes.symm.trans hes')
  exact ⟨ds, fs, hds, hfs, hperm.trans hperm'⟩

/-- Left summations and the one whose layers are exchanged occupy the same layers as before. -/
theorem sameLayers_congr (hleft : ∀ v ∈ b.1, n.layerOf? v = m.layerOf? v)
    (hright : (r.1.map n.layerOf?).Perm (r.1.map m.layerOf?)) :
    n.SameLayers b r → m.SameLayers b r := by
  rintro ⟨ds, es, hds, hes, hperm⟩
  obtain ⟨fs, hfs, hperm'⟩ := exists_layersOf?_of_perm hright hes
  refine ⟨ds, fs, ?_, hfs, hperm.trans hperm'⟩
  rw [layersOf?_eq_some_iff] at hds ⊢
  rw [← hds]
  exact List.map_congr_left fun v hv => (hleft v hv).symm

/-! ### Reassigning layers -/

theorem puts_foldl_insert (ps : List (Var × ℕ)) (ls : List VarSet) :
    (⟨ps.foldl (fun ls (v, d) => ls.modify d (·.insert v)) ls⟩ : Matching).Puts v d ↔
      (⟨ls⟩ : Matching).Puts v d ∨ (v, d) ∈ ps ∧ d < ls.length := by
  induction ps generalizing ls with
  | nil => simp
  | cons p ps ih =>
      obtain ⟨w, e⟩ := p
      have hstep : (⟨ls.modify e (·.insert w)⟩ : Matching).Puts v d ↔
          (⟨ls⟩ : Matching).Puts v d ∨ (v = w ∧ d = e) ∧ d < ls.length := by
        simp only [Puts, layer?, List.getElem?_modify]
        by_cases hd : d < ls.length
        · simp only [List.getElem?_eq_getElem hd]
          by_cases he : e = d
          · simp [he, hd, or_comm]
          · simp [he, Ne.symm he]
        · simp [hd]
      rw [List.foldl_cons, ih, hstep, List.length_modify, List.mem_cons, Prod.mk.injEq]
      tauto

/-- A variable is where it was, or where it is put. -/
theorem puts_reassign {order : List Var} {depths : List ℕ} :
    (m.reassign order depths).Puts v d ↔
      m.Puts v d ∧ v ∉ order ∨ (v, d) ∈ order.zip depths ∧ d < m.depth := by
  have hcleared : (⟨m.layers.map fun l => l.filter fun v => v ∉ order⟩ : Matching).Puts v d ↔
      m.Puts v d ∧ v ∉ order := by
    have hfilter : ∀ l : VarSet, v ∈ l.filter (fun v => v ∉ order) ↔ v ∈ l ∧ v ∉ order := by
      intro l
      exact List.mem_filter.trans (by rw [decide_eq_true_eq]; rfl)
    simp only [Puts, layer?, List.getElem?_map, Option.map_eq_some_iff]
    constructor
    · rintro ⟨_, ⟨l, hl, rfl⟩, hv⟩
      exact ⟨⟨l, hl, ((hfilter l).mp hv).1⟩, ((hfilter l).mp hv).2⟩
    · rintro ⟨⟨l, hl, hv⟩, hout⟩
      exact ⟨_, ⟨l, hl, rfl⟩, (hfilter l).mpr ⟨hv, hout⟩⟩
  rw [reassign, puts_foldl_insert, hcleared, List.length_map, depth]

theorem depth_reassign (order : List Var) (depths : List ℕ) :
    (m.reassign order depths).depth = m.depth := by
  have hlength : ∀ (ps : List (Var × ℕ)) (ls : List VarSet),
      (ps.foldl (fun ls (v, d) => ls.modify d (·.insert v)) ls).length = ls.length := by
    intro ps
    induction ps with
    | nil => exact fun _ => rfl
    | cons p ps ih =>
        intro ls
        rw [List.foldl_cons, ih, List.length_modify]
  rw [reassign, depth, depth]
  simp only [hlength, List.length_map]

/-- Only the given variables have other layers. -/
structure Confined (vs : List Var) (m n : Matching) : Prop where
  depth : n.depth = m.depth
  others : ∀ v ∉ vs, n.layerOf? v = m.layerOf? v

namespace Confined

variable {vs ws : List Var}

theorem refl (vs : List Var) (m : Matching) : Confined vs m m := ⟨rfl, fun _ _ => rfl⟩

theorem trans (h : Confined vs m n) (h' : Confined ws n c) : Confined (vs ++ ws) m c := by
  refine ⟨h'.depth.trans h.depth, fun v hv => ?_⟩
  rw [List.mem_append, not_or] at hv
  exact (h'.others v hv.2).trans (h.others v hv.1)

end Confined

/-- The given variables exchange their layers among each other. -/
structure Rearranged (vs : List Var) (m n : Matching) : Prop extends Confined vs m n where
  exclusive : n.Exclusive
  perm : (vs.map n.layerOf?).Perm (vs.map m.layerOf?)

namespace Rearranged

variable {vs : List Var}

theorem refl (hm : m.Exclusive) : Rearranged vs m m := ⟨.refl vs m, hm, .refl _⟩

theorem trans (h : Rearranged vs m n) (h' : Rearranged vs n c) : Rearranged vs m c :=
  ⟨⟨h'.depth.trans h.depth, fun v hv => (h'.others v hv).trans (h.others v hv)⟩, h'.exclusive,
    h'.perm.trans h.perm⟩

end Rearranged

section Reassign

variable {vs order : List Var} {ds depths : List ℕ}

/-- The layers after reassigning them, of the variables that are put somewhere and of the others. -/
theorem layerOf?_reassign (hm : m.Exclusive) (hnodup : order.Nodup)
    (hlength : order.length = depths.length) (hlt : ∀ d ∈ depths, d < m.depth) :
    (m.reassign order depths).Exclusive ∧
      order.map (m.reassign order depths).layerOf? = depths.map some ∧
      ∀ v ∉ order, (m.reassign order depths).layerOf? v = m.layerOf? v := by
  have hinside : ∀ v ∈ order, ∀ d,
      (m.reassign order depths).Puts v d ↔ (v, d) ∈ order.zip depths := by
    intro v hv d
    rw [puts_reassign]
    constructor
    · rintro (⟨_, hout⟩ | ⟨hmem, _⟩)
      · exact absurd hv hout
      · exact hmem
    · exact fun hmem => .inr ⟨hmem, hlt d (List.of_mem_zip hmem).2⟩
  have houtside : ∀ v ∉ order, ∀ d, (m.reassign order depths).Puts v d ↔ m.Puts v d := by
    intro v hv d
    rw [puts_reassign]
    exact ⟨fun h => h.elim And.left fun h => absurd (List.of_mem_zip h.1).1 hv,
      fun h => .inl ⟨h, hv⟩⟩
  have hkeys : ((order.zip depths).map Prod.fst).Nodup := by
    rwa [List.map_fst_zip hlength.le]
  have hexclusive : (m.reassign order depths).Exclusive := by
    refine exclusive_iff.mpr fun v d e hd he => ?_
    by_cases hv : v ∈ order
    · rw [hinside v hv] at hd he
      exact congrArg Prod.snd (List.inj_on_of_nodup_map hkeys hd he rfl)
    · rw [houtside v hv] at hd he
      exact exclusive_iff.mp hm v d e hd he
  refine ⟨hexclusive, ?_, fun v hv => Option.ext fun d => ?_⟩
  · refine List.ext_getElem (by simpa using hlength) fun i hi hi' => ?_
    rw [List.getElem_map, List.getElem_map]
    rw [List.length_map] at hi hi'
    rw [hexclusive.layerOf?_eq_some, hinside _ (List.getElem_mem hi)]
    exact List.mem_iff_getElem.mpr ⟨i, by simp [hi, hi'], List.getElem_zip⟩
  · rw [hexclusive.layerOf?_eq_some, houtside v hv, hm.layerOf?_eq_some]

/-- Variables that are put in their own layers in some order exchange their layers. -/
theorem rearranged_reassign (hm : m.Exclusive) (hvs : vs.Nodup) (hds : m.layersOf? vs = some ds)
    (horder : order.Perm vs) (hdepths : depths.Perm ds) :
    Rearranged vs m (m.reassign order depths) ∧
      order.map (m.reassign order depths).layerOf? = depths.map some := by
  rw [layersOf?_eq_some_iff] at hds
  have hlength : order.length = depths.length := by
    rw [horder.length_eq, hdepths.length_eq, ← List.length_map m.layerOf?, hds, List.length_map]
  have hlt : ∀ d ∈ depths, d < m.depth := by
    intro d hd
    have hmem : some d ∈ vs.map m.layerOf? := hds ▸ List.mem_map_of_mem (hdepths.subset hd)
    obtain ⟨v, _, hv⟩ := List.mem_map.mp hmem
    exact (puts_of_layerOf? hv).lt_depth
  obtain ⟨hexclusive, hinside, houtside⟩ :=
    layerOf?_reassign hm (horder.nodup_iff.mpr hvs) hlength hlt
  refine ⟨⟨⟨depth_reassign order depths, fun v hv => ?_⟩, hexclusive, ?_⟩, hinside⟩
  · exact houtside v (mt horder.mem_iff.mp hv)
  · exact ((horder.map _).symm.trans (.of_eq hinside)).trans
      ((hdepths.map some).trans (.of_eq hds.symm))

/-- Exchanging layers is putting the variables, in some order, in their own layers. -/
theorem Rearranged.exists_order (h : Rearranged vs m n) (hm : m.Exclusive) (hvs : vs.Nodup)
    (hds : m.layersOf? vs = some ds) (hdepths : depths.Perm ds) :
    ∃ order, order.Perm vs ∧ n = m.reassign order depths := by
  have hperm : (depths.map some).Perm (vs.map n.layerOf?) := by
    refine (hdepths.map some).trans (List.Perm.trans (.of_eq ?_) h.perm.symm)
    exact (layersOf?_eq_some_iff.mp hds).symm
  obtain ⟨order, hmap, horder⟩ := exists_map_eq_of_perm hperm
  obtain ⟨hreassign, hinside⟩ := rearranged_reassign hm hvs hds horder hdepths
  refine ⟨order, horder, eq_of_layerOf? h.exclusive hreassign.exclusive
    (h.depth.trans hreassign.depth.symm) fun v => ?_⟩
  by_cases hv : v ∈ order
  · exact List.map_inj_left.mp (hmap.trans hinside.symm) v hv
  · have hout := mt horder.mem_iff.mpr hv
    rw [h.others v hout, hreassign.others v hout]

/-- Whatever else two matchings do, variables that have the same layers in both can be rearranged
in the same way. -/
theorem Rearranged.transfer (h : Rearranged vs m n) (hc : c.Exclusive) (hvs : vs.Nodup)
    (hds : m.layersOf? vs = some ds) (hagree : ∀ v ∈ vs, c.layerOf? v = m.layerOf? v) :
    ∃ k, Rearranged vs c k ∧ ∀ v ∈ vs, k.layerOf? v = n.layerOf? v := by
  have hds' : c.layersOf? vs = some ds := by
    rw [layersOf?_eq_some_iff] at hds ⊢
    rw [← hds]
    exact List.map_congr_left hagree
  obtain ⟨es, hes, hperm⟩ := exists_layersOf?_of_perm h.perm.symm hds
  -- Each variable is put in the layer that it has in the rearranged matching.
  obtain ⟨hreassign, hinside⟩ := rearranged_reassign hc hvs hds' (.refl vs) hperm.symm
  refine ⟨_, hreassign, List.map_inj_left.mp ?_⟩
  rw [hinside, layersOf?_eq_some_iff.mp hes]

end Reassign

end Matching

/-! ### Orders -/

theorem perm_of_mem_selections {α : Type} {xs : List α} {p : α × List α}
    (h : p ∈ selections xs) : xs.Perm (p.1 :: p.2) := by
  induction xs generalizing p with
  | nil => cases h
  | cons x xs ih =>
      rcases List.mem_cons.mp h with rfl | h
      · exact .refl _
      · obtain ⟨q, hq, rfl⟩ := List.mem_map.mp h
        exact ((ih hq).cons x).trans (.swap _ _ _)

theorem exists_mem_selections {α : Type} {xs : List α} {x : α} (h : x ∈ xs) :
    ∃ rest, (x, rest) ∈ selections xs := by
  induction xs with
  | nil => cases h
  | cons y ys ih =>
      rcases List.mem_cons.mp h with rfl | h
      · exact ⟨ys, List.mem_cons_self⟩
      · obtain ⟨rest, hrest⟩ := ih h
        exact ⟨y :: rest, List.mem_cons_of_mem _ (List.mem_map_of_mem hrest)⟩

/-- The orders of a list are its rearrangements. -/
theorem mem_permutations {α : Type} {xs ys : List α} : ys ∈ permutations xs ↔ ys.Perm xs := by
  -- The fuel is the length of the list, so it does not run out.
  have hof : ∀ (n : ℕ) (xs ys : List α), xs.length = n →
      (ys ∈ permutationsOf n xs ↔ ys.Perm xs) := by
    intro n
    induction n with
    | zero =>
        intro xs ys hn
        obtain rfl := List.length_eq_zero_iff.mp hn
        rw [permutationsOf, List.mem_singleton, List.perm_nil]
    | succ n ih =>
        intro xs ys hn
        simp only [permutationsOf, List.mem_flatMap, List.mem_map]
        constructor
        · rintro ⟨p, hp, zs, hzs, rfl⟩
          have hperm := perm_of_mem_selections hp
          have hlength : p.2.length = n := Nat.succ.inj (hperm.length_eq.symm.trans hn)
          exact (((ih p.2 zs hlength).mp hzs).cons p.1).trans hperm.symm
        · intro hys
          cases ys with
          | nil => exact absurd hys.length_eq (by simp [hn])
          | cons y ys =>
              obtain ⟨rest, hrest⟩ := exists_mem_selections (hys.subset List.mem_cons_self)
              have hperm := perm_of_mem_selections hrest
              have hlength : rest.length = n := Nat.succ.inj (hperm.length_eq.symm.trans hn)
              exact ⟨(y, rest), hrest, ys, (ih rest ys hlength).mpr (hys.trans hperm).cons_inv, rfl⟩
  exact hof xs.length xs ys rfl

/-! ### Summations in the course of two validations -/

namespace Outline

mutual

/-- The sets of variables that a summation and those inside it bind. -/
def sets : Outline → List VarSet
  | .mk _ vars inner => vars :: setsAll inner

def setsAll : List Outline → List VarSet
  | [] => []
  | o :: os => sets o ++ setsAll os

end

theorem setsAll_eq (os : List Outline) : setsAll os = os.flatMap sets := by
  induction os with
  | nil => rfl
  | cons o os ih => rw [setsAll, ih, List.flatMap_cons]

/-- Below a layer, summations bind what they bound, or less. -/
theorem exists_sets_of_peel {matched : VarSet → Option Var} {o o' : Outline}
    (ho : o' ∈ o.peel matched) {s : VarSet} (hs : s ∈ o'.sets) :
    ∃ s' ∈ o.sets, ∀ v ∈ s, v ∈ s' := by
  obtain ⟨side, own, inner⟩ := o
  have hinner : o' ∈ inner → ∃ s' ∈ sets (.mk side own inner), ∀ v ∈ s, v ∈ s' := by
    intro ho
    refine ⟨s, ?_, fun _ => id⟩
    rw [sets, setsAll_eq]
    exact List.mem_cons_of_mem _ (List.mem_flatMap.mpr ⟨o', ho, hs⟩)
  rw [peel] at ho
  split at ho
  · next v _ =>
      split at ho
      · exact hinner ho
      · obtain rfl := List.mem_singleton.mp ho
        rw [sets] at hs ⊢
        rcases List.mem_cons.mp hs with rfl | hs
        · exact ⟨own, List.mem_cons_self, fun w hw => (VarSet.mem_erase.mp hw).1⟩
        · exact ⟨s, List.mem_cons_of_mem _ hs, fun _ => id⟩
  · exact hinner ho

/-- The variables are those of one summation: each summation binds all of them or none. -/
def Gathers (vars : VarSet) (o : Outline) : Prop :=
  ∀ s ∈ o.sets, s = vars ∨ ∀ v ∈ s, v ∉ vars

theorem gathers_mk {vars own : VarSet} {side : Side} {inner : List Outline} :
    Gathers vars (.mk side own inner) ↔
      (own = vars ∨ ∀ v ∈ own, v ∉ vars) ∧ ∀ o ∈ inner, o.Gathers vars := by
  rw [Gathers, sets, List.forall_mem_cons, setsAll_eq]
  simp only [List.mem_flatMap, forall_exists_index, and_imp]
  exact and_congr_right fun _ => ⟨fun h o ho s hs => h s o ho hs, fun h s o ho hs => h o ho s hs⟩

/-- The same summation in the course of two validations.  If it is the one whose variables exchange
their layers, it may have other variables left, but they are in the same layers; those in the layers
to come are left. -/
inductive Twins (m n : Matching) (vars : VarSet) (depth : ℕ) : Outline → Outline → Prop
  | apart {side : Side} {own : VarSet} {inner : List Outline} (hown : ∀ v ∈ own, v ∉ vars)
      (hinner : ∀ o ∈ inner, o.Gathers vars) :
      Twins m n vars depth (.mk side own inner) (.mk side own inner)
  | within {side : Side} {own own' : VarSet} {inner : List Outline}
      (hown : ∀ v ∈ own, v ∈ vars) (hperm : (own'.toList.map n.layerOf?).Perm
        (own.toList.map m.layerOf?))
      (hleft : ∀ v ∈ vars, ∀ d, depth ≤ d → n.layerOf? v = some d → v ∈ own')
      (hinner : ∀ o ∈ inner, o.Gathers vars) :
      Twins m n vars depth (.mk side own inner) (.mk side own' inner)

variable {m n : Matching} {vars : VarSet} {depth : ℕ}

theorem Gathers.twins (hperm : (vars.toList.map n.layerOf?).Perm (vars.toList.map m.layerOf?))
    {o : Outline} (h : o.Gathers vars) : Twins m n vars depth o o := by
  obtain ⟨side, own, inner⟩ := o
  rw [gathers_mk] at h
  rcases h.1 with rfl | hown
  · exact .within (fun _ => id) hperm (fun v hv _ _ _ => hv) h.2
  · exact .apart hown h.2

/-- A layer further down, the same summations are left. -/
theorem Twins.peel (hm : m.Exclusive) (h : Matching.Rearranged vars.toList m n) {o o' : Outline}
    (ho : Twins m n vars depth o o') :
    List.Forall₂ (Twins m n vars (depth + 1)) (o.peel (m.matchedAmong? depth))
      (o'.peel (n.matchedAmong? depth)) := by
  have hsame : ∀ {os : List Outline}, (∀ o ∈ os, o.Gathers vars) →
      List.Forall₂ (Twins m n vars (depth + 1)) os os :=
    fun hos => List.forall₂_same.mpr fun o ho => (hos o ho).twins h.perm
  cases ho with
  | @apart side own inner hown hinner =>
      -- Its variables have the same layers in both matchings.
      have hmatched : n.matchedAmong? depth own = m.matchedAmong? depth own := by
        rw [hm.matchedAmong?_eq, h.exclusive.matchedAmong?_eq]
        rw [← List.head?_filter, ← List.head?_filter, List.filter_congr fun v hv => by
          rw [h.others v (hown v hv)]]
      rw [Outline.peel, Outline.peel, hmatched]
      split
      · split
        · exact hsame hinner
        · exact .cons (.apart (fun w hw => hown w (VarSet.mem_erase.mp hw).1) hinner) .nil
      · exact hsame hinner
  | @within side own own' inner hown hperm hleft hinner =>
      rw [Outline.peel, Outline.peel]
      -- Both lose a variable at this layer or neither does, so they come to an end together.
      rcases Matching.matchedAmong?_of_perm hm h.exclusive hperm with
        ⟨hnone, hnone'⟩ | ⟨v, v', hv, hv', hcut⟩
      · rw [hnone, hnone']
        exact hsame hinner
      · have hempty : (own'.erase v').isEmpty = (own.erase v).isEmpty := by
          have hlength := hcut.length_eq
          rw [List.length_map, List.length_map] at hlength
          rw [VarSet.isEmpty, VarSet.isEmpty, Bool.eq_iff_iff, List.isEmpty_iff_length_eq_zero,
            List.isEmpty_iff_length_eq_zero, hlength]
        rw [hv, hv']
        simp only [hempty]
        split
        · exact hsame hinner
        · refine .cons (.within (fun w hw => hown w (VarSet.mem_erase.mp hw).1) hcut ?_ hinner) .nil
          -- A variable in a layer to come is not the one that was matched here.
          intro w hw d hd hlayer
          refine VarSet.mem_erase.mpr ⟨hleft w hw d (by omega) hlayer, ?_⟩
          rintro rfl
          have := hlayer.symm.trans (h.exclusive.layerOf?_of_matchedAmong? hv')
          grind

theorem Twins.mem_of_notMem {o o' : Outline} (h : Twins m n vars depth o o') {v : Var}
    (hv : v ∉ vars) (ho : v ∈ o.label.2) : v ∈ o'.label.2 := by
  cases h with
  | apart => exact ho
  | within hown => exact absurd (hown v ho) hv

/-- The variables of the summation that have the layer are still bound there, if it has been
reached. -/
theorem Twins.mem_of_layer {o o' : Outline} (h : Twins m n vars depth o o') {v w : Var}
    (hw : w ∈ vars) (ho : w ∈ o.label.2) (hv : v ∈ vars) (hlayer : n.layerOf? v = some depth) :
    v ∈ o'.label.2 := by
  cases h with
  | apart hown => exact absurd hw (hown w ho)
  | within _ _ hleft => exact hleft v hv depth le_rfl hlayer

end Outline

namespace Term

/-- The outlines of a term have the variables of its summations. -/
theorem binders_sets_perm (side : Side) (t : Term) : (t.binders.map Prod.fst).Perm
    (((t.outlines side).flatMap Outline.sets).map VarSet.toList) := by
  have step := fun t : Term => t.binders_perm.map Prod.fst
  induction t using Term.induct with
  | sum vars body ih =>
      refine (step _).trans ?_
      simpa [outlines, Outline.sets, Outline.setsAll_eq, children] using ih
  | add ts ih | mul ts ih | pred _ ts ih | func _ ts ih =>
      refine (step _).trans ?_
      change ((ts.flatMap binders).map Prod.fst).Perm
        (((outlinesAll side ts).flatMap Outline.sets).map VarSet.toList)
      induction ts with
      | nil => exact .refl _
      | cons t ts ihs =>
          rw [List.forall_mem_cons] at ih
          rw [outlinesAll, List.flatMap_append, List.map_append, List.flatMap_cons, List.map_append]
          exact ih.1.append (ihs ih.2)
  | neg t ih | squash t ih =>
      refine (step _).trans ?_
      simpa [outlines, children] using ih
  | var | const | table | str => exact step _

/-- The summations of two terms bind what the terms bind. -/
theorem binders_pair_perm (left right : Term) :
    (((left.binders ++ right.binders).flatMap Prod.fst).map Var.tuple).Perm
      (boundNames [left, right]) := by
  rw [List.flatMap_append, List.map_append]
  refine (left.binders_names_perm.append right.binders_names_perm).trans (.of_eq ?_)
  simp [boundNames]

end Term

theorem exists_mem_of_forall₂ {α β : Type} {R : α → β → Prop} {xs : List α} {ys : List β}
    (h : List.Forall₂ R xs ys) {x : α} (hx : x ∈ xs) : ∃ y ∈ ys, R x y := by
  induction h with
  | nil => cases hx
  | cons hxy _ ih =>
      rcases List.mem_cons.mp hx with rfl | hx
      · exact ⟨_, List.mem_cons_self, hxy⟩
      · obtain ⟨y, hy, hxy⟩ := ih hx
        exact ⟨y, List.mem_cons_of_mem _ hy, hxy⟩

namespace Matching

variable {m n : Matching} {left right : Term} {vars : VarSet} {body : Term}

theorem mem_binders_of_sets {o : Outline}
    (ho : o ∈ (OpenSum.scope left right).map OpenSum.outline) {s : VarSet} (hs : s ∈ o.sets) :
    s.toList ∈ (left.binders ++ right.binders).map Prod.fst := by
  rw [OpenSum.scope, List.map_append, OpenSum.map_outline_ofTerm, OpenSum.map_outline_ofTerm,
    List.mem_append] at ho
  rw [List.map_append, List.mem_append]
  refine ho.imp (fun ho => (left.binders_sets_perm .left).symm.subset ?_)
    fun ho => (right.binders_sets_perm .right).symm.subset ?_
  all_goals exact List.mem_map_of_mem (List.mem_flatMap.mpr ⟨o, ho, hs⟩)

theorem nodup_binders (hnames : (boundNames [left, right]).Nodup) :
    ((left.binders ++ right.binders).flatMap Prod.fst).Nodup :=
  ((Term.binders_pair_perm left right).nodup_iff.mpr hnames).of_map _

/-- If all names differ, the variables of a summation are in no other one. -/
theorem gathers_scope (hnames : (boundNames [left, right]).Nodup)
    (hb : (vars.toList, body) ∈ left.binders ++ right.binders) :
    ∀ o ∈ (OpenSum.scope left right).map OpenSum.outline, o.Gathers vars := by
  have hflatten : ((left.binders ++ right.binders).map Prod.fst).flatten.Nodup := by
    rw [← List.flatMap_def]
    exact nodup_binders hnames
  intro o ho s hs
  have hsets := mem_binders_of_sets ho hs
  have hvars : vars.toList ∈ (left.binders ++ right.binders).map Prod.fst :=
    List.mem_map.mpr ⟨_, hb, rfl⟩
  by_cases heq : s.toList = vars.toList
  · exact .inl (VarSet.ext heq)
  · refine .inr fun v hv hv' => ?_
    have hdisjoint := (List.nodup_flatten.mp hflatten).2
    have hsymm : Std.Symm (@List.Disjoint Var) := ⟨fun _ _ h => h.symm⟩
    exact hdisjoint.forall hsets hvars heq hv hv'

/-- The variables that a matching has in its layers are bound in the terms. -/
theorem mem_binders_of_puts (hm : m.isValid left right = true) {v : Var} {d : ℕ}
    (h : m.Puts v d) : ∃ b ∈ left.binders ++ right.binders, v ∈ b.1 := by
  have hscope : ∀ d, ∀ o ∈ (m.scopeAt left right d).map OpenSum.outline, ∀ s ∈ o.sets, ∀ v ∈ s,
      ∃ b ∈ left.binders ++ right.binders, v ∈ b.1 := by
    intro d
    induction d with
    | zero =>
        intro o ho s hs v hv
        obtain ⟨b, hb, heq⟩ := List.mem_map.mp (mem_binders_of_sets ho hs)
        exact ⟨b, hb, heq ▸ hv⟩
    | succ d ih =>
        intro o ho s hs v hv
        rw [scopeAt, map_outline_descend] at ho
        obtain ⟨o', ho', ho⟩ := List.mem_flatMap.mp ho
        obtain ⟨s', hs', hsub⟩ := Outline.exists_sets_of_peel ho hs
        exact ih o' ho' s' hs' v (hsub v hv)
  obtain ⟨s, hs, hv⟩ := (isValid_iff.mp hm).2 v d h
  refine hscope d s.outline (List.mem_map_of_mem hs) s.vars ?_ v hv
  rw [OpenSum.outline, Outline.sets]
  exact List.mem_cons_self

/-- Two validations go through the same summations. -/
theorem forall₂_scopeAt (hnames : (boundNames [left, right]).Nodup)
    (hb : (vars.toList, body) ∈ left.binders ++ right.binders) (hm : m.Exclusive)
    (h : Rearranged vars.toList m n) (depth : ℕ) :
    List.Forall₂ (Outline.Twins m n vars depth)
      ((m.scopeAt left right depth).map OpenSum.outline)
      ((n.scopeAt left right depth).map OpenSum.outline) := by
  induction depth with
  | zero =>
      exact List.forall₂_same.mpr fun o ho => (gathers_scope hnames hb o ho).twins h.perm
  | succ depth ih =>
      rw [scopeAt, scopeAt, map_outline_descend, map_outline_descend]
      exact List.rel_flatMap ih fun _ _ ho => ho.peel hm h

/-- The order in which the variables of a summation are resolved does not matter for validity. -/
theorem Rearranged.isValid (hnames : (boundNames [left, right]).Nodup)
    (hb : (vars.toList, body) ∈ left.binders ++ right.binders)
    (h : Rearranged vars.toList m n) (hm : m.isValid left right = true) :
    n.isValid left right = true := by
  rw [isValid_iff] at hm ⊢
  obtain ⟨hexclusive, hbound⟩ := hm
  refine ⟨h.exclusive, fun v d hv => ?_⟩
  have hlayer := h.exclusive v d hv
  have htwins := forall₂_scopeAt hnames hb hexclusive h d
  have hsame : ∀ w, m.layerOf? w = some d → ∃ s ∈ m.scopeAt left right d, w ∈ s.vars ∧
      ∃ s' ∈ n.scopeAt left right d, Outline.Twins m n vars d s.outline s'.outline := by
    intro w hw
    obtain ⟨s, hs, hws⟩ := hbound w d (puts_of_layerOf? hw)
    rw [List.forall₂_map_left_iff, List.forall₂_map_right_iff] at htwins
    exact ⟨s, hs, hws, exists_mem_of_forall₂ htwins hs⟩
  by_cases hmem : v ∈ vars
  · -- Another variable of the summation has the layer in the first matching.
    obtain ⟨w, hw, hwlayer⟩ : ∃ w ∈ vars.toList, m.layerOf? w = some d :=
      List.mem_map.mp (h.perm.subset (List.mem_map.mpr ⟨v, hmem, hlayer⟩))
    obtain ⟨s, _, hws, s', hs', htwin⟩ := hsame w hwlayer
    exact ⟨s', hs', htwin.mem_of_layer hw hws hmem hlayer⟩
  · obtain ⟨s, _, hvs, s', hs', htwin⟩ := hsame v ((h.others v hmem).symm.trans hlayer)
    exact ⟨s', hs', htwin.mem_of_notMem hmem hvs⟩

end Matching

end BagEquiv
