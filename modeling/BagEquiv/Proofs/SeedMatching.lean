/-
**The first matching is valid.**

The layers of the first matching are chosen one after the other, each for the summations that the
one before it left.  Validation goes through the same layers and finds the matched variable of a
summation again as its first variable in the layer.  The two agree because every tuple is bound
once: a layer has at most one variable of a summation, namely the one that was chosen.

Main definition:

* `WellNamed` — every tuple is bound once, and none is a placeholder of a layer.

Main results:

* `resolved_append_below` — a variable is done with at a layer or bound below it, and not
  both;
* `Matching.descend_eq_below` — validation goes the way of the choice;
* `Matching.seedLayers_ends` — the layers that are chosen.
-/

import Mathlib.Data.List.Perm.Subperm
import BagEquiv.Proofs.Binders
import BagEquiv.Proofs.Choosing

set_option autoImplicit false

namespace BagEquiv

variable {scope : List OpenSum} {s : OpenSum} {o : Option Var} {matched : List (Option Var)}

/-- The bodies of the summations of a term with a key have keys. -/
theorem Term.hasKey_of_mem_summations {t : Term} (ht : t.hasKey = true) {s : VarSet × Term}
    (hs : s ∈ t.summations) : s.2.hasKey = true := by
  induction t using Term.induct with
  | sum vars body _ =>
      obtain rfl := List.mem_singleton.mp hs
      exact ht
  | add ts ih | mul ts ih | pred _ ts ih | func _ ts ih =>
      rw [hasKey, allKeyed_eq, List.all_eq_true] at ht
      obtain ⟨t, hmem, hs⟩ := mem_summationsAll.mp hs
      exact ih t hmem (ht t hmem) hs
  | neg t ih | squash t ih => exact ih ht hs
  | var | const | table | str => simp [summations] at hs

theorem OpenSum.hasKey_rest (s : OpenSum) (o : Option Var) (tuple : String) :
    (s.rest o tuple).hasKey = s.body.hasKey := by
  cases o with
  | none => rfl
  | some v =>
      rw [rest_some]
      split
      · exact Term.hasKey_rename _ _ _
      · exact Term.hasKey_rename _ _ _

/-! ### Names -/

/-- Every tuple is bound once, and none is the placeholder of a layer. -/
structure WellNamed (bs : List BoundVar) : Prop where
  nodup : (bs.map fun b => b.var.tuple).Nodup
  fresh : ∀ b ∈ bs, ∀ depth, b.var.tuple ≠ placeholder depth

namespace WellNamed

variable {bs cs : List BoundVar}

theorem subperm (h : WellNamed bs) (hc : cs.Subperm bs) : WellNamed cs := by
  obtain ⟨ds, hperm, hsub⟩ := hc
  refine ⟨?_, fun b hb => h.fresh b (hsub.subset (hperm.symm.subset hb))⟩
  exact (hperm.map _).nodup_iff.mp (h.nodup.sublist (hsub.map _))

theorem eq_of_tuple_eq (h : WellNamed bs) {b c : BoundVar} (hb : b ∈ bs) (hc : c ∈ bs)
    (heq : b.var.tuple = c.var.tuple) : b = c :=
  List.inj_on_of_nodup_map h.nodup hb hc heq

theorem disjoint (h : WellNamed (bs ++ cs)) {b c : BoundVar} (hb : b ∈ bs) (hc : c ∈ cs) :
    b.var.tuple ≠ c.var.tuple := by
  have hnodup := h.nodup
  rw [List.map_append, List.nodup_append] at hnodup
  exact hnodup.2.2 _ (List.mem_map.mpr ⟨b, hb, rfl⟩) _ (List.mem_map.mpr ⟨c, hc, rfl⟩)

theorem of_mem (h : WellNamed (scope.flatMap OpenSum.boundVars)) (hs : s ∈ scope) :
    WellNamed s.boundVars := by
  rw [List.flatMap_def] at h
  exact h.subperm (List.sublist_flatten_of_mem (List.mem_map_of_mem hs)).subperm

theorem admits (h : WellNamed s.boundVars) (depth : Nat) : s.Admits (placeholder depth) :=
  ⟨h.nodup, fun b hb => h.fresh b hb depth⟩

end WellNamed

/-! ### One layer -/

/-- The variables of a summation that are done with at a layer: the one that is matched, or all of
them if none is. -/
def OpenSum.resolved (s : OpenSum) : Option Var → List BoundVar
  | some v => [⟨v, s.tableOf? v⟩]
  | none => BoundVar.ofBinder s.vars s.body

/-- The summations below a layer. -/
def below (scope : List OpenSum) (matched : List (Option Var)) (tuple : String) : List OpenSum :=
  (scope.zip matched).flatMap fun p => p.1.peel p.2 tuple

/-- The variables that are done with at a layer. -/
def resolved (scope : List OpenSum) (matched : List (Option Var)) : List BoundVar :=
  (scope.zip matched).flatMap fun p => p.1.resolved p.2

theorem below_cons (s : OpenSum) (scope : List OpenSum) (o : Option Var)
    (matched : List (Option Var)) (tuple : String) :
    below (s :: scope) (o :: matched) tuple = s.peel o tuple ++ below scope matched tuple := by
  simp [below]

theorem resolved_cons (s : OpenSum) (scope : List OpenSum) (o : Option Var)
    (matched : List (Option Var)) :
    resolved (s :: scope) (o :: matched) = s.resolved o ++ resolved scope matched := by
  simp [resolved]

/-- At most one variable of every summation is matched, one of its own. -/
def Matches : List OpenSum → List (Option Var) → Prop :=
  List.Forall₂ fun s o => ∀ v ∈ o, v ∈ s.vars

theorem Chooser.Fits.toMatches {table : Option String} {d : List (Option Var)}
    (h : Chooser.Fits table scope d) : Matches scope d :=
  h.imp fun _ _ ho v hv => (List.mem_filter.mp (ho v hv)).1

/-- What is done with, and what is bound in the rest of the summation, are variables of it. -/
theorem OpenSum.resolved_append_rest (ho : ∀ v ∈ o, v ∈ s.vars) (hs : WellNamed s.boundVars)
    (depth : Nat) :
    (s.resolved o ++ (s.rest o (placeholder depth)).boundVars).Subperm s.boundVars := by
  cases o with
  | none => exact List.Subperm.refl _
  | some v =>
      have hv := ho v rfl
      rw [(hs.admits depth).boundVars_rest hv, resolved, List.singleton_append]
      refine List.cons_subperm_of_not_mem_of_mem ?_ ?_ ?_
      · intro hmem
        rcases List.mem_append.mp hmem with hmem | hmem
        · simp [others] at hmem
        · exact (hs.admits depth).ne_of_mem_body hv hmem rfl
      · exact List.mem_append_left _ (mem_ofBinder_self hv)
      · exact (List.Sublist.append List.filter_sublist (List.Sublist.refl _)).subperm

/-- What is done with at a layer, and what is bound below it, are variables of the scope. -/
theorem resolved_append_below (hm : Matches scope matched)
    (hs : WellNamed (scope.flatMap OpenSum.boundVars)) (depth : Nat) :
    (resolved scope matched ++
      (below scope matched (placeholder depth)).flatMap OpenSum.boundVars).Subperm
        (scope.flatMap OpenSum.boundVars) := by
  induction hm with
  | nil => exact List.Subperm.refl _
  | @cons s o scope matched ho hrest ih =>
      rw [List.flatMap_cons] at hs ⊢
      have first := OpenSum.resolved_append_rest ho
        (hs.subperm (List.sublist_append_left _ _).subperm) depth
      have rest := ih (hs.subperm (List.sublist_append_right _ _).subperm)
      rw [resolved_cons, below_cons, List.flatMap_append, OpenSum.peel,
        OpenSum.flatMap_boundVars_ofTerm]
      refine List.Subperm.trans (List.Perm.subperm ?_) (first.append rest)
      simp only [List.append_assoc]
      refine List.Perm.append_left _ ?_
      rw [← List.append_assoc, ← List.append_assoc]
      exact List.Perm.append_right _ List.perm_append_comm

/-! ### Summations and their places -/

theorem Matches.exists_mem_zip (hm : Matches scope matched) (hs : s ∈ scope) :
    ∃ o, (s, o) ∈ scope.zip matched ∧ ∀ v ∈ o, v ∈ s.vars := by
  induction hm with
  | nil => simp at hs
  | @cons t o scope matched ho _ ih =>
      rcases List.mem_cons.mp hs with rfl | hs
      · exact ⟨o, List.mem_cons_self, ho⟩
      · obtain ⟨o', hmem, ho'⟩ := ih hs
        exact ⟨o', List.mem_cons_of_mem _ hmem, ho'⟩

theorem mem_resolved (hso : (s, o) ∈ scope.zip matched) {b : BoundVar} (hb : b ∈ s.resolved o) :
    b ∈ resolved scope matched :=
  List.mem_flatMap.mpr ⟨(s, o), hso, hb⟩

/-- The summations in the rest of a summation are in the scope below the layer. -/
theorem mem_nodes_below (hso : (s, o) ∈ scope.zip matched) {tuple : String} {n : List BoundVar}
    (hn : n ∈ BinderTree.nodes (s.rest o tuple).forest) :
    n ∈ (below scope matched tuple).flatMap OpenSum.nodes := by
  rw [below, List.flatMap_assoc]
  refine List.mem_flatMap.mpr ⟨(s, o), hso, ?_⟩
  rwa [OpenSum.peel, OpenSum.flatMap_nodes_ofTerm]

/-- Variables of one summation that are bound below a layer are variables of one summation there. -/
theorem exists_node_below (hm : Matches scope matched)
    (hs : WellNamed (scope.flatMap OpenSum.boundVars)) (depth : Nat) {n : List BoundVar}
    (hn : n ∈ scope.flatMap OpenSum.nodes) {b c : BoundVar} (hb : b ∈ n) (hc : c ∈ n)
    (hb' : b ∈ (below scope matched (placeholder depth)).flatMap OpenSum.boundVars)
    (hc' : c ∈ (below scope matched (placeholder depth)).flatMap OpenSum.boundVars) :
    ∃ k ∈ (below scope matched (placeholder depth)).flatMap OpenSum.nodes, b ∈ k ∧ c ∈ k := by
  have apart := hs.subperm (resolved_append_below hm hs depth)
  obtain ⟨s, hscope, hn⟩ := List.mem_flatMap.mp hn
  obtain ⟨o, hso, ho⟩ := hm.exists_mem_zip hscope
  have admits := (hs.of_mem hscope).admits depth
  cases o with
  | none =>
      rcases List.mem_cons.mp hn with rfl | hn
      · exact absurd rfl (apart.disjoint (mem_resolved hso hb) hb')
      · exact ⟨n, mem_nodes_below hso hn, hb, hc⟩
  | some v =>
      have hv := ho v rfl
      have nodes := admits.nodes_rest hv
      rcases List.mem_cons.mp hn with rfl | hn
      · -- The matched variable is not bound below, so both are among the others.
        have other : ∀ d ∈ BoundVar.ofBinder s.vars s.body,
            d ∈ (below scope matched (placeholder depth)).flatMap OpenSum.boundVars →
            d ∈ s.others v := by
          intro d hd hd'
          refine List.mem_filter.mpr ⟨hd, ?_⟩
          rw [decide_eq_true_eq]
          rintro rfl
          exact apart.disjoint (mem_resolved hso (List.mem_singleton_self _)) hd' rfl
        have hb := other b hb hb'
        refine ⟨s.others v, mem_nodes_below hso ?_, hb, other c hc hc'⟩
        rw [nodes, if_neg]
        · exact List.mem_cons_self
        · intro hempty
          rw [OpenSum.others_eq_nil hempty] at hb
          exact List.not_mem_nil hb
      · refine ⟨n, mem_nodes_below hso ?_, hb, hc⟩
        rw [nodes]
        exact List.mem_append_right _ hn

/-- Places of a list whose members have something in common are the same place, if all members
together have everything once. -/
theorem eq_of_mem_zip {α β γ : Type} {xs : List α} {ys : List β} {f : α → List γ}
    (h : (xs.flatMap f).Nodup) {p q : α × β} (hp : p ∈ xs.zip ys) (hq : q ∈ xs.zip ys) {c : γ}
    (hcp : c ∈ f p.1) (hcq : c ∈ f q.1) : p = q := by
  induction xs generalizing ys with
  | nil => simp at hp
  | cons x xs ih =>
      cases ys with
      | nil => simp at hp
      | cons y ys =>
          rw [List.flatMap_cons, List.nodup_append] at h
          rw [List.zip_cons_cons, List.mem_cons] at hp hq
          have apart : ∀ r ∈ xs.zip ys, c ∈ f x → c ∉ f r.1 := fun r hr hx hr' =>
            h.2.2 c hx c (List.mem_flatMap.mpr ⟨r.1, (List.of_mem_zip hr).1, hr'⟩) rfl
          rcases hp with rfl | hp <;> rcases hq with rfl | hq
          · rfl
          · exact absurd hcq (apart q hq hcp)
          · exact absurd hcp (apart p hp hcq)
          · exact ih h.2.1 hp hq

namespace Matching

/-! ### Validation goes the way of the choice -/

/-- The layer of the matched variables. -/
def layerOf (matched : List (Option Var)) : VarSet := .ofList (matched.filterMap id)

theorem mem_layerOf {v : Var} : v ∈ layerOf matched ↔ some v ∈ matched := by
  rw [layerOf, VarSet.mem_ofList, List.mem_filterMap]
  exact ⟨fun ⟨o, ho, hv⟩ => hv ▸ ho, fun h => ⟨some v, h, rfl⟩⟩

theorem exists_of_mem_layerOf (hm : Matches scope matched) {v : Var} (hv : v ∈ layerOf matched) :
    ∃ s, (s, some v) ∈ scope.zip matched ∧ v ∈ s.vars := by
  rw [mem_layerOf] at hv
  induction hm with
  | nil => simp at hv
  | @cons s o scope matched ho _ ih =>
      rcases List.mem_cons.mp hv with rfl | hv
      · exact ⟨s, List.mem_cons_self, ho v rfl⟩
      · obtain ⟨t, ht, hvt⟩ := ih hv
        exact ⟨t, List.mem_cons_of_mem _ ht, hvt⟩

/-- A variable in a layer that is bound in a summation is the one matched in it. -/
theorem eq_some_of_mem_layerOf (hm : Matches scope matched)
    (hs : WellNamed (scope.flatMap OpenSum.boundVars)) (hso : (s, o) ∈ scope.zip matched)
    {b : BoundVar} (hb : b ∈ s.boundVars) (hv : b.var ∈ layerOf matched) : o = some b.var := by
  obtain ⟨t, ht, hvt⟩ := exists_of_mem_layerOf hm hv
  have hnodup := hs.nodup
  rw [List.map_flatMap] at hnodup
  have hbt : b.var.tuple ∈ t.boundVars.map fun b => b.var.tuple :=
    List.mem_map.mpr ⟨_, List.mem_append_left _ (OpenSum.mem_ofBinder_self hvt), rfl⟩
  have same := eq_of_mem_zip hnodup hso ht (List.mem_map.mpr ⟨b, hb, rfl⟩) hbt
  exact congrArg Prod.snd same

/-- The first variable of a summation that is in the layer is the one that was chosen. -/
theorem matchedIn?_eq (hm : Matches scope matched)
    (hs : WellNamed (scope.flatMap OpenSum.boundVars)) {m : Matching} {depth : Nat}
    (hl : m.layer? depth = some (layerOf matched)) (hso : (s, o) ∈ scope.zip matched)
    (ho : ∀ v ∈ o, v ∈ s.vars) : m.matchedIn? depth s = o := by
  have own : ∀ w ∈ s.vars.toList, w ∈ layerOf matched → o = some w := fun w hw hlayer =>
    eq_some_of_mem_layerOf hm hs hso (List.mem_append_left _ (OpenSum.mem_ofBinder_self hw)) hlayer
  rw [matchedIn?, hl]
  simp only
  cases hfind : s.vars.toList.find? fun v => decide (v ∈ layerOf matched) with
  | some w =>
      have hlayer : w ∈ layerOf matched := by simpa using List.find?_some hfind
      rw [own w (List.mem_of_find?_eq_some hfind) hlayer]
  | none =>
      cases o with
      | none => rfl
      | some v =>
          have hlayer : v ∈ layerOf matched := mem_layerOf.mpr (List.of_mem_zip hso).2
          exact absurd hlayer (by simpa using List.find?_eq_none.mp hfind v (ho v rfl))

/-- Validation goes on with the scope that the choice went on with. -/
theorem descend_eq_below (hm : Matches scope matched)
    (hs : WellNamed (scope.flatMap OpenSum.boundVars)) {m : Matching} {depth : Nat}
    (hl : m.layer? depth = some (layerOf matched)) :
    m.descend depth scope = below scope matched (placeholder depth) := by
  -- Each summation is replaced by its pair with the variable matched in it.
  have pairs : scope.map (fun s => (s, m.matchedIn? depth s)) = scope.zip matched := by
    have own : ∀ s o, (s, o) ∈ scope.zip matched → (∀ v ∈ o, v ∈ s.vars) →
        m.matchedIn? depth s = o := fun s o => matchedIn?_eq hm hs hl
    clear hs hl
    induction hm with
    | nil => rfl
    | @cons s o scope matched ho _ ih =>
        rw [List.map_cons, List.zip_cons_cons, own s o List.mem_cons_self ho,
          ih fun t o' ht => own t o' (List.mem_cons_of_mem _ ht)]
  rw [descend, below, ← pairs, List.flatMap_map]

/-! ### All layers -/

/-- The scope that is left when a matching has gone through some layers, from `depth` on. -/
def remaining (m : Matching) (depth : Nat) : List VarSet → List OpenSum → List OpenSum
  | [], scope => scope
  | _ :: layers, scope => remaining m (depth + 1) layers (m.descend depth scope)

/-- What is known of the layers, from `depth` on, that were chosen for a scope. -/
structure Layered (depth : Nat) (scope : List OpenSum) (layers : List VarSet) : Prop where
  /-- No variable is in two layers. -/
  distinct : (layers.flatMap VarSet.toList).Nodup
  /-- Validation finds every variable bound at its layer. -/
  bound : ∀ m : Matching, m.layers.drop depth = layers → firstUnbound? m depth layers scope = none
  /-- All summations are resolved. -/
  exhausted : ∀ m : Matching, m.layers.drop depth = layers → remaining m depth layers scope = []
  /-- The variables of a layer are bound in the scope and range over the same table. -/
  tagged : ∀ l ∈ layers, ∃ table, ∀ v ∈ l, ⟨v, table⟩ ∈ scope.flatMap OpenSum.boundVars
  /-- A layer has at most one variable of a summation. -/
  single : ∀ l ∈ layers, ∀ n ∈ scope.flatMap OpenSum.nodes, ∀ b ∈ n, ∀ c ∈ n,
    b.var ∈ l → c.var ∈ l → b = c

theorem layered_nil (depth : Nat) : Layered depth [] [] where
  distinct := List.nodup_nil
  bound _ _ := rfl
  exhausted _ _ := rfl
  tagged := by simp
  single := by simp

variable {scope : List OpenSum} {matched : List (Option Var)} {layers : List VarSet} {depth : Nat}

theorem mem_boundVars_of_mem_nodes {n : List BoundVar} (hn : n ∈ scope.flatMap OpenSum.nodes)
    {b : BoundVar} (hb : b ∈ n) : b ∈ scope.flatMap OpenSum.boundVars := by
  obtain ⟨s, hs, hn⟩ := List.mem_flatMap.mp hn
  exact List.mem_flatMap.mpr ⟨s, hs, List.mem_flatten.mpr ⟨n, hn, hb⟩⟩

/-- A layer put before those of the scope below it. -/
theorem Layered.cons {table : Option String} (hfits : Chooser.Fits table scope matched)
    (hs : WellNamed (scope.flatMap OpenSum.boundVars))
    (h : Layered (depth + 1) (below scope matched (placeholder depth)) layers) :
    Layered depth scope (layerOf matched :: layers) := by
  have hm := hfits.toMatches
  have parts := resolved_append_below hm hs depth
  have apart := hs.subperm parts
  have lift : ∀ b ∈ (below scope matched (placeholder depth)).flatMap OpenSum.boundVars,
      b ∈ scope.flatMap OpenSum.boundVars :=
    fun b hb => parts.subset (List.mem_append_right _ hb)
  -- The variables of the layer are done with, so they are in no layer below.
  have done : ∀ v ∈ layerOf matched, ∃ b ∈ resolved scope matched, b.var = v := by
    intro v hv
    obtain ⟨s, hso, _⟩ := exists_of_mem_layerOf hm hv
    exact ⟨_, mem_resolved hso (List.mem_singleton_self _), rfl⟩
  have later : ∀ l ∈ layers, ∀ v ∈ l, v ∉ layerOf matched := by
    intro l hl v hv hv'
    obtain ⟨table', htable⟩ := h.tagged l hl
    obtain ⟨b, hb, rfl⟩ := done v hv'
    exact apart.disjoint hb (htable _ hv) rfl
  -- A matching with these layers goes on below with the layers after the first.
  have next : ∀ m : Matching, m.layers.drop depth = layerOf matched :: layers →
      m.layers.drop (depth + 1) = layers ∧
        m.descend depth scope = below scope matched (placeholder depth) := by
    intro m hdrop
    have hlayer : m.layer? depth = some (layerOf matched) := by
      rw [layer?, ← List.head?_drop, hdrop, List.head?_cons]
    refine ⟨?_, descend_eq_below hm hs hlayer⟩
    rw [← List.drop_drop, hdrop]
    rfl
  refine ⟨?_, ?_, ?_, ?_, ?_⟩
  · rw [List.flatMap_cons, List.nodup_append]
    refine ⟨VarSet.nodup _, h.distinct, ?_⟩
    rintro v hv _ hw rfl
    obtain ⟨l, hl, hvl⟩ := List.mem_flatMap.mp hw
    exact later l hl v hvl hv
  · intro m hdrop
    have hfind : (layerOf matched).toList.find?
        (fun v => !scope.any fun s => decide (v ∈ s.vars)) = none := by
      rw [List.find?_eq_none]
      intro v hv
      obtain ⟨s, hso, hvs⟩ := exists_of_mem_layerOf hm hv
      simp only [Bool.not_eq_true', Bool.not_eq_false, List.any_eq_true, decide_eq_true_eq]
      exact ⟨s, (List.of_mem_zip hso).1, hvs⟩
    rw [firstUnbound?, hfind]
    simp only
    rw [(next m hdrop).2]
    exact h.bound m (next m hdrop).1
  · intro m hdrop
    rw [remaining, (next m hdrop).2]
    exact h.exhausted m (next m hdrop).1
  · intro l hl
    rcases List.mem_cons.mp hl with rfl | hl
    · refine ⟨table, fun v hv => ?_⟩
      obtain ⟨s, hso, hvs⟩ := exists_of_mem_layerOf hm hv
      have hopt := (List.forall₂_iff_zip.mp hfits).2 hso v rfl
      have htable : s.tableOf? v = table := by simpa using (List.mem_filter.mp hopt).2
      subst htable
      exact List.mem_flatMap.mpr ⟨s, (List.of_mem_zip hso).1,
        List.mem_append_left _ (OpenSum.mem_ofBinder_self hvs)⟩
    · obtain ⟨table', htable⟩ := h.tagged l hl
      exact ⟨table', fun v hv => lift _ (htable v hv)⟩
  · intro l hl n hn b hb c hc hbl hcl
    have hb' := mem_boundVars_of_mem_nodes hn hb
    have hc' := mem_boundVars_of_mem_nodes hn hc
    rcases List.mem_cons.mp hl with rfl | hl
    · obtain ⟨s, hscope, hns⟩ := List.mem_flatMap.mp hn
      obtain ⟨o, hso, _⟩ := hm.exists_mem_zip hscope
      have hbo := eq_some_of_mem_layerOf hm hs hso (List.mem_flatten.mpr ⟨n, hns, hb⟩) hbl
      have hco := eq_some_of_mem_layerOf hm hs hso (List.mem_flatten.mpr ⟨n, hns, hc⟩) hcl
      have hvar : b.var = c.var := Option.some.inj (hbo.symm.trans hco)
      exact hs.eq_of_tuple_eq hb' hc' (congrArg Var.tuple hvar)
    · have below : ∀ d ∈ scope.flatMap OpenSum.boundVars, d.var ∈ l →
          d ∈ (below scope matched (placeholder depth)).flatMap OpenSum.boundVars := by
        intro d hd hdl
        obtain ⟨table', htable⟩ := h.tagged l hl
        have hd' := htable _ hdl
        rwa [hs.eq_of_tuple_eq hd (lift _ hd') rfl]
      obtain ⟨k, hk, hbk, hck⟩ := exists_node_below hm hs depth hn hb hc (below b hb' hbl)
        (below c hc' hcl)
      exact h.single l hl k hk b hbk c hck hbl hcl

/-- Below a layer there are fewer summations and variables, unless there were none. -/
theorem sum_binderCount_below_lt (hm : Matches scope matched) (hne : scope ≠ []) (tuple : String) :
    ((below scope matched tuple).map OpenSum.binderCount).sum <
      (scope.map OpenSum.binderCount).sum := by
  have step : ∀ (s : OpenSum) (o : Option Var), (∀ v ∈ o, v ∈ s.vars) →
      ((s.peel o tuple).map OpenSum.binderCount).sum < s.binderCount := by
    intro s o ho
    rw [OpenSum.peel, OpenSum.sum_binderCount_ofTerm]
    exact s.binderCount_rest_lt ho tuple
  induction hm with
  | nil => exact absurd rfl hne
  | @cons s o scope matched ho hrest ih =>
      rw [below_cons, List.map_append, List.sum_append, List.map_cons, List.sum_cons]
      have first := step s o ho
      cases scope with
      | nil =>
          cases hrest
          simpa [below] using first
      | cons t scope =>
          have rest := ih (by simp)
          omega

/-- What is below a layer has keys if the scope has. -/
theorem keyed_below (hk : Keyed scope) (tuple : String) :
    Keyed (below scope matched tuple) := by
  intro t ht
  obtain ⟨⟨s, o⟩, hso, ht⟩ := List.mem_flatMap.mp ht
  obtain ⟨⟨vars, body⟩, hmem, rfl⟩ := List.mem_map.mp ht
  refine Term.hasKey_of_mem_summations ?_ hmem
  rw [OpenSum.hasKey_rest]
  exact hk s (List.of_mem_zip hso).1

/-- **The layers that are chosen**, unless a key cannot be computed.  With fuel for every summation
and every variable, the layers take away all summations. -/
theorem seedLayers_ends (output : String) {budget : Budget} (hb : budget.expired = false)
    (fuel : Nat) (hfuel : (scope.map OpenSum.binderCount).sum ≤ fuel)
    (hs : WellNamed (scope.flatMap OpenSum.boundVars)) :
    Ends (seedLayers output budget fuel depth scope) (.fault .overflow) (¬Keyed scope)
      (Layered depth scope) := by
  induction fuel generalizing depth scope with
  | zero =>
      cases scope with
      | nil => exact ends_ok (layered_nil depth)
      | cons s scope =>
          rw [List.map_cons, List.sum_cons, OpenSum.binderCount] at hfuel
          omega
  | succ fuel ih =>
      cases scope with
      | nil => exact ends_ok (layered_nil depth)
      | cons s scope =>
          rw [seedLayers]
          · refine (ends_check hb).bind fun _ _ => ?_
            refine (Chooser.choose_ends _ hb).bind fun matched hchosen => ?_
            obtain ⟨table, hfits⟩ := hchosen
            have hm : Matches (s :: scope) matched := hfits.toMatches
            have hless := sum_binderCount_below_lt hm (by simp) (placeholder depth)
            have hbelow := (hs.subperm (resolved_append_below hm hs depth)).subperm
              (List.sublist_append_right _ _).subperm
            refine ((ih (by omega) hbelow).mono (mt fun hk => keyed_below hk _) fun _ => id).bind ?_
            exact fun layers hl => ends_ok (hl.cons hfits hs)
          · simp

/-! ### The first matching -/

/-- Nothing is repeated in a list that has every member once, none of which was there before. -/
theorem firstRepeated?_eq_none_iff {seen vs : List Var} :
    firstRepeated? seen vs = none ↔ vs.Nodup ∧ ∀ v ∈ vs, v ∉ seen := by
  induction vs generalizing seen with
  | nil => simp [firstRepeated?]
  | cons v vs ih =>
      rw [firstRepeated?, List.nodup_cons, List.forall_mem_cons]
      split
      · next hv => simp [hv]
      · next hv =>
          rw [ih]
          simp only [List.mem_cons, not_or]
          constructor
          · rintro ⟨hnodup, hout⟩
            exact ⟨⟨fun hmem => (hout v hmem).1 rfl, hnodup⟩, hv, fun w hw => (hout w hw).2⟩
          · rintro ⟨⟨hmem, hnodup⟩, _, hout⟩
            exact ⟨hnodup, fun w hw => ⟨fun heq => hmem (heq ▸ hw), hout w hw⟩⟩

theorem Layered.validate_eq {left right : Term}
    (h : Layered 0 (OpenSum.scope left right) layers) :
    (⟨layers⟩ : Matching).validate left right = .ok () := by
  have hrepeated : firstRepeated? [] (layers.flatMap VarSet.toList) = none :=
    firstRepeated?_eq_none_iff.mpr ⟨h.distinct, by simp⟩
  have hbound := h.bound ⟨layers⟩ rfl
  rw [validate]
  simp only [hrepeated, hbound]

/-- What is promised of the first matching: it is valid and resolves all summations, and each of its
layers has bound variables over one table only, at most one of every summation. -/
structure Seeded (left right : Term) (m : Matching) : Prop where
  valid : m.validate left right = .ok ()
  exhausted : remaining m 0 m.layers (OpenSum.scope left right) = []
  tagged : ∀ l ∈ m.layers, ∃ table, ∀ v ∈ l, ∃ n ∈ nodes left right, ⟨v, table⟩ ∈ n
  single : ∀ l ∈ m.layers, ∀ n ∈ nodes left right, ∀ b ∈ n, ∀ c ∈ n,
    b.var ∈ l → c.var ∈ l → b = c

theorem flatMap_boundVars_scope (left right : Term) :
    (OpenSum.scope left right).flatMap OpenSum.boundVars = left.boundVars ++ right.boundVars := by
  rw [OpenSum.scope, List.flatMap_append, OpenSum.flatMap_boundVars_ofTerm,
    OpenSum.flatMap_boundVars_ofTerm]

theorem keyed_scope {left right : Term} (hl : left.hasKey = true) (hr : right.hasKey = true) :
    Keyed (OpenSum.scope left right) := by
  intro s hs
  rcases List.mem_append.mp hs with hs | hs
  all_goals
    obtain ⟨p, hp, rfl⟩ := List.mem_map.mp hs
  · exact Term.hasKey_of_mem_summations hl hp
  · exact Term.hasKey_of_mem_summations hr hp

/-- The first matching of terms that bind every tuple once. -/
theorem seed_ends {left right : Term} (hn : WellNamed (left.boundVars ++ right.boundVars))
    (output : String) {budget : Budget} (hb : budget.expired = false) :
    Ends (seed left right output budget) (.fault .overflow)
      (¬(left.hasKey = true ∧ right.hasKey = true)) (Seeded left right) := by
  have hfuel := OpenSum.sum_binderCount_scope left right
  have layers : Ends (seedLayers output budget (left.binderCount + right.binderCount) 0
      (OpenSum.scope left right)) _ _ _ :=
    seedLayers_ends output hb _ (Nat.le_of_eq hfuel) (flatMap_boundVars_scope _ _ ▸ hn)
  refine (layers.mono (mt fun hk => keyed_scope hk.1 hk.2) fun _ => id).bind fun layers hl => ?_
  refine ends_ok ⟨hl.validate_eq, hl.exhausted ⟨layers⟩ rfl, fun l hmem => ?_, fun l hmem => ?_⟩
  · obtain ⟨table, htable⟩ := hl.tagged l hmem
    refine ⟨table, fun v hv => ?_⟩
    have hmem := htable v hv
    rw [flatMap_boundVars_scope, Term.boundVars, Term.boundVars, ← List.flatten_append,
      ← BinderTree.nodes_append] at hmem
    obtain ⟨n, hn, hvn⟩ := List.mem_flatten.mp hmem
    exact ⟨n, hn, hvn⟩
  · rw [← OpenSum.flatMap_nodes_scope]
    exact hl.single l hmem

end Matching

end BagEquiv
