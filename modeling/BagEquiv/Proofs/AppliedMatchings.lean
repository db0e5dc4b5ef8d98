/-
**Terms with placeholders for their variables.**

A matching is applied by giving variables the placeholders of their layers, wherever their names
occur.  That two variables of one summation get one placeholder, or a variable and one of a
summation inside, is not excluded by the rules for matchings alone: they let two variables of one
summation share a layer.  The first matching of a search has at most one variable of each summation
in a layer, and an exchange of two variables of one summation keeps it so.  And where a summation is
still in the way, those inside it cannot be resolved, so that their variables are in later layers.

Hence nothing is confused that is bound.  A free tuple whose name is that of a variable in a layer
gets a placeholder, too.  This is the only way in which the result can mean something else.

Main definition:

* `Matching.Separates` — no layer has two variables of one summation.

Main result:

* `Matching.distinguishes_of_search` — **no matching of a search confuses variables**.
-/

import BagEquiv.Proofs.AlphaEquivalence
import BagEquiv.Proofs.AppliedNames
import BagEquiv.Proofs.MatchingSearch

set_option autoImplicit false

namespace BagEquiv

variable {m n : Matching} {left right : Term}

/-! ### Variables of one summation -/

namespace Matching

/-- No layer has two variables of one summation. -/
def Separates (m : Matching) (left right : Term) : Prop :=
  ∀ node ∈ nodes left right, ∀ b ∈ node, ∀ c ∈ node, ∀ d, m.Puts b.var d → m.Puts c.var d → b = c

theorem mem_swapIn {a b v : Var} {l : VarSet} : v ∈ swapIn a b l ↔ Equiv.swap a b v ∈ l := by
  rw [swapIn, Equiv.swap_apply_def]
  grind [VarSet.mem_insert, VarSet.mem_erase]

/-- After an exchange a variable is where the other one was. -/
theorem puts_swap {a b v : Var} {d : ℕ} :
    (m.swap a b).Puts v d ↔ m.Puts (Equiv.swap a b v) d := by
  simp only [Puts, swap, layer?, List.getElem?_map, Option.map_eq_some_iff]
  constructor
  · rintro ⟨_, ⟨l, hl, rfl⟩, hv⟩
    exact ⟨l, hl, mem_swapIn.mp hv⟩
  · rintro ⟨l, hl, hv⟩
    exact ⟨_, ⟨l, hl, rfl⟩, mem_swapIn.mpr hv⟩

theorem flatten_nodes (left right : Term) :
    (nodes left right).flatten = left.boundVars ++ right.boundVars := by
  rw [nodes, BinderTree.nodes_append, List.flatten_append]
  rfl

theorem mem_boundVars {node : List BoundVar} (hnode : node ∈ nodes left right) {b : BoundVar}
    (hb : b ∈ node) : b ∈ left.boundVars ++ right.boundVars :=
  flatten_nodes left right ▸ List.mem_flatten.mpr ⟨node, hnode, hb⟩

section Exchanges

variable (hnames : WellNamed (left.boundVars ++ right.boundVars))

include hnames

/-- A bound variable belongs to one summation. -/
theorem node_unique {node node' : List BoundVar} (hnode : node ∈ nodes left right)
    (hnode' : node' ∈ nodes left right) {b : BoundVar} (hb : b ∈ node) (hb' : b ∈ node') :
    node = node' := by
  by_contra hne
  have hnodup : (nodes left right).flatten.Nodup := flatten_nodes left right ▸ hnames.nodup.of_map _
  have hsymm : Std.Symm (@List.Disjoint BoundVar) := ⟨fun _ _ h => h.symm⟩
  exact (List.nodup_flatten.mp hnodup).2.forall hnode hnode' hne hb hb'

/-- An exchange of two variables of one summation keeps the variables of every summation in
different layers. -/
theorem Exchange.separates (h : Exchange left right m n) (hm : m.Separates left right) :
    n.Separates left right := by
  obtain ⟨node, hnode, a, ha, b, hb, -, -, rfl, -⟩ := h
  have hvar : ∀ {c c' : BoundVar} {k k' : List BoundVar}, k ∈ nodes left right → c ∈ k →
      k' ∈ nodes left right → c' ∈ k' → c.var = c'.var → c = c' := fun hk hc hk' hc' heq =>
    hnames.eq_of_tuple_eq (mem_boundVars hk hc) (mem_boundVars hk' hc') (congrArg Var.tuple heq)
  intro node' hnode' c hc c' hc' d hd hd'
  rw [puts_swap] at hd hd'
  -- Where a variable was before the exchange, there was one of the same summation.
  have before : ∀ c ∈ node', ∃ e ∈ node', e.var = Equiv.swap a.var b.var c.var := by
    intro c hc
    by_cases hca : c.var = a.var
    · obtain rfl := hvar hnode' hc hnode ha hca
      obtain rfl := node_unique hnames hnode hnode' ha hc
      exact ⟨b, hb, (Equiv.swap_apply_left _ _).symm⟩
    · by_cases hcb : c.var = b.var
      · obtain rfl := hvar hnode' hc hnode hb hcb
        obtain rfl := node_unique hnames hnode hnode' hb hc
        exact ⟨a, ha, (Equiv.swap_apply_right _ _).symm⟩
      · exact ⟨c, hc, (Equiv.swap_apply_of_ne_of_ne hca hcb).symm⟩
  obtain ⟨e, he, hevar⟩ := before c hc
  obtain ⟨e', he', hevar'⟩ := before c' hc'
  have heq : e = e' := hm node' hnode' e he e' he' d (hevar ▸ hd) (hevar' ▸ hd')
  refine hvar hnode' hc hnode' hc' ((Equiv.swap a.var b.var).injective ?_)
  rw [← hevar, ← hevar', heq]

theorem separates_of_reachable {seed : Matching} (h : Reachable left right seed m)
    (hseed : seed.Separates left right) : m.Separates left right := by
  induction h with
  | refl => exact hseed
  | tail _ hstep ih => exact hstep.separates hnames ih

/-- What is promised of the first matching holds of every one there is, whatever the budget. -/
theorem seeded_of_seed {output : String} {budget : Budget}
    (h : seed left right output budget = .ok m) : Seeded left right m := by
  have timely : ∀ {budget : Budget}, budget.expired = false →
      seed left right output budget = .ok m → Seeded left right m := by
    intro budget hb h
    rcases seed_ends hnames output hb with ⟨m', hm', hseeded⟩ | ⟨herror, -⟩
    · obtain rfl := Except.ok.inj (h.symm.trans hm')
      exact hseeded
    · cases h.symm.trans herror
  cases hb : budget.expired with
  | false => exact timely hb h
  | true =>
      -- The budget is not asked for if there is no summation, and only then.
      refine @timely .unlimited rfl ?_
      unfold seed at h ⊢
      rw [← OpenSum.sum_binderCount_scope] at h ⊢
      cases hscope : OpenSum.scope left right with
      | nil =>
          rw [hscope] at h
          exact h
      | cons s scope =>
          obtain ⟨fuel, hfuel⟩ : ∃ fuel, ((s :: scope).map OpenSum.binderCount).sum = fuel + 1 :=
            Nat.exists_eq_succ_of_ne_zero (by simp [OpenSum.binderCount])
          rw [hscope, hfuel] at h
          dsimp only at h
          rw [seedLayers, Budget.check, hb] at h
          · cases h
          · simp

end Exchanges

theorem Seeded.separates (h : Seeded left right m) : m.Separates left right := by
  rintro node hnode b hb c hc d ⟨l, hl, hbl⟩ ⟨l', hl', hcl⟩
  obtain rfl := Option.some.inj (hl.symm.trans hl')
  exact h.single l (List.mem_of_getElem? hl) node hnode b hb c hc hbl hcl

end Matching

/-! ### Summations inside of others -/

variable {x y : String}

namespace Outline

/-- A summation over the tuple `x` has one over the tuple `y` inside. -/
inductive Nests (x y : String) : Outline → Prop
  | here {side : Side} {vars : VarSet} {inner : List Outline} (hx : x ∈ vars.tuples)
      (hy : y ∈ (inner.map names).sum) : Nests x y (.mk side vars inner)
  | inside {side : Side} {vars : VarSet} {inner : List Outline} {o : Outline} (ho : o ∈ inner)
      (h : Nests x y o) : Nests x y (.mk side vars inner)

/-- The inner tuple is bound below the outermost summation. -/
theorem Nests.mem_below {o : Outline} (h : o.Nests x y) :
    y ∈ ((o.peel fun _ => none).map names).sum := by
  induction h with
  | here _ hy => exact hy
  | @inside _ _ _ o ho _ ih =>
      refine mem_sum_map.mpr ⟨o, ho, ?_⟩
      rw [@names_eq (fun _ => none) nofun o]
      exact Multiset.mem_add.mpr (.inr ih)

/-- Below a layer the summation over `x` is still there with what is inside, unless `x` is matched
at the layer or left over. -/
theorem Nests.peel {o : Outline} (h : o.Nests x y) (matched : VarSet → Option Var) :
    (∃ o' ∈ o.peel matched, o'.Nests x y) ∨
      x ∈ o.matchedNames matched + o.looseNames matched := by
  cases h with
  | @here side vars inner hx hy =>
      rw [Outline.peel, matchedNames, looseNames]
      cases hv : matched vars with
      | none => exact .inr (by simpa [VarSet.tuples] using hx)
      | some v =>
          by_cases hxv : x = v.tuple
          · exact .inr (by simp [hxv])
          · obtain ⟨w, hw, rfl⟩ := List.mem_map.mp hx
            have hmem : w ∈ vars.erase v :=
              VarSet.mem_erase.mpr ⟨hw, fun heq => hxv (congrArg Var.tuple heq)⟩
            have hne : (vars.erase v).isEmpty = false := List.isEmpty_eq_false_iff.mpr
              (List.ne_nil_of_mem hmem)
            refine .inl ⟨.mk side (vars.erase v) inner, ?_, .here (List.mem_map_of_mem hmem) hy⟩
            simp [hne]
  | @inside side vars inner o ho h =>
      refine .inl ?_
      rw [Outline.peel]
      split
      · split
        · exact ⟨o, ho, h⟩
        · exact ⟨_, List.mem_singleton_self _, .inside ho h⟩
      · exact ⟨o, ho, h⟩

end Outline

namespace Term

theorem mem_outlinesAll {side : Side} {o : Outline} {ts : List Term} :
    o ∈ outlinesAll side ts ↔ ∃ t ∈ ts, o ∈ t.outlines side := by
  induction ts with
  | nil => simp [outlinesAll]
  | cons t ts ih => simp [outlinesAll, ih]

/-- A name that a summation of the term binds is bound in the term. -/
theorem mem_boundVars_of_mem_tuples {t body : Term} {vars : VarSet}
    (hs : .sum vars body ∈ t.subterms) (hx : x ∈ vars.tuples) :
    x ∈ t.boundVars.map fun b => b.var.tuple := by
  obtain ⟨v, hv, rfl⟩ := List.mem_map.mp hx
  refine t.binders_names_perm.subset (List.mem_map_of_mem (List.mem_flatMap.mpr ?_))
  exact ⟨(vars.toList, body), mem_binders.mpr ⟨vars, rfl, hs⟩, hv⟩

/-- The outlines of a term show which summations are inside of others. -/
theorem exists_nests (side : Side) {t body : Term} {vars : VarSet}
    (hs : .sum vars body ∈ t.subterms) (hx : x ∈ vars.tuples)
    (hy : y ∈ body.boundVars.map fun b => b.var.tuple) : ∃ o ∈ t.outlines side, o.Nests x y := by
  induction t using Term.induct_children with
  | step t ih =>
      rcases mem_subterms.mp hs with rfl | ⟨c, hc, hs⟩
      · refine ⟨_, List.mem_singleton_self _, .here hx ?_⟩
        rw [sum_names_outlines]
        exact Multiset.mem_coe.mpr hy
      · obtain ⟨o, ho, h⟩ := ih c hc hs
        cases t with
        | sum vars body =>
            obtain rfl := List.mem_singleton.mp hc
            exact ⟨_, List.mem_singleton_self _, .inside ho h⟩
        | add ts | mul ts | pred _ ts | func _ ts => exact ⟨o, mem_outlinesAll.mpr ⟨c, hc, ho⟩, h⟩
        | neg t | squash t =>
            obtain rfl := List.mem_singleton.mp hc
            exact ⟨o, ho, h⟩
        | var | const | table | str => cases hc

end Term

namespace Matching

/-- The names that the summations at a depth bind, and those inside them. -/
def namesAt (m : Matching) (left right : Term) (depth : ℕ) : Multiset String :=
  (((m.scopeAt left right depth).map OpenSum.outline).map Outline.names).sum

theorem mem_namesAt_of_le {d e : ℕ} (hde : d ≤ e) (hx : x ∈ m.namesAt left right e) :
    x ∈ m.namesAt left right d := by
  induction hde with
  | refl => exact hx
  | @step e _ ih =>
      rw [namesAt, scopeAt, map_outline_descend] at hx
      refine ih ?_
      rw [namesAt, m.sum_names_eq e]
      exact Multiset.mem_add.mpr (.inr hx)

theorem mem_namesAt {v : Var} {s : OpenSum} {depth : ℕ} (hs : s ∈ m.scopeAt left right depth)
    (hv : v ∈ s.vars) : v.tuple ∈ m.namesAt left right depth := by
  refine mem_sum_map.mpr ⟨s.outline, List.mem_map_of_mem hs, Multiset.mem_add.mpr (.inl ?_)⟩
  exact Multiset.mem_coe.mpr (List.mem_map_of_mem hv)

section Nested

variable (hnames : (boundNames [left, right]).Nodup)

include hnames

theorem nodup_namesAt (m : Matching) (depth : ℕ) : (m.namesAt left right depth).Nodup := by
  induction depth with
  | zero =>
      rw [namesAt, scopeAt, sum_names_scope]
      exact Multiset.coe_nodup.mpr hnames
  | succ depth ih =>
      rw [namesAt, scopeAt, map_outline_descend]
      exact (m.names_disjoint depth ih).2.2

/-- From layer to layer the summation over `x` is there with what is inside, until `x` is gone. -/
theorem nests_or_notMem
    (h : ∃ o ∈ (OpenSum.scope left right).map OpenSum.outline, o.Nests x y) (depth : ℕ) :
    (∃ o ∈ (m.scopeAt left right depth).map OpenSum.outline, o.Nests x y) ∨
      x ∉ m.namesAt left right depth := by
  induction depth with
  | zero => exact .inl h
  | succ depth ih =>
      rcases ih with ⟨o, ho, h⟩ | hout
      · obtain ⟨hmatched, hloose, -⟩ := m.names_disjoint depth (nodup_namesAt hnames m depth)
        rw [namesAt, scopeAt, map_outline_descend]
        rcases h.peel (m.matchedAmong? depth) with ⟨o', ho', h⟩ | hx
        · exact .inl ⟨o', List.mem_flatMap.mpr ⟨o, ho, ho'⟩, h⟩
        · refine .inr fun hbelow => ?_
          rcases Multiset.mem_add.mp hx with hx | hx
          · exact hmatched x (mem_sum_map.mpr ⟨o, ho, hx⟩) (Multiset.mem_add.mpr (.inr hbelow))
          · exact hloose x hbelow (mem_sum_map.mpr ⟨o, ho, hx⟩)
      · exact .inr fun hx => hout (mem_namesAt_of_le (Nat.le_succ depth) hx)

/-- **Summations inside are resolved later.**  While the outer variable is there, the inner one is
not among those that can be matched. -/
theorem layer_lt_of_nests (hm : m.isValid left right = true) {v w : Var}
    (h : ∃ o ∈ (OpenSum.scope left right).map OpenSum.outline, o.Nests v.tuple w.tuple) {d e : ℕ}
    (hv : m.Puts v d) (hw : m.Puts w e) : d < e := by
  obtain ⟨-, hbound⟩ := isValid_iff.mp hm
  obtain ⟨s, hs, hvs⟩ := hbound v d hv
  obtain ⟨s', hs', hws⟩ := hbound w e hw
  by_contra hlt
  rcases nests_or_notMem hnames h e with ⟨o, ho, h⟩ | hout
  · -- An empty matching leaves all variables over that could be matched, and no others.
    refine ((⟨[]⟩ : Matching).names_disjoint e (nodup_namesAt hnames m e)).2.1 w.tuple
      (mem_sum_map.mpr ?_) (mem_sum_map.mpr ⟨s'.outline, List.mem_map_of_mem hs', ?_⟩)
    · obtain ⟨o', ho', hw⟩ := mem_sum_map.mp h.mem_below
      exact ⟨o', List.mem_flatMap.mpr ⟨o, ho, ho'⟩, hw⟩
    · exact Multiset.mem_coe.mpr (List.mem_map_of_mem hws)
  · exact hout (mem_namesAt_of_le (Nat.le_of_not_lt hlt) (mem_namesAt hs hvs))

end Nested

/-! ### New names -/

/-- The name is that of a variable in a layer, and gives way to a placeholder. -/
def Replaces (m : Matching) (x : String) : Prop := ∃ v d, m.Puts v d ∧ v.tuple = x

/-- A name that gives way to a placeholder is bound. -/
theorem Replaces.mem_boundNames (hx : m.Replaces x) (hm : m.isValid left right = true) :
    x ∈ boundNames [left, right] := by
  obtain ⟨v, d, hv, rfl⟩ := hx
  obtain ⟨b, hb, hvb⟩ := mem_binders_of_puts hm hv
  refine (Term.binders_pair_perm left right).subset (List.mem_map_of_mem ?_)
  exact List.mem_flatMap.mpr ⟨b, hb, hvb⟩

theorem renamedBy_of_not_replaces (h : ¬ m.Replaces x) : renamedBy m.entries x = x :=
  renamedBy_of_forall_ne fun p hp heq => h ⟨p.1, p.2, mem_entries.mp hp, heq⟩

/-- What belongs to one of the terms belongs to both. -/
theorem mem_append_of_mem_pair {α : Type} {f : Term → List α} {t : Term} (ht : t ∈ [left, right])
    {a : α} (ha : a ∈ f t) : a ∈ f left ++ f right := by
  rcases List.mem_pair.mp ht with rfl | rfl
  · exact List.mem_append_left _ ha
  · exact List.mem_append_right _ ha

theorem mem_binders_pair {t body : Term} {vars : VarSet} (ht : t ∈ [left, right])
    (hs : .sum vars body ∈ t.subterms) :
    (vars.toList, body) ∈ left.binders ++ right.binders :=
  mem_append_of_mem_pair ht (Term.mem_binders.mpr ⟨vars, rfl, hs⟩)

/-- The variables of a summation are a node of the binder trees. -/
theorem ofBinder_mem_nodes {t body : Term} {vars : VarSet} (ht : t ∈ [left, right])
    (hs : .sum vars body ∈ t.subterms) : BoundVar.ofBinder vars body ∈ nodes left right := by
  have hforest : BoundVar.ofBinder vars body ∈ BinderTree.nodes t.forest :=
    t.nodes_forest_perm.mem_iff.mpr (List.mem_filterMap.mpr ⟨_, hs, rfl⟩)
  rw [nodes, BinderTree.nodes_append]
  exact mem_append_of_mem_pair (f := fun t => BinderTree.nodes t.forest) ht hforest

/-- What is promised of a term with placeholders for the variables in the layers. -/
structure Distinguishes (m : Matching) (t : Term) : Prop where
  /-- A bound variable of a layer becomes the same variable of the placeholder. -/
  replaced : ∀ vars body, .sum vars body ∈ t.subterms → ∀ v ∈ vars, ∀ d, m.Puts v d →
    m.apply (.var v) = .var (v.relabel fun _ => placeholder d)
  /-- Different variables of one summation, or of one and another inside it, become different
  placeholders. -/
  apart : ∀ vars body, .sum vars body ∈ t.subterms → ∀ v ∈ vars,
    ∀ b ∈ (Term.sum vars body).boundVars, b.var ≠ v → ∀ d e, m.Puts v d → m.Puts b.var e →
      placeholder d ≠ placeholder e
  /-- Variables inside are in later layers. -/
  deeper : ∀ vars body, .sum vars body ∈ t.subterms → ∀ v ∈ vars, ∀ b ∈ body.boundVars,
    ∀ d e, m.Puts v d → m.Puts b.var e → d < e
  /-- Every summation keeps the number of its variables. -/
  sizes : (m.apply t).binders.map (·.1.length) = t.binders.map (·.1.length)
  /-- The term stays the same up to the names of bound tuples, unless a free tuple has the name of a
  variable in a layer. -/
  alpha : AlphaEquivalent t (m.apply t) ↔ ∀ x, t.Free x → ¬ m.Replaces x

/-- The terms bind every tuple once, and the matching is valid and separates the variables of every
summation. -/
structure Orderly (m : Matching) (left right : Term) : Prop where
  named : WellNamed (left.boundVars ++ right.boundVars)
  valid : m.isValid left right = true
  separates : m.Separates left right

namespace Orderly

variable (h : m.Orderly left right) {t body : Term} (ht : t ∈ [left, right]) {vars : VarSet}
  {v w : Var} {d e : ℕ}

include h

theorem nodup : (boundNames [left, right]).Nodup := by
  simpa [boundNames] using h.named.nodup

theorem ne_placeholder : ∀ x ∈ boundNames [left, right], ∀ d, x ≠ placeholder d := by
  intro x hx d
  obtain ⟨b, hb, rfl⟩ := List.mem_map.mp hx
  exact h.named.fresh b (by simpa using hb) d

/-- The name of a variable in a layer becomes the placeholder of the layer. -/
theorem renamedBy_tuple (hv : m.Puts v d) : renamedBy m.entries v.tuple = placeholder d := by
  obtain ⟨b, hb, hvb⟩ := mem_binders_of_puts h.valid hv
  exact (renamedBy_eq_placeholder_iff h.nodup h.ne_placeholder h.valid hb hvb).mpr
    ((isValid_iff.mp h.valid).1 v d hv)

/-- Two names that become one are those of variables in one layer, if neither is a placeholder. -/
theorem eq_or_puts_of_renamedBy_eq (hx : ∀ d, x ≠ placeholder d) (hy : ∀ d, y ≠ placeholder d)
    (heq : renamedBy m.entries y = renamedBy m.entries x) :
    y = x ∨ ∃ v w d, m.Puts v d ∧ m.Puts w d ∧ v.tuple = x ∧ w.tuple = y := by
  by_cases hxm : m.Replaces x
  · obtain ⟨v, d, hv, rfl⟩ := hxm
    rw [h.renamedBy_tuple hv] at heq
    by_cases hym : m.Replaces y
    · obtain ⟨w, e, hw, rfl⟩ := hym
      rw [h.renamedBy_tuple hw] at heq
      obtain rfl := placeholder_injective heq
      exact .inr ⟨v, w, e, hv, hw, rfl, rfl⟩
    · rw [renamedBy_of_not_replaces hym] at heq
      exact absurd heq (hy d)
  · rw [renamedBy_of_not_replaces hxm] at heq
    by_cases hym : m.Replaces y
    · obtain ⟨w, e, hw, rfl⟩ := hym
      rw [h.renamedBy_tuple hw] at heq
      exact absurd heq.symm (hx e)
    · rw [renamedBy_of_not_replaces hym] at heq
      exact .inl heq

include ht

/-- A name that a summation binds is no placeholder. -/
theorem tuples_ne_placeholder (hs : .sum vars body ∈ t.subterms) (hx : x ∈ vars.tuples) (d : ℕ) :
    x ≠ placeholder d := by
  obtain ⟨v, hv, rfl⟩ := List.mem_map.mp hx
  exact tuple_ne_placeholder h.ne_placeholder (mem_binders_pair ht hs) hv d

/-- A variable in a layer belongs to the summation that binds its name. -/
theorem mem_of_puts (hs : .sum vars body ∈ t.subterms) (hv : m.Puts v d)
    (hx : v.tuple ∈ vars.tuples) : v ∈ vars := by
  obtain ⟨b, hb, hvb⟩ := mem_binders_of_puts h.valid hv
  obtain ⟨w, hw, heq⟩ := List.mem_map.mp hx
  exact eq_of_tuple_eq h.nodup (mem_binders_pair ht hs) hb hw hvb heq ▸ hw

/-- The variables of one summation are in different layers. -/
theorem eq_of_puts (hs : .sum vars body ∈ t.subterms) (hv : v ∈ vars) (hw : w ∈ vars)
    (hvd : m.Puts v d) (hwd : m.Puts w d) : v = w :=
  congrArg BoundVar.var (h.separates _ (ofBinder_mem_nodes ht hs) _ (OpenSum.mem_ofBinder_self hv)
    _ (OpenSum.mem_ofBinder_self hw) d hvd hwd)

/-- A variable of a summation is in an earlier layer than one that is bound in the body. -/
theorem layer_lt (hs : .sum vars body ∈ t.subterms) (hv : v ∈ vars)
    (hw : w.tuple ∈ body.boundVars.map fun b => b.var.tuple) (hvd : m.Puts v d)
    (hwe : m.Puts w e) : d < e := by
  refine layer_lt_of_nests h.nodup h.valid ?_ hvd hwe
  rw [OpenSum.scope, List.map_append, OpenSum.map_outline_ofTerm, OpenSum.map_outline_ofTerm]
  rcases List.mem_pair.mp ht with rfl | rfl
  · obtain ⟨o, ho, hnests⟩ := Term.exists_nests .left hs (List.mem_map_of_mem hv) hw
    exact ⟨o, List.mem_append_left _ ho, hnests⟩
  · obtain ⟨o, ho, hnests⟩ := Term.exists_nests .right hs (List.mem_map_of_mem hv) hw
    exact ⟨o, List.mem_append_right _ ho, hnests⟩

theorem injOnBinders : t.InjOnBinders (renamedBy m.entries) := by
  intro vars body hs x hx y hy heq
  rcases h.eq_or_puts_of_renamedBy_eq (h.tuples_ne_placeholder ht hs hx)
    (h.tuples_ne_placeholder ht hs hy) heq with heq | ⟨v, w, d, hv, hw, rfl, rfl⟩
  · exact heq
  · rw [h.eq_of_puts ht hs (h.mem_of_puts ht hs hv hx) (h.mem_of_puts ht hs hw hy) hv hw]

/-- If no free name gives way to a placeholder, or is one, then all tuples are kept apart. -/
theorem keepsApart (hfresh : ∀ x, t.Free x → ∀ d, x ≠ placeholder d)
    (hfree : ∀ x, t.Free x → ¬ m.Replaces x) : t.KeepsApart (renamedBy m.entries) := by
  refine ⟨h.injOnBinders ht, fun vars body hs x hx y hy heq => ?_⟩
  by_cases hown : y ∈ vars.tuples
  · exact h.injOnBinders ht vars body hs x hx y hown heq
  -- Otherwise the name is free, or bound further out and so in an earlier layer.
  have hplace := (Term.free_sum.mpr ⟨hown, hy⟩).of_mem_subterms hs
  have hplaceholder : ∀ d, y ≠ placeholder d := by
    rcases hplace with hy | ⟨vars', body', hs', hy, -⟩
    · exact hfresh y hy
    · exact h.tuples_ne_placeholder ht hs' hy
  rcases h.eq_or_puts_of_renamedBy_eq (h.tuples_ne_placeholder ht hs hx) hplaceholder heq with
    heq | ⟨v, w, d, hv, hw, rfl, rfl⟩
  · exact heq
  · rcases hplace with hy | ⟨vars', body', hs', hy, hinside⟩
    · exact absurd ⟨w, d, hw, rfl⟩ (hfree _ hy)
    · have hlt := h.layer_lt ht hs' (h.mem_of_puts ht hs' hw hy)
        (Term.mem_boundVars_of_mem_tuples hinside hx) hw hv
      exact absurd hlt (Nat.lt_irrefl d)

/-- A term with placeholders, if no free name is one. -/
theorem distinguishes (hfresh : ∀ x, t.Free x → ∀ d, x ≠ placeholder d) : m.Distinguishes t where
  replaced vars body _ v _ d hvd := by
    rw [apply_eq_relabel, Term.relabel]
    have hname := h.renamedBy_tuple hvd
    cases v <;> exact congrArg _ (congrArg _ hname)
  apart vars body hs v hv b hb hne d e hvd hbe := by
    refine fun heq => hne ?_
    obtain rfl := placeholder_injective heq
    rw [Term.boundVars_sum, List.mem_append, OpenSum.mem_ofBinder] at hb
    rcases hb with ⟨hb, -⟩ | hb
    · exact h.eq_of_puts ht hs hb hv hbe hvd
    · exact absurd (h.layer_lt ht hs hv (List.mem_map_of_mem hb) hvd hbe) (Nat.lt_irrefl d)
  deeper vars body hs v hv b hb d e hvd hbe :=
    h.layer_lt ht hs hv (List.mem_map_of_mem hb) hvd hbe
  sizes := by
    rw [apply_eq_relabel]
    exact (h.injOnBinders ht).binders_length
  alpha := by
    rw [apply_eq_relabel]
    constructor
    · -- A free name that gives way to a placeholder does not occur any more.
      intro halpha x hx hxm
      obtain ⟨_, hy, rfl⟩ := AlphaEq.exists_free halpha hx
      obtain ⟨z, -, hz⟩ := Term.Free.exists_of_relabel hy
      by_cases hzm : m.Replaces z
      · obtain ⟨w, d, hw, rfl⟩ := hzm
        rw [h.renamedBy_tuple hw] at hz
        exact h.ne_placeholder x (hxm.mem_boundNames h.valid) d hz.symm
      · rw [renamedBy_of_not_replaces hzm] at hz
        exact hzm (hz ▸ hxm)
    · intro hfree
      refine (h.keepsApart ht hfresh hfree).alphaEq fun x hx => ?_
      exact (renamedBy_of_not_replaces (hfree x hx)).symm

end Orderly

/-! ### The matchings of a search -/

section Searches

variable {l r : Term} {s₀ s₁ s₂ : Term.Supply} (hl : left.freshen s₀ = .ok (l, s₁))
  (hr : right.freshen s₁ = .ok (r, s₂))

include hl hr

/-- The matchings of a search are valid and separate the variables of every summation. -/
theorem orderly_of_search {output : String} {budget : Budget} {first : Matching}
    (hseed : seed l r output budget = .ok first) {limit : ℕ} {search : Search}
    (hstart : Search.Checked.start l r first limit = .ok search) {qs : List Search.Query}
    (hm : m ∈ search.results qs) : m.Orderly l r := by
  have hnamed := Term.wellNamed_of_freshen hl hr
  have hseeded := seeded_of_seed hnamed hseed
  obtain ⟨_, -, hstart⟩ := Fault.ok_of_bind hstart
  obtain rfl := Except.ok.inj hstart
  have hvalid : first.isValid l r = true := by rw [isValid, hseeded.valid]
  have start : Search.Account l r first limit (.start l r first limit) [] :=
    Search.account_start hvalid
  have account := start.run qs
  rw [List.nil_append] at account
  have hvisited := account.done_subset m hm
  exact ⟨hnamed, account.valid m hvisited,
    separates_of_reachable hnamed (account.reachable m hvisited) hseeded.separates⟩

/-- A name that is free after freshening was there before. -/
theorem mem_names_of_free {t : Term} (ht : t ∈ [l, r]) (hx : t.Free x) :
    x ∈ left.names ++ right.names := by
  rcases List.mem_pair.mp ht with rfl | rfl
  · exact List.mem_append_left _
      ((Term.mentions_freshenWith _ hl hx).resolve_right (by simp))
  · exact List.mem_append_right _
      ((Term.mentions_freshenWith _ hr hx).resolve_right (by simp))

/-- **No matching of a search confuses variables.**  Two terms are freshened in turn, and their
names do not start with a number sign.  Whatever a search from their first matching is asked, with
each matching that it hands out the variables of nested summations become different placeholders,
and summations keep the number of their variables.  The terms stay the same up to the names of bound
tuples, unless a free tuple has the name of a variable in a layer.  No free tuple has if no name had
a number sign in it. -/
theorem distinguishes_of_search
    (hnames : ∀ x ∈ left.names ++ right.names, x.toList.head? ≠ some '#') {output : String}
    {budget : Budget} {first : Matching} (hseed : seed l r output budget = .ok first) {limit : ℕ}
    {search : Search} (hstart : Search.Checked.start l r first limit = .ok search)
    {qs : List Search.Query} (hm : m ∈ search.results qs) :
    ∀ t ∈ [l, r], m.Distinguishes t ∧
      ((∀ x ∈ left.names ++ right.names, '#' ∉ x.toList) → AlphaEquivalent t (m.apply t)) := by
  intro t ht
  have horderly := orderly_of_search hl hr hseed hstart hm
  have hdistinguishes : m.Distinguishes t := by
    refine horderly.distinguishes ht fun x hx d heq => hnames x (mem_names_of_free hl hr ht hx) ?_
    simp [heq, placeholder]
  refine ⟨hdistinguishes, fun hsigns => hdistinguishes.alpha.mpr ?_⟩
  -- The name of a bound variable ends in a number sign and a number.
  intro x hx hreplaced
  obtain ⟨b, hb, rfl⟩ := List.mem_map.mp (hreplaced.mem_boundNames horderly.valid)
  have hfreshened := (Term.freshenWith_ok left hl).1.append (Term.freshenWith_ok right hr).1
  obtain ⟨base, n, hn, -⟩ := hfreshened.numbered.range b (by simpa using hb)
  refine hsigns _ (mem_names_of_free hl hr ht hx) ?_
  simp [hn]

end Searches

/-- Pairs of rows of one table, where the first one has no partner in another table. -/
def pairsWithout (x y z : String) : Term :=
  .sumOver [x, y] (.mul [.table "r" (.base x), .table "r" (.base y),
    .neg (.sumOver [z] (.mul [.table "s" (.base z), .pred .eq [.attr "a" z, .attr "a" x]]))])

/-- The first row of a pair with the second row of another, and the rows inside below them. -/
def crosswisePairs : Matching :=
  ⟨[.ofList [.base "x#0", .base "y#4"], .ofList [.base "x#3", .base "y#1"],
    .ofList [.base "z#2", .base "z#5"]]⟩

/-- The same with the rows of the left pair exchanged. -/
def rowwisePairs : Matching :=
  ⟨[.ofList [.base "y#1", .base "y#4"], .ofList [.base "x#0", .base "x#3"],
    .ofList [.base "z#2", .base "z#5"]]⟩

/-- The second matching of a search has two variables exchanged, and the one inside is still in a
later layer. -/
theorem distinguishes_of_search_pairsWithout :
    (pairsWithout "x" "y" "z").freshen ⟨.empty, 0⟩ =
        .ok (pairsWithout "x#0" "y#1" "z#2", ⟨.empty, 3⟩) ∧
      (pairsWithout "x" "y" "z").freshen ⟨.empty, 3⟩ =
        .ok (pairsWithout "x#3" "y#4" "z#5", ⟨.empty, 6⟩) ∧
      (∀ x ∈ (pairsWithout "x" "y" "z").names ++ (pairsWithout "x" "y" "z").names,
        '#' ∉ x.toList) ∧
      seed (pairsWithout "x#0" "y#1" "z#2") (pairsWithout "x#3" "y#4" "z#5") "out" .unlimited =
        .ok crosswisePairs ∧
      ∃ search, Search.Checked.start (pairsWithout "x#0" "y#1" "z#2")
          (pairsWithout "x#3" "y#4" "z#5") crosswisePairs 2 = .ok search ∧
        rowwisePairs ∈ search.results [.next, .next] ∧
        rowwisePairs.apply (pairsWithout "x#0" "y#1" "z#2") = pairsWithout "#bv1" "#bv0" "#bv2" ∧
        ∀ t ∈ [pairsWithout "x#0" "y#1" "z#2", pairsWithout "x#3" "y#4" "z#5"],
          rowwisePairs.Distinguishes t ∧ AlphaEquivalent t (rowwisePairs.apply t) := by
  have hl : (pairsWithout "x" "y" "z").freshen ⟨.empty, 0⟩ =
      .ok (pairsWithout "x#0" "y#1" "z#2", ⟨.empty, 3⟩) := rfl
  have hr : (pairsWithout "x" "y" "z").freshen ⟨.empty, 3⟩ =
      .ok (pairsWithout "x#3" "y#4" "z#5", ⟨.empty, 6⟩) := rfl
  have hsigns : ∀ x ∈ (pairsWithout "x" "y" "z").names ++ (pairsWithout "x" "y" "z").names,
      '#' ∉ x.toList := by decide
  have hstarts : ∀ x ∈ (pairsWithout "x" "y" "z").names ++ (pairsWithout "x" "y" "z").names,
      x.toList.head? ≠ some '#' := by decide
  have hseed : seed (pairsWithout "x#0" "y#1" "z#2") (pairsWithout "x#3" "y#4" "z#5") "out"
      .unlimited = .ok crosswisePairs := by decide +kernel
  have hm : rowwisePairs ∈ (Search.start (pairsWithout "x#0" "y#1" "z#2")
      (pairsWithout "x#3" "y#4" "z#5") crosswisePairs 2).results [.next, .next] := by
    have hresults : (Search.start (pairsWithout "x#0" "y#1" "z#2")
        (pairsWithout "x#3" "y#4" "z#5") crosswisePairs 2).results [.next, .next] =
          [crosswisePairs, rowwisePairs] := by decide +kernel
    rw [hresults]
    exact List.mem_cons_of_mem _ List.mem_cons_self
  refine ⟨hl, hr, hsigns, hseed, _, rfl, hm, rfl, fun t ht => ?_⟩
  obtain ⟨h, halpha⟩ := distinguishes_of_search hl hr hstarts hseed rfl hm t ht
  exact ⟨h, halpha hsigns⟩

/-- All rows of a table. -/
def tableTotal (x : String) : Term := .sumOver [x] (.table "r" (.base x))

/-- All rows of a table, times how often the tuple is in another table. -/
def tableTotalTimes (x y : String) : Term := .mul [tableTotal x, .table "s" (.base y)]

/-- A free tuple that has the name of a fresh one gets its placeholder, and the term becomes another
one. -/
theorem not_alphaEquivalent_tableTotalTimes :
    (tableTotalTimes "x" "x#0").freshen ⟨.empty, 0⟩ =
        .ok (tableTotalTimes "x#0" "x#0", ⟨.empty, 1⟩) ∧
      (tableTotal "y").freshen ⟨.empty, 1⟩ = .ok (tableTotal "y#1", ⟨.empty, 2⟩) ∧
      (∀ x ∈ (tableTotalTimes "x" "x#0").names ++ (tableTotal "y").names,
        x.toList.head? ≠ some '#') ∧
      ∃ m search, seed (tableTotalTimes "x#0" "x#0") (tableTotal "y#1") "out" .unlimited = .ok m ∧
        Search.Checked.start (tableTotalTimes "x#0" "x#0") (tableTotal "y#1") m 1 = .ok search ∧
        search.results [.next] = [m] ∧
        ¬ AlphaEquivalent (tableTotalTimes "x#0" "x#0")
          (m.apply (tableTotalTimes "x#0" "x#0")) := by
  refine ⟨rfl, rfl, by decide, ⟨[.ofList [.base "x#0", .base "y#1"]]⟩, _, by decide +kernel, rfl,
    by decide +kernel, ?_⟩
  -- The name is free in the term, and occurs no more with the placeholder in its place.
  intro h
  obtain ⟨_, hfree, rfl⟩ := AlphaEq.exists_free (x := "x#0") h (by decide)
  exact absurd hfree (by decide)

end Matching

end BagEquiv
