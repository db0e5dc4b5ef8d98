/-
**The nodes of a term.**

The nodes of a term are listed level by level.  Up to that order they are the term itself and the
nodes of the terms below it, so facts about all nodes are proved by induction over the term: which
variables its summations bind, what becomes of its nodes under other names, and that the key of a
term tells the keys of all its nodes.

Main definition:

* `Term.relabel` — a term under other names, also where they are bound.

Main result:

* `Term.exists_mem_subterms_of_key_eq` — **terms with equal keys have nodes with equal
  keys**.
-/

import BagEquiv.Proofs.Keys
import BagEquiv.Proofs.Translatability

set_option autoImplicit false

namespace BagEquiv

namespace Term

/-! ### Nodes -/

theorem depth_le_depthAll {ts : List Term} {t : Term} (h : t ∈ ts) : t.depth ≤ depthAll ts := by
  induction ts with
  | nil => cases h
  | cons u ts ih =>
      rw [depthAll]
      rcases List.mem_cons.mp h with rfl | h
      · exact Nat.le_max_left _ _
      · exact (ih h).trans (Nat.le_max_right _ _)

theorem depth_lt_of_mem_children {t c : Term} (h : c ∈ t.children) : c.depth < t.depth := by
  cases t <;> simp only [children, List.mem_singleton, List.not_mem_nil] at h <;>
    simp only [depth, Nat.lt_succ_iff]
  case sum | neg | squash => exact h ▸ le_rfl
  all_goals exact depth_le_depthAll h

theorem depth_pos (t : Term) : 0 < t.depth := by
  cases t <;> simp [depth]

/-- Every term has a level of its own. -/
theorem eq_nil_of_depth_le_zero {ts : List Term} (h : ∀ t ∈ ts, t.depth ≤ 0) : ts = [] :=
  List.eq_nil_iff_forall_not_mem.mpr fun t ht => absurd (h t ht) (Nat.not_le.mpr t.depth_pos)

theorem depth_le_of_mem_below {n : ℕ} {ts : List Term} (h : ∀ t ∈ ts, t.depth ≤ n + 1) {c : Term}
    (hc : c ∈ ts.flatMap children) : c.depth ≤ n := by
  obtain ⟨t, ht, hc⟩ := List.mem_flatMap.mp hc
  exact Nat.le_of_lt_succ ((depth_lt_of_mem_children hc).trans_le (h t ht))

/-- Below the deepest level there is nothing. -/
theorem levels_of_depth_le {n : ℕ} {ts : List Term} (h : ∀ t ∈ ts, t.depth ≤ n) {k : ℕ}
    (hk : n ≤ k) : levels k ts = levels n ts := by
  induction n generalizing ts k with
  | zero =>
      obtain rfl := eq_nil_of_depth_le_zero h
      clear h hk
      induction k with
      | zero => rfl
      | succ k ih => exact ih
  | succ n ih =>
      obtain ⟨k, rfl⟩ : ∃ j, k = j + 1 := ⟨k - 1, by omega⟩
      rw [levels, levels, ih (fun _ => depth_le_of_mem_below h) (Nat.le_of_succ_le_succ hk)]

/-- The levels of several terms together are those of each of them. -/
theorem levels_perm (n : ℕ) (ts : List Term) :
    (levels n ts).Perm (ts.flatMap fun t => levels n [t]) := by
  induction n generalizing ts with
  | zero => simp [levels]
  | succ n ih =>
      have hone : ∀ t : Term, levels (n + 1) [t] = [t] ++ levels n t.children := by
        intro t
        rw [levels, List.flatMap_singleton]
      have hbelow : (levels n (ts.flatMap children)).Perm
          (ts.flatMap fun t => levels n t.children) := by
        refine (ih _).trans ?_
        rw [List.flatMap_assoc]
        exact List.Perm.flatMap_left _ fun t _ => (ih t.children).symm
      -- Level by level or term by term: the same nodes in another order.
      have hsplit : (ts.flatMap fun t => [t] ++ levels n t.children).Perm
          (ts ++ ts.flatMap fun t => levels n t.children) := by
        simpa using (List.flatMap_append_perm ts (fun t => [t]) fun t => levels n t.children).symm
      simp only [hone]
      exact (List.Perm.append_left ts hbelow).trans hsplit.symm

/-- The nodes of a term are the term itself and the nodes of the terms one step below. -/
theorem subterms_perm (t : Term) : t.subterms.Perm (t :: t.children.flatMap subterms) := by
  obtain ⟨d, hd⟩ : ∃ d, t.depth = d + 1 := ⟨t.depth - 1, by have := t.depth_pos; omega⟩
  have hbelow : t.children.flatMap (fun c => levels d [c]) = t.children.flatMap subterms := by
    refine List.flatMap_congr fun c hc => levels_of_depth_le (by simp) ?_
    have hlt := depth_lt_of_mem_children hc
    omega
  rw [subterms, hd, levels, List.flatMap_singleton, ← hbelow]
  exact (levels_perm d t.children).cons t

theorem mem_subterms {s t : Term} :
    s ∈ t.subterms ↔ s = t ∨ ∃ c ∈ t.children, s ∈ c.subterms := by
  rw [t.subterms_perm.mem_iff, List.mem_cons, List.mem_flatMap]

theorem length_subterms (t : Term) : t.subterms.length = t.size := by
  induction t using Term.induct_children with
  | step t ih =>
      rw [t.subterms_perm.length_eq, List.length_cons, List.length_flatMap, t.size_eq,
        List.map_congr_left ih]

/-! ### Summations -/

theorem mem_binders {t : Term} {b : List Var × Term} :
    b ∈ t.binders ↔ ∃ vars, b.1 = vars.toList ∧ .sum vars b.2 ∈ t.subterms := by
  rw [binders, List.mem_filterMap]
  constructor
  · rintro ⟨s, hs, heq⟩
    split at heq
    · cases heq
      exact ⟨_, rfl, hs⟩
    · cases heq
  · rintro ⟨vars, hvars, hs⟩
    exact ⟨_, hs, congrArg (fun vs => some (vs, b.2)) hvars.symm⟩

/-- The summations of a term are the term itself, if it is one, and those of the terms one step
below. -/
theorem binders_perm (t : Term) : t.binders.Perm
    ((match t with
      | .sum vars body => [(vars.toList, body)]
      | _ => []) ++ t.children.flatMap binders) := by
  refine (t.subterms_perm.filterMap _).trans (.of_eq ?_)
  rw [List.filterMap_cons, List.filterMap_flatMap]
  cases t <;> rfl

/-- The summations are counted, and the variables of each of them. -/
theorem binderCount_eq (t : Term) :
    t.binderCount = (t.binders.map fun b => 1 + b.1.length).sum := by
  induction t using Term.induct_children with
  | step t ih =>
      have hchildren : (t.children.map binderCount).sum =
          ((t.children.flatMap binders).map fun b => 1 + b.1.length).sum := by
        rw [List.map_flatMap, List.flatMap_def, List.sum_flatten, List.map_map]
        exact congrArg List.sum (List.map_congr_left ih)
      rw [(t.binders_perm.map _).sum_eq, List.map_append, List.sum_append, ← hchildren]
      cases t <;> simp [binderCount, children, binderCountAll_eq, VarSet.size]

/-- The node of a summation in the binder trees; other terms have none. -/
def binderNode? : Term → Option (List BoundVar)
  | .sum vars body => some (BoundVar.ofBinder vars body)
  | _ => none

/-- The binder trees of a term have the node of the term itself, if it is a summation, and those of
the terms one step below. -/
theorem nodes_forest (t : Term) : BinderTree.nodes t.forest =
    t.binderNode?.toList ++ t.children.flatMap fun c => BinderTree.nodes c.forest := by
  cases t with
  | sum vars body => simp [forest, BinderTree.nodes, BinderTree.flatten, binderNode?, children]
  | add ts | mul ts | pred _ ts | func _ ts =>
      simp only [forest, forestAll_eq, BinderTree.nodes_eq, List.flatMap_assoc, binderNode?,
        children, Option.toList_none, List.nil_append]
  | neg t | squash t => exact (List.flatMap_singleton (fun c => BinderTree.nodes (forest c)) t).symm
  | var | const | table | str => rfl

/-- The binder trees of a term have one node for each summation among its nodes. -/
theorem nodes_forest_perm (t : Term) :
    (BinderTree.nodes t.forest).Perm (t.subterms.filterMap binderNode?) := by
  induction t using Term.induct_children with
  | step t ih =>
      have hsplit := t.subterms_perm.filterMap binderNode?
      rw [List.filterMap_cons, List.filterMap_flatMap] at hsplit
      refine .trans ?_ hsplit.symm
      rw [nodes_forest]
      have hbelow := List.Perm.flatMap_left t.children ih
      cases t.binderNode? with
      | none => exact hbelow
      | some vars => exact hbelow.cons vars

/-- The summations of a term bind what the term binds. -/
theorem binders_names_perm (t : Term) : ((t.binders.flatMap Prod.fst).map Var.tuple).Perm
    (t.boundVars.map fun b => b.var.tuple) := by
  have hnames := (t.nodes_forest_perm.flatten.map fun b => b.var.tuple).symm
  refine .trans (.of_eq ?_) hnames
  rw [binders, List.flatMap_def, List.map_flatten, List.map_flatten, List.map_filterMap,
    List.map_filterMap, List.map_filterMap]
  congr 2
  funext s
  cases s with
  | sum vars body => simp [binderNode?, BoundVar.ofBinder]
  | add | mul | neg | squash | pred | var | const | table | func | str => rfl

end Term

/-! ### Other names -/

/-- The same variable of the tuple under its new name. -/
def Var.relabel (f : String → String) : Var → Var
  | .base b => .base (f b)
  | .proj a b => .proj a (f b)

theorem Var.tuple_relabel (f : String → String) (v : Var) :
    (v.relabel f).tuple = f v.tuple := by
  cases v <;> rfl

theorem VarSet.mem_map {s : VarSet} {f : Var → Var} {w : Var} :
    w ∈ s.map f ↔ ∃ v ∈ s, f v = w := by
  rw [VarSet.map, VarSet.mem_ofList, List.mem_map]
  rfl

/-- Sets with the same members are equal. -/
theorem VarSet.eq_of_mem_iff {s t : VarSet} (h : ∀ v, v ∈ s ↔ v ∈ t) : s = t := by
  have hperm : s.toList.Perm t.toList := (List.perm_ext_iff_of_nodup s.nodup t.nodup).mpr h
  refine VarSet.ext (hperm.eq_of_pairwise ?_ s.sorted t.sorted)
  exact fun v w _ _ hvw hwv => absurd (Var.lt_trans hvw hwv) (Var.lt_irrefl v)

namespace Term

mutual

/-- The term with other names for its tuples, also where they are bound. -/
def relabel (f : String → String) : Term → Term
  | .sum vars body => .sum (vars.map (Var.relabel f)) (relabel f body)
  | .add terms => .add (relabelList f terms)
  | .mul factors => .mul (relabelList f factors)
  | .neg term => .neg (relabel f term)
  | .squash term => .squash (relabel f term)
  | .pred kind args => .pred kind (relabelList f args)
  | .var v => .var (v.relabel f)
  | .const q => .const q
  | .table name v => .table name (v.relabel f)
  | .func name args => .func name (relabelList f args)
  | .str s => .str s

def relabelList (f : String → String) : List Term → List Term
  | [] => []
  | t :: ts => relabel f t :: relabelList f ts

end

theorem relabelList_eq (f : String → String) (ts : List Term) :
    relabelList f ts = ts.map (relabel f) := by
  induction ts with
  | nil => rfl
  | cons t ts ih => rw [relabelList, ih, List.map_cons]

/-- Renaming every occurrence of a tuple is one way to give other names. -/
theorem renameAll_eq_relabel (source target : String) (t : Term) :
    t.renameAll source target = t.relabel fun x => if x = source then target else x := by
  have hvar : Var.renamed source target =
      Var.relabel fun x => if x = source then target else x := by
    funext v
    cases v <;> rw [Var.renamed, Var.relabel] <;> split <;> rfl
  induction t using Term.induct with
  | sum vars body ih => rw [renameAll, relabel, hvar, ih]
  | add ts ih | mul ts ih | pred _ ts ih | func _ ts ih =>
      rw [renameAll, relabel, renameAllList_eq, relabelList_eq, List.map_congr_left ih]
  | neg t ih | squash t ih => rw [renameAll, relabel, ih]
  | var | table => rw [renameAll, relabel, hvar]
  | const | str => rfl

theorem relabel_relabel (f g : String → String) (t : Term) :
    (t.relabel f).relabel g = t.relabel fun x => g (f x) := by
  have hvar : ∀ v : Var, (v.relabel f).relabel g = v.relabel fun x => g (f x) := by
    intro v
    cases v <;> rfl
  induction t using Term.induct with
  | sum vars body ih =>
      rw [relabel, relabel, relabel, ih]
      congr 1
      refine VarSet.eq_of_mem_iff fun v => ?_
      simp only [VarSet.mem_map, exists_exists_and_eq_and, hvar]
  | add ts ih | mul ts ih | pred _ ts ih | func _ ts ih =>
      simp only [relabel, relabelList_eq, List.map_map]
      exact congrArg _ (List.map_congr_left ih)
  | neg t ih | squash t ih => rw [relabel, relabel, relabel, ih]
  | var | table => rw [relabel, relabel, relabel, hvar]
  | const | str => rfl

theorem relabel_id (t : Term) : t.relabel (fun x => x) = t := by
  have hvar : ∀ v : Var, v.relabel (fun x => x) = v := by
    intro v
    cases v <;> rfl
  induction t using Term.induct with
  | sum vars body ih =>
      rw [relabel, ih]
      congr 1
      refine VarSet.eq_of_mem_iff fun v => ?_
      simp only [VarSet.mem_map, hvar, exists_eq_right]
  | add ts ih | mul ts ih | pred _ ts ih | func _ ts ih =>
      rw [relabel, relabelList_eq, List.map_congr_left ih, List.map_id']
  | neg t ih | squash t ih => rw [relabel, ih]
  | var | table => rw [relabel, hvar]
  | const | str => rfl

/-- Only the names that occur matter. -/
theorem relabel_congr {f g : String → String} {t : Term} (h : ∀ x ∈ t.names, f x = g x) :
    t.relabel f = t.relabel g := by
  have hvar : ∀ v : Var, f v.tuple = g v.tuple → v.relabel f = v.relabel g := by
    intro v hv
    cases v <;> rw [Var.relabel, Var.relabel] <;> exact congrArg _ hv
  induction t using Term.induct with
  | sum vars body ih =>
      rw [names, List.forall_mem_append] at h
      rw [relabel, relabel, ih h.2, VarSet.map, VarSet.map, List.map_congr_left fun v hv =>
        hvar v (h.1 _ (List.mem_map_of_mem hv))]
  | add ts ih | mul ts ih | pred _ ts ih | func _ ts ih =>
      rw [relabel, relabel, relabelList_eq, relabelList_eq, List.map_congr_left fun t ht =>
        ih t ht fun x hx => h x (mem_namesAll.mpr ⟨t, ht, hx⟩)]
  | neg t ih | squash t ih => rw [relabel, relabel, ih h]
  | var v | table _ v => rw [relabel, relabel, hvar v (h _ List.mem_cons_self)]
  | const | str => rfl

theorem children_relabel (f : String → String) (t : Term) :
    (t.relabel f).children = t.children.map (relabel f) := by
  cases t <;> simp only [relabel, children, relabelList_eq, List.map_cons, List.map_nil]

theorem exists_eq_sum_of_relabel {f : String → String} {t : Term} {vars : VarSet} {body : Term}
    (h : t.relabel f = .sum vars body) :
    ∃ v b, t = .sum v b ∧ v.map (Var.relabel f) = vars ∧ b.relabel f = body := by
  cases t <;> simp only [relabel, reduceCtorEq, sum.injEq] at h
  case sum v b => exact ⟨v, b, rfl, h⟩

/-- The nodes of a term under other names. -/
theorem mem_subterms_relabel {f : String → String} {s t : Term} :
    s ∈ (t.relabel f).subterms ↔ ∃ u ∈ t.subterms, u.relabel f = s := by
  induction t using Term.induct_children generalizing s with
  | step t ih =>
      rw [mem_subterms, children_relabel]
      constructor
      · rintro (rfl | ⟨d, hd, hs⟩)
        · exact ⟨t, mem_subterms.mpr (.inl rfl), rfl⟩
        · obtain ⟨c, hc, rfl⟩ := List.mem_map.mp hd
          obtain ⟨u, hu, rfl⟩ := (ih c hc).mp hs
          exact ⟨u, mem_subterms.mpr (.inr ⟨c, hc, hu⟩), rfl⟩
      · rintro ⟨u, hu, rfl⟩
        rcases mem_subterms.mp hu with rfl | ⟨c, hc, hu⟩
        · exact .inl rfl
        · exact .inr ⟨c.relabel f, List.mem_map_of_mem hc, (ih c hc).mpr ⟨u, hu, rfl⟩⟩

/-! ### Keys of nodes -/

theorem hasKey_of_mem_children {t c : Term} (ht : t.hasKey = true) (hc : c ∈ t.children) :
    c.hasKey = true := by
  cases t <;> simp only [hasKey, allKeyed_eq, List.all_eq_true] at ht <;>
    simp only [children, List.mem_singleton, List.not_mem_nil] at hc
  case sum | neg | squash => exact hc ▸ ht
  all_goals exact ht c hc

/-- The nodes of a term with a key have keys. -/
theorem hasKey_of_mem_subterms {s t : Term} (ht : t.hasKey = true) (hs : s ∈ t.subterms) :
    s.hasKey = true := by
  induction t using Term.induct_children with
  | step t ih =>
      rcases mem_subterms.mp hs with rfl | ⟨c, hc, hs⟩
      · exact ht
      · exact ih c hc (hasKey_of_mem_children ht hc) hs

theorem KeysEqual.exists_mem {ts us : List Term} (h : KeysEqual ts us) {t : Term} (ht : t ∈ ts) :
    ∃ u ∈ us, t.key = u.key := by
  have hkey : t.key ∈ us.map key := keysEqual_iff.mp h ▸ List.mem_map_of_mem ht
  obtain ⟨u, hu, heq⟩ := List.mem_map.mp hkey
  exact ⟨u, hu, heq.symm⟩

theorem SameNode.exists_eq_sum {vars : VarSet} {a t : Term} (h : SameNode (.sum vars a) t) :
    ∃ b, t = .sum vars b ∧ a.key = b.key := by
  cases h with
  | sum _ hkey => exact ⟨_, rfl, hkey⟩

/-- The terms one step below have equal keys one by one, when those of one side are rearranged. -/
theorem SameNode.exists_children {t u : Term} (h : SameNode t u) :
    ∃ vs, KeysEqual t.children vs ∧ vs.Perm u.children := by
  cases h with
  | sum _ hkey | neg hkey | squash hkey => exact ⟨_, .cons hkey .nil, .refl _⟩
  | add hkeys hperm | mul hkeys hperm | symmetric _ hkeys hperm => exact ⟨_, hkeys, hperm⟩
  | pred _ hkeys | func _ hkeys => exact ⟨_, hkeys, .refl _⟩
  | var | const | table | str => exact ⟨[], .nil, .refl _⟩

theorem SameNode.exists_child {t u : Term} (h : SameNode t u) {c : Term} (hc : c ∈ t.children) :
    ∃ d ∈ u.children, c.key = d.key := by
  obtain ⟨vs, hkeys, hperm⟩ := h.exists_children
  obtain ⟨d, hd, hkey⟩ := hkeys.exists_mem hc
  exact ⟨d, hperm.subset hd, hkey⟩

/-- Terms with equal keys have nodes with equal keys. -/
theorem exists_mem_subterms_of_key_eq {t u : Term} (h : t.key = u.key) {s : Term}
    (hs : s ∈ t.subterms) : ∃ r ∈ u.subterms, s.key = r.key := by
  induction t using Term.induct_children generalizing u with
  | step t ih =>
      rcases mem_subterms.mp hs with rfl | ⟨c, hc, hs⟩
      · exact ⟨u, mem_subterms.mpr (.inl rfl), h⟩
      · obtain ⟨d, hd, hkey⟩ := (sameNode_of_key_eq h).exists_child hc
        obtain ⟨r, hr, heq⟩ := ih c hc hkey hs
        exact ⟨r, mem_subterms.mpr (.inr ⟨d, hd, hr⟩), heq⟩

end Term

end BagEquiv
