/-
**The bound variables of terms and of open summations.**

The forest of a term lists its summations with their variables and the tables these range over.
Resolving summations layer by layer renames one variable after the other, and neither renaming nor
going a layer down changes what is left of the forest, as long as every variable is bound once.

Main definition:

* `Term.boundVars` — the bound variables of a term, with their tables.

Main results:

* `Term.forest_rename` — renaming a variable that is not bound keeps the forest;
* `OpenSum.Admits.boundVars_rest`, `OpenSum.Admits.nodes_rest` — the bound
  variables below a layer;
* `OpenSum.binderCount_rest_lt` — below a layer there are fewer binders.
-/

import Mathlib.Algebra.GroupWithZero.Nat
import Mathlib.Data.List.Nodup
import BagEquiv.Matching.Search

set_option autoImplicit false

namespace BagEquiv

theorem VarSet.nodup (s : VarSet) : s.toList.Nodup := by
  refine s.sorted.imp ?_
  rintro v w h rfl
  exact Var.lt_irrefl v h

theorem VarSet.mem_ofList {vs : List Var} {v : Var} : v ∈ VarSet.ofList vs ↔ v ∈ vs := by
  have fold : ∀ (vs : List Var) (s : VarSet), v ∈ vs.foldl insert s ↔ v ∈ s ∨ v ∈ vs := by
    intro vs
    induction vs with
    | nil => simp
    | cons w vs ih =>
        intro s
        rw [List.foldl_cons, ih, VarSet.mem_insert, List.mem_cons]
        tauto
  rw [VarSet.ofList, fold]
  exact or_iff_right List.not_mem_nil

theorem VarSet.perm_cons_erase {s : VarSet} {v : Var} (hv : v ∈ s) :
    s.toList.Perm (v :: (s.erase v).toList) := by
  have herase : (s.erase v).toList = s.toList.erase v := by
    rw [s.nodup.erase_eq_filter]
    exact List.filter_congr fun w _ => Bool.eq_iff_iff.mpr (by simp)
  rw [herase]
  exact List.perm_cons_erase hv

/-! ### Forests -/

namespace BinderTree

theorem nodes_eq (ts : List BinderTree) : nodes ts = ts.flatMap flatten := by
  induction ts with
  | nil => rfl
  | cons t ts ih => rw [nodes, ih, List.flatMap_cons]

theorem nodes_append (xs ys : List BinderTree) : nodes (xs ++ ys) = nodes xs ++ nodes ys := by
  rw [nodes_eq, nodes_eq, nodes_eq, List.flatMap_append]

end BinderTree

namespace Term

theorem forestAll_eq (ts : List Term) : forestAll ts = ts.flatMap forest := by
  induction ts with
  | nil => rfl
  | cons t ts ih => rw [forestAll, ih, List.flatMap_cons]

/-- The bound variables, with the tables they range over. -/
def boundVars (t : Term) : List BoundVar := (BinderTree.nodes t.forest).flatten

/-- The bound variables of a list of terms. -/
theorem flatten_nodes_forestAll (ts : List Term) :
    (BinderTree.nodes (forestAll ts)).flatten = ts.flatMap boundVars := by
  induction ts with
  | nil => rfl
  | cons t ts ih =>
      rw [forestAll, BinderTree.nodes_append, List.flatten_append, ih, List.flatMap_cons, boundVars]

@[simp] theorem boundVars_sum (vars : VarSet) (body : Term) :
    (Term.sum vars body).boundVars = BoundVar.ofBinder vars body ++ body.boundVars := by
  simp [boundVars, forest, BinderTree.nodes, BinderTree.flatten]

@[simp] theorem boundVars_add (ts : List Term) : (Term.add ts).boundVars = ts.flatMap boundVars :=
  flatten_nodes_forestAll ts

@[simp] theorem boundVars_mul (ts : List Term) : (Term.mul ts).boundVars = ts.flatMap boundVars :=
  flatten_nodes_forestAll ts

@[simp] theorem boundVars_pred (kind : Pred) (ts : List Term) :
    (Term.pred kind ts).boundVars = ts.flatMap boundVars :=
  flatten_nodes_forestAll ts

@[simp] theorem boundVars_func (name : String) (ts : List Term) :
    (Term.func name ts).boundVars = ts.flatMap boundVars :=
  flatten_nodes_forestAll ts

@[simp] theorem boundVars_neg (t : Term) : (Term.neg t).boundVars = t.boundVars := rfl

@[simp] theorem boundVars_squash (t : Term) : (Term.squash t).boundVars = t.boundVars := rfl

/-- The trees of a term are those of its outermost summations. -/
theorem forest_eq (t : Term) :
    t.forest = t.summations.map fun s => .node (BoundVar.ofBinder s.1 s.2) s.2.forest := by
  induction t using Term.induct with
  | sum vars body _ => rfl
  | add ts ih | mul ts ih | pred _ ts ih | func _ ts ih =>
      rw [forest, summations, forestAll_eq, summationsAll_eq, List.map_flatMap]
      exact List.flatMap_congr ih
  | neg t ih | squash t ih => exact ih
  | var | const | table | str => rfl

/-! ### Renaming -/

/-- Renaming another tuple does not change the table of a tuple. -/
theorem tableOf?_rename {base source target : String} (hs : base ≠ source) (ht : base ≠ target)
    (t : Term) : (t.rename source target).tableOf? base = t.tableOf? base := by
  induction t using Term.induct with
  | mul ts ih =>
      rw [rename, tableOf?, tableOf?]
      induction ts with
      | nil => rfl
      | cons t ts ihs =>
          rw [List.forall_mem_cons] at ih
          rw [renameList, tableOfAny?, tableOfAny?, ih.1, ihs ih.2]
  | table name v =>
      cases v with
      | base b =>
          rw [rename, Var.renamed]
          split
          · next hb => rw [tableOf?, tableOf?, if_neg (Ne.symm ht), if_neg (hb ▸ Ne.symm hs)]
          · rfl
      | proj a b =>
          rw [rename, Var.renamed]
          split <;> rfl
  | sum vars body _ =>
      rw [rename]
      split <;> rfl
  | add | neg | squash | pred | var | const | func | str => simp only [rename, tableOf?]

/-- A tuple that keeps its name. -/
theorem rename_self (x : String) (t : Term) : t.rename x x = t := by
  have name : ∀ v : Var, v.renamed x x = v := by
    intro v
    cases v <;> simp only [Var.renamed, ite_eq_right_iff] <;> rintro rfl <;> rfl
  induction t using Term.induct with
  | sum vars body ih =>
      rw [rename, ih]
      exact ite_self _
  | add ts ih | mul ts ih | pred _ ts ih | func _ ts ih =>
      rw [rename, renameList_eq, List.map_congr_left ih, List.map_id']
  | neg t ih | squash t ih => rw [rename, ih]
  | var v | table _ v => rw [rename, name]
  | const | str => rfl

theorem bound_eq_false {x : String} {vars : VarSet} (h : ∀ v ∈ vars.toList, v.tuple ≠ x) :
    bound x vars = false := by
  rw [bound, List.any_eq_false]
  exact fun v hv => by simpa using h v hv

/-- Renaming a tuple that is not bound, to one that is not bound, keeps the forest. -/
theorem forest_rename {source target : String} (t : Term)
    (h : ∀ b ∈ t.boundVars, b.var.tuple ≠ source ∧ b.var.tuple ≠ target) :
    (t.rename source target).forest = t.forest := by
  have member : ∀ {ts : List Term},
      (∀ b ∈ ts.flatMap boundVars, b.var.tuple ≠ source ∧ b.var.tuple ≠ target) →
      (∀ t ∈ ts, (∀ b ∈ t.boundVars, b.var.tuple ≠ source ∧ b.var.tuple ≠ target) →
        (t.rename source target).forest = t.forest) →
      forestAll (renameList source target ts) = forestAll ts := by
    intro ts hts ih
    rw [renameList_eq, forestAll_eq, forestAll_eq, List.flatMap_map]
    exact List.flatMap_congr fun t ht =>
      ih t ht fun b hb => hts b (List.mem_flatMap.mpr ⟨t, ht, hb⟩)
  induction t using Term.induct with
  | sum vars body ih =>
      rw [boundVars_sum, List.forall_mem_append] at h
      have hvars : ∀ v ∈ vars.toList, v.tuple ≠ source ∧ v.tuple ≠ target := by
        intro v hv
        exact h.1 ⟨v, body.tableOf? v.tuple⟩ (List.mem_map.mpr ⟨v, hv, rfl⟩)
      have hbound := bound_eq_false fun v hv => (hvars v hv).1
      have htables : BoundVar.ofBinder vars (body.rename source target) =
          BoundVar.ofBinder vars body := by
        refine List.map_congr_left fun v hv => ?_
        rw [tableOf?_rename (hvars v hv).1 (hvars v hv).2]
      rw [rename, if_neg (by simp [hbound]), forest, forest, htables, ih h.2]
  | add ts ih | mul ts ih | pred _ ts ih | func _ ts ih =>
      exact member (flatten_nodes_forestAll ts ▸ h) ih
  | neg t ih | squash t ih => exact ih h
  | var | const | table | str => simp only [rename, forest]

theorem binderCountAll_eq (ts : List Term) : binderCountAll ts = (ts.map binderCount).sum := by
  induction ts with
  | nil => rfl
  | cons t ts ih => rw [binderCountAll, ih, List.map_cons, List.sum_cons]

theorem binderCount_rename (source target : String) (t : Term) :
    (t.rename source target).binderCount = t.binderCount := by
  induction t using Term.induct with
  | sum vars body ih =>
      rw [rename]
      split
      · rfl
      · rw [binderCount, binderCount, ih]
  | add ts ih | mul ts ih | pred _ ts ih | func _ ts ih =>
      rw [rename, binderCount, binderCount, renameList_eq, binderCountAll_eq, binderCountAll_eq,
        List.map_map]
      exact congrArg List.sum (List.map_congr_left ih)
  | neg t ih | squash t ih => exact ih
  | var | const | table | str => simp only [rename, binderCount]

end Term

/-! ### Open summations -/

namespace OpenSum

/-- The bound variables of a summation and of those inside it, summation by summation. -/
def nodes (s : OpenSum) : List (List BoundVar) :=
  BoundVar.ofBinder s.vars s.body :: BinderTree.nodes s.body.forest

/-- The bound variables of a summation and of those inside it. -/
def boundVars (s : OpenSum) : List BoundVar := BoundVar.ofBinder s.vars s.body ++ s.body.boundVars

theorem flatten_nodes (s : OpenSum) : s.nodes.flatten = s.boundVars := rfl

/-- The number of summations and of the variables they bind. -/
def binderCount (s : OpenSum) : Nat := 1 + s.vars.size + s.body.binderCount

theorem mem_ofBinder {vars : VarSet} {body : Term} {b : BoundVar} :
    b ∈ BoundVar.ofBinder vars body ↔ b.var ∈ vars ∧ b.table = body.tableOf? b.var.tuple := by
  obtain ⟨v, table⟩ := b
  simp only [BoundVar.ofBinder, List.mem_map, BoundVar.mk.injEq]
  constructor
  · rintro ⟨w, hw, rfl, rfl⟩
    exact ⟨hw, rfl⟩
  · rintro ⟨hv, rfl⟩
    exact ⟨v, hv, rfl, rfl⟩

theorem mem_ofBinder_self {vars : VarSet} {body : Term} {v : Var} (hv : v ∈ vars) :
    (⟨v, body.tableOf? v.tuple⟩ : BoundVar) ∈ BoundVar.ofBinder vars body :=
  mem_ofBinder.mpr ⟨hv, rfl⟩

theorem bound_eq_true {x : String} {vars : VarSet} :
    Term.bound x vars = true ↔ ∃ v ∈ vars, v.tuple = x := by
  rw [Term.bound, List.any_eq_true]
  simp only [decide_eq_true_eq]
  rfl

theorem flatMap_nodes_ofTerm (t : Term) (side : Side) :
    (ofTerm t side).flatMap nodes = BinderTree.nodes t.forest := by
  rw [Term.forest_eq, BinderTree.nodes_eq, ofTerm, List.flatMap_map, List.flatMap_map]
  rfl

theorem flatMap_boundVars_ofTerm (t : Term) (side : Side) :
    (ofTerm t side).flatMap boundVars = t.boundVars := by
  rw [Term.boundVars, ← flatMap_nodes_ofTerm t side, List.flatten_eq_flatMap, List.flatMap_assoc]
  refine List.flatMap_congr fun s _ => ?_
  rw [← flatten_nodes, List.flatten_eq_flatMap]

/-- The nodes of the summations of two terms. -/
theorem flatMap_nodes_scope (left right : Term) :
    (scope left right).flatMap nodes = Matching.nodes left right := by
  rw [scope, List.flatMap_append, flatMap_nodes_ofTerm, flatMap_nodes_ofTerm, Matching.nodes,
    BinderTree.nodes_append]

/-! ### One layer down -/

theorem rest_some (s : OpenSum) (v : Var) (tuple : String) :
    s.rest (some v) tuple =
      if (s.vars.erase v).isEmpty then s.body.rename v.tuple tuple
      else .sum (s.vars.erase v) (s.body.rename v.tuple tuple) :=
  rfl

theorem rest_none (s : OpenSum) (tuple : String) : s.rest none tuple = s.body := rfl

/-- The summation and those inside it bind every tuple once, and the tuple is not among them. -/
structure Admits (s : OpenSum) (tuple : String) : Prop where
  nodup : (s.boundVars.map fun b => b.var.tuple).Nodup
  fresh : ∀ b ∈ s.boundVars, b.var.tuple ≠ tuple

/-- The bound variables of a summation other than one of them. -/
def others (s : OpenSum) (v : Var) : List BoundVar :=
  (BoundVar.ofBinder s.vars s.body).filter fun b => decide (b.var ≠ v)

variable {s : OpenSum} {v : Var} {tuple : String}

theorem Admits.ne_of_mem_body (h : s.Admits tuple) (hv : v ∈ s.vars) {b : BoundVar}
    (hb : b ∈ s.body.boundVars) : b.var.tuple ≠ v.tuple := by
  have hnodup := h.nodup
  rw [boundVars, List.map_append, List.nodup_append] at hnodup
  have hmem : v.tuple ∈ (BoundVar.ofBinder s.vars s.body).map fun b => b.var.tuple :=
    List.mem_map.mpr ⟨_, mem_ofBinder_self hv, rfl⟩
  exact (hnodup.2.2 _ hmem _ (List.mem_map.mpr ⟨b, hb, rfl⟩)).symm

theorem Admits.ne_of_mem_vars (h : s.Admits tuple) (hv : v ∈ s.vars) {w : Var} (hw : w ∈ s.vars)
    (hne : w ≠ v) : w.tuple ≠ v.tuple := by
  have hnodup := h.nodup
  rw [boundVars, List.map_append, List.nodup_append] at hnodup
  intro heq
  have hinj := List.inj_on_of_nodup_map hnodup.1 (mem_ofBinder_self hw) (mem_ofBinder_self hv) heq
  exact hne (congrArg BoundVar.var hinj)

/-- The forest of the body when one of the variables became the tuple of a layer. -/
theorem Admits.forest_rename (h : s.Admits tuple) (hv : v ∈ s.vars) :
    (s.body.rename v.tuple tuple).forest = s.body.forest :=
  Term.forest_rename _ fun b hb =>
    ⟨h.ne_of_mem_body hv hb, h.fresh b (List.mem_append_right _ hb)⟩

/-- The other variables keep their tables. -/
theorem Admits.ofBinder_erase (h : s.Admits tuple) (hv : v ∈ s.vars) :
    BoundVar.ofBinder (s.vars.erase v) (s.body.rename v.tuple tuple) = s.others v := by
  rw [others, BoundVar.ofBinder, BoundVar.ofBinder, List.filter_map]
  refine List.map_congr_left fun w hw => ?_
  obtain ⟨hw, hne⟩ := VarSet.mem_erase.mp hw
  have hfresh := h.fresh _ (List.mem_append_left _ (mem_ofBinder_self hw))
  rw [Term.tableOf?_rename (h.ne_of_mem_vars hv hw hne) hfresh]

theorem others_eq_nil (h : (s.vars.erase v).isEmpty = true) : s.others v = [] := by
  rw [others, List.filter_eq_nil_iff]
  intro b hb
  have hb := (mem_ofBinder.mp hb).1
  simp only [ne_eq, decide_not, Bool.not_eq_true', decide_eq_false_iff_not, not_not]
  by_contra hne
  have : b.var ∈ (s.vars.erase v).toList := VarSet.mem_erase.mpr ⟨hb, hne⟩
  rw [List.isEmpty_iff.mp h] at this
  exact List.not_mem_nil this

/-- The bound variables below a layer at which a variable of the summation is matched. -/
theorem Admits.boundVars_rest (h : s.Admits tuple) (hv : v ∈ s.vars) :
    (s.rest (some v) tuple).boundVars = s.others v ++ s.body.boundVars := by
  have hbody : (s.body.rename v.tuple tuple).boundVars = s.body.boundVars := by
    rw [Term.boundVars, h.forest_rename hv, Term.boundVars]
  rw [rest_some]
  split
  · next hempty => rw [hbody, others_eq_nil hempty, List.nil_append]
  · rw [Term.boundVars_sum, h.ofBinder_erase hv, hbody]

/-- The summations below a layer at which a variable is matched: the summation over the other
variables, and those inside. -/
theorem Admits.nodes_rest (h : s.Admits tuple) (hv : v ∈ s.vars) :
    BinderTree.nodes (s.rest (some v) tuple).forest =
      (if (s.vars.erase v).isEmpty then [] else [s.others v]) ++
        BinderTree.nodes s.body.forest := by
  rw [rest_some]
  split
  · rw [h.forest_rename hv, List.nil_append]
  · rw [Term.forest, BinderTree.nodes, BinderTree.flatten, BinderTree.nodes, h.ofBinder_erase hv,
      h.forest_rename hv, List.append_nil, List.singleton_append]

theorem size_erase_lt (hv : v ∈ s.vars) : (s.vars.erase v).size < s.vars.size := by
  refine List.length_filter_lt_length_iff_exists.mpr ⟨v, hv, ?_⟩
  simp

/-- Below a layer there are fewer summations and variables. -/
theorem binderCount_rest_lt (s : OpenSum) {matched : Option Var} (hm : ∀ v ∈ matched, v ∈ s.vars)
    (tuple : String) : (s.rest matched tuple).binderCount < s.binderCount := by
  cases matched with
  | none =>
      rw [rest_none, binderCount]
      omega
  | some v =>
      have hlt := size_erase_lt (hm v rfl)
      rw [rest_some, binderCount]
      split
      · rw [Term.binderCount_rename]
        omega
      · rw [Term.binderCount, Term.binderCount_rename]
        omega

/-- The binders of a term are those of its outermost summations. -/
theorem sum_binderCount_ofTerm (t : Term) (side : Side) :
    ((ofTerm t side).map binderCount).sum = t.binderCount := by
  rw [ofTerm, List.map_map]
  change (t.summations.map fun s => 1 + s.1.size + s.2.binderCount).sum = t.binderCount
  induction t using Term.induct with
  | sum vars body _ => simp [Term.summations, Term.binderCount]
  | add ts ih | mul ts ih | pred _ ts ih | func _ ts ih =>
      rw [Term.summations, Term.binderCount]
      induction ts with
      | nil => rfl
      | cons t ts ihs =>
          rw [List.forall_mem_cons] at ih
          rw [Term.summationsAll, List.map_append, List.sum_append, ih.1, ihs ih.2,
            Term.binderCountAll]
  | neg t ih | squash t ih => exact ih
  | var | const | table | str => rfl

theorem sum_binderCount_scope (left right : Term) :
    ((scope left right).map binderCount).sum = left.binderCount + right.binderCount := by
  rw [scope, List.map_append, List.sum_append, sum_binderCount_ofTerm, sum_binderCount_ofTerm]

end OpenSum

/-! ### A term to try things on -/

/-- Two rows of a table, with a bound on a column of the first. -/
def Term.twoRows (x y : String) (bound : Fraction) : Term :=
  .sum (.ofList [.base x, .base y]) (.mul [.table "r" (.base x), .table "r" (.base y),
    .pred .lt [.var (.proj "a" x), .const bound]])

/-- A fraction whose continued fraction leaves the range of words. -/
def Fraction.tooDeep : Fraction := ⟨-1, Int64.minValue, by decide⟩

end BagEquiv
