/-
**Terms up to the names of bound tuples.**

Two terms are equivalent if they differ in the names of bound tuples only.  Both are gone through at
once, with a list of the pairs of names that were bound together, the innermost first.  A name of
one term stands for a name of the other if the innermost pair that has one of them has both, or if
no pair has either and they are equal.

Giving the tuples of a term other names, bound or not, yields an equivalent term if no summation
binds a tuple whose new name another tuple in it gets as well, and free tuples keep their names.

Main definition:

* `Linked` — two names stand for the same tuple.

Main result:

* `Term.KeepsApart.alphaEq` — **new names that keep tuples apart give equivalent terms**.
-/

import BagEquiv.Proofs.AlphaRenaming
import BagEquiv.Proofs.Subterms

set_option autoImplicit false

namespace BagEquiv

/-! ### Equivalence -/

/-- Two names stand for the same tuple if those of the pairs were bound together, the first one
last. -/
def Linked : List (String × String) → String → String → Prop
  | [], x, y => x = y
  | (a, b) :: Γ, x, y => (x = a ∧ y = b) ∨ (x ≠ a ∧ y ≠ b ∧ Linked Γ x y)

/-- Two terms are the same up to the names of bound tuples, if those of the pairs were bound
together. -/
inductive AlphaEq : List (String × String) → Term → Term → Prop
  | sum {Γ : List (String × String)} {vars vars' : VarSet} {body body' : Term}
      (τ : String → String) (hvars : vars'.toList.Perm (vars.toList.map (Var.relabel τ)))
      (hbody : AlphaEq ((vars.tuples.map fun x => (x, τ x)) ++ Γ) body body') :
      AlphaEq Γ (.sum vars body) (.sum vars' body')
  | add {Γ : List (String × String)} {ts us : List Term} (hlength : ts.length = us.length)
      (h : ∀ {t u : Term}, (t, u) ∈ ts.zip us → AlphaEq Γ t u) : AlphaEq Γ (.add ts) (.add us)
  | mul {Γ : List (String × String)} {ts us : List Term} (hlength : ts.length = us.length)
      (h : ∀ {t u : Term}, (t, u) ∈ ts.zip us → AlphaEq Γ t u) : AlphaEq Γ (.mul ts) (.mul us)
  | neg {Γ : List (String × String)} {t u : Term} (h : AlphaEq Γ t u) : AlphaEq Γ (.neg t) (.neg u)
  | squash {Γ : List (String × String)} {t u : Term} (h : AlphaEq Γ t u) :
      AlphaEq Γ (.squash t) (.squash u)
  | pred {Γ : List (String × String)} {kind : Pred} {ts us : List Term}
      (hlength : ts.length = us.length)
      (h : ∀ {t u : Term}, (t, u) ∈ ts.zip us → AlphaEq Γ t u) :
      AlphaEq Γ (.pred kind ts) (.pred kind us)
  | var {Γ : List (String × String)} {v : Var} {y : String} (h : Linked Γ v.tuple y) :
      AlphaEq Γ (.var v) (.var (v.relabel fun _ => y))
  | const {Γ : List (String × String)} {q : Fraction} : AlphaEq Γ (.const q) (.const q)
  | table {Γ : List (String × String)} {name : String} {v : Var} {y : String}
      (h : Linked Γ v.tuple y) : AlphaEq Γ (.table name v) (.table name (v.relabel fun _ => y))
  | func {Γ : List (String × String)} {name : String} {ts us : List Term}
      (hlength : ts.length = us.length)
      (h : ∀ {t u : Term}, (t, u) ∈ ts.zip us → AlphaEq Γ t u) :
      AlphaEq Γ (.func name ts) (.func name us)
  | str {Γ : List (String × String)} {s : String} : AlphaEq Γ (.str s) (.str s)

/-- Two terms are the same up to the names of bound tuples. -/
def AlphaEquivalent (t u : Term) : Prop := AlphaEq [] t u

/-! ### Free names -/

variable {Γ : List (String × String)} {x y : String}

/-- A name that is not among the pairs stands for one that is not either. -/
theorem Linked.of_append {Δ : List (String × String)} (h : Linked (Δ ++ Γ) x y)
    (hx : x ∉ Δ.map Prod.fst) : y ∉ Δ.map Prod.snd ∧ Linked Γ x y := by
  induction Δ with
  | nil => exact ⟨List.not_mem_nil, h⟩
  | cons p Δ ih =>
      rw [List.map_cons, List.mem_cons, not_or] at hx ⊢
      rcases h with ⟨heq, -⟩ | ⟨-, hne, h⟩
      · exact absurd heq hx.1
      · obtain ⟨hy, h⟩ := ih h hx.2
        exact ⟨⟨hne, hy⟩, h⟩

/-- A free name of a term stands for a free name of an equivalent one. -/
theorem AlphaEq.exists_free {t u : Term} (h : AlphaEq Γ t u) (hx : t.Free x) :
    ∃ y, u.Free y ∧ Linked Γ x y := by
  have member : ∀ {Γ : List (String × String)} {ts us : List Term},
      List.Forall₂ (fun t u => t.Free x → ∃ y, u.Free y ∧ Linked Γ x y) ts us →
      Term.mentionsAny x ts = true → ∃ y, Term.mentionsAny y us = true ∧ Linked Γ x y := by
    intro Γ ts us h hx
    induction h with
    | nil => cases hx
    | cons hhead _ ih =>
        rw [Term.mentionsAny, Bool.or_eq_true] at hx
        rcases hx with hx | hx
        · obtain ⟨y, hy, h⟩ := hhead hx
          exact ⟨y, by rw [Term.mentionsAny, hy, Bool.true_or], h⟩
        · obtain ⟨y, hy, h⟩ := ih hx
          exact ⟨y, by rw [Term.mentionsAny, hy, Bool.or_true], h⟩
  induction h with
  | @sum Γ vars vars' body body' τ hvars _ ih =>
      obtain ⟨hout, hx⟩ := Term.free_sum.mp hx
      obtain ⟨y, hy, h⟩ := ih hx
      obtain ⟨hy', h⟩ := h.of_append (by simpa using hout)
      refine ⟨y, Term.free_sum.mpr ⟨fun hmem => hy' ?_, hy⟩, h⟩
      have hmem := (hvars.map Var.tuple).subset hmem
      simpa [VarSet.tuples, Var.tuple_relabel] using hmem
  | add hlength _ ih | mul hlength _ ih | pred hlength _ ih | func hlength _ ih =>
      exact member (List.forall₂_iff_zip.mpr ⟨hlength, ih⟩) hx
  | neg _ ih | squash _ ih => exact ih hx
  | @var _ v y h | @table _ _ v y h =>
      obtain rfl : v.tuple = x := of_decide_eq_true hx
      exact ⟨y, decide_eq_true (v.tuple_relabel _), h⟩
  | const | str => cases hx

namespace Term

/-- A name that is free in a term one step below is free in the term or bound there. -/
theorem Free.of_mem_children {c t : Term} (hc : c ∈ t.children) (h : c.Free x) :
    t.Free x ∨ ∃ vars, t = .sum vars c ∧ x ∈ vars.tuples := by
  cases t with
  | sum vars body =>
      obtain rfl := List.mem_singleton.mp hc
      by_cases hx : x ∈ vars.tuples
      · exact .inr ⟨vars, rfl, hx⟩
      · exact .inl (free_sum.mpr ⟨hx, h⟩)
  | add ts | mul ts | pred _ ts | func _ ts =>
      rw [Free, mentions, mentionsAny_eq, List.any_eq_true]
      exact .inl ⟨c, hc, h⟩
  | neg t | squash t =>
      obtain rfl := List.mem_singleton.mp hc
      exact .inl h
  | var | const | table | str => cases hc

/-- A name that is free in a node is free in the term or bound by a summation around the node. -/
theorem Free.of_mem_subterms {s t : Term} (hs : s ∈ t.subterms) (h : s.Free x) :
    t.Free x ∨ ∃ vars body, .sum vars body ∈ t.subterms ∧ x ∈ vars.tuples ∧ s ∈ body.subterms := by
  induction t using Term.induct_children with
  | step t ih =>
      rcases mem_subterms.mp hs with rfl | ⟨c, hc, hs⟩
      · exact .inl h
      · rcases ih c hc hs with hx | ⟨vars, body, hsum, hx, hs⟩
        · refine (hx.of_mem_children hc).imp_right ?_
          rintro ⟨vars, heq, hx⟩
          exact ⟨vars, c, mem_subterms.mpr (.inl heq.symm), hx, hs⟩
        · exact .inr ⟨vars, body, mem_subterms.mpr (.inr ⟨c, hc, hsum⟩), hx, hs⟩

/-! ### Other names -/

/-- The tuples that a summation of the term binds get different names. -/
def InjOnBinders (f : String → String) (t : Term) : Prop :=
  ∀ vars body, .sum vars body ∈ t.subterms → ∀ x ∈ vars.tuples, ∀ y ∈ vars.tuples,
    f y = f x → y = x

/-- The new name of a tuple that a summation of the term binds is the new name of no other tuple
that the summation binds or that occurs in its body. -/
structure KeepsApart (f : String → String) (t : Term) : Prop where
  own : t.InjOnBinders f
  free : ∀ vars body, .sum vars body ∈ t.subterms → ∀ x ∈ vars.tuples, ∀ y, body.Free y →
    f y = f x → y = x

end Term

/-- A tuple under its new name is the same tuple, if none of those bound gets this name. -/
theorem linked_map {xs : List String} {f : String → String} (h : ∀ x ∈ xs, f y = f x → y = x)
    (hy : y ∉ xs → Linked Γ y (f y)) : Linked ((xs.map fun x => (x, f x)) ++ Γ) y (f y) := by
  induction xs with
  | nil => exact hy List.not_mem_nil
  | cons a xs ih =>
      rw [List.forall_mem_cons] at h
      by_cases ha : y = a
      · exact .inl ⟨ha, congrArg f ha⟩
      · refine .inr ⟨ha, fun heq => ha (h.1 heq), ih h.2 fun hout => hy ?_⟩
        rw [List.mem_cons, not_or]
        exact ⟨ha, hout⟩

/-- A set under a map that keeps its members apart. -/
theorem VarSet.map_perm {s : VarSet} {f : Var → Var}
    (h : ∀ v ∈ s, ∀ w ∈ s, f v = f w → v = w) : (s.map f).toList.Perm (s.toList.map f) := by
  refine (List.perm_ext_iff_of_nodup (s.map f).nodup (s.nodup.map_on h)).mpr fun w => ?_
  rw [List.mem_map]
  exact VarSet.mem_map

/-- Variables whose tuples have different new names differ. -/
theorem Var.relabel_inj {f : String → String} {v w : Var} (h : v.relabel f = w.relabel f)
    (htuple : f v.tuple = f w.tuple → v.tuple = w.tuple) : v = w := by
  have heq := htuple (by rw [← v.tuple_relabel f, h, w.tuple_relabel f])
  cases v <;> cases w <;> simp_all [relabel, tuple]

namespace Term

/-- A free name of a term under other names is the new name of a free one. -/
theorem Free.exists_of_relabel {f : String → String} {t : Term} (h : (t.relabel f).Free x) :
    ∃ y, t.Free y ∧ f y = x := by
  have name : ∀ v : Var, decide ((v.relabel f).tuple = x) = true →
      ∃ y, decide (v.tuple = y) = true ∧ f y = x := by
    intro v h
    rw [v.tuple_relabel, decide_eq_true_eq] at h
    exact ⟨v.tuple, decide_eq_true rfl, h⟩
  induction t using Term.induct with
  | sum vars body ih =>
      obtain ⟨hout, h⟩ := free_sum.mp h
      obtain ⟨y, hy, rfl⟩ := ih h
      refine ⟨y, free_sum.mpr ⟨fun hmem => hout ?_, hy⟩, rfl⟩
      obtain ⟨v, hv, rfl⟩ := List.mem_map.mp hmem
      exact List.mem_map.mpr ⟨_, VarSet.mem_map.mpr ⟨v, hv, rfl⟩, v.tuple_relabel f⟩
  | add ts ih | mul ts ih | pred _ ts ih | func _ ts ih =>
      rw [relabel, Free, mentions, mentionsAny_eq, relabelList_eq, List.any_map,
        List.any_eq_true] at h
      obtain ⟨t, ht, h⟩ := h
      obtain ⟨y, hy, heq⟩ := ih t ht h
      refine ⟨y, ?_, heq⟩
      rw [Free, mentions, mentionsAny_eq, List.any_eq_true]
      exact ⟨t, ht, hy⟩
  | neg t ih | squash t ih => exact ih h
  | var v | table _ v => exact name v h
  | const | str => cases h

/-- The nodes of a term under other names, in the same order. -/
theorem subterms_relabel (f : String → String) (t : Term) :
    (t.relabel f).subterms = t.subterms.map (relabel f) := by
  have hlevels : ∀ (n : ℕ) (ts : List Term),
      levels n (ts.map (relabel f)) = (levels n ts).map (relabel f) := by
    intro n
    induction n with
    | zero => exact fun _ => rfl
    | succ n ih =>
        intro ts
        rw [levels, levels, List.map_append, ← ih, List.flatMap_map, List.map_flatMap]
        simp only [children_relabel]
  have hdepth : (t.relabel f).depth = t.depth := by
    have members : ∀ {ts : List Term}, (∀ t ∈ ts, (t.relabel f).depth = t.depth) →
        depthAll (relabelList f ts) = depthAll ts := by
      intro ts ih
      induction ts with
      | nil => rfl
      | cons t ts ihs =>
          rw [List.forall_mem_cons] at ih
          rw [relabelList, depthAll, depthAll, ih.1, ihs ih.2]
    induction t using Term.induct with
    | sum vars body ih => rw [relabel, depth, depth, ih]
    | add ts ih | mul ts ih | pred _ ts ih | func _ ts ih =>
        rw [relabel, depth, depth, members ih]
    | neg t ih | squash t ih => rw [relabel, depth, depth, ih]
    | var | const | table | str => rfl
  rw [subterms, subterms, hdepth]
  exact hlevels t.depth [t]

variable {f : String → String} {t : Term}

/-- A summation binds as many variables under the new names. -/
theorem InjOnBinders.map_perm (h : t.InjOnBinders f) {vars : VarSet} {body : Term}
    (hs : .sum vars body ∈ t.subterms) :
    (vars.map (Var.relabel f)).toList.Perm (vars.toList.map (Var.relabel f)) := by
  refine VarSet.map_perm fun v hv w hw heq => Var.relabel_inj heq ?_
  exact h vars body hs _ (List.mem_map_of_mem hw) _ (List.mem_map_of_mem hv)

/-- Every summation keeps the number of its variables. -/
theorem InjOnBinders.binders_length (h : t.InjOnBinders f) :
    (t.relabel f).binders.map (·.1.length) = t.binders.map (·.1.length) := by
  rw [binders, binders, subterms_relabel, List.filterMap_map, List.map_filterMap,
    List.map_filterMap]
  refine List.filterMap_congr fun s hs => ?_
  cases s with
  | sum vars body =>
      have hlength := (h.map_perm hs).length_eq
      rw [List.length_map] at hlength
      exact congrArg some hlength
  | _ => rfl

theorem KeepsApart.of_mem_children (h : t.KeepsApart f) {c : Term} (hc : c ∈ t.children) :
    c.KeepsApart f where
  own vars body hs := h.own vars body (mem_subterms.mpr (.inr ⟨c, hc, hs⟩))
  free vars body hs := h.free vars body (mem_subterms.mpr (.inr ⟨c, hc, hs⟩))

/-- **New names that keep tuples apart** give a term that is the same up to the names of bound
tuples, if free tuples stand for what they are called now. -/
theorem KeepsApart.alphaEq (h : t.KeepsApart f) (hfree : ∀ x, t.Free x → Linked Γ x (f x)) :
    AlphaEq Γ t (t.relabel f) := by
  have member : ∀ {Γ : List (String × String)} {ts : List Term}, (∀ t ∈ ts, t.KeepsApart f) →
      (∀ x, mentionsAny x ts = true → Linked Γ x (f x)) →
      (∀ t ∈ ts, ∀ {Γ : List (String × String)}, t.KeepsApart f →
        (∀ x, t.Free x → Linked Γ x (f x)) → AlphaEq Γ t (t.relabel f)) →
      List.Forall₂ (AlphaEq Γ) ts (relabelList f ts) := by
    intro Γ ts h hfree ih
    rw [relabelList_eq, List.forall₂_map_right_iff, List.forall₂_same]
    refine fun t ht => ih t ht (h t ht) fun x hx => hfree x ?_
    rw [mentionsAny_eq, List.any_eq_true]
    exact ⟨t, ht, hx⟩
  have hvar : ∀ v : Var, v.relabel f = v.relabel fun _ => f v.tuple := by
    intro v
    cases v <;> rfl
  induction t using Term.induct generalizing Γ with
  | sum vars body ih =>
      have hself : Term.sum vars body ∈ (Term.sum vars body).subterms := mem_subterms.mpr (.inl rfl)
      have hbody : body.KeepsApart f := h.of_mem_children List.mem_cons_self
      refine .sum f (h.own.map_perm hself) (ih hbody fun y hy => ?_)
      refine linked_map (fun x hx => h.free vars body hself x hx y hy) fun hout => ?_
      exact hfree y (free_sum.mpr ⟨hout, hy⟩)
  | add ts ih =>
      have hts := member (fun _ => h.of_mem_children) hfree ih
      exact .add hts.length_eq (List.forall₂_zip hts)
  | mul ts ih =>
      have hts := member (fun _ => h.of_mem_children) hfree ih
      exact .mul hts.length_eq (List.forall₂_zip hts)
  | pred _ ts ih =>
      have hts := member (fun _ => h.of_mem_children) hfree ih
      exact .pred hts.length_eq (List.forall₂_zip hts)
  | func _ ts ih =>
      have hts := member (fun _ => h.of_mem_children) hfree ih
      exact .func hts.length_eq (List.forall₂_zip hts)
  | neg t ih => exact .neg (ih (h.of_mem_children List.mem_cons_self) hfree)
  | squash t ih => exact .squash (ih (h.of_mem_children List.mem_cons_self) hfree)
  | var v =>
      rw [relabel, hvar]
      exact .var (hfree _ (decide_eq_true rfl))
  | table name v =>
      rw [relabel, hvar]
      exact .table (hfree _ (decide_eq_true rfl))
  | const => exact .const
  | str => exact .str

end Term

end BagEquiv
