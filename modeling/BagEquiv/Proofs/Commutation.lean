/-
**Terms up to the order of operands.**

Terms are commuted if one becomes the other when operands of sums and products, and arguments of
equality and of its negation, change places, at any depth.  Constants count as the numbers they
stand for, and the variables of a summation as a set.  A function of terms that depends on the kind
of a term and on its own values at the parts, and tells these, identifies the commuted terms and no
others; the key is such a function.

Main definition:

* `Term.Commuted` — the least congruence with these laws.

Main result:

* `Term.eq_iff_commuted` — **a function that is read off node by node identifies exactly
  the commuted terms**.
-/

import BagEquiv.Proofs.ContinuedFractions

set_option autoImplicit false

namespace BagEquiv

theorem Pred.isSymmetric_iff (kind : Pred) :
    kind.isSymmetric = true ↔ kind = .eq ∨ kind = .ne := by
  cases kind <;> simp [isSymmetric]

namespace Term

/-- Equality up to the order of operands of sums, of products, of equality and of its negation. -/
inductive Commuted : Term → Term → Prop
  | refl (t : Term) : Commuted t t
  | symm {a b : Term} (h : Commuted a b) : Commuted b a
  | trans {a b c : Term} (h : Commuted a b) (h' : Commuted b c) : Commuted a c
  | permuteAdd {ts us : List Term} (h : ts.Perm us) : Commuted (.add ts) (.add us)
  | permuteMul {ts us : List Term} (h : ts.Perm us) : Commuted (.mul ts) (.mul us)
  | permutePred {kind : Pred} {ts us : List Term} (hkind : kind = .eq ∨ kind = .ne)
      (h : ts.Perm us) : Commuted (.pred kind ts) (.pred kind us)
  | const {p q : Fraction} (h : p.toRat = q.toRat) : Commuted (.const p) (.const q)
  | sum {vars vars' : VarSet} {a b : Term} (hvars : ∀ v, v ∈ vars ↔ v ∈ vars')
      (h : Commuted a b) : Commuted (.sum vars a) (.sum vars' b)
  | add (before after : List Term) {a b : Term} (h : Commuted a b) :
      Commuted (.add (before ++ a :: after)) (.add (before ++ b :: after))
  | mul (before after : List Term) {a b : Term} (h : Commuted a b) :
      Commuted (.mul (before ++ a :: after)) (.mul (before ++ b :: after))
  | neg {a b : Term} (h : Commuted a b) : Commuted (.neg a) (.neg b)
  | squash {a b : Term} (h : Commuted a b) : Commuted (.squash a) (.squash b)
  | pred (kind : Pred) (before after : List Term) {a b : Term} (h : Commuted a b) :
      Commuted (.pred kind (before ++ a :: after)) (.pred kind (before ++ b :: after))
  | func (name : String) (before after : List Term) {a b : Term} (h : Commuted a b) :
      Commuted (.func name (before ++ a :: after)) (.func name (before ++ b :: after))

/-- Parts that are commuted one by one may be exchanged together. -/
theorem Commuted.of_forall₂ {node : List Term → Term}
    (hnode : ∀ (before after : List Term) {a b : Term}, Commuted a b →
      Commuted (node (before ++ a :: after)) (node (before ++ b :: after)))
    {ts us : List Term} (h : List.Forall₂ Commuted ts us) : Commuted (node ts) (node us) := by
  suffices from_front : ∀ before, Commuted (node (before ++ ts)) (node (before ++ us)) from
    from_front []
  induction h with
  | nil => exact fun _ => .refl _
  | @cons t u ts us hhead _ ih =>
      intro before
      have htail := ih (before ++ [u])
      rw [List.append_assoc, List.append_assoc] at htail
      exact (hnode before ts hhead).trans htail

/-! ### Functions that are read off node by node -/

section

variable {α : Type} {f : Term → α}

/-- Terms with the same values of `f`, one by one. -/
abbrev AgreeBy (f : Term → α) (ts us : List Term) : Prop :=
  List.Forall₂ (fun t u => f t = f u) ts us

/-- Terms of one kind, the parts of which have the same values of `f`: in their order, or rearranged
where the order does not matter. -/
inductive NodeBy (f : Term → α) : Term → Term → Prop
  | sum (vars : VarSet) {a b : Term} (h : f a = f b) : NodeBy f (.sum vars a) (.sum vars b)
  | add {ts us vs : List Term} (h : AgreeBy f ts vs) (hperm : vs.Perm us) :
      NodeBy f (.add ts) (.add us)
  | mul {ts us vs : List Term} (h : AgreeBy f ts vs) (hperm : vs.Perm us) :
      NodeBy f (.mul ts) (.mul us)
  | neg {a b : Term} (h : f a = f b) : NodeBy f (.neg a) (.neg b)
  | squash {a b : Term} (h : f a = f b) : NodeBy f (.squash a) (.squash b)
  | symmetric {kind : Pred} {ts us vs : List Term} (hkind : kind.isSymmetric = true)
      (h : AgreeBy f ts vs) (hperm : vs.Perm us) : NodeBy f (.pred kind ts) (.pred kind us)
  | pred (kind : Pred) {ts us : List Term} (h : AgreeBy f ts us) :
      NodeBy f (.pred kind ts) (.pred kind us)
  | var (v : Var) : NodeBy f (.var v) (.var v)
  | const {p q : Fraction} (h : p.toRat = q.toRat) : NodeBy f (.const p) (.const q)
  | table (name : String) (v : Var) : NodeBy f (.table name v) (.table name v)
  | func (name : String) {ts us : List Term} (h : AgreeBy f ts us) :
      NodeBy f (.func name ts) (.func name us)
  | str (s : String) : NodeBy f (.str s) (.str s)

theorem agreeBy_refl (ts : List Term) : AgreeBy f ts ts :=
  List.forall₂_same.mpr fun _ _ => rfl

theorem agreeBy_of_eq {a b : Term} (h : f a = f b) (before after : List Term) :
    AgreeBy f (before ++ a :: after) (before ++ b :: after) :=
  List.rel_append (agreeBy_refl before) (.cons h (agreeBy_refl after))

/-- Terms that agree are commuted, if whatever agrees is of one kind with parts that agree. -/
theorem commuted_of_eq (hf : ∀ {t u : Term}, f t = f u → NodeBy f t u) {t u : Term}
    (h : f t = f u) : Commuted t u := by
  induction t using Term.induct_children generalizing u with
  | step t ih =>
      have lift : ∀ {us : List Term}, AgreeBy f t.children us →
          List.Forall₂ Commuted t.children us := fun hus =>
        ((List.forall₂_and_left _ _).mpr ⟨ih, hus⟩).imp fun _ _ h => h.1 h.2
      cases hf h with
      | sum vars hbody => exact .sum (fun _ => Iff.rfl) (ih _ List.mem_cons_self hbody)
      | neg hterm => exact .neg (ih _ List.mem_cons_self hterm)
      | squash hterm => exact .squash (ih _ List.mem_cons_self hterm)
      | add hts hperm => exact (Commuted.of_forall₂ .add (lift hts)).trans (.permuteAdd hperm)
      | mul hts hperm => exact (Commuted.of_forall₂ .mul (lift hts)).trans (.permuteMul hperm)
      | symmetric hkind hts hperm =>
          exact (Commuted.of_forall₂ (.pred _) (lift hts)).trans
            (.permutePred ((Pred.isSymmetric_iff _).mp hkind) hperm)
      | pred kind hts => exact Commuted.of_forall₂ (.pred kind) (lift hts)
      | func name hts => exact Commuted.of_forall₂ (.func name) (lift hts)
      | const hvalue => exact .const hvalue
      | var | table | str => exact .refl _

/-- Commuted terms agree, if terms of one kind with parts that agree do. -/
theorem Commuted.eq_of_nodeBy (hf : ∀ {t u : Term}, NodeBy f t u → f t = f u) {t u : Term}
    (h : Commuted t u) : f t = f u := by
  induction h with
  | refl => rfl
  | symm _ ih => exact ih.symm
  | trans _ _ ih ih' => exact ih.trans ih'
  | permuteAdd hperm => exact hf (.add (agreeBy_refl _) hperm)
  | permuteMul hperm => exact hf (.mul (agreeBy_refl _) hperm)
  | permutePred hkind hperm =>
      exact hf (.symmetric ((Pred.isSymmetric_iff _).mpr hkind) (agreeBy_refl _) hperm)
  | const hvalue => exact hf (.const hvalue)
  | sum hvars _ ih =>
      obtain rfl := VarSet.eq_of_mem_iff hvars
      exact hf (.sum _ ih)
  | add before after _ ih => exact hf (.add (agreeBy_of_eq ih before after) (.refl _))
  | mul before after _ ih => exact hf (.mul (agreeBy_of_eq ih before after) (.refl _))
  | neg _ ih => exact hf (.neg ih)
  | squash _ ih => exact hf (.squash ih)
  | pred kind before after _ ih => exact hf (.pred kind (agreeBy_of_eq ih before after))
  | func name before after _ ih => exact hf (.func name (agreeBy_of_eq ih before after))

/-- A function that is read off node by node identifies exactly the commuted terms. -/
theorem eq_iff_commuted (hf : ∀ t u : Term, f t = f u ↔ NodeBy f t u) (t u : Term) :
    f t = f u ↔ Commuted t u :=
  ⟨commuted_of_eq fun h => (hf _ _).mp h, Commuted.eq_of_nodeBy fun h => (hf _ _).mpr h⟩

/-- What agrees one by one up to a rearrangement is the same bag of values. -/
theorem AgreeBy.map_perm {ts us vs : List Term} (h : AgreeBy f ts vs) (hperm : vs.Perm us) :
    (ts.map f).Perm (us.map f) := by
  rw [forall₂_iff_map_eq.mp h]
  exact hperm.map f

end

/-! ### Keys -/

theorem SameNode.nodeBy {t u : Term} (h : SameNode t u) : NodeBy key t u := by
  cases h with
  | sum vars h => exact .sum vars h
  | add h hperm => exact .add h hperm
  | mul h hperm => exact .mul h hperm
  | neg h => exact .neg h
  | squash h => exact .squash h
  | symmetric hkind h hperm => exact .symmetric hkind h hperm
  | pred kind h => exact .pred kind h
  | var v => exact .var v
  | const h => exact .const h
  | table name v => exact .table name v
  | func name h => exact .func name h
  | str s => exact .str s

theorem NodeBy.key_eq {t u : Term} (h : NodeBy key t u) : t.key = u.key := by
  cases h with
  | sum vars h | neg h | squash h | const h => rw [key, key, h]
  | add h hperm | mul h hperm =>
      rw [key, key, keyList_eq, keyList_eq, Key.ofBag_perm (h.map_perm hperm)]
  | symmetric hkind h hperm =>
      rw [key, key, if_pos hkind, if_pos hkind, keyList_eq, keyList_eq,
        Key.ofBag_perm (h.map_perm hperm)]
  | pred kind h | func kind h => rw [key, key, keyList_eq, keyList_eq, keysEqual_iff.mp h]
  | var | table | str => rfl

/-- Terms have the same key exactly if they are commuted. -/
theorem key_eq_iff (t u : Term) : t.key = u.key ↔ Commuted t u :=
  eq_iff_commuted (fun _ _ => ⟨fun h => (sameNode_of_key_eq h).nodeBy, NodeBy.key_eq⟩) t u

theorem NodeBy.hasKey_eq {t u : Term} (h : NodeBy hasKey t u) : t.hasKey = u.hasKey := by
  have all_eq : ∀ {ts us vs : List Term}, AgreeBy hasKey ts vs → vs.Perm us →
      allKeyed ts = allKeyed us := by
    intro ts us vs h hperm
    have hall := (h.map_perm hperm).all_eq (f := id)
    rwa [List.all_map, List.all_map, Function.id_comp, ← allKeyed_eq, ← allKeyed_eq] at hall
  cases h with
  | sum vars h | neg h | squash h => exact h
  | add h hperm | mul h hperm | symmetric _ h hperm => exact all_eq h hperm
  | pred _ h | func _ h => exact all_eq h (.refl _)
  | const h => exact Fraction.expands_congr h
  | var | table | str => rfl

/-- Of commuted terms both have keys or neither. -/
theorem Commuted.expands_iff {t u : Term} (h : Commuted t u) : t.Expands ↔ u.Expands := by
  rw [← hasKey_iff, ← hasKey_iff, h.eq_of_nodeBy NodeBy.hasKey_eq]

end Term

end BagEquiv
