/-
**Keys can be read back.**

A key is written so that it is clear where each part of it ends: no key goes on where another one
ends.  So the key of a term tells its kind, and it tells the keys of its parts, in their order where
the order of the parts matters and up to a rearrangement where it does not.

Main definition:

* `Key.Readable` — what is written can be read back, whatever follows it.

Main result:

* `Term.sameNode_of_key_eq` — **terms with equal keys are of one kind, and their parts
  have equal keys**.
-/

import Mathlib.Data.List.Perm.Basic
import Mathlib.Data.List.Sort
import BagEquiv.Term.Key

set_option autoImplicit false

namespace BagEquiv

namespace Key

/-! ### What can be read back -/

/-- What is written can be read back, whatever follows it. -/
def Readable {α : Type} (f : α → Key) : Prop :=
  ∀ {a b : α} {r s : Key}, f a ++ r = f b ++ s → a = b ∧ r = s

/-- Neither key goes on where the other one ends. -/
def Apart (k l : Key) : Prop := ∀ r s : Key, k ++ r = l ++ s → k = l

theorem Readable.injective {α : Type} {f : α → Key} (h : Readable f) : Function.Injective f :=
  fun _ _ heq => (h (congrArg (· ++ []) heq)).1

theorem Readable.apart {α : Type} {f : α → Key} (h : Readable f) (a b : α) : Apart (f a) (f b) :=
  fun _ _ heq => congrArg f (h heq).1

theorem Apart.right_eq {k l r s : Key} (h : Apart k l) (heq : k ++ r = l ++ s) :
    k = l ∧ r = s := by
  obtain rfl := h r s heq
  exact ⟨rfl, List.append_cancel_left heq⟩

/-- Keys one behind another can be told apart, if there are equally many. -/
theorem eq_of_flatten_append {ks ls : List Key} (hlength : ks.length = ls.length)
    (hapart : ∀ k ∈ ks, ∀ l ∈ ls, Apart k l) {r s : Key}
    (h : ks.flatten ++ r = ls.flatten ++ s) : ks = ls ∧ r = s := by
  induction ks generalizing ls with
  | nil =>
      obtain rfl := List.length_eq_zero_iff.mp hlength.symm
      exact ⟨rfl, h⟩
  | cons k ks ih =>
      cases ls with
      | nil => cases hlength
      | cons l ls =>
          simp only [List.flatten_cons, List.append_assoc] at h
          obtain ⟨rfl, htail⟩ :=
            (hapart k List.mem_cons_self l List.mem_cons_self).right_eq h
          obtain ⟨rfl, rfl⟩ := ih (Nat.succ.inj hlength)
            (fun k hk l hl => hapart k (List.mem_cons_of_mem _ hk) l (List.mem_cons_of_mem _ hl))
            htail
          exact ⟨rfl, rfl⟩

/-! ### Names, variables, numbers and predicates -/

theorem readable_ofString : Readable ofString := by
  intro a b r s h
  obtain ⟨hlength, h⟩ := List.cons.inj h
  obtain ⟨hchars, rfl⟩ := List.append_inj h (by simpa [String.length_toList] using hlength)
  have hinjective : Function.Injective Char.toNat :=
    fun c d hcd => Char.ext (UInt32.toNat_inj.mp hcd)
  exact ⟨String.toList_inj.mp (List.map_injective_iff.mpr hinjective hchars), rfl⟩

theorem readable_ofVar : Readable ofVar := by
  intro a b r s h
  match a, b with
  | .base a, .base b =>
      obtain ⟨rfl, rfl⟩ := readable_ofString (List.cons.inj h).2
      exact ⟨rfl, rfl⟩
  | .proj a x, .proj b y =>
      simp only [ofVar, List.cons_append, List.append_assoc, List.cons.injEq, true_and] at h
      obtain ⟨rfl, htuple⟩ := readable_ofString h
      obtain ⟨rfl, rfl⟩ := readable_ofString htuple
      exact ⟨rfl, rfl⟩
  | .base _, .proj _ _ | .proj _ _, .base _ => cases (List.cons.inj h).1

theorem readable_ofVarSet : Readable ofVarSet := by
  intro a b r s h
  obtain ⟨hlength, h⟩ := List.cons.inj h
  rw [List.flatMap_def, List.flatMap_def] at h
  obtain ⟨hvars, rfl⟩ := eq_of_flatten_append (by simpa [VarSet.size] using hlength) (by
    intro k hk l hl
    obtain ⟨v, _, rfl⟩ := List.mem_map.mp hk
    obtain ⟨w, _, rfl⟩ := List.mem_map.mp hl
    exact readable_ofVar.apart v w) h
  refine ⟨?_, rfl⟩
  have := List.map_injective_iff.mpr readable_ofVar.injective hvars
  cases a
  cases b
  cases this
  rfl

theorem readable_ofRat : Readable ofRat := by
  intro a b r s h
  simp only [ofRat, List.cons_append, List.nil_append, List.cons.injEq] at h
  obtain ⟨hsign, habs, hden, rfl⟩ := h
  refine ⟨Rat.ext ?_ hden, rfl⟩
  split at hsign <;> split at hsign <;> omega

theorem readable_ofPred : Readable ofPred := by
  intro a b r s h
  cases a <;> cases b <;> obtain ⟨htag, h⟩ := List.cons.inj h
  all_goals first
    | exact absurd htag (by decide)
    | exact ⟨rfl, h⟩
    | skip
  obtain ⟨rfl, rfl⟩ := readable_ofString h
  exact ⟨rfl, rfl⟩

/-! ### Lists and bags -/

/-- A list of keys can be read back. -/
theorem eq_of_ofList_append {ks ls : List Key} (hapart : ∀ k ∈ ks, ∀ l ∈ ls, Apart k l)
    {r s : Key} (h : ofList ks ++ r = ofList ls ++ s) : ks = ls ∧ r = s := by
  obtain ⟨hlength, h⟩ := List.cons.inj h
  exact eq_of_flatten_append hlength hapart h

theorem le_cons {m n : ℕ} {k l : Key} :
    le (m :: k) (n :: l) = true ↔ m < n ∨ m = n ∧ le k l = true := by
  rw [le]
  split
  · next heq => simp [heq]
  · next hne => simp [hne]

theorem le_trans {k l r : Key} (h : le k l = true) (h' : le l r = true) : le k r = true := by
  induction k generalizing l r with
  | nil => rfl
  | cons m k ih =>
      cases l with
      | nil => cases h
      | cons n l =>
          cases r with
          | nil => cases h'
          | cons i r =>
              rw [le_cons] at h h' ⊢
              rcases h with h | ⟨rfl, h⟩
              · exact .inl (by omega)
              · exact h'.imp_right fun h' => ⟨h'.1, ih h h'.2⟩

theorem le_total (k l : Key) : le k l = true ∨ le l k = true := by
  induction k generalizing l with
  | nil => exact .inl rfl
  | cons m k ih =>
      cases l with
      | nil => exact .inr rfl
      | cons n l =>
          rw [le_cons, le_cons]
          rcases Nat.lt_trichotomy m n with h | rfl | h
          · exact .inl (.inl h)
          · exact (ih l).imp (fun h => .inr ⟨rfl, h⟩) fun h => .inr ⟨rfl, h⟩
          · exact .inr (.inl h)

theorem le_antisymm {k l : Key} (h : le k l = true) (h' : le l k = true) : k = l := by
  induction k generalizing l with
  | nil =>
      cases l with
      | nil => rfl
      | cons => cases h'
  | cons m k ih =>
      cases l with
      | nil => cases h
      | cons n l =>
          rw [le_cons] at h h'
          obtain ⟨rfl, hkl, hlk⟩ : m = n ∧ le k l = true ∧ le l k = true := by
            rcases h with h | ⟨rfl, h⟩
            · omega
            · exact ⟨rfl, h, h'.elim (fun h' => absurd h' (Nat.lt_irrefl _)) And.right⟩
          rw [ih hkl hlk]

/-- The keys of a bag are put in order one by one. -/
theorem ofBag_eq (ks : List Key) :
    ofBag ks = ofList (ks.insertionSort fun k l => le k l = true) := by
  have hplace : place = List.orderedInsert fun k l => le k l = true := by
    funext k ls
    induction ls with
    | nil => rfl
    | cons l ls ih => rw [place, List.orderedInsert_cons, ih]
  rw [ofBag, hplace, List.insertionSort]

/-- A bag of keys does not depend on the order of the keys. -/
theorem ofBag_perm {ks ls : List Key} (h : ks.Perm ls) : ofBag ks = ofBag ls := by
  have htotal : Std.Total fun k l => le k l = true := ⟨le_total⟩
  have htrans : IsTrans Key fun k l => le k l = true := ⟨fun _ _ _ => le_trans⟩
  have hperm := (ks.perm_insertionSort (le · · = true)).trans
    (h.trans (ls.perm_insertionSort (le · · = true)).symm)
  rw [ofBag_eq, ofBag_eq, hperm.eq_of_pairwise (fun _ _ _ _ => le_antisymm)
    (ks.pairwise_insertionSort _) (ls.pairwise_insertionSort _)]

/-- A bag of keys can be read back, up to the order of the keys. -/
theorem perm_of_ofBag_append {ks ls : List Key} (hapart : ∀ k ∈ ks, ∀ l ∈ ls, Apart k l)
    {r s : Key} (h : ofBag ks ++ r = ofBag ls ++ s) : ks.Perm ls ∧ r = s := by
  rw [ofBag_eq, ofBag_eq] at h
  obtain ⟨heq, rfl⟩ := eq_of_ofList_append (by simpa using hapart) h
  exact ⟨(ks.perm_insertionSort _).symm.trans (heq ▸ ls.perm_insertionSort _), rfl⟩

end Key

/-- A list that has the values of some members in another order is the values of these members in
that order. -/
theorem exists_map_eq_of_perm {α β : Type} {f : α → β} {ys : List β} {xs : List α}
    (h : ys.Perm (xs.map f)) : ∃ zs : List α, zs.map f = ys ∧ zs.Perm xs := by
  have hown : List.Forall₂ (fun y x => y = f x) (xs.map f) xs := by
    rw [List.forall₂_map_left_iff, List.forall₂_same]
    exact fun _ _ => rfl
  obtain ⟨zs, hzs, hperm⟩ := List.perm_comp_forall₂ h hown
  refine ⟨zs, ?_, hperm⟩
  rw [← List.forall₂_eq_eq_eq, List.forall₂_map_left_iff]
  exact hzs.flip.imp fun _ _ => Eq.symm

namespace Term

/-! ### Parts of a term -/

/-- Terms that have equal keys one by one. -/
def KeysEqual (ts us : List Term) : Prop := List.Forall₂ (fun t u => t.key = u.key) ts us

section

variable {α : Type} {f : Term → α} {ts us : List Term}

theorem forall₂_iff_map_eq :
    List.Forall₂ (fun t u => f t = f u) ts us ↔ ts.map f = us.map f := by
  rw [← List.forall₂_eq_eq_eq, List.forall₂_map_left_iff, List.forall₂_map_right_iff]

/-- Terms with the same bag of values agree one by one when they are rearranged. -/
theorem exists_forall₂_of_map_perm (h : (ts.map f).Perm (us.map f)) :
    ∃ vs, List.Forall₂ (fun t u => f t = f u) ts vs ∧ vs.Perm us := by
  obtain ⟨vs, hvs, hperm⟩ := exists_map_eq_of_perm h
  exact ⟨vs, forall₂_iff_map_eq.mpr hvs.symm, hperm⟩

end

theorem keysEqual_iff {ts us : List Term} : KeysEqual ts us ↔ ts.map key = us.map key :=
  forall₂_iff_map_eq

/-- Terms of one kind, the parts of which have equal keys: in their order, or rearranged where the
order does not matter. -/
inductive SameNode : Term → Term → Prop
  | sum (vars : VarSet) {a b : Term} (h : a.key = b.key) : SameNode (.sum vars a) (.sum vars b)
  | add {ts us vs : List Term} (h : KeysEqual ts vs) (hperm : vs.Perm us) :
      SameNode (.add ts) (.add us)
  | mul {ts us vs : List Term} (h : KeysEqual ts vs) (hperm : vs.Perm us) :
      SameNode (.mul ts) (.mul us)
  | neg {a b : Term} (h : a.key = b.key) : SameNode (.neg a) (.neg b)
  | squash {a b : Term} (h : a.key = b.key) : SameNode (.squash a) (.squash b)
  | symmetric {kind : Pred} {ts us vs : List Term} (hkind : kind.isSymmetric = true)
      (h : KeysEqual ts vs) (hperm : vs.Perm us) : SameNode (.pred kind ts) (.pred kind us)
  | pred (kind : Pred) {ts us : List Term} (h : KeysEqual ts us) :
      SameNode (.pred kind ts) (.pred kind us)
  | var (v : Var) : SameNode (.var v) (.var v)
  | const {p q : Fraction} (h : p.toRat = q.toRat) : SameNode (.const p) (.const q)
  | table (name : String) (v : Var) : SameNode (.table name v) (.table name v)
  | func (name : String) {ts us : List Term} (h : KeysEqual ts us) :
      SameNode (.func name ts) (.func name us)
  | str (s : String) : SameNode (.str s) (.str s)

/-- The key of the term can be told apart from every other one, whatever follows. -/
def Delimited (t : Term) : Prop := ∀ u : Term, Key.Apart t.key u.key

theorem Delimited.apart_map {ts us : List Term} (h : ∀ t ∈ ts, t.Delimited) :
    ∀ k ∈ ts.map key, ∀ l ∈ us.map key, Key.Apart k l := by
  intro k hk l hl
  obtain ⟨t, ht, rfl⟩ := List.mem_map.mp hk
  obtain ⟨u, _, rfl⟩ := List.mem_map.mp hl
  exact h t ht u

theorem keysEqual_of_append {ts us : List Term} (hts : ∀ t ∈ ts, t.Delimited) {r s : Key}
    (h : Key.ofList (keyList ts) ++ r = Key.ofList (keyList us) ++ s) :
    KeysEqual ts us ∧ r = s := by
  rw [keyList_eq, keyList_eq] at h
  obtain ⟨hkeys, hrest⟩ := Key.eq_of_ofList_append (Delimited.apart_map hts) h
  exact ⟨keysEqual_iff.mpr hkeys, hrest⟩

theorem exists_keysEqual_of_append {ts us : List Term} (hts : ∀ t ∈ ts, t.Delimited) {r s : Key}
    (h : Key.ofBag (keyList ts) ++ r = Key.ofBag (keyList us) ++ s) :
    (∃ vs, KeysEqual ts vs ∧ vs.Perm us) ∧ r = s := by
  rw [keyList_eq, keyList_eq] at h
  obtain ⟨hkeys, hrest⟩ := Key.perm_of_ofBag_append (Delimited.apart_map hts) h
  exact ⟨exists_forall₂_of_map_perm hkeys, hrest⟩

/-- The kind of a term can be read off its key, and so can the keys of its parts. -/
theorem sameNode_of_append {t u : Term} (hparts : ∀ c ∈ t.children, c.Delimited) {r s : Key}
    (h : t.key ++ r = u.key ++ s) : SameNode t u ∧ r = s := by
  cases t <;> cases u <;>
    simp only [key, List.cons_append, List.append_assoc, List.cons.injEq, true_and, false_and,
      Nat.reduceEqDiff, reduceCtorEq] at h
  case sum.sum vars a vars' b =>
    obtain ⟨rfl, hbody⟩ := Key.readable_ofVarSet h
    obtain ⟨hkey, rfl⟩ := (hparts a List.mem_cons_self b).right_eq hbody
    exact ⟨.sum vars hkey, rfl⟩
  case add.add ts us =>
    obtain ⟨⟨vs, hkeys, hperm⟩, rfl⟩ := exists_keysEqual_of_append hparts h
    exact ⟨.add hkeys hperm, rfl⟩
  case mul.mul ts us =>
    obtain ⟨⟨vs, hkeys, hperm⟩, rfl⟩ := exists_keysEqual_of_append hparts h
    exact ⟨.mul hkeys hperm, rfl⟩
  case neg.neg a b =>
    obtain ⟨hkey, rfl⟩ := (hparts a List.mem_cons_self b).right_eq h
    exact ⟨.neg hkey, rfl⟩
  case squash.squash a b =>
    obtain ⟨hkey, rfl⟩ := (hparts a List.mem_cons_self b).right_eq h
    exact ⟨.squash hkey, rfl⟩
  case pred.pred kind ts kind' us =>
    obtain ⟨rfl, hargs⟩ := Key.readable_ofPred h
    split at hargs
    · next hkind =>
        obtain ⟨⟨vs, hkeys, hperm⟩, rfl⟩ := exists_keysEqual_of_append hparts hargs
        exact ⟨.symmetric hkind hkeys hperm, rfl⟩
    · obtain ⟨hkeys, rfl⟩ := keysEqual_of_append hparts hargs
      exact ⟨.pred kind hkeys, rfl⟩
  case var.var v w =>
    obtain ⟨rfl, rfl⟩ := Key.readable_ofVar h
    exact ⟨.var v, rfl⟩
  case const.const p q =>
    obtain ⟨hvalue, rfl⟩ := Key.readable_ofRat h
    exact ⟨.const hvalue, rfl⟩
  case table.table name v name' w =>
    obtain ⟨rfl, hvar⟩ := Key.readable_ofString h
    obtain ⟨rfl, rfl⟩ := Key.readable_ofVar hvar
    exact ⟨.table name v, rfl⟩
  case func.func name ts name' us =>
    obtain ⟨rfl, hargs⟩ := Key.readable_ofString h
    obtain ⟨hkeys, rfl⟩ := keysEqual_of_append hparts hargs
    exact ⟨.func name hkeys, rfl⟩
  case str.str text text' =>
    obtain ⟨rfl, rfl⟩ := Key.readable_ofString h
    exact ⟨.str text, rfl⟩

/-- The key of a term shows where it ends. -/
theorem delimited (t : Term) : t.Delimited := by
  induction t using Term.induct_children with
  | step t hparts =>
      intro u r s h
      obtain ⟨_, rfl⟩ := sameNode_of_append hparts h
      exact List.append_cancel_right h

/-- Terms with equal keys are of one kind, and their parts have equal keys. -/
theorem sameNode_of_key_eq {t u : Term} (h : t.key = u.key) : SameNode t u :=
  (sameNode_of_append (fun c _ => delimited c) (congrArg (· ++ []) h)).1

end Term

end BagEquiv
