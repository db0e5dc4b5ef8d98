/-
**Bags as multisets.**

The entries of a bag that is built from lists, insertions and unions name each item once, with a
count that is not zero, so a bag stands for a multiset of items.  In these terms the size of a bag
is the number of items, what two bags share is the intersection, and their distance is the number
of items that only one of them has, which makes it a metric.  It is computed from the sum of the
sizes, which may overflow although the bags, and the distance, are small enough.

Main definition:

* `Bag.toMultiset` — the items of a bag, each as often as it occurs.

Main results:

* `Bag.distance_eq` — **the distance counts the items that only one of two bags has**;
* `Bag.multiset_laws_of_built` — **bags behave as multisets**.
-/

import Mathlib.Algebra.BigOperators.Finprod
import Mathlib.Algebra.BigOperators.Group.Finset.Basic
import Mathlib.Algebra.Order.Group.Multiset
import Mathlib.Algebra.Order.Sub.Basic
import Mathlib.Data.Multiset.OrderedMonoid
import Mathlib.Data.Nat.Dist
import BagEquiv.Bag

set_option autoImplicit false

namespace BagEquiv.Bag

variable {α : Type} [DecidableEq α]

/-! ### The items of a bag -/

/-- The items of a bag, each as often as it occurs. -/
def toMultiset (b : Bag α) : Multiset α :=
  (b.entries.map fun e => Multiset.replicate e.2 e.1).sum

/-- Each item has one entry. -/
def Distinct (b : Bag α) : Prop := (b.entries.map Prod.fst).Nodup

omit [DecidableEq α] in
theorem Distinct.of_cons {e : α × ℕ} {es : List (α × ℕ)} (h : Distinct ⟨e :: es⟩) :
    Distinct ⟨es⟩ := List.Nodup.of_cons h

omit [DecidableEq α] in
@[simp] theorem toMultiset_nil : (⟨[]⟩ : Bag α).toMultiset = 0 := rfl

omit [DecidableEq α] in
@[simp] theorem toMultiset_cons (e : α × ℕ) (es : List (α × ℕ)) :
    (⟨e :: es⟩ : Bag α).toMultiset =
      Multiset.replicate e.2 e.1 + (⟨es⟩ : Bag α).toMultiset := by
  simp [toMultiset]

theorem toMultiset_bump (x : α) (n : ℕ) (es : List (α × ℕ)) :
    (⟨bump x n es⟩ : Bag α).toMultiset = (⟨es⟩ : Bag α).toMultiset + Multiset.replicate n x := by
  induction es with
  | nil => simp [bump]
  | cons e es ih =>
      obtain ⟨y, m⟩ := e
      unfold bump
      split
      · next heq =>
          rw [toMultiset_cons, toMultiset_cons, heq, Multiset.replicate_add, add_right_comm]
      · rw [toMultiset_cons, toMultiset_cons, ih, add_assoc]

theorem toMultiset_insert (b : Bag α) (x : α) :
    (b.insert x).toMultiset = b.toMultiset + {x} := by
  rw [insert, toMultiset_bump, Multiset.replicate_one]

/-- The bag of a list has the members of the list. -/
theorem toMultiset_ofList (xs : List α) : (ofList xs).toMultiset = xs := by
  suffices from_start : ∀ b : Bag α, (xs.foldl insert b).toMultiset = b.toMultiset + xs by
    exact (from_start empty).trans (zero_add _)
  induction xs with
  | nil => simp
  | cons x xs ih =>
      intro b
      rw [List.foldl_cons, ih, toMultiset_insert, ← Multiset.cons_coe, add_assoc,
        Multiset.singleton_add]

theorem mem_bump {x y : α} {n : ℕ} {es : List (α × ℕ)} :
    y ∈ (bump x n es).map Prod.fst ↔ y = x ∨ y ∈ es.map Prod.fst := by
  induction es with
  | nil => simp [bump]
  | cons e es ih =>
      unfold bump
      split
      · next heq => simp [heq]
      · rw [List.map_cons, List.map_cons, List.mem_cons, List.mem_cons, ih, or_left_comm]

theorem Distinct.bump {es : List (α × ℕ)} (h : Distinct ⟨es⟩) (x : α) (n : ℕ) :
    Distinct ⟨bump x n es⟩ := by
  unfold Distinct at *
  induction es with
  | nil => simp [Bag.bump]
  | cons e es ih =>
      rw [List.map_cons, List.nodup_cons] at h
      unfold Bag.bump
      split
      · exact List.nodup_cons.mpr h
      · next hne =>
          rw [List.map_cons, List.nodup_cons, mem_bump, not_or]
          exact ⟨⟨hne, h.1⟩, ih h.2⟩

/-- Each item has one entry, and no count is zero. -/
structure Tidy (b : Bag α) : Prop where
  distinct : b.Distinct
  pos : ∀ e ∈ b.entries, 0 < e.2

theorem Tidy.bump {b : Bag α} (h : b.Tidy) (x : α) {n : ℕ} (hn : 0 < n) :
    Tidy ⟨bump x n b.entries⟩ := by
  refine ⟨h.distinct.bump x n, ?_⟩
  have hpos := h.pos
  obtain ⟨es⟩ := b
  induction es with
  | nil => exact List.forall_mem_singleton.mpr hn
  | cons e es ih =>
      rw [List.forall_mem_cons] at hpos
      unfold Bag.bump
      split
      · exact List.forall_mem_cons.mpr ⟨Nat.add_pos_left hpos.1 n, hpos.2⟩
      · exact List.forall_mem_cons.mpr ⟨hpos.1, ih ⟨h.distinct.of_cons, hpos.2⟩ hpos.2⟩

theorem tidy_ofList (xs : List α) : (ofList xs).Tidy := by
  suffices from_start : ∀ b : Bag α, b.Tidy → (xs.foldl insert b).Tidy from
    from_start empty ⟨List.nodup_nil, by simp [empty]⟩
  induction xs with
  | nil => exact fun _ hb => hb
  | cons x xs ih => exact fun b hb => ih _ (hb.bump x Nat.one_pos)

/-- The bag of a list names each item once. -/
theorem distinct_ofList (xs : List α) : (ofList xs).Distinct := (tidy_ofList xs).distinct

/-- A union has the items of both bags. -/
theorem union_ok {a b : Bag α} (ha : a.Tidy) (hb : b.Tidy) :
    (a.union b).Tidy ∧ (a.union b).toMultiset = a.toMultiset + b.toMultiset := by
  have hpos := hb.pos
  obtain ⟨es⟩ := b
  unfold union
  induction es generalizing a with
  | nil => exact ⟨ha, (add_zero _).symm⟩
  | cons e es ih =>
      rw [List.forall_mem_cons] at hpos
      obtain ⟨htidy, hitems⟩ := ih (ha.bump e.1 hpos.1) ⟨hb.distinct.of_cons, hpos.2⟩ hpos.2
      refine ⟨htidy, hitems.trans ?_⟩
      rw [toMultiset_bump, toMultiset_cons, add_assoc]

/-! ### Counting -/

omit [DecidableEq α] in
theorem card_toMultiset (b : Bag α) : b.toMultiset.card = b.size := by
  obtain ⟨es⟩ := b
  induction es with
  | nil => rfl
  | cons e es ih =>
      rw [toMultiset_cons, Multiset.card_add, Multiset.card_replicate, ih]
      simp [size]

omit [DecidableEq α] in
theorem mem_of_mem_toMultiset {b : Bag α} {x : α} (h : x ∈ b.toMultiset) :
    x ∈ b.entries.map Prod.fst := by
  obtain ⟨es⟩ := b
  induction es with
  | nil => simp at h
  | cons e es ih =>
      rw [toMultiset_cons, Multiset.mem_add] at h
      rw [List.map_cons, List.mem_cons]
      exact h.imp Multiset.eq_of_mem_replicate ih

/-- The count that an entry gives is how often its item occurs. -/
theorem Distinct.count_of_mem {b : Bag α} (h : b.Distinct) {e : α × ℕ} (he : e ∈ b.entries) :
    b.toMultiset.count e.1 = e.2 := by
  obtain ⟨es⟩ := b
  unfold Distinct at h
  induction es with
  | nil => simp at he
  | cons f es ih =>
      rw [List.map_cons, List.nodup_cons] at h
      rw [toMultiset_cons, Multiset.count_add, Multiset.count_replicate]
      rcases List.mem_cons.mp he with rfl | he
      · have hrest : e.1 ∉ toMultiset ⟨es⟩ := fun hmem => h.1 (mem_of_mem_toMultiset hmem)
        rw [if_pos rfl, Multiset.count_eq_zero_of_notMem hrest, add_zero]
      · have hne : f.1 ≠ e.1 := fun heq => h.1 (heq ▸ List.mem_map_of_mem he)
        rw [if_neg hne, zero_add, ih h.2 he]

theorem Distinct.count_eq {b : Bag α} (h : b.Distinct) (x : α) :
    b.count x = b.toMultiset.count x := by
  have hcount : ∀ es : List (α × ℕ), (∃ e ∈ es, e.1 = x ∧ countIn x es = e.2) ∨
      x ∉ es.map Prod.fst ∧ countIn x es = 0 := by
    intro es
    induction es with
    | nil => exact .inr ⟨by simp, rfl⟩
    | cons e es ih =>
        by_cases heq : e.1 = x
        · exact .inl ⟨e, List.mem_cons_self, heq, by simp [countIn, heq]⟩
        · simpa [countIn, heq, Ne.symm heq] using ih
  rw [count]
  rcases hcount b.entries with ⟨e, he, rfl, hcount⟩ | ⟨hnone, hcount⟩
  · rw [hcount, h.count_of_mem he]
  · rw [hcount, Multiset.count_eq_zero_of_notMem fun hmem => hnone (mem_of_mem_toMultiset hmem)]

/-- Two bags share the intersection. -/
theorem Distinct.common_eq {a b : Bag α} (ha : a.Distinct) (hb : b.Distinct) :
    a.common b = (a.toMultiset ∩ b.toMultiset).card := by
  have hitems : ∀ x ∈ a.toMultiset ∩ b.toMultiset, x ∈ (a.entries.map Prod.fst).toFinset :=
    fun x hx => List.mem_toFinset.mpr (mem_of_mem_toMultiset (Multiset.mem_inter.mp hx).1)
  rw [← Multiset.sum_count_eq_card hitems, List.sum_toFinset _ ha, List.map_map, common]
  refine congrArg List.sum (List.map_congr_left fun e he => ?_)
  rw [Function.comp_apply, Multiset.count_inter, ha.count_of_mem he, hb.count_eq]

/-! ### Distance -/

section

variable {a b c : Bag α} (ha : a.Distinct) (hb : b.Distinct) (hc : c.Distinct)

include ha hb

/-- The distance counts the items that only one of two bags has. -/
theorem distance_eq :
    a.distance b =
      (a.toMultiset - b.toMultiset).card + (b.toMultiset - a.toMultiset).card := by
  have hleft := congrArg Multiset.card (Multiset.sub_add_inter a.toMultiset b.toMultiset)
  have hright := congrArg Multiset.card (Multiset.sub_add_inter b.toMultiset a.toMultiset)
  rw [Multiset.card_add] at hleft hright
  rw [Multiset.inter_comm] at hright
  rw [distance, ha.common_eq hb, ← card_toMultiset, ← card_toMultiset]
  omega

theorem distance_comm : a.distance b = b.distance a := by
  rw [distance_eq ha hb, distance_eq hb ha, add_comm]

theorem distance_eq_zero_iff : a.distance b = 0 ↔ a.toMultiset = b.toMultiset := by
  rw [distance_eq ha hb, Nat.add_eq_zero_iff, Multiset.card_eq_zero, Multiset.card_eq_zero,
    tsub_eq_zero_iff_le, tsub_eq_zero_iff_le, le_antisymm_iff]

include hc

theorem distance_triangle : a.distance c ≤ a.distance b + b.distance c := by
  have hforth := Multiset.card_le_card
    (tsub_le_tsub_add_tsub (a := a.toMultiset) (b := b.toMultiset) (c := c.toMultiset))
  have hback := Multiset.card_le_card
    (tsub_le_tsub_add_tsub (a := c.toMultiset) (b := b.toMultiset) (c := a.toMultiset))
  rw [Multiset.card_add] at hforth hback
  rw [distance_eq ha hc, distance_eq ha hb, distance_eq hb hc]
  omega

end

/-! ### Bags that are built -/

/-- The bag is built of the items by operations that do not overflow. -/
inductive Built : Bag α → Multiset α → Prop
  | empty : Built empty 0
  | insert {b c : Bag α} {B : Multiset α} (x : α) :
    Built b B → Checked.insert b x = .ok c → Built c (B + {x})
  | ofList (xs : List α) : Built (ofList xs) xs
  | union {a b c : Bag α} {A B : Multiset α} :
    Built a A → Built b B → Checked.union a b = .ok c → Built c (A + B)

omit [DecidableEq α] in
theorem eq_of_narrowAll {b c : Bag α} (h : Checked.narrowAll b = .ok c) : b = c := by
  unfold Checked.narrowAll at h
  split at h
  · exact Except.ok.inj h
  · cases h

theorem Built.ok {b : Bag α} {B : Multiset α} (h : b.Built B) : b.Tidy ∧ b.toMultiset = B := by
  induction h with
  | empty => exact ⟨tidy_ofList [], rfl⟩
  | insert x _ hc ih =>
      rw [← eq_of_narrowAll hc, toMultiset_insert, ih.2]
      exact ⟨ih.1.bump x Nat.one_pos, rfl⟩
  | ofList xs => exact ⟨tidy_ofList xs, toMultiset_ofList xs⟩
  | union _ _ hc iha ihb =>
      obtain ⟨htidy, hitems⟩ := union_ok iha.1 ihb.1
      rw [← eq_of_narrowAll hc, hitems, iha.2, ihb.2]
      exact ⟨htidy, rfl⟩

theorem Tidy.mem_entries {b : Bag α} (h : b.Tidy) {e : α × ℕ} :
    e ∈ b.entries ↔ 0 < e.2 ∧ b.toMultiset.count e.1 = e.2 := by
  refine ⟨fun he => ⟨h.pos e he, h.distinct.count_of_mem he⟩, fun ⟨hpos, hcount⟩ => ?_⟩
  rw [← hcount, Multiset.count_pos] at hpos
  obtain ⟨f, hf, hfst⟩ := List.mem_map.mp (mem_of_mem_toMultiset hpos)
  have hsnd := h.distinct.count_of_mem hf
  rwa [← Prod.ext hfst (by rw [← hsnd, hfst, hcount])]

/-- Equal bags have the same items: then the entries are the same, in any order. -/
theorem Tidy.equal_iff {a b : Bag α} (ha : a.Tidy) (hb : b.Tidy) :
    a.equal b = true ↔ a.toMultiset = b.toMultiset := by
  have hsub : (a.entries.all fun e => b.entries.any fun f => e.1 = f.1 && e.2 = f.2) = true ↔
      a.entries ⊆ b.entries := by
    simp [List.subset_def, ← Prod.mk.injEq]
  rw [equal, Bool.and_eq_true, beq_iff_eq, hsub]
  constructor
  · rintro ⟨hlength, hsub⟩
    have hperm := (List.subperm_of_subset ha.distinct.of_map hsub).perm_of_length_le hlength.ge
    exact (hperm.map _).sum_eq
  · intro heq
    have hmem : ∀ e, e ∈ a.entries ↔ e ∈ b.entries := fun e => by
      rw [ha.mem_entries, hb.mem_entries, heq]
    have hperm := (List.perm_ext_iff_of_nodup ha.distinct.of_map hb.distinct.of_map).mpr hmem
    exact ⟨hperm.length_eq, hperm.subset⟩

omit [DecidableEq α] in
theorem Tidy.isEmpty_iff {b : Bag α} (h : b.Tidy) : b.isEmpty = true ↔ b.size = 0 := by
  rw [isEmpty, List.isEmpty_iff]
  refine ⟨fun hnil => by rw [size, hnil]; rfl, fun hsize => ?_⟩
  rw [List.eq_nil_iff_forall_not_mem]
  intro e he
  have hle := List.le_sum_of_mem (List.mem_map_of_mem (f := Prod.snd) he)
  exact (h.pos e he).not_ge (hle.trans_eq hsize)

theorem Distinct.two_mul_common_le {a b : Bag α} (ha : a.Distinct) (hb : b.Distinct) :
    2 * a.common b ≤ a.size + b.size := by
  have hleft : (a.toMultiset ∩ b.toMultiset).card ≤ _ := Multiset.card_le_card inf_le_left
  have hright : (a.toMultiset ∩ b.toMultiset).card ≤ _ := Multiset.card_le_card inf_le_right
  rw [← ha.common_eq hb, card_toMultiset] at hleft hright
  omega

/-- What is subtracted overflows only if what it is subtracted from does. -/
theorem Distinct.checked_distance {a b : Bag α} (ha : a.Distinct) (hb : b.Distinct) :
    Checked.distance a b =
      if a.size + b.size < 2 ^ 64 then .ok (a.distance b) else .error .overflow := by
  unfold Checked.distance Checked.narrow
  by_cases h : a.size + b.size < 2 ^ 64
  · simp only [if_pos h, if_pos ((ha.two_mul_common_le hb).trans_lt h)]
    rfl
  · simp only [if_neg h]
    rfl

theorem card_eq_finsum (M : Multiset α) : M.card = ∑ᶠ x, M.count x := by
  rw [← Multiset.toFinset_sum_count_eq]
  refine (finsum_eq_sum_of_support_subset _ fun x hx => ?_).symm
  rw [Finset.mem_coe, Multiset.mem_toFinset, ← Multiset.count_ne_zero]
  exact hx

/-- Bags behave as multisets: they have the items that they are built of, and no count is zero;
they are equal if the counts are; the size is the sum of the counts, and the distance that of their
differences, which is a metric and overflows only if the sum of the sizes does. -/
theorem multiset_laws_of_built {a b c : Bag α} {A B C : Multiset α} (hA : a.Built A)
    (hB : b.Built B) (hC : c.Built C) :
    (∀ x, a.count x = A.count x) ∧ (∀ e ∈ a.entries, e.2 ≠ 0) ∧
    (a.equal b = true ↔ ∀ x, a.count x = b.count x) ∧
    a.size = ∑ᶠ x, a.count x ∧ (a.isEmpty = true ↔ a.size = 0) ∧
    Checked.size a = (if a.size < 2 ^ 64 then .ok a.size else .error .overflow) ∧
    2 * a.common b ≤ a.size + b.size ∧
    a.distance b = ∑ᶠ x, Nat.dist (a.count x) (b.count x) ∧
    Checked.distance a b =
      (if a.size + b.size < 2 ^ 64 then .ok (a.distance b) else .error .overflow) ∧
    (a.distance b = 0 ↔ a.equal b = true) ∧ a.distance b = b.distance a ∧
    a.distance c ≤ a.distance b + b.distance c := by
  obtain ⟨ha, rfl⟩ := hA.ok
  obtain ⟨hb, rfl⟩ := hB.ok
  obtain ⟨hc, rfl⟩ := hC.ok
  refine ⟨ha.distinct.count_eq, fun e he => (ha.pos e he).ne', ?_, ?_, ha.isEmpty_iff, rfl,
    ha.distinct.two_mul_common_le hb.distinct, ?_, ha.distinct.checked_distance hb.distinct, ?_,
    distance_comm ha.distinct hb.distinct,
    distance_triangle ha.distinct hb.distinct hc.distinct⟩
  · simp only [ha.equal_iff hb, ha.distinct.count_eq, hb.distinct.count_eq, Multiset.ext]
  · simp only [ha.distinct.count_eq, ← card_eq_finsum, card_toMultiset]
  · rw [distance_eq ha.distinct hb.distinct, ← Multiset.card_add, card_eq_finsum]
    refine finsum_congr fun x => ?_
    rw [Multiset.count_add, Multiset.count_sub, Multiset.count_sub, ha.distinct.count_eq,
      hb.distinct.count_eq, Nat.dist]
  · rw [distance_eq_zero_iff ha.distinct hb.distinct, ha.equal_iff hb]

/-- One bag is inserted into, one is the union of two, and one is made of a list. -/
theorem multiset_laws_of_insert_union :
    Checked.insert (ofList [1, 1, 2]) 3 = .ok (ofList [1, 1, 2, 3]) ∧
    Checked.union (ofList [1, 2]) (ofList [2]) = .ok (ofList [1, 2, 2]) ∧
    (ofList [1, 1, 2, 3]).distance (ofList [1, 2, 2]) =
      ∑ᶠ x, Nat.dist ((ofList [1, 1, 2, 3]).count x) ((ofList [1, 2, 2]).count x) ∧
    (ofList [1, 1, 2, 3]).distance (ofList [1, 2, 2]) = 3 := by
  have hinsert : Checked.insert (ofList [1, 1, 2]) 3 = .ok (ofList [1, 1, 2, 3]) := rfl
  have hunion : Checked.union (ofList [1, 2]) (ofList [2]) = .ok (ofList [1, 2, 2]) := rfl
  have laws := multiset_laws_of_built (.insert 3 (.ofList [1, 1, 2]) hinsert)
    (.union (.ofList [1, 2]) (.ofList [2]) hunion) (.ofList [])
  exact ⟨hinsert, hunion, laws.2.2.2.2.2.2.2.1, by decide⟩

theorem built_doubled (x : α) {n : ℕ} (h : n < 64) :
    Built ⟨[(x, 2 ^ n)]⟩ (Multiset.replicate (2 ^ n) x) := by
  induction n with
  | zero => exact .ofList [x]
  | succ n ih =>
      have hlt : 2 ^ (n + 1) < 2 ^ 64 := Nat.pow_lt_pow_right Nat.one_lt_two h
      -- A bag together with itself has every item twice as often.
      have hunion : Checked.union (⟨[(x, 2 ^ n)]⟩ : Bag α) ⟨[(x, 2 ^ n)]⟩ =
          .ok ⟨[(x, 2 ^ (n + 1))]⟩ := by
        simpa [Checked.union, Checked.narrowAll, union, bump, ← two_mul, ← pow_succ'] using hlt
      have hbuilt := Built.union (ih (by omega)) (ih (by omega)) hunion
      rwa [← Multiset.replicate_add, ← two_mul, ← pow_succ'] at hbuilt

/-- A bag that can be built is at distance 0 of itself, and computing that overflows. -/
theorem distance_of_doubled :
    (⟨[(1, 2 ^ 63)]⟩ : Bag ℕ).Built (Multiset.replicate (2 ^ 63) 1) ∧
    (⟨[(1, 2 ^ 63)]⟩ : Bag ℕ).distance ⟨[(1, 2 ^ 63)]⟩ = 0 ∧
    Checked.distance (⟨[(1, 2 ^ 63)]⟩ : Bag ℕ) ⟨[(1, 2 ^ 63)]⟩ = .error .overflow :=
  ⟨built_doubled 1 (by omega), by decide, rfl⟩

end BagEquiv.Bag
