/-
**Distances and scores.**

The distance of two terms compares the bags of the keys of all their nodes, and so forgets how the
nodes hang together.  Nothing is lost by that: the node with the most nodes below it is the term
itself, so that terms with the same bag of keys have the same key.

A matching is scored by pairing the outermost summations of the two terms greedily, each left one
with the nearest right one that remains.  A greedy pairing need not be the best one, but it is if
there is a perfect one: then the nearest partner has the same key, and whichever of those with that
key is taken, the others can still be paired.  So the score is zero exactly if the summations are
the same up to their order and the order of operands.

Main results:

* `Term.keys_perm_iff` — **terms with the same bag of keys have the same key**;
* `Matching.pairing_eq_zero_iff` — **a greedy pairing costs nothing exactly if there is a
  perfect one**.
-/

import Mathlib.Data.Multiset.ZeroCons
import BagEquiv.Proofs.Bags
import BagEquiv.Proofs.SortHashes
import BagEquiv.Proofs.AppliedNames

set_option autoImplicit false

namespace BagEquiv

namespace Term

/-! ### The bag of keys -/

/-- A node other than the term itself is smaller. -/
theorem eq_or_size_lt_of_mem_subterms {s t : Term} (hs : s ∈ t.subterms) :
    s = t ∨ s.size < t.size := by
  induction t using Term.induct_children with
  | step t ih =>
      rcases mem_subterms.mp hs with rfl | ⟨c, hc, hs⟩
      · exact .inl rfl
      · have hle : c.size ≤ (t.children.map size).sum := List.le_sum_of_mem (List.mem_map_of_mem hc)
        have hsize := t.size_eq
        rcases ih c hc hs with rfl | hlt <;> exact .inr (by omega)

theorem length_keys (t : Term) : t.keys.length = t.size := by
  rw [keys, List.length_map, length_subterms]

theorem keys_perm (t : Term) : t.keys.Perm (t.key :: t.children.flatMap keys) := by
  have h := t.subterms_perm.map key
  rwa [List.map_cons, List.map_flatMap] at h

theorem flatMap_keys_perm {ts us : List Term}
    (h : List.Forall₂ (fun t u => t.keys.Perm u.keys) ts us) :
    (ts.flatMap keys).Perm (us.flatMap keys) := by
  induction h with
  | nil => exact .refl _
  | cons hhead _ ih => exact hhead.append ih

/-- Terms with the same key have the same bag of keys. -/
theorem keys_perm_of_key_eq {t u : Term} (h : t.key = u.key) : t.keys.Perm u.keys := by
  induction t using Term.induct_children generalizing u with
  | step t ih =>
      obtain ⟨vs, hkeys, hperm⟩ := (sameNode_of_key_eq h).exists_children
      have hparts : List.Forall₂ (fun c v => c.keys.Perm v.keys) t.children vs :=
        ((List.forall₂_and_left _ _).mpr ⟨ih, hkeys⟩).imp fun _ _ h => h.1 h.2
      calc t.keys
        _ |>.Perm (t.key :: t.children.flatMap keys) := t.keys_perm
        _ |>.Perm (u.key :: vs.flatMap keys) := h ▸ (flatMap_keys_perm hparts).cons _
        _ |>.Perm (u.key :: u.children.flatMap keys) := (hperm.flatMap_right keys).cons _
        _ |>.Perm u.keys := u.keys_perm.symm

theorem size_eq_of_key_eq {t u : Term} (h : t.key = u.key) : t.size = u.size := by
  rw [← length_keys, ← length_keys, (keys_perm_of_key_eq h).length_eq]

/-- Terms have the same bag of keys exactly if they have the same key. -/
theorem keys_perm_iff (t u : Term) : t.keys.Perm u.keys ↔ t.key = u.key := by
  refine ⟨fun h => ?_, keys_perm_of_key_eq⟩
  have hsize : t.size = u.size := by rw [← length_keys, ← length_keys, h.length_eq]
  -- A node of `u` has the key of `t`.  It is as large as `u`, so it is `u`.
  have hmem : t.key ∈ u.keys := h.subset (List.mem_map_of_mem (mem_subterms.mpr (.inl rfl)))
  obtain ⟨s, hs, hkey⟩ := List.mem_map.mp hmem
  rcases eq_or_size_lt_of_mem_subterms hs with rfl | hlt
  · exact hkey.symm
  · have := size_eq_of_key_eq hkey
    omega

/-! ### The distance -/

theorem distance_comm (a b : Term) : a.distance b = b.distance a :=
  Bag.distance_comm (Bag.distinct_ofList _) (Bag.distinct_ofList _)

theorem distance_triangle (a b c : Term) : a.distance c ≤ a.distance b + b.distance c :=
  Bag.distance_triangle (Bag.distinct_ofList _) (Bag.distinct_ofList _) (Bag.distinct_ofList _)

/-- The distance of two terms is zero exactly if they have the same key. -/
theorem distance_eq_zero_iff (a b : Term) : a.distance b = 0 ↔ a.key = b.key := by
  rw [distance, shape, shape,
    Bag.distance_eq_zero_iff (Bag.distinct_ofList _) (Bag.distinct_ofList _),
    Bag.toMultiset_ofList, Bag.toMultiset_ofList, Multiset.coe_eq_coe, keys_perm_iff]

namespace Checked

variable {a b : Term}

theorem distance_eq_ok_iff {n : ℕ} :
    distance a b = .ok n ↔ (a.Expands ∧ b.Expands) ∧ a.distance b = n := by
  rw [distance, requireKeys_ok_iff, List.forall_mem_cons, List.forall_mem_singleton]

theorem distance_eq_error_iff :
    distance a b = .error .overflow ↔ ¬(a.Expands ∧ b.Expands) := by
  rw [distance, requireKeys_error_iff, List.exists_mem_cons_iff, not_and_or]
  simp

theorem distance_swap (a b : Term) : distance a b = distance b a := by
  by_cases h : a.Expands ∧ b.Expands
  · rw [distance_eq_ok_iff.mpr ⟨h, rfl⟩, distance_eq_ok_iff.mpr ⟨h.symm, rfl⟩, distance_comm]
  · rw [distance_eq_error_iff.mpr h, distance_eq_error_iff.mpr (mt And.symm h)]

theorem distance_eq_ok_zero_iff :
    distance a b = .ok 0 ↔ ∃ k, key a = .ok k ∧ key b = .ok k := by
  simp only [distance_eq_ok_iff, key_eq_ok_iff, distance_eq_zero_iff]
  constructor
  · rintro ⟨⟨ha, hb⟩, hkey⟩
    exact ⟨b.key, ⟨ha, hkey⟩, hb, rfl⟩
  · rintro ⟨k, ⟨ha, rfl⟩, hb, hkey⟩
    exact ⟨⟨ha, hb⟩, hkey.symm⟩

/-- With words, the distance is a pseudometric that tells apart exactly the terms with different
keys, wherever the constants of the terms can be expanded, and it overflows where they cannot. -/
theorem distance_pseudometric (a b c : Term) :
    distance a b = distance b a ∧
      (∀ m n, distance a b = .ok m → distance b c = .ok n →
        ∃ k, distance a c = .ok k ∧ k ≤ m + n) ∧
      (distance a b = .ok 0 ↔ ∃ k, key a = .ok k ∧ key b = .ok k) ∧
      ((∃ n, distance a b = .ok n) ↔ a.Expands ∧ b.Expands) ∧
      (distance a b = .error .overflow ↔ ¬(a.Expands ∧ b.Expands)) := by
  refine ⟨distance_swap a b, ?_, distance_eq_ok_zero_iff, ?_, distance_eq_error_iff⟩
  · intro m n hab hbc
    obtain ⟨⟨ha, -⟩, rfl⟩ := distance_eq_ok_iff.mp hab
    obtain ⟨⟨-, hc⟩, rfl⟩ := distance_eq_ok_iff.mp hbc
    exact ⟨_, distance_eq_ok_iff.mpr ⟨⟨ha, hc⟩, rfl⟩, distance_triangle a b c⟩
  · exact ⟨fun ⟨_, h⟩ => (distance_eq_ok_iff.mp h).1, fun h => ⟨_, distance_eq_ok_iff.mpr ⟨h, rfl⟩⟩⟩

/-- A term with a constant whose continued fraction leaves the range of words is at no distance from
itself. -/
theorem distance_of_tooDeep :
    Commuted (.const .tooDeep) (.const .tooDeep) ∧
      distance (.const .tooDeep) (.const .tooDeep) = .error .overflow ∧
      ¬ ∃ n, distance (.const .tooDeep) (.const .tooDeep) = .ok n := by
  have hoverflow : distance (.const .tooDeep) (.const .tooDeep) = .error .overflow := by decide
  refine ⟨.refl _, hoverflow, ?_⟩
  rintro ⟨n, hn⟩
  rw [hoverflow] at hn
  cases hn

end Checked

end Term

/-! ### Greedy pairing -/

namespace Matching

theorem nearest?_eq_none_iff {t : Term} {rs : List Term} : nearest? t rs = none ↔ rs = [] := by
  cases rs with
  | nil => simp [nearest?]
  | cons r rs =>
      unfold nearest?
      split
      · simp
      · split <;> simp

/-- The partner that is chosen is one at the least distance, and the others are left. -/
theorem nearest?_spec {t : Term} {rs others : List Term} {d : ℕ}
    (h : nearest? t rs = some (d, others)) :
    ∃ r, rs.Perm (r :: others) ∧ t.distance r = d ∧ ∀ s ∈ rs, d ≤ t.distance s := by
  induction rs generalizing d others with
  | nil => cases h
  | cons r rs ih =>
      unfold nearest? at h
      split at h
      · next hnone =>
          obtain ⟨rfl, rfl⟩ := Prod.mk.inj (Option.some.inj h)
          obtain rfl := nearest?_eq_none_iff.mp hnone
          exact ⟨r, .refl _, rfl, by simp⟩
      · next e rest hsome =>
          obtain ⟨s, hperm, hdist, hleast⟩ := ih hsome
          split at h
          · next hlt =>
              obtain ⟨rfl, rfl⟩ := Prod.mk.inj (Option.some.inj h)
              refine ⟨s, (hperm.cons r).trans (.swap _ _ _), hdist, ?_⟩
              exact List.forall_mem_cons.mpr ⟨hlt.le, hleast⟩
          · next hle =>
              obtain ⟨rfl, rfl⟩ := Prod.mk.inj (Option.some.inj h)
              refine ⟨r, .refl _, rfl, List.forall_mem_cons.mpr ⟨le_rfl, fun u hu => ?_⟩⟩
              exact (not_lt.mp hle).trans (hleast u hu)

/-- A greedy pairing costs nothing exactly if there is a perfect one. -/
theorem pairing_eq_zero_iff (ls rs : List Term) :
    pairing ls rs = 0 ↔ (ls.map Term.key).Perm (rs.map Term.key) := by
  induction ls generalizing rs with
  | nil =>
      cases rs with
      | nil => simp [pairing]
      | cons r rs =>
          have := r.size_pos
          simp [pairing]
          omega
  | cons l ls ih =>
      rw [pairing]
      cases hnearest : nearest? l rs with
      | none =>
          obtain rfl := nearest?_eq_none_iff.mp hnearest
          have := l.size_pos
          simp
          omega
      | some p =>
          obtain ⟨d, others⟩ := p
          obtain ⟨r, hperm, rfl, hleast⟩ := nearest?_spec hnearest
          have hkeys := hperm.map Term.key
          rw [List.map_cons] at hkeys ⊢
          change l.distance r + pairing ls others = 0 ↔ _
          rw [Nat.add_eq_zero_iff, ih, Term.distance_eq_zero_iff]
          constructor
          · rintro ⟨hkey, hothers⟩
            rw [hkey]
            exact (hothers.cons _).trans hkeys.symm
          · intro h
            -- Some right term has the key of `l`, so the nearest one has it too.
            obtain ⟨s, hs, hkey⟩ := List.mem_map.mp (h.subset List.mem_cons_self)
            have hzero := hleast s hs
            rw [(Term.distance_eq_zero_iff l s).mpr hkey.symm, Nat.le_zero,
              Term.distance_eq_zero_iff] at hzero
            refine ⟨hzero, List.Perm.cons_inv (a := l.key) ?_⟩
            exact h.trans (hzero ▸ hkeys)

end Matching

/-! ### Applied matchings -/

namespace Term

/-- Other names of tuples do not change whether a key can be computed. -/
theorem expands_relabel (f : String → String) (t : Term) : (t.relabel f).Expands ↔ t.Expands := by
  have hconst : ∀ q, .const q ∈ (t.relabel f).subterms ↔ .const q ∈ t.subterms := by
    intro q
    rw [mem_subterms_relabel]
    constructor
    · rintro ⟨u, hu, heq⟩
      cases u <;> simp only [relabel, reduceCtorEq] at heq
      exact heq ▸ hu
    · exact fun h => ⟨_, h, rfl⟩
  simp only [Expands, hconst]

end Term

namespace Matching

theorem outermost_relabel (f : String → String) (t : Term) :
    outermost (t.relabel f) = (outermost t).map (Term.relabel f) := by
  induction t using Term.induct with
  | sum => rfl
  | add ts ih | mul ts ih | pred _ ts ih | func _ ts ih =>
      rw [Term.relabel, outermost, outermost, Term.summations, Term.summations]
      induction ts with
      | nil => rfl
      | cons t ts ihs =>
          rw [List.forall_mem_cons] at ih
          rw [Term.relabelList, Term.summationsAll, Term.summationsAll, List.map_append, ihs ih.2,
            List.map_append, List.map_append]
          exact congrArg (· ++ _) ih.1
  | neg t ih | squash t ih => exact ih
  | var | const | table | str => rfl

theorem keyed_map (f : Term → Term) (ls rs : List Term) :
    keyed (ls.map f) (rs.map f) = (keyed ls rs).map f := by
  unfold keyed
  simp only [List.isEmpty_map, List.length_map]
  split
  · rfl
  · rw [List.map_append, List.map_take]

variable (m : Matching) (left right : Term)

/-- The terms that are hashed for a score have keys as they do without the matching. -/
theorem expands_keyed_apply :
    (∀ t ∈ keyed (outermost (m.apply left)) (outermost (m.apply right)), t.Expands) ↔
      ∀ t ∈ keyed (outermost left) (outermost right), t.Expands := by
  simp only [apply_eq_relabel, outermost_relabel, keyed_map, List.forall_mem_map,
    Term.expands_relabel]

/-- If there are as many terms on both sides, all of them are hashed. -/
theorem forall_mem_keyed {p : Term → Prop} {ls rs : List Term} (h : ls.length = rs.length) :
    (∀ t ∈ keyed ls rs, p t) ↔ (∀ l ∈ ls, p l) ∧ ∀ r ∈ rs, p r := by
  cases ls with
  | nil =>
      obtain rfl := List.length_eq_zero_iff.mp h.symm
      simp [keyed]
  | cons l ls =>
      rw [keyed, List.isEmpty_cons, if_neg Bool.false_ne_true, ← h, List.take_length,
        List.forall_mem_append]

/-- The outermost summations of a term under a matching, in no order. -/
def applied (m : Matching) (t : Term) : Multiset Term := outermost (m.apply t)

/-- A score of zero is a one to one pairing of the summations by their keys. -/
theorem score_eq_zero_iff_rel :
    m.score left right = 0 ↔
      Multiset.Rel (fun l r => l.key = r.key) (m.applied left) (m.applied right) := by
  rw [score, pairing_eq_zero_iff, applied, applied, ← Multiset.coe_eq_coe, ← Multiset.map_coe,
    ← Multiset.map_coe, ← Multiset.rel_eq, Multiset.rel_map]

namespace Checked

theorem score_eq_ok_iff {n : ℕ} :
    score m left right = .ok n ↔
      (∀ t ∈ keyed (outermost (m.apply left)) (outermost (m.apply right)), t.Expands) ∧
        m.score left right = n := by
  rw [score, requireScores, Term.requireKeys_ok_iff, expands_keyed_apply]

theorem score_eq_error_iff :
    score m left right = .error .overflow ↔
      ∃ t ∈ keyed (outermost (m.apply left)) (outermost (m.apply right)), ¬ t.Expands := by
  have h := not_congr (expands_keyed_apply m left right)
  push Not at h
  rw [score, requireScores, Term.requireKeys_error_iff, h]

/-- A pairing by keys that are computed with words: all the terms have one. -/
theorem rel_key_iff (s u : Multiset Term) :
    Multiset.Rel (fun l r => ∃ k, Term.Checked.key l = .ok k ∧ Term.Checked.key r = .ok k) s u ↔
      ((∀ l ∈ s, l.Expands) ∧ ∀ r ∈ u, r.Expands) ∧
        Multiset.Rel (fun l r => l.key = r.key) s u := by
  simp only [Term.Checked.key_eq_ok_iff]
  constructor
  · intro h
    refine ⟨⟨fun l hl => ?_, fun r hr => ?_⟩, h.mono ?_⟩
    · obtain ⟨_, _, _, hkey, _⟩ := Multiset.exists_mem_of_rel_of_mem h hl
      exact hkey.1
    · obtain ⟨_, _, _, _, hkey⟩ := Multiset.exists_mem_of_rel_of_mem (Multiset.rel_flip.mpr h) hr
      exact hkey.1
    · rintro l - r - ⟨_, hl, hr⟩
      rw [hl.2, hr.2]
  · rintro ⟨⟨hs, hu⟩, h⟩
    exact h.mono fun l hl r hr hkey => ⟨r.key, ⟨hs l hl, hkey⟩, hu r hr, rfl⟩

theorem score_eq_ok_zero_iff :
    score m left right = .ok 0 ↔
      Multiset.Rel (fun l r => ∃ k, Term.Checked.key l = .ok k ∧ Term.Checked.key r = .ok k)
        (m.applied left) (m.applied right) := by
  rw [score_eq_ok_iff, rel_key_iff, score_eq_zero_iff_rel]
  refine and_congr_left fun h => forall_mem_keyed ?_
  simpa [applied] using Multiset.card_eq_card_of_rel h

/-- With words, a score of zero is a one to one pairing of the outermost summations that agree up to
the order of operands.  There is a score if the terms that are compared have keys, and an overflow
if one of them has none. -/
theorem score_eq_zero_iff :
    (score m left right = .ok 0 ↔
        Multiset.Rel (fun l r => ∃ k, Term.Checked.key l = .ok k ∧ Term.Checked.key r = .ok k)
          (m.applied left) (m.applied right)) ∧
      (∀ n, score m left right = .ok n →
        (n = 0 ↔ Multiset.Rel Term.Commuted (m.applied left) (m.applied right))) ∧
      ((∃ n, score m left right = .ok n) ↔
        ∀ t ∈ keyed (outermost (m.apply left)) (outermost (m.apply right)), t.Expands) ∧
      (score m left right = .error .overflow ↔
        ∃ t ∈ keyed (outermost (m.apply left)) (outermost (m.apply right)), ¬ t.Expands) := by
  refine ⟨score_eq_ok_zero_iff m left right, fun n hn => ?_, ?_, score_eq_error_iff m left right⟩
  · obtain ⟨-, rfl⟩ := (score_eq_ok_iff m left right).mp hn
    simp only [score_eq_zero_iff_rel, Term.key_eq_iff]
  · exact ⟨fun ⟨_, h⟩ => ((score_eq_ok_iff m left right).mp h).1,
      fun h => ⟨_, (score_eq_ok_iff m left right).mpr ⟨h, rfl⟩⟩⟩

/-- A summation over a constant whose continued fraction leaves the range of words has no score
against itself. -/
theorem score_of_tooDeep :
    Multiset.Rel Term.Commuted (applied ⟨[]⟩ (.twoRows "x" "y" .tooDeep))
        (applied ⟨[]⟩ (.twoRows "x" "y" .tooDeep)) ∧
      score ⟨[]⟩ (.twoRows "x" "y" .tooDeep) (.twoRows "x" "y" .tooDeep) = .error .overflow ∧
      score ⟨[]⟩ (.twoRows "x" "y" .tooDeep) (.twoRows "x" "y" .tooDeep) ≠ .ok 0 := by
  have hoverflow :
      score ⟨[]⟩ (.twoRows "x" "y" .tooDeep) (.twoRows "x" "y" .tooDeep) = .error .overflow := by
    decide
  refine ⟨Multiset.rel_refl_of_refl_on fun t _ => .refl t, hoverflow, ?_⟩
  rw [hoverflow]
  exact nofun

end Checked

end Matching

end BagEquiv
