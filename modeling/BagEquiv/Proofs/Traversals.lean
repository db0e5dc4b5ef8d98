/-
**The two traversals of a term.**

The nodes of a term are listed by a loop over a list that grows while it is read: behind the end
come the terms one step below the node just read.  The summations are listed by a walk over the
binder trees with a stack.  Both loops end, and they see the same summations: the first lists every
node once, by its position in the tree, and the second the summations among these.

Main definition:

* `Term.at?` — the node at a position, which is the way down from the root.

Main result:

* `Term.traversals_agree` — **the two traversals see the same summations**.
-/

import Mathlib.Data.List.Sigma
import BagEquiv.Proofs.Subterms

set_option autoImplicit false

namespace BagEquiv

namespace Term

/-! ### The list that grows -/

/-- Reads the list from place `i` on, and adds the terms one step below each node read at its end.
There is no result if the rounds do not suffice. -/
def readOn : (rounds : ℕ) → (out : List Term) → (i : ℕ) → Option (List Term)
  | 0, _, _ => none
  | n + 1, out, i =>
      match out[i]? with
      | none => some out
      | some t => readOn n (out ++ t.children) (i + 1)

/-- One round for each of some nodes in a row. -/
theorem readOn_level (n : ℕ) (done level rest : List Term) :
    readOn (level.length + n) (done ++ level ++ rest) done.length =
      readOn n (done ++ level ++ rest ++ level.flatMap children) (done ++ level).length := by
  induction level generalizing done rest with
  | nil => simp
  | cons t level ih =>
      have hread : (done ++ t :: level ++ rest)[done.length]? = some t := by simp
      have hnext := ih (done ++ [t]) (rest ++ t.children)
      rw [List.length_cons, Nat.add_right_comm, readOn, hread]
      simpa using hnext

/-- The list is read to the end of the last level. -/
theorem readOn_eq {d n : ℕ} {level : List Term} (h : ∀ t ∈ level, t.depth ≤ d)
    (hn : (levels d level).length < n) (done : List Term) :
    readOn n (done ++ level) done.length = some (done ++ levels d level) := by
  induction d generalizing n level done with
  | zero =>
      obtain rfl := eq_nil_of_depth_le_zero h
      obtain ⟨n, rfl⟩ := Nat.exists_eq_add_one_of_ne_zero (Nat.ne_zero_of_lt hn)
      simp [levels, readOn]
  | succ d ih =>
      rw [levels, List.length_append] at hn
      obtain ⟨n, rfl⟩ := Nat.exists_eq_add_of_le (show level.length ≤ n by omega)
      have hlevel := readOn_level n done level []
      rw [List.append_nil] at hlevel
      rw [hlevel, ih (fun _ => depth_le_of_mem_below h) (by omega), levels, List.append_assoc]

/-! ### Positions -/

/-- The node at a position: the numbers of the children on the way down to it. -/
def at? : List ℕ → Term → Option Term
  | [], t => some t
  | i :: p, t => t.children[i]? >>= at? p

/-- The term at its root, and what is placed in the terms one step below, with the number of the
child in front. -/
def placedFrom (placed : Term → List (List ℕ × Term)) (t : Term) : List (List ℕ × Term) :=
  ([], t) :: t.children.zipIdx.flatMap fun c => (placed c.1).map fun q => (c.2 :: q.1, q.2)

section

variable {placed : Term → List (List ℕ × Term)} {t : Term}

theorem map_snd_placedFrom (h : ∀ c ∈ t.children, (placed c).map Prod.snd = c.subterms) :
    (placedFrom placed t).map Prod.snd = t :: t.children.flatMap subterms := by
  have hnodes : (t.children.zipIdx.map Prod.fst).flatMap (fun c => (placed c).map Prod.snd) =
      t.children.flatMap subterms := by
    rw [List.zipIdx_map_fst]
    exact List.flatMap_congr h
  rw [placedFrom, List.map_cons, List.map_flatMap, ← hnodes, List.flatMap_map]
  simp only [List.map_map, Function.comp_def]

theorem nodup_placedFrom (h : ∀ c ∈ t.children, ((placed c).map Prod.fst).Nodup) :
    ((placedFrom placed t).map Prod.fst).Nodup := by
  rw [placedFrom, List.map_cons, List.map_flatMap, List.nodup_cons, List.nodup_flatMap]
  refine ⟨by simp, fun c hc => ?_, ?_⟩
  · have hnodup := (h c.1 (List.fst_mem_of_mem_zipIdx hc)).map (List.cons_injective (a := c.2))
    rwa [List.map_map] at hnodup ⊢
  · -- Positions below different children differ in the first number.
    refine (List.pairwise_map.mp (List.nodup_zipIdx_map_snd t.children)).imp ?_
    intro c d hne p hc hd
    simp only [List.map_map, List.mem_map, Function.comp_apply] at hc hd
    obtain ⟨_, _, rfl⟩ := hc
    obtain ⟨_, _, heq⟩ := hd
    exact hne (List.cons.inj heq).1.symm

theorem mem_placedFrom (h : ∀ c ∈ t.children, ∀ p s, (p, s) ∈ placed c ↔ c.at? p = some s)
    (p : List ℕ) (s : Term) : (p, s) ∈ placedFrom placed t ↔ t.at? p = some s := by
  cases p with
  | nil => simp [placedFrom, at?, eq_comm]
  | cons i p =>
      rw [at?, Option.bind_eq_bind, Option.bind_eq_some_iff]
      simp only [placedFrom, List.mem_cons, List.mem_flatMap, List.mem_map]
      constructor
      · rintro (heq | ⟨⟨c, j⟩, hc, ⟨q, u⟩, hq, heq⟩)
        · cases heq
        · cases heq
          exact ⟨c, List.mem_zipIdx_iff_getElem?.mp hc,
            (h c (List.fst_mem_of_mem_zipIdx hc) _ _).mp hq⟩
      · rintro ⟨c, hc, hs⟩
        exact .inr ⟨(c, i), List.mem_zipIdx_iff_getElem?.mpr hc, (p, s),
          (h c (List.mem_of_getElem? hc) p s).mpr hs, rfl⟩

end

/-- The list of nodes has the node at every position once. -/
theorem exists_placed (t : Term) : ∃ placed : List (List ℕ × Term),
    (placed.map Prod.fst).Nodup ∧ placed.map Prod.snd = t.subterms ∧
      ∀ p s, (p, s) ∈ placed ↔ t.at? p = some s := by
  induction t using Term.induct_children with
  | step t ih =>
      choose! placed hnodup hnodes hmem using ih
      -- Level by level the same nodes come in another order.
      obtain ⟨ordered, hordered, hperm⟩ :=
        exists_map_eq_of_perm (map_snd_placedFrom hnodes ▸ t.subterms_perm)
      refine ⟨ordered, (hperm.map _).nodup_iff.mpr (nodup_placedFrom hnodup), hordered,
        fun p s => ?_⟩
      rw [hperm.mem_iff, mem_placedFrom hmem]

end Term

/-! ### The walk over the trees -/

namespace BinderTree

/-- Takes the trees from a stack, and puts those one step below on it, the first on top. -/
def walk : (rounds : ℕ) → (stack : List BinderTree) → (out : List (List BoundVar)) →
    Option (List (List BoundVar))
  | 0, _, _ => none
  | _ + 1, [], out => some out
  | n + 1, t :: stack, out => walk n (t.children ++ stack) (out ++ [t.vars])

theorem walk_eq {n : ℕ} {stack : List BinderTree} (h : (nodes stack).length < n)
    (out : List (List BoundVar)) : walk n stack out = some (out ++ nodes stack) := by
  induction n generalizing stack out with
  | zero => exact absurd h (Nat.not_lt_zero _)
  | succ n ih =>
      cases stack with
      | nil => rw [walk, nodes, List.append_nil]
      | cons t stack =>
          obtain ⟨vars, children⟩ := t
          -- The rest of the walk lists what is below the tree first.
          have hnodes :
              nodes (.node vars children :: stack) = vars :: nodes (children ++ stack) := by
            rw [nodes, flatten, nodes_append, List.cons_append]
          rw [hnodes] at h ⊢
          rw [walk, BinderTree.children, BinderTree.vars, ih (Nat.lt_of_succ_lt_succ h),
            List.append_assoc, List.singleton_append]

end BinderTree

/-- Both loops end.  The list then has every node of the term once, by position, and the walk has
found what the summations among these nodes bind, with the tables that their own bodies name. -/
theorem Term.traversals_agree (t : Term) :
    (∀ spare, readOn (t.size + 1 + spare) [t] 0 = some t.subterms) ∧
    (∃ placed : List (List ℕ × Term), (placed.map Prod.fst).Nodup ∧
      placed.map Prod.snd = t.subterms ∧ ∀ p s, (p, s) ∈ placed ↔ t.at? p = some s) ∧
    t.subterms.length = t.size ∧ t.size = (t.children.map size).sum + 1 ∧
    (∀ spare, BinderTree.walk ((BinderTree.nodes t.forest).length + 1 + spare) t.forest [] =
      some (BinderTree.nodes t.forest)) ∧
    (BinderTree.nodes t.forest).Perm (t.subterms.filterMap fun
      | .sum vars body => some (vars.toList.map fun v => ⟨v, body.tableOf? v.tuple⟩)
      | _ => none) := by
  refine ⟨fun spare => ?_, t.exists_placed, t.length_subterms, t.size_eq, fun spare => ?_,
    t.nodes_forest_perm⟩
  · refine readOn_eq (List.forall_mem_singleton.mpr le_rfl) ?_ []
    rw [← subterms, length_subterms]
    omega
  · exact BinderTree.walk_eq (by omega) []

end BagEquiv
