/-
**Aligning exchanges layers only.**

Whatever aligning a matching leads to, no variable is lost, none is put in a layer where it is not
bound, and none joins the variables of another summation: the variables of each right summation
exchange their layers among each other, and all other variables stay where they are.  A right
summation whose turn changes nothing is not changed by the turns of the others.

Aligning compares bodies by their keys, so there is no aligned matching if a key that is needed
cannot be computed with words.

Main definition:

* `Matching.Permuted` — **what an aligned matching has in common with the first one**.

Main result:

* `Matching.aligned_permuted` — **aligning only permutes layers within summations**.
-/

import BagEquiv.Proofs.Alignment

set_option autoImplicit false

namespace BagEquiv

namespace Matching

variable {m n : Matching} {left right : Term} {r : List Var × Term}

/-! ### The turn of a summation -/

/-- When the turn of the right summation comes, it changes nothing. -/
def Idle (left right : Term) (m : Matching) (r : List Var × Term) : Prop :=
  ∀ before after k, right.binders = before ++ r :: after →
    before.foldlM (alignOne left right) m = .ok k → k.alignOne left right r = .ok k

section Turns

variable (hnames : (boundNames [left, right]).Nodup) {before after : List (List Var × Term)}
  (hright : right.binders = before ++ r :: after)

include hnames hright

/-- The turns before that of a summation leave it and the left summations alone. -/
theorem before_turn {k : Matching} (hm : m.isValid left right = true)
    (hk : before.foldlM (alignOne left right) m = .ok k) :
    k.isValid left right = true ∧ (∀ v ∈ r.1, k.layerOf? v = m.layerOf? v) ∧
      ∀ b ∈ left.binders, ∀ v ∈ b.1, k.layerOf? v = m.layerOf? v := by
  have hbefore : ∀ b ∈ before, b ∈ right.binders := fun b hb => by simp [hright, hb]
  obtain ⟨hvalid, hconfined⟩ := confined_of_foldlM hnames hbefore hm hk
  refine ⟨hvalid, fun v hv => ?_, fun b hb v hv => ?_⟩
  · exact hconfined.others v fun hv' => ((disjoint_binders hnames hright).1 v hv').1 hv
  · refine hconfined.others v fun hv' => notMem_of_mem_left hnames hb hv ?_
    rw [hright, List.flatMap_append]
    exact List.mem_append_left _ hv'

/-- The turns after that of a summation leave it alone. -/
theorem after_turn {k' : Matching} (hk' : k'.isValid left right = true)
    (h : after.foldlM (alignOne left right) k' = .ok n) :
    ∀ v ∈ r.1, n.layerOf? v = k'.layerOf? v := by
  have hafter : ∀ b ∈ after, b ∈ right.binders := fun b hb => by simp [hright, hb]
  obtain ⟨-, hconfined⟩ := confined_of_foldlM hnames hafter hk' h
  exact fun v hv => hconfined.others v ((disjoint_binders hnames hright).2 v hv)

end Turns

/-- If there is no left summation over the same layers, there is none to follow. -/
theorem alignTo_of_not_sameLayers {rdepths : List ℕ} (hrdepths : m.layersOf? r.1 = some rdepths)
    {bs : List (List Var × Term)} (h : ∀ b ∈ bs, ¬m.SameLayers b r) :
    m.alignTo left right rdepths r.1 r.2 bs = .ok m := by
  induction bs with
  | nil => rfl
  | cons b bs ih =>
      rw [List.forall_mem_cons] at h
      rw [alignTo_cons_of_not_sameLayers hrdepths h.1]
      exact ih h.2

/-- A right summation is idle if aligning does not look at it, or if no left summation is over the
same layers.  Both can be seen before anything is aligned. -/
theorem idle_of_apart (hnames : (boundNames [left, right]).Nodup)
    (hm : m.isValid left right = true)
    (h : ¬m.Movable r ∨ ∀ b ∈ left.binders, ¬m.SameLayers b r) : Idle left right m r := by
  intro before after k hright hk
  obtain ⟨-, hown, hleft⟩ := before_turn hnames hright hm hk
  have hlayers : (r.1.map k.layerOf?).Perm (r.1.map m.layerOf?) :=
    .of_eq (List.map_congr_left hown)
  by_cases hmovable : k.Movable r
  · rcases h with h | h
    · exact absurd ((movable_congr hlayers).mp hmovable) h
    · obtain ⟨rdepths, hrdepths, heq⟩ := alignOne_of_movable left right hmovable
      rw [heq]
      refine alignTo_of_not_sameLayers hrdepths fun b hb hsame => h b hb ?_
      exact sameLayers_congr (hleft b hb) hlayers hsame
  · exact alignOne_of_not_movable hmovable

/-! ### All turns -/

/-- Layers are exchanged within right summations only, and by those only that are not idle. -/
structure Permuted (left right : Term) (m n : Matching) : Prop where
  valid : n.isValid left right = true
  depth : n.depth = m.depth
  ofLeft : ∀ b ∈ left.binders, ∀ v ∈ b.1, n.layerOf? v = m.layerOf? v
  ofRight : ∀ r ∈ right.binders, (r.1.map n.layerOf?).Perm (r.1.map m.layerOf?)
  ofIdle : ∀ r ∈ right.binders, Idle left right m r → ∀ v ∈ r.1, n.layerOf? v = m.layerOf? v

theorem permuted_of_aligned (hnames : (boundNames [left, right]).Nodup)
    (hm : m.isValid left right = true) (h : m.aligned left right = .ok n) :
    Permuted left right m n := by
  obtain ⟨hvalid, hconfined⟩ := confined_of_foldlM hnames (fun _ => id) hm h
  refine ⟨hvalid, hconfined.depth, fun b hb v hv => ?_, fun r hr => ?_, fun r hr hidle v hv => ?_⟩
  · exact hconfined.others v (notMem_of_mem_left hnames hb hv)
  all_goals
    obtain ⟨before, after, hright⟩ := List.append_of_mem hr
    obtain ⟨k, k', hk, hk', hn⟩ := turn_of_aligned h hright
    obtain ⟨hkvalid, hown, -⟩ := before_turn hnames hright hm hk
    have hstep := rearranged_of_alignOne hnames hr hkvalid hk'
    have hafter := after_turn hnames hright (isValid_of_rearranged hnames hr hkvalid hstep) hn
  · rw [List.map_congr_left hafter, ← List.map_congr_left hown]
    exact hstep.perm
  · obtain rfl : k = k' := Except.ok.inj ((hidle before after k hright hk).symm.trans hk')
    rw [hafter v hv, hown v hv]

/-- Aligning a valid matching only permutes layers within right summations, and a summation that is
not looked at or has no left one over its layers is not touched.  There is no aligned matching only
if a key cannot be computed. -/
theorem aligned_permuted (hnames : (boundNames [left, right]).Nodup)
    (hm : m.isValid left right = true) :
    ((∃ n, m.aligned left right = .ok n ∧ Permuted left right m n) ∨
      (m.aligned left right = .error .overflow ∧
        ¬(left.hasKey = true ∧ right.hasKey = true))) ∧
    ∀ r ∈ right.binders, (¬m.Movable r ∨ ∀ b ∈ left.binders, ¬m.SameLayers b r) →
      Idle left right m r := by
  refine ⟨?_, fun r _ h => idle_of_apart hnames hm h⟩
  cases h : m.aligned left right with
  | ok n => exact .inl ⟨n, rfl, permuted_of_aligned hnames hm h⟩
  | error f =>
      refine .inr ⟨by rw [mayOverflow_aligned m left right f h], fun ⟨hleft, hright⟩ => ?_⟩
      obtain ⟨n, hn⟩ := exists_aligned hnames hm hleft hright
      cases h.symm.trans hn

/-- The rows of two terms, matched crosswise. -/
def crosswise : Matching :=
  ⟨[.ofList [.base "x#0", .base "y#3"], .ofList [.base "y#1", .base "x#2"]]⟩

theorem aligned_permuted_crosswise :
    (boundNames [Term.twoRows "x#0" "y#1" .zero, Term.twoRows "x#2" "y#3" .zero]).Nodup ∧
      crosswise.isValid (.twoRows "x#0" "y#1" .zero) (.twoRows "x#2" "y#3" .zero) = true ∧
      crosswise.aligned (.twoRows "x#0" "y#1" .zero) (.twoRows "x#2" "y#3" .zero) =
        .ok oneByOne ∧
      oneByOne ≠ crosswise ∧
      Permuted (.twoRows "x#0" "y#1" .zero) (.twoRows "x#2" "y#3" .zero) crosswise oneByOne := by
  have hnames : (boundNames [Term.twoRows "x#0" "y#1" .zero,
      Term.twoRows "x#2" "y#3" .zero]).Nodup := by decide +kernel
  have hvalid : crosswise.isValid (.twoRows "x#0" "y#1" .zero)
      (.twoRows "x#2" "y#3" .zero) = true := by decide +kernel
  have haligned : crosswise.aligned (.twoRows "x#0" "y#1" .zero)
      (.twoRows "x#2" "y#3" .zero) = .ok oneByOne := by decide +kernel
  obtain ⟨n, hn, hpermuted⟩ :=
    (aligned_permuted hnames hvalid).1.resolve_right fun h => h.2 (by decide)
  obtain rfl := Except.ok.inj (haligned.symm.trans hn)
  exact ⟨hnames, hvalid, haligned, by decide, hpermuted⟩

/-- There is no aligned matching where the key of a constant is needed and cannot be computed. -/
theorem aligned_of_tooDeep :
    (boundNames [Term.twoRows "x" "y" .tooDeep, Term.twoRows "z" "w" .tooDeep]).Nodup ∧
      isValid ⟨[.ofList [.base "x", .base "w"], .ofList [.base "y", .base "z"]]⟩
        (.twoRows "x" "y" .tooDeep) (.twoRows "z" "w" .tooDeep) = true ∧
      aligned ⟨[.ofList [.base "x", .base "w"], .ofList [.base "y", .base "z"]]⟩
        (.twoRows "x" "y" .tooDeep) (.twoRows "z" "w" .tooDeep) = .error .overflow :=
  ⟨by decide +kernel, by decide +kernel, by decide +kernel⟩

end Matching

end BagEquiv
