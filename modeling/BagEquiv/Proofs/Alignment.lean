/-
**What aligning a matching changes.**

Aligning goes through the summations of the right term, from the outside in.  For each it goes
through the left summations over the same layers, and exchanges layers among the variables of the
right one so that it equals the first of them that it can be made equal to.  So one step concerns
the variables of one summation only, and it looks at nothing but the names in two bodies.

A matching under which the two terms are equal is not left alone in all cases: an earlier left
summation may attract the right one away from its partner.  And aligning twice can do more than
aligning once: a summation is compared before those inside it are aligned.

Main definition:

* `Matching.Attains` — exchanging layers can make a right summation equal to a left one.

Main results:

* `Matching.aligned_of_equates` — **when a matching that makes the terms equal is kept**;
* `Matching.aligned_aligned` — **when aligning again changes nothing**.
-/

import BagEquiv.Proofs.AppliedNames

set_option autoImplicit false

namespace BagEquiv

namespace Matching

variable {m n : Matching} {left right : Term}

/-! ### One right summation -/

/-- Exchanging layers among the variables of `r` can make the bodies equal. -/
def Attains (m : Matching) (b r : List Var × Term) : Prop :=
  ∃ c, Rearranged r.1 m c ∧ c.equates b.2 r.2 = true

theorem attains_of_equates (hm : m.Exclusive) {b r : List Var × Term}
    (h : m.equates b.2 r.2 = true) : m.Attains b r := ⟨m, .refl hm, h⟩

variable {r b : List Var × Term} {ldepths rdepths : List ℕ} {c : Matching}

/-- Reordering finds a way to exchange layers that makes the bodies equal, if there is one. -/
theorem reordering?_spec (hnames : (boundNames [left, right]).Nodup) (hr : r ∈ right.binders)
    (hm : m.isValid left right = true) (hrdepths : m.layersOf? r.1 = some rdepths)
    (hperm : ldepths.Perm rdepths) :
    match m.reordering? left right ldepths b.2 r.1 r.2 with
    | some c => Rearranged r.1 m c ∧ c.equates b.2 r.2 = true
    | none => ¬m.Attains b r := by
  obtain ⟨vars, hvars, -⟩ := Term.mem_binders.mp hr
  obtain ⟨rvars, rbody⟩ := r
  obtain rfl : rvars = vars.toList := hvars
  have hexclusive := (isValid_iff.mp hm).1
  split
  · next c hc =>
      rw [reordering?] at hc
      obtain ⟨order, horder, rfl⟩ := List.mem_map.mp (List.mem_of_find?_eq_some hc)
      have hgood := List.find?_some hc
      simp only [Bool.and_eq_true] at hgood
      exact ⟨(rearranged_reassign hexclusive vars.nodup hrdepths (mem_permutations.mp horder)
        hperm).1, hgood.1⟩
  · next hnone =>
      rintro ⟨c, hc, hequates⟩
      obtain ⟨order, horder, rfl⟩ := hc.exists_order hexclusive vars.nodup hrdepths hperm
      rw [reordering?, List.find?_eq_none] at hnone
      refine hnone _ (List.mem_map_of_mem (mem_permutations.mpr horder)) ?_
      rw [Bool.and_eq_true]
      exact ⟨hequates, hc.isValid hnames (List.mem_append_right _ hr) hm⟩

/-- What a left summation over the same layers leads to: the right one follows it and is left alone
if it does so already, or it cannot be made to. -/
def Response (m : Matching) (b r : List Var × Term) : Option Matching → Prop
  | some c => Rearranged r.1 m c ∧ c.equates b.2 r.2 = true ∧ (m.equates b.2 r.2 = true → c = m)
  | none => ¬m.Attains b r

section AlignTo

variable {bs : List (List Var × Term)}

theorem alignTo_cons_of_not_sameLayers (hrdepths : m.layersOf? r.1 = some rdepths)
    (h : ¬m.SameLayers b r) : m.alignTo left right rdepths r.1 r.2 (b :: bs) =
      m.alignTo left right rdepths r.1 r.2 bs := by
  obtain ⟨lvars, lbody⟩ := b
  rw [alignTo]
  split
  · rfl
  · next ldepths hldepths =>
      refine if_neg fun hperm => h ?_
      exact ⟨ldepths, rdepths, hldepths, hrdepths, List.isPerm_iff.mp hperm⟩

theorem alignTo_cons_of_sameLayers (hnames : (boundNames [left, right]).Nodup)
    (hr : r ∈ right.binders) (hm : m.isValid left right = true)
    (hrdepths : m.layersOf? r.1 = some rdepths) (h : m.SameLayers b r)
    (bs : List (List Var × Term)) :
    ∃ o, m.Response b r o ∧ m.alignTo left right rdepths r.1 r.2 (b :: bs) =
      (Term.requireKeys [b.2, r.2]).bind fun _ =>
        o.elim (m.alignTo left right rdepths r.1 r.2 bs) .ok := by
  obtain ⟨ldepths, es, hldepths, hes, hperm⟩ := h
  obtain rfl : rdepths = es := Option.some.inj (hrdepths.symm.trans hes)
  have hexclusive := (isValid_iff.mp hm).1
  have hreordering := reordering?_spec (b := b) hnames hr hm hrdepths hperm
  obtain ⟨lvars, lbody⟩ := b
  rw [alignTo, hldepths]
  simp only [if_pos (List.isPerm_iff.mpr hperm)]
  cases hequates : m.equates lbody r.2 with
  | true => exact ⟨some m, ⟨.refl hexclusive, hequates, fun _ => rfl⟩, rfl⟩
  | false =>
      refine ⟨m.reordering? left right ldepths lbody r.1 r.2, ?_, ?_⟩
      · split at hreordering
        · next c hc =>
            rw [hc]
            exact ⟨hreordering.1, hreordering.2, fun htrue => by cases hequates.symm.trans htrue⟩
        · next hnone =>
            rw [hnone]
            exact hreordering
      · cases m.reordering? left right ldepths lbody r.1 r.2 <;> rfl

/-- What becomes of a right summation: it follows the first left one over the same layers that it
can be made equal to, if there is one. -/
inductive Follows (m : Matching) (r : List Var × Term) (bs : List (List Var × Term)) :
    Matching → Prop
  | none (h : ∀ b ∈ bs, m.SameLayers b r → ¬m.Attains b r) : Follows m r bs m
  | first {before after : List (List Var × Term)} {b : List Var × Term} {c : Matching}
      (hbs : bs = before ++ b :: after)
      (hbefore : ∀ b' ∈ before, m.SameLayers b' r → ¬m.Attains b' r) (hsame : m.SameLayers b r)
      (hresponse : m.Response b r (some c)) : Follows m r bs c

theorem Follows.cons (h : Follows m r bs c) (hb : m.SameLayers b r → ¬m.Attains b r) :
    Follows m r (b :: bs) c := by
  cases h with
  | none hbs => exact .none (List.forall_mem_cons.mpr ⟨hb, hbs⟩)
  | @first before after b' _ hbs hbefore hsame hresponse =>
      have hcons : b :: bs = (b :: before) ++ b' :: after := by rw [hbs, List.cons_append]
      exact .first hcons (List.forall_mem_cons.mpr ⟨hb, hbefore⟩) hsame hresponse

theorem Follows.rearranged (h : Follows m r bs c) (hm : m.Exclusive) : Rearranged r.1 m c := by
  cases h with
  | none => exact .refl hm
  | first _ _ _ hresponse => exact hresponse.1

theorem alignTo_follows (hnames : (boundNames [left, right]).Nodup) (hr : r ∈ right.binders)
    (hm : m.isValid left right = true) (hrdepths : m.layersOf? r.1 = some rdepths)
    (h : m.alignTo left right rdepths r.1 r.2 bs = .ok c) : Follows m r bs c := by
  induction bs with
  | nil =>
      cases h
      exact .none (by simp)
  | cons b bs ih =>
      by_cases hsame : m.SameLayers b r
      · obtain ⟨o, hresponse, heq⟩ := alignTo_cons_of_sameLayers hnames hr hm hrdepths hsame bs
        rw [heq] at h
        obtain ⟨_, -, h⟩ := Fault.ok_of_bind h
        cases o with
        | none => exact (ih h).cons fun _ => hresponse
        | some c' =>
            cases h
            exact .first (List.nil_append _).symm (by simp) hsame hresponse
      · rw [alignTo_cons_of_not_sameLayers hrdepths hsame] at h
        exact (ih h).cons fun hsame' => absurd hsame' hsame

/-- If all bodies have keys, nothing goes wrong. -/
theorem exists_alignTo (hnames : (boundNames [left, right]).Nodup) (hr : r ∈ right.binders)
    (hm : m.isValid left right = true) (hrdepths : m.layersOf? r.1 = some rdepths)
    (hkeys : ∀ b ∈ bs, b.2.hasKey = true) (hkey : r.2.hasKey = true) :
    ∃ c, m.alignTo left right rdepths r.1 r.2 bs = .ok c := by
  induction bs with
  | nil => exact ⟨m, rfl⟩
  | cons b bs ih =>
      rw [List.forall_mem_cons] at hkeys
      by_cases hsame : m.SameLayers b r
      · obtain ⟨o, -, heq⟩ := alignTo_cons_of_sameLayers hnames hr hm hrdepths hsame bs
        have hrequire : Term.requireKeys [b.2, r.2] = .ok () := by
          simp [Term.requireKeys, hkeys.1, hkey]
        rw [heq, hrequire]
        cases o with
        | none => exact ih hkeys.2
        | some c => exact ⟨c, rfl⟩
      · rw [alignTo_cons_of_not_sameLayers hrdepths hsame]
        exact ih hkeys.2

/-- A right summation that has followed a left one does so when it is looked at again, as long as it
can be made equal to the same left ones and still equals those that it equalled. -/
theorem alignTo_again (hnames : (boundNames [left, right]).Nodup) (hr : r ∈ right.binders)
    (hm : m.isValid left right = true) (hn : n.isValid left right = true)
    (hrdepths : m.layersOf? r.1 = some rdepths) {rdepths' : List ℕ}
    (hrdepths' : n.layersOf? r.1 = some rdepths')
    (hsame : ∀ b ∈ bs, n.SameLayers b r ↔ m.SameLayers b r)
    (hattains : ∀ b ∈ bs, m.SameLayers b r → n.Attains b r → m.Attains b r)
    (hequates : ∀ b ∈ bs, m.SameLayers b r → c.equates b.2 r.2 = true → n.equates b.2 r.2 = true)
    (h : m.alignTo left right rdepths r.1 r.2 bs = .ok c) :
    n.alignTo left right rdepths' r.1 r.2 bs = .ok n := by
  induction bs with
  | nil => rfl
  | cons b bs ih =>
      rw [List.forall_mem_cons] at hsame hattains hequates
      have ih := ih hsame.2 hattains.2 hequates.2
      by_cases hb : m.SameLayers b r
      · obtain ⟨o, hresponse, heq⟩ := alignTo_cons_of_sameLayers hnames hr hm hrdepths hb bs
        obtain ⟨o', hresponse', heq'⟩ :=
          alignTo_cons_of_sameLayers hnames hr hn hrdepths' (hsame.1.mpr hb) bs
        rw [heq] at h
        obtain ⟨_, hkeys, h⟩ := Fault.ok_of_bind h
        rw [heq', hkeys]
        cases o with
        | none =>
            -- Then it cannot be made equal to this one now either.
            cases o' with
            | none => exact ih h
            | some c' => exact absurd (hattains.1 hb ⟨c', hresponse'.1, hresponse'.2.1⟩) hresponse
        | some c' =>
            cases h
            have hnow := hequates.1 hb hresponse.2.1
            cases o' with
            | none => exact absurd (attains_of_equates (isValid_iff.mp hn).1 hnow) hresponse'
            | some c'' => rw [hresponse'.2.2 hnow]; rfl
      · rw [alignTo_cons_of_not_sameLayers hrdepths hb] at h
        rw [alignTo_cons_of_not_sameLayers hrdepths' (mt hsame.1.mp hb)]
        exact ih h

end AlignTo

/-- Whenever the right summation can be made equal to a left one over the same layers, it equals
that one or one before it. -/
def Stays (m : Matching) (bs : List (List Var × Term)) (r : List Var × Term) : Prop :=
  ∀ before b after, bs = before ++ b :: after → m.SameLayers b r → m.Attains b r →
    ∃ b' ∈ before ++ [b], m.SameLayers b' r ∧ m.equates b'.2 r.2 = true

/-- Of two places in a list, one is not after the other. -/
theorem mem_or_mem_of_append_eq {α : Type} {xs ys xs' ys' : List α} {x x' : α}
    (h : xs ++ x :: ys = xs' ++ x' :: ys') : x ∈ xs' ++ [x'] ∨ x' ∈ xs := by
  rcases List.append_eq_append_iff.mp h with ⟨zs, rfl, hzs⟩ | ⟨zs, rfl, hzs⟩ <;>
    cases zs <;> obtain ⟨rfl, -⟩ := List.cons.inj hzs <;> simp

theorem Follows.eq_self_iff {bs : List (List Var × Term)} (h : Follows m r bs c)
    (hm : m.Exclusive) : c = m ↔ m.Stays bs r := by
  cases h with
  | none hnone =>
      refine iff_of_true rfl fun before b after hbs hsame hattains => ?_
      exact absurd hattains (hnone b (by simp [hbs]) hsame)
  | @first before after b _ hbs hbefore hsame hresponse =>
      constructor
      · rintro rfl before' b' after' hbs' hsame' hattains'
        refine ⟨b, ?_, hsame, hresponse.2.1⟩
        exact (mem_or_mem_of_append_eq (hbs.symm.trans hbs')).resolve_right fun hb' =>
          hbefore b' hb' hsame' hattains'
      · intro hstays
        obtain ⟨b', hb', hsame', hequates⟩ :=
          hstays before b after hbs hsame ⟨c, hresponse.1, hresponse.2.1⟩
        rcases List.mem_append.mp hb' with hb' | hb'
        · exact absurd (attains_of_equates hm hequates) (hbefore b' hb' hsame')
        · obtain rfl := List.mem_singleton.mp hb'
          exact hresponse.2.2 hequates

/-- The summation is one that aligning looks at: it has between two and `maxAligned` variables, and
all of them are matched. -/
def Movable (m : Matching) (r : List Var × Term) : Prop :=
  (2 ≤ r.1.length ∧ r.1.length ≤ maxAligned) ∧ m.layersOf? r.1 ≠ none

theorem movable_congr (h : (r.1.map n.layerOf?).Perm (r.1.map m.layerOf?)) :
    n.Movable r ↔ m.Movable r := by
  rw [Movable, Movable, ne_eq, ne_eq, layersOf?_eq_none_iff, layersOf?_eq_none_iff, h.mem_iff]

theorem alignOne_of_not_movable (h : ¬m.Movable r) : m.alignOne left right r = .ok m := by
  rw [alignOne]
  split
  · rfl
  · next hlength =>
      cases hlayers : m.layersOf? r.1 with
      | none => rfl
      | some ds =>
          refine absurd ⟨?_, by simp [hlayers]⟩ h
          omega

theorem alignOne_of_movable (left right : Term) (h : m.Movable r) :
    ∃ rdepths, m.layersOf? r.1 = some rdepths ∧
      m.alignOne left right r = m.alignTo left right rdepths r.1 r.2 left.binders := by
  obtain ⟨hlength, hmatched⟩ := h
  obtain ⟨rdepths, hrdepths⟩ := Option.ne_none_iff_exists'.mp hmatched
  refine ⟨rdepths, hrdepths, ?_⟩
  rw [alignOne, if_neg (by omega), hrdepths]

theorem alignOne_follows (hnames : (boundNames [left, right]).Nodup) (hr : r ∈ right.binders)
    (hm : m.isValid left right = true) (hmovable : m.Movable r)
    (h : m.alignOne left right r = .ok c) : Follows m r left.binders c := by
  obtain ⟨rdepths, hrdepths, heq⟩ := alignOne_of_movable left right hmovable
  exact alignTo_follows hnames hr hm hrdepths (heq ▸ h)

theorem hasKey_of_mem_binders {t : Term} (ht : t.hasKey = true) (hb : b ∈ t.binders) :
    b.2.hasKey = true := by
  obtain ⟨vars, -, hs⟩ := Term.mem_binders.mp hb
  have hsum := Term.hasKey_of_mem_subterms ht hs
  rwa [Term.hasKey] at hsum

theorem exists_alignOne (hnames : (boundNames [left, right]).Nodup) (hr : r ∈ right.binders)
    (hm : m.isValid left right = true) (hleft : left.hasKey = true) (hright : right.hasKey = true) :
    ∃ c, m.alignOne left right r = .ok c := by
  by_cases hmovable : m.Movable r
  · obtain ⟨rdepths, hrdepths, heq⟩ := alignOne_of_movable left right hmovable
    rw [heq]
    exact exists_alignTo hnames hr hm hrdepths (fun b hb => hasKey_of_mem_binders hleft hb)
      (hasKey_of_mem_binders hright hr)
  · exact ⟨m, alignOne_of_not_movable hmovable⟩

/-- One step leaves the matching alone if the summation equals a left one before any other attracts
it. -/
theorem alignOne_eq_self_iff (hnames : (boundNames [left, right]).Nodup) (hr : r ∈ right.binders)
    (hm : m.isValid left right = true) (hleft : left.hasKey = true) (hright : right.hasKey = true) :
    m.alignOne left right r = .ok m ↔ (m.Movable r → m.Stays left.binders r) := by
  by_cases hmovable : m.Movable r
  · obtain ⟨c, hc⟩ := exists_alignOne hnames hr hm hleft hright
    have hfollows := alignOne_follows hnames hr hm hmovable hc
    rw [hc, Except.ok.injEq, hfollows.eq_self_iff (isValid_iff.mp hm).1]
    exact ⟨fun h _ => h, fun h => h hmovable⟩
  · exact iff_of_true (alignOne_of_not_movable hmovable) fun h => absurd h hmovable

/-! ### All right summations -/

theorem isValid_of_rearranged (hnames : (boundNames [left, right]).Nodup) (hr : r ∈ right.binders)
    (hm : m.isValid left right = true) (h : Rearranged r.1 m n) : n.isValid left right = true := by
  obtain ⟨vars, hvars, -⟩ := Term.mem_binders.mp hr
  obtain ⟨rvars, rbody⟩ := r
  obtain rfl : rvars = vars.toList := hvars
  exact h.isValid hnames (List.mem_append_right _ hr) hm

/-- A step exchanges layers among the variables of its summation. -/
theorem rearranged_of_alignOne (hnames : (boundNames [left, right]).Nodup)
    (hr : r ∈ right.binders) (hm : m.isValid left right = true)
    (h : m.alignOne left right r = .ok n) : Rearranged r.1 m n := by
  have hexclusive := (isValid_iff.mp hm).1
  by_cases hmovable : m.Movable r
  · exact (alignOne_follows hnames hr hm hmovable h).rearranged hexclusive
  · rw [alignOne_of_not_movable hmovable] at h
    cases h
    exact .refl hexclusive

/-- Steps change the layers of the variables of their summations only. -/
theorem confined_of_foldlM (hnames : (boundNames [left, right]).Nodup)
    {rs : List (List Var × Term)} (hrs : ∀ r ∈ rs, r ∈ right.binders)
    (hm : m.isValid left right = true) (h : rs.foldlM (alignOne left right) m = .ok n) :
    n.isValid left right = true ∧ Confined (rs.flatMap Prod.fst) m n := by
  induction rs generalizing m with
  | nil =>
      cases h
      exact ⟨hm, .refl _ _⟩
  | cons r rs ih =>
      rw [List.forall_mem_cons] at hrs
      rw [List.foldlM_cons] at h
      obtain ⟨k, hk, h⟩ := Fault.ok_of_bind h
      have hstep := rearranged_of_alignOne hnames hrs.1 hm hk
      obtain ⟨hn, hrest⟩ := ih hrs.2 (isValid_of_rearranged hnames hrs.1 hm hstep) h
      exact ⟨hn, hstep.toConfined.trans hrest⟩

/-- The matchings before and after the turn of a right summation. -/
theorem turn_of_aligned (h : m.aligned left right = .ok n) {before after : List (List Var × Term)}
    (hright : right.binders = before ++ r :: after) :
    ∃ k k', before.foldlM (alignOne left right) m = .ok k ∧ k.alignOne left right r = .ok k' ∧
      after.foldlM (alignOne left right) k' = .ok n := by
  rw [aligned, hright, List.foldlM_append] at h
  obtain ⟨k, hk, h⟩ := Fault.ok_of_bind h
  rw [List.foldlM_cons] at h
  obtain ⟨k', hk', h⟩ := Fault.ok_of_bind h
  exact ⟨k, k', hk, hk', h⟩

/-- What is known of the turn of a right summation, and of those before and after it. -/
theorem exists_step (hnames : (boundNames [left, right]).Nodup) (hm : m.isValid left right = true)
    (h : m.aligned left right = .ok n) {before after : List (List Var × Term)}
    (hright : right.binders = before ++ r :: after) :
    ∃ k k', k.isValid left right = true ∧ k'.isValid left right = true ∧
      Confined (before.flatMap Prod.fst) m k ∧ Rearranged r.1 k k' ∧
      k.alignOne left right r = .ok k' ∧ Confined (after.flatMap Prod.fst) k' n := by
  have hmem : (∀ b ∈ before, b ∈ right.binders) ∧ r ∈ right.binders ∧
      ∀ b ∈ after, b ∈ right.binders := by
    rw [hright]
    exact ⟨fun b hb => by simp [hb], by simp, fun b hb => by simp [hb]⟩
  obtain ⟨k, k', hk, hk', h⟩ := turn_of_aligned h hright
  obtain ⟨hvalid, hbefore⟩ := confined_of_foldlM hnames hmem.1 hm hk
  have hstep := rearranged_of_alignOne hnames hmem.2.1 hvalid hk'
  have hvalid' := isValid_of_rearranged hnames hmem.2.1 hvalid hstep
  obtain ⟨-, hafter⟩ := confined_of_foldlM hnames hmem.2.2 hvalid' h
  exact ⟨k, k', hvalid, hvalid', hbefore, hstep, hk', hafter⟩

/-- The variables of a right summation are not bound before it, nor are they after it. -/
theorem disjoint_binders (hnames : (boundNames [left, right]).Nodup)
    {before after : List (List Var × Term)} (hright : right.binders = before ++ r :: after) :
    (∀ v ∈ before.flatMap Prod.fst, v ∉ r.1 ∧ v ∉ after.flatMap Prod.fst) ∧
      ∀ v ∈ r.1, v ∉ after.flatMap Prod.fst := by
  have hnodup := nodup_binders hnames
  rw [List.flatMap_append, List.nodup_append] at hnodup
  obtain ⟨-, hparts, -⟩ := hnodup
  rw [hright, List.flatMap_append, List.flatMap_cons, List.nodup_append,
    List.nodup_append] at hparts
  obtain ⟨-, ⟨-, -, hr⟩, hbefore⟩ := hparts
  refine ⟨fun v hv => ⟨fun hv' => ?_, fun hv' => ?_⟩, fun v hv hv' => hr v hv v hv' rfl⟩
  · exact hbefore v hv v (List.mem_append_left _ hv') rfl
  · exact hbefore v hv v (List.mem_append_right _ hv') rfl

theorem aligned_of_forall (h : ∀ r ∈ right.binders, m.alignOne left right r = .ok m) :
    m.aligned left right = .ok m := by
  have hfold : ∀ {rs : List (List Var × Term)}, (∀ r ∈ rs, m.alignOne left right r = .ok m) →
      rs.foldlM (alignOne left right) m = .ok m := by
    intro rs hrs
    induction rs with
    | nil => rfl
    | cons r rs ih =>
        rw [List.forall_mem_cons] at hrs
        rw [List.foldlM_cons, hrs.1]
        exact ih hrs.2
  exact hfold h

/-- A matching is aligned if no step changes it: what a step changes is not changed back. -/
theorem aligned_eq_self_iff (hnames : (boundNames [left, right]).Nodup)
    (hm : m.isValid left right = true) :
    m.aligned left right = .ok m ↔ ∀ r ∈ right.binders, m.alignOne left right r = .ok m := by
  constructor
  · intro h r hr
    obtain ⟨before, after, hright⟩ := List.append_of_mem hr
    obtain ⟨k, k', hk, hk', hbefore, hstep, halign, hafter⟩ := exists_step hnames hm h hright
    have hdisjoint := disjoint_binders hnames hright
    have hexclusive := (isValid_iff.mp hm).1
    have hkm : k = m := by
      refine eq_of_layerOf? (isValid_iff.mp hk).1 hexclusive hbefore.depth fun v => ?_
      by_cases hv : v ∈ before.flatMap Prod.fst
      · obtain ⟨hvr, hvafter⟩ := hdisjoint.1 v hv
        rw [← hstep.others v hvr, hafter.others v hvafter]
      · exact hbefore.others v hv
    subst hkm
    have hkm' : k' = k := by
      refine eq_of_layerOf? hstep.exclusive hexclusive hstep.depth fun v => ?_
      by_cases hv : v ∈ r.1
      · exact (hafter.others v (hdisjoint.2 v hv)).symm
      · exact hstep.others v hv
    rwa [hkm'] at halign
  · exact aligned_of_forall

/-- If the terms have keys, the matching can be aligned. -/
theorem exists_aligned (hnames : (boundNames [left, right]).Nodup)
    (hm : m.isValid left right = true) (hleft : left.hasKey = true) (hright : right.hasKey = true) :
    ∃ n, m.aligned left right = .ok n := by
  have hfold : ∀ {rs : List (List Var × Term)} {m : Matching}, (∀ r ∈ rs, r ∈ right.binders) →
      m.isValid left right = true → ∃ n, rs.foldlM (alignOne left right) m = .ok n := by
    intro rs
    induction rs with
    | nil => exact fun _ _ => ⟨_, rfl⟩
    | cons r rs ih =>
        intro m hrs hm
        rw [List.forall_mem_cons] at hrs
        obtain ⟨k, hk⟩ := exists_alignOne hnames hrs.1 hm hleft hright
        have hvalid := isValid_of_rearranged hnames hrs.1 hm
          (rearranged_of_alignOne hnames hrs.1 hm hk)
        rw [List.foldlM_cons, hk]
        exact ih hrs.2 hvalid
  exact hfold (fun _ => id) hm

/-! ### Matchings that make the terms equal -/

/-- No bound name is that of a placeholder, and no layer has two variables of one summation. -/
structure Plain (left right : Term) (m : Matching) : Prop where
  names : ∀ x ∈ boundNames [left, right], ∀ d, x ≠ placeholder d
  layers : ∀ b ∈ left.binders ++ right.binders, ∀ ds, m.layersOf? b.1 = some ds → ds.Nodup

/-- A matching that makes the terms equal is kept exactly if no right summation is attracted by a
left one that comes before all those it equals.  In plain cases each right summation does equal a
left one over the same layers, so that only another left one over these layers can attract it. -/
theorem aligned_of_equates (hnames : (boundNames [left, right]).Nodup)
    (hm : m.isValid left right = true) (hleft : left.hasKey = true) (hright : right.hasKey = true)
    (hequal : m.equates left right = true) :
    (∃ n, m.aligned left right = .ok n) ∧
      (m.aligned left right = .ok m ↔
        ∀ r ∈ right.binders, m.Movable r → m.Stays left.binders r) ∧
      (Plain left right m →
        (∀ r ∈ right.binders, m.Movable r →
          ∃ b ∈ left.binders, m.SameLayers b r ∧ m.equates b.2 r.2 = true) ∧
        (left.binders.Pairwise (fun b b' => ¬m.SameLayers b b') →
          m.aligned left right = .ok m)) := by
  have hkept : m.aligned left right = .ok m ↔
      ∀ r ∈ right.binders, m.Movable r → m.Stays left.binders r := by
    rw [aligned_eq_self_iff hnames hm]
    exact forall₂_congr fun r hr => alignOne_eq_self_iff hnames hr hm hleft hright
  refine ⟨exists_aligned hnames hm hleft hright, hkept, fun hplain => ?_⟩
  have hpartner : ∀ r ∈ right.binders, m.Movable r →
      ∃ b ∈ left.binders, m.SameLayers b r ∧ m.equates b.2 r.2 = true := fun r hr hmovable =>
    exists_partner hnames hplain.names hm hplain.layers hequal hr hmovable.2
  refine ⟨hpartner, fun hapart => hkept.mpr fun r hr hmovable before b after hbs hsame _ => ?_⟩
  -- The partner is the only left summation over these layers.
  obtain ⟨b', hb', hsame', hequates⟩ := hpartner r hr hmovable
  have hsymm : Std.Symm fun b b' => ¬m.SameLayers b b' := ⟨fun _ _ h h' => h h'.symm⟩
  obtain rfl : b' = b := by
    by_contra hne
    exact hapart.forall hb' (by simp [hbs]) hne (hsame'.trans hsame.symm)
  exact ⟨b', by simp, hsame', hequates⟩

/-- The rows of two terms, matched one by one. -/
def oneByOne : Matching :=
  ⟨[.ofList [.base "x#0", .base "x#2"], .ofList [.base "y#1", .base "y#3"]]⟩

theorem aligned_of_equates_twoRows :
    (boundNames [Term.twoRows "x#0" "y#1" .zero, Term.twoRows "x#2" "y#3" .zero]).Nodup ∧
      oneByOne.isValid (.twoRows "x#0" "y#1" .zero) (.twoRows "x#2" "y#3" .zero) = true ∧
      oneByOne.equates (.twoRows "x#0" "y#1" .zero) (.twoRows "x#2" "y#3" .zero) = true ∧
      oneByOne.aligned (.twoRows "x#0" "y#1" .zero) (.twoRows "x#2" "y#3" .zero) =
        .ok oneByOne := by
  have hnames : (boundNames [Term.twoRows "x#0" "y#1" .zero,
      Term.twoRows "x#2" "y#3" .zero]).Nodup := by decide +kernel
  have hvalid : oneByOne.isValid (.twoRows "x#0" "y#1" .zero)
      (.twoRows "x#2" "y#3" .zero) = true := by decide +kernel
  have hequates : oneByOne.equates (.twoRows "x#0" "y#1" .zero)
      (.twoRows "x#2" "y#3" .zero) = true := by decide +kernel
  obtain ⟨-, -, h⟩ := aligned_of_equates hnames hvalid (by decide) (by decide) hequates
  refine ⟨hnames, hvalid, hequates, (h ⟨?_, ?_⟩).2 (List.pairwise_singleton _ _)⟩
  · have hl : (Term.twoRows "x" "y" .zero).freshen ⟨.empty, 0⟩ =
        .ok (.twoRows "x#0" "y#1" .zero, ⟨.empty, 2⟩) := rfl
    have hr : (Term.twoRows "x" "y" .zero).freshen ⟨.empty, 2⟩ =
        .ok (.twoRows "x#2" "y#3" .zero, ⟨.empty, 4⟩) := rfl
    intro x hx
    obtain ⟨b, hb, rfl⟩ := List.mem_map.mp hx
    exact (Term.wellNamed_of_freshen hl hr).fresh b (by simpa using hb)
  · have hlayers : ∀ b ∈ (Term.twoRows "x#0" "y#1" .zero).binders ++
        (Term.twoRows "x#2" "y#3" .zero).binders, oneByOne.layersOf? b.1 = some [0, 1] := by
      decide +kernel
    intro b hb ds hds
    obtain rfl := Option.some.inj ((hlayers b hb).symm.trans hds)
    decide

end Matching

/-- Two sums over pairs of rows. -/
def Term.twoSums (x y z w : String) : Term :=
  .add [.twoRows x y (.ofWord 1), .twoRows z w (.ofWord 1)]

/-- A sum over pairs of rows inside another one. -/
def Term.nestedRows (x y z w : String) : Term :=
  .sum (.ofList [.base x, .base y]) (.mul [.table "r" (.base x), .table "r" (.base y),
    .pred .lt [.var (.proj "a" x), .const (.ofWord 1)], .twoRows z w (.ofWord 1)])

namespace Matching

variable {m n c : Matching} {left right : Term} {r b : List Var × Term}

/-- The right summations equal the left ones, each that in the same place. -/
def inPlace : Matching :=
  ⟨[.ofList [.base "x1", .base "x3", .base "y1", .base "y3"],
    .ofList [.base "x2", .base "x4", .base "y2", .base "y4"]]⟩

/-- Both right summations equal the first left one. -/
def attracted : Matching :=
  ⟨[.ofList [.base "x1", .base "x3", .base "y1", .base "y4"],
    .ofList [.base "x2", .base "x4", .base "y2", .base "y3"]]⟩

/-- A right summation that equals the second left one is attracted by the first one, and then the
terms are not equal any more. -/
theorem aligned_inPlace :
    (boundNames [Term.twoSums "x1" "x2" "x4" "x3", Term.twoSums "y1" "y2" "y4" "y3"]).Nodup ∧
      inPlace.isValid (.twoSums "x1" "x2" "x4" "x3") (.twoSums "y1" "y2" "y4" "y3") = true ∧
      (Term.twoSums "x1" "x2" "x4" "x3").hasKey = true ∧
      (Term.twoSums "y1" "y2" "y4" "y3").hasKey = true ∧
      inPlace.equates (.twoSums "x1" "x2" "x4" "x3") (.twoSums "y1" "y2" "y4" "y3") = true ∧
      inPlace.aligned (.twoSums "x1" "x2" "x4" "x3") (.twoSums "y1" "y2" "y4" "y3") =
        .ok attracted ∧
      attracted ≠ inPlace ∧
      attracted.equates (.twoSums "x1" "x2" "x4" "x3") (.twoSums "y1" "y2" "y4" "y3") = false :=
  ⟨by decide +kernel, by decide +kernel, rfl, rfl, by decide +kernel, by decide +kernel, by decide,
    by decide +kernel⟩

/-! ### Aligning again -/

theorem notMem_of_mem_left (hnames : (boundNames [left, right]).Nodup) {b : List Var × Term}
    (hb : b ∈ left.binders) {v : Var} (hv : v ∈ b.1) : v ∉ right.binders.flatMap Prod.fst := by
  have hnodup := nodup_binders hnames
  rw [List.flatMap_append, List.nodup_append] at hnodup
  exact fun hv' => hnodup.2.2 v (List.mem_flatMap.mpr ⟨b, hb, hv⟩) v hv' rfl

/-- A step has nothing more to do, if what was changed after it leaves alone the left summations,
the variables of its own summation and the names in the bodies that it compares. -/
theorem alignOne_again {k : Matching} (hnames : (boundNames [left, right]).Nodup)
    (hr : r ∈ right.binders) (hm : m.isValid left right = true) (hn : n.isValid left right = true)
    (halign : m.alignOne left right r = .ok k) (hdepth : n.depth = k.depth)
    (hown : ∀ v ∈ r.1, n.layerOf? v = k.layerOf? v)
    (hleft : ∀ b ∈ left.binders, ∀ v ∈ b.1, n.layerOf? v = m.layerOf? v)
    (hbodies : m.Movable r → ∀ b ∈ left.binders, m.SameLayers b r →
      ∀ v, n.layerOf? v ≠ k.layerOf? v →
        v.tuple ∉ b.2.names ∧ v.tuple ∉ r.2.names ∧ ∀ d, v.tuple ≠ placeholder d) :
    n.alignOne left right r = .ok n := by
  have hstep := rearranged_of_alignOne hnames hr hm halign
  have hnexclusive := (isValid_iff.mp hn).1
  have hlayers : (r.1.map n.layerOf?).Perm (r.1.map m.layerOf?) := by
    rw [List.map_congr_left hown]
    exact hstep.perm
  by_cases hnmovable : n.Movable r
  · have hmovable := (movable_congr hlayers).mp hnmovable
    obtain ⟨rdepths, hrdepths, heq⟩ := alignOne_of_movable left right hmovable
    obtain ⟨rdepths', hrdepths', heq'⟩ := alignOne_of_movable left right hnmovable
    have hsame : ∀ b ∈ left.binders, n.SameLayers b r ↔ m.SameLayers b r := fun b hb =>
      ⟨sameLayers_congr (hleft b hb) hlayers,
        sameLayers_congr (fun v hv => (hleft b hb v hv).symm) hlayers.symm⟩
    rw [heq']
    refine alignTo_again hnames hr hm hn hrdepths hrdepths' hsame ?_ ?_ (heq ▸ halign)
    · -- The same exchange could have been made before.
      rintro b hb hsame' ⟨c, hc, hequates⟩
      obtain ⟨vars, hvars, -⟩ := Term.mem_binders.mp hr
      obtain ⟨c', hc', hagree⟩ := hc.transfer hstep.exclusive (hvars ▸ vars.nodup) hrdepths'
        fun v hv => (hown v hv).symm
      refine ⟨c', hstep.trans hc', ?_⟩
      rw [← hequates]
      refine equates_congr hc.exclusive hc'.exclusive
        (hc'.depth.trans (hdepth.symm.trans hc.depth.symm)) fun v hv => ?_
      refine hbodies hmovable b hb hsame' v fun heq => hv ?_
      by_cases hvr : v ∈ r.1
      · exact hagree v hvr
      · rw [hc'.others v hvr, hc.others v hvr, heq]
    · intro b hb hsame' hequates
      rw [equates_congr hstep.exclusive hnexclusive hdepth (hbodies hmovable b hb hsame')]
      exact hequates
  · exact alignOne_of_not_movable hnmovable

/-- No variable that is moved occurs in a body that was compared before it was moved, and none has
the name of a placeholder. -/
def Undisturbed (left right : Term) (m n : Matching) : Prop :=
  ∀ before r after, right.binders = before ++ r :: after → m.Movable r →
    ∀ b ∈ left.binders, m.SameLayers b r → ∀ v ∈ after.flatMap Prod.fst,
      n.layerOf? v ≠ m.layerOf? v →
        v.tuple ∉ b.2.names ∧ v.tuple ∉ r.2.names ∧ ∀ d, v.tuple ≠ placeholder d

/-- If nothing that was compared has been disturbed, aligning again changes nothing. -/
theorem aligned_aligned (hnames : (boundNames [left, right]).Nodup)
    (hm : m.isValid left right = true) (h : m.aligned left right = .ok n)
    (hcalm : Undisturbed left right m n) : n.aligned left right = .ok n := by
  obtain ⟨hn, -⟩ := confined_of_foldlM hnames (fun _ => id) hm h
  refine aligned_of_forall fun r hr => ?_
  obtain ⟨before, after, hright⟩ := List.append_of_mem hr
  obtain ⟨k, k', hk, hk', hbefore, hstep, halign, hafter⟩ := exists_step hnames hm h hright
  have hdisjoint := disjoint_binders hnames hright
  have hown : ∀ v ∈ r.1, k.layerOf? v = m.layerOf? v := fun v hv =>
    hbefore.others v fun hv' => (hdisjoint.1 v hv').1 hv
  have hleft : ∀ b ∈ left.binders, ∀ v ∈ b.1,
      k.layerOf? v = m.layerOf? v ∧ n.layerOf? v = k.layerOf? v := by
    intro b hb v hv
    have hout := notMem_of_mem_left hnames hb hv
    rw [hright, List.flatMap_append, List.flatMap_cons, List.mem_append, List.mem_append, not_or,
      not_or] at hout
    exact ⟨hbefore.others v hout.1, (hafter.others v hout.2.2).trans (hstep.others v hout.2.1)⟩
  refine alignOne_again hnames hr hk hn halign hafter.depth
    (fun v hv => hafter.others v (hdisjoint.2 v hv)) (fun b hb v hv => (hleft b hb v hv).2) ?_
  intro hmovable b hb hsame v hv
  have hvafter : v ∈ after.flatMap Prod.fst := by
    by_contra hout
    exact hv (hafter.others v hout)
  have hlayers : (r.1.map k.layerOf?).Perm (r.1.map m.layerOf?) :=
    .of_eq (List.map_congr_left hown)
  refine hcalm before r after hright ((movable_congr hlayers).mp hmovable) b hb ?_ v hvafter
    fun heq => hv ?_
  · exact sameLayers_congr (fun v hv => (hleft b hb v hv).1) hlayers hsame
  · -- A variable of a later summation has its old layer after this step.
    have hvr : v ∉ r.1 := fun hvr => hdisjoint.2 v hvr hvafter
    have hvbefore : v ∉ before.flatMap Prod.fst := fun hvb => (hdisjoint.1 v hvb).2 hvafter
    rw [heq, hstep.others v hvr, hbefore.others v hvbefore]

/-- Both right summations are crossed. -/
def crossedTwice : Matching :=
  ⟨[.ofList [.base "x#0", .base "x#2", .base "y#5", .base "y#7"],
    .ofList [.base "y#1", .base "y#3", .base "x#4", .base "x#6"]]⟩

/-- Neither right summation is crossed. -/
def uncrossed : Matching :=
  ⟨[.ofList [.base "x#0", .base "x#2", .base "x#4", .base "x#6"],
    .ofList [.base "y#1", .base "y#3", .base "y#5", .base "y#7"]]⟩

theorem aligned_aligned_crossedTwice :
    (boundNames [Term.twoSums "x#0" "y#1" "x#2" "y#3",
        Term.twoSums "x#4" "y#5" "x#6" "y#7"]).Nodup ∧
      crossedTwice.isValid (.twoSums "x#0" "y#1" "x#2" "y#3")
        (.twoSums "x#4" "y#5" "x#6" "y#7") = true ∧
      crossedTwice.aligned (.twoSums "x#0" "y#1" "x#2" "y#3")
        (.twoSums "x#4" "y#5" "x#6" "y#7") = .ok uncrossed ∧
      Undisturbed (.twoSums "x#0" "y#1" "x#2" "y#3") (.twoSums "x#4" "y#5" "x#6" "y#7")
        crossedTwice uncrossed ∧
      uncrossed.aligned (.twoSums "x#0" "y#1" "x#2" "y#3")
        (.twoSums "x#4" "y#5" "x#6" "y#7") = .ok uncrossed := by
  have hnames : (boundNames [Term.twoSums "x#0" "y#1" "x#2" "y#3",
      Term.twoSums "x#4" "y#5" "x#6" "y#7"]).Nodup := by decide +kernel
  have hvalid : crossedTwice.isValid (.twoSums "x#0" "y#1" "x#2" "y#3")
      (.twoSums "x#4" "y#5" "x#6" "y#7") = true := by decide +kernel
  have haligned : crossedTwice.aligned (.twoSums "x#0" "y#1" "x#2" "y#3")
      (.twoSums "x#4" "y#5" "x#6" "y#7") = .ok uncrossed := by decide +kernel
  have hcalm : Undisturbed (.twoSums "x#0" "y#1" "x#2" "y#3") (.twoSums "x#4" "y#5" "x#6" "y#7")
      crossedTwice uncrossed := by
    have hplaceholder : ∀ v ∈ (Term.twoSums "x#4" "y#5" "x#6" "y#7").binders.flatMap Prod.fst,
        ∀ d, v.tuple ≠ placeholder d := by
      have hl : (Term.twoSums "x" "y" "x" "y").freshen ⟨.empty, 0⟩ =
          .ok (.twoSums "x#0" "y#1" "x#2" "y#3", ⟨.empty, 4⟩) := rfl
      have hr : (Term.twoSums "x" "y" "x" "y").freshen ⟨.empty, 4⟩ =
          .ok (.twoSums "x#4" "y#5" "x#6" "y#7", ⟨.empty, 8⟩) := rfl
      intro v hv
      obtain ⟨b, hb, heq⟩ := List.mem_map.mp
        ((Term.binders_names_perm _).subset (List.mem_map_of_mem hv))
      exact heq ▸ (Term.wellNamed_of_freshen hl hr).fresh b (List.mem_append_right _ hb)
    -- The variables of the second summation occur in no other, and there is none after it.
    obtain ⟨r₁, r₂, hbinders, hown⟩ : ∃ r₁ r₂,
        (Term.twoSums "x#4" "y#5" "x#6" "y#7").binders = [r₁, r₂] ∧
          ∀ b ∈ (Term.twoSums "x#0" "y#1" "x#2" "y#3").binders ++ [r₁], ∀ v ∈ r₂.1,
            v.tuple ∉ b.2.names := ⟨_, _, rfl, by decide +kernel⟩
    intro before r after hright _ b hb _ v hv _
    have hout := hplaceholder v (hright ▸ by simp [hv])
    rw [hbinders] at hright
    rcases before with _ | ⟨_, _ | _⟩
    · obtain ⟨rfl, rfl⟩ : r₁ = r ∧ [r₂] = after := by simpa using hright
      have hv : v ∈ r₂.1 := by simpa using hv
      exact ⟨hown b (List.mem_append_left _ hb) v hv, hown r₁ (by simp) v hv, hout⟩
    · obtain ⟨-, -, rfl⟩ : _ ∧ r₂ = r ∧ after = [] := by simpa using hright
      cases hv
    · simp at hright
  exact ⟨hnames, hvalid, haligned, hcalm, aligned_aligned hnames hvalid haligned hcalm⟩

/-- Both the outer and the inner right summation are crossed. -/
def crossed : Matching :=
  ⟨[.ofList [.base "x1", .base "y2"], .ofList [.base "x2", .base "y1"],
    .ofList [.base "w1", .base "z2"], .ofList [.base "w2", .base "z1"]]⟩

/-- The outer right summation is crossed, and the inner one is not. -/
def crossedOutside : Matching :=
  ⟨[.ofList [.base "x1", .base "y2"], .ofList [.base "x2", .base "y1"],
    .ofList [.base "w1", .base "z1"], .ofList [.base "w2", .base "z2"]]⟩

/-- Neither the outer nor the inner right summation is crossed. -/
def straight : Matching :=
  ⟨[.ofList [.base "x1", .base "y1"], .ofList [.base "x2", .base "y2"],
    .ofList [.base "w1", .base "z1"], .ofList [.base "w2", .base "z2"]]⟩

/-- The outer summation cannot follow the left one as long as the inner one does not; when the inner
one does, it is too late for the outer one. -/
theorem aligned_crossed :
    (boundNames [Term.nestedRows "x1" "x2" "w1" "w2",
        Term.nestedRows "y1" "y2" "z1" "z2"]).Nodup ∧
      crossed.isValid (.nestedRows "x1" "x2" "w1" "w2") (.nestedRows "y1" "y2" "z1" "z2") = true ∧
      crossed.aligned (.nestedRows "x1" "x2" "w1" "w2") (.nestedRows "y1" "y2" "z1" "z2") =
        .ok crossedOutside ∧
      crossedOutside.aligned (.nestedRows "x1" "x2" "w1" "w2")
        (.nestedRows "y1" "y2" "z1" "z2") = .ok straight ∧
      straight ≠ crossedOutside ∧
      straight.equates (.nestedRows "x1" "x2" "w1" "w2")
        (.nestedRows "y1" "y2" "z1" "z2") = true :=
  ⟨by decide +kernel, by decide +kernel, by decide +kernel, by decide +kernel, by decide,
    by decide +kernel⟩

end Matching

end BagEquiv
