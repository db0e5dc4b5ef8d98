/-
**Freshened terms are variants of the terms.**

Freshening gives every bound tuple its own name, a number sign and a number.  If no name has a
number sign before, the new names clash with nothing, and the freshened term stands for the same as
the term.  A number sign comes before all letters and digits, so names mostly stay in order; where
they do not, the variables of a summation are gone through in another order, and checked arithmetic
may overflow in one order and not in the other.

Main definition:

* `Term.Supply.Extends` — the schemas of given names, and of those made so far.

Main result:

* `Term.freshen_sameReadings` — **terms that are freshened in turn keep their values, and
  all the tuples they bind are different**.
-/

import BagEquiv.Proofs.AlphaRenaming
import BagEquiv.Proofs.BagMeaning
import BagEquiv.Proofs.ReportedTuples

set_option autoImplicit false

namespace BagEquiv

namespace Term

/-! ### Numbered names -/

/-- The name that freshening makes of a name and a number. -/
def freshName (x : String) (n : ℕ) : String := x ++ "#" ++ toString n

/-- The name has no number sign. -/
def Unmarked (x : String) : Prop := '#' ∉ x.toList

theorem toList_freshName (x : String) (n : ℕ) :
    (freshName x n).toList = x.toList ++ '#' :: (toString n).toList := by
  simp [freshName]

theorem not_unmarked_freshName (x : String) (n : ℕ) : ¬ Unmarked (freshName x n) := by
  rw [Unmarked, toList_freshName]
  simp

theorem freshName_inj {x y : String} {m n : ℕ} (h : freshName x m = freshName y n) :
    x = y ∧ m = n := by
  obtain ⟨hname, hnumber⟩ := (unnumbered_append unnumbered_sign).append_inj
    (unnumbered_append unnumbered_sign) h
  refine ⟨String.toList_inj.mp ?_, hnumber⟩
  have hlist := congrArg String.toList hname
  rw [String.toList_append, String.toList_append] at hlist
  exact List.append_cancel_right hlist

/-- A number sign and a number keep names in order whose characters come behind the number sign. -/
theorem freshName_lt {x y : String} (h : x < y) (hy : ∀ c ∈ y.toList, '#' < c) (m n : ℕ) :
    freshName x m < freshName y n := by
  have append : ∀ {as bs : List Char} (cs ds : List Char), as < bs → (∀ c ∈ bs, '#' < c) →
      as ++ '#' :: cs < bs ++ '#' :: ds := by
    intro as bs cs ds h hbs
    induction h with
    | nil => exact .rel (hbs _ List.mem_cons_self)
    | rel h => exact .rel h
    | cons _ ih => exact .cons (ih fun c hc => hbs c (List.mem_cons_of_mem _ hc))
  rw [String.lt_iff_toList_lt, toList_freshName, toList_freshName]
  exact append _ _ (String.lt_iff_toList_lt.mp h) hy

/-! ### Supplies -/

namespace Supply

/-- The names without number signs have the schemas `S`, and the names that may still be made have
none. -/
structure Extends (S : SchemaMap) (s : Supply) : Prop where
  kept : ∀ x, Unmarked x → s.schemas.get? x = S.get? x
  unused : ∀ x n, s.next.toNat ≤ n → s.schemas.get? (freshName x n) = none

/-- What is known of the names that the first supply has made stays known. -/
structure Precedes (s t : Supply) : Prop where
  next_le : s.next.toNat ≤ t.next.toNat
  known : ∀ x n, n < s.next.toNat →
    t.schemas.get? (freshName x n) = s.schemas.get? (freshName x n)

theorem Precedes.refl (s : Supply) : s.Precedes s := ⟨Nat.le_refl _, fun _ _ _ => rfl⟩

theorem Precedes.trans {s t u : Supply} (h : s.Precedes t) (h' : t.Precedes u) : s.Precedes u where
  next_le := Nat.le_trans h.next_le h'.next_le
  known x n hn := (h'.known x n (Nat.lt_of_lt_of_le hn h.next_le)).trans (h.known x n hn)

variable {S : SchemaMap} {s t : Supply} {base name : String}

theorem get?_of_fresh (hs : s.Extends S) (h : s.fresh base = .ok (name, t)) (x : String) :
    t.schemas.get? x = if x = name then s.schemas.get? base else s.schemas.get? x := by
  have hname : s.schemas.get? name = none := by
    rw [(fresh_ok h).1]
    exact hs.unused base _ (Nat.le_refl _)
  unfold fresh at h
  dsimp only at h
  split at h
  · cases h
    dsimp only
    split
    · next hschema => rw [NameMap.get?_insert, hschema]
    · next hschema =>
        split
        · next hx => rw [hx, hname, hschema]
        · rfl
  · cases h

theorem fresh_extends (hs : s.Extends S) (hbase : Unmarked base)
    (h : s.fresh base = .ok (name, t)) :
    t.Extends S ∧ s.Precedes t ∧ t.schemas.get? name = S.get? base := by
  obtain ⟨hname, hnext⟩ : name = freshName base s.next.toNat ∧ _ := fresh_ok h
  have hget := get?_of_fresh hs h
  have hother : ∀ x n, n ≠ s.next.toNat →
      t.schemas.get? (freshName x n) = s.schemas.get? (freshName x n) := by
    intro x n hn
    rw [hget, if_neg fun heq => hn (freshName_inj (heq.trans hname)).2]
  refine ⟨⟨fun x hx => ?_, fun x n hn => ?_⟩, ⟨by omega, fun x n hn => ?_⟩, ?_⟩
  · have hne : x ≠ name := by
      rintro rfl
      exact not_unmarked_freshName base s.next.toNat (hname ▸ hx)
    rw [hget, if_neg hne]
    exact hs.kept x hx
  · rw [hother x n (by omega)]
    exact hs.unused x n (by omega)
  · exact hother x n (by omega)
  · rw [hget, if_pos rfl, hs.kept base hbase]

end Supply

/-- What fresh names for the tuples of variables are. -/
structure FreshFor (S : SchemaMap) (s t : Supply) (xs : List String)
    (names : List (String × String)) : Prop where
  sources : names.map Prod.fst = xs
  numbered : ∀ r ∈ names, ∃ n, r.2 = freshName r.1 n ∧ s.next.toNat ≤ n ∧ n < t.next.toNat
  schemas : ∀ r ∈ names, t.schemas.get? r.2 = S.get? r.1

variable {S S' : SchemaMap}

theorem freshNames_extends {vs : List Var} {s t : Supply} {names : List (String × String)}
    (hs : s.Extends S) (hvs : ∀ v ∈ vs, Unmarked v.tuple) (h : freshNames vs s = .ok (names, t)) :
    t.Extends S ∧ s.Precedes t ∧ FreshFor S s t (vs.map Var.tuple) names := by
  induction vs generalizing s names with
  | nil =>
      cases h
      exact ⟨hs, .refl _, rfl, by simp, by simp⟩
  | cons v vs ih =>
      rw [List.forall_mem_cons] at hvs
      obtain ⟨⟨name, s₁⟩, hname, ⟨names', s₂⟩, hnames, h⟩ := Fault.ok_of_bind₂ h
      cases h
      obtain ⟨hform, hnext⟩ := Supply.fresh_ok hname
      obtain ⟨hs₁, hle, hschema⟩ := Supply.fresh_extends hs hvs.1 hname
      obtain ⟨hs₂, hle', hrest⟩ := ih hs₁ hvs.2 hnames
      refine ⟨hs₂, hle.trans hle', ?_, List.forall_mem_cons.mpr ⟨?_, fun r hr => ?_⟩,
        List.forall_mem_cons.mpr ⟨?_, hrest.schemas⟩⟩
      · rw [List.map_cons, List.map_cons, hrest.sources]
      · exact ⟨s.next.toNat, hform, Nat.le_refl _, by have := hle'.next_le; omega⟩
      · obtain ⟨n, hn, hlo, hhi⟩ := hrest.numbered r hr
        exact ⟨n, hn, by omega, hhi⟩
      · have hknown := hle'.known v.tuple s.next.toNat (by omega)
        rw [← hschema, hform]
        exact hknown

/-- Freshening the term keeps the schemas of given names and of those made before. -/
def Keeps (S : SchemaMap) (t : Term) : Prop :=
  ∀ {ρ : Renaming} {t' : Term} {s u : Supply}, s.Extends S → (∀ x ∈ t.names, Unmarked x) →
    freshenWith ρ t s = .ok (t', u) → u.Extends S ∧ s.Precedes u

theorem freshenList_extends {ts ts' : List Term} {ρ : Renaming} {s u : Supply} (hs : s.Extends S)
    (hkeeps : ∀ t ∈ ts, Keeps S t) (hts : ∀ x ∈ namesAll ts, Unmarked x)
    (h : freshenList ρ ts s = .ok (ts', u)) : u.Extends S ∧ s.Precedes u := by
  induction ts generalizing ts' s with
  | nil =>
      cases h
      exact ⟨hs, .refl _⟩
  | cons t ts ih =>
      rw [List.forall_mem_cons] at hkeeps
      rw [namesAll, List.forall_mem_append] at hts
      obtain ⟨⟨t', s₁⟩, ht, ⟨ts'', s₂⟩, hts', h⟩ := Fault.ok_of_bind₂ h
      cases h
      obtain ⟨hs₁, hle⟩ := hkeeps.1 hs hts.1 ht
      obtain ⟨hs₂, hle'⟩ := ih hs₁ hkeeps.2 hts.2 hts'
      exact ⟨hs₂, hle.trans hle'⟩

theorem freshenWith_extends (t : Term) : Keeps S t := by
  intro ρ t' s u hs ht h
  induction t using Term.induct generalizing ρ t' s u with
  | sum vars body ih =>
      rw [names, List.forall_mem_append, List.forall_mem_map] at ht
      obtain ⟨⟨names', s₁⟩, hnames, ⟨body', s₂⟩, hbody, h⟩ := Fault.ok_of_bind₂ h
      cases h
      obtain ⟨hs₁, hle, _⟩ := freshNames_extends hs ht.1 hnames
      obtain ⟨hs₂, hle'⟩ := ih hs₁ ht.2 hbody
      exact ⟨hs₂, hle.trans hle'⟩
  | add ts ih | mul ts ih | pred _ ts ih | func _ ts ih =>
      obtain ⟨⟨ts', s₁⟩, hts, h⟩ := Fault.ok_of_bind h
      cases h
      exact freshenList_extends hs ih ht hts
  | neg t ih | squash t ih =>
      obtain ⟨⟨t₁, s₁⟩, ht₁, h⟩ := Fault.ok_of_bind h
      cases h
      exact ih hs ht ht₁
  | var | const | table | str =>
      cases h
      exact ⟨hs, .refl _⟩

/-! ### Renamings -/

namespace Renaming

/-- The name that the renamings lead to, one after the other. -/
def nameOf (ρ : Renaming) (x : String) : String :=
  ρ.foldl (fun x r => World.renamed r.1 r.2 x) x

theorem apply_eq (ρ : Renaming) (v : Var) : ρ.apply v = v.mapTuple ρ.nameOf := by
  induction ρ generalizing v with
  | nil => exact v.mapTuple_id.symm
  | cons r ρ ih =>
      change Renaming.apply ρ (v.renamed r.1 r.2) = _
      rw [ih, v.renamed_eq]
      cases v <;> rfl

theorem nameOf_append (ρ ρ' : Renaming) (x : String) :
    nameOf (ρ ++ ρ') x = nameOf ρ' (nameOf ρ x) := List.foldl_append

/-- Names without number signs are renamed to numbered ones. -/
def Numbers (ρ : Renaming) : Prop := ∀ r ∈ ρ, Unmarked r.1 ∧ ∃ n, r.2 = freshName r.1 n

variable {ρ : Renaming} {x : String}

theorem nameOf_of_forall_ne (h : ∀ r ∈ ρ, r.1 ≠ x) : ρ.nameOf x = x := by
  induction ρ with
  | nil => rfl
  | cons r ρ ih =>
      rw [List.forall_mem_cons] at h
      change nameOf ρ (World.renamed r.1 r.2 x) = x
      rw [World.renamed, if_neg (Ne.symm h.1), ih h.2]

theorem Numbers.nameOf_freshName (h : ρ.Numbers) (x : String) (n : ℕ) :
    ρ.nameOf (freshName x n) = freshName x n :=
  nameOf_of_forall_ne fun r hr heq => not_unmarked_freshName x n (heq ▸ (h r hr).1)

/-- A name is renamed at most once. -/
theorem Numbers.nameOf_cons (r : String × String) (h : Numbers (r :: ρ)) (x : String) :
    nameOf (r :: ρ) x = if x = r.1 then r.2 else ρ.nameOf x := by
  obtain ⟨⟨-, n, hn⟩, hρ⟩ := List.forall_mem_cons.mp h
  change nameOf ρ (World.renamed r.1 r.2 x) = _
  rw [World.renamed]
  split
  · rw [hn]
    exact Numbers.nameOf_freshName hρ r.1 n
  · rfl

/-- Where renamings lead: the name stays, or it gets a number. -/
theorem Numbers.nameOf_cases (h : ρ.Numbers) (x : String) :
    ρ.nameOf x = x ∨ ∃ n, ρ.nameOf x = freshName x n := by
  induction ρ with
  | nil => exact .inl rfl
  | cons r ρ ih =>
      rw [Numbers.nameOf_cons r h]
      split
      · next hx =>
          subst hx
          exact .inr (h r List.mem_cons_self).2
      · exact ih (List.forall_mem_cons.mp h).2

theorem Numbers.nameOf_of_mem (h : ρ.Numbers) (hnodup : (ρ.map Prod.fst).Nodup)
    {r : String × String} (hr : r ∈ ρ) : ρ.nameOf r.1 = r.2 := by
  induction ρ with
  | nil => exact absurd hr List.not_mem_nil
  | cons q ρ ih =>
      rw [List.map_cons, List.nodup_cons] at hnodup
      rw [Numbers.nameOf_cons q h]
      rcases List.mem_cons.mp hr with rfl | hr
      · rw [if_pos rfl]
      · have hne : r.1 ≠ q.1 := fun heq => hnodup.1 (heq ▸ List.mem_map_of_mem hr)
        rw [if_neg hne]
        exact ih (List.forall_mem_cons.mp h).2 hnodup.2 hr

theorem Numbers.under (h : ρ.Numbers) (vars : VarSet) : (ρ.under vars).Numbers :=
  fun r hr => h r (List.mem_filter.mp hr).1

theorem nameOf_under_of_mem (vars : VarSet) (hx : x ∈ vars.tuples) :
    (ρ.under vars).nameOf x = x := by
  refine nameOf_of_forall_ne fun r hr heq => ?_
  have hbound := (List.mem_filter.mp hr).2
  rw [heq, bound_iff.mpr hx] at hbound
  cases hbound

theorem Numbers.nameOf_under (h : ρ.Numbers) (vars : VarSet) (hx : x ∉ vars.tuples) :
    (ρ.under vars).nameOf x = ρ.nameOf x := by
  induction ρ with
  | nil => rfl
  | cons r ρ ih =>
      have hρ : Numbers ρ := (List.forall_mem_cons.mp h).2
      rw [Numbers.nameOf_cons r h, Renaming.under, List.filter_cons]
      split
      · next hkeep =>
          have hunder : Numbers (r :: Renaming.under ρ vars) :=
            List.forall_mem_cons.mpr ⟨h r List.mem_cons_self, Numbers.under hρ vars⟩
          exact (Numbers.nameOf_cons r hunder x).trans (by rw [ih hρ])
      · next hdrop =>
          have hne : x ≠ r.1 := by
            rintro rfl
            exact hdrop (by simpa [Bool.not_eq_true'] using fun hb => hx (bound_iff.mp hb))
          rw [if_neg hne]
          exact ih hρ

end Renaming

/-! ### The variables of a freshened summation -/

theorem ofList_perm {vs : List Var} (h : vs.Nodup) : (VarSet.ofList vs).toList.Perm vs :=
  (List.perm_ext_iff_of_nodup (VarSet.nodup _) h).mpr fun _ => VarSet.mem_ofList

/-- A list that is in order is the list of its set. -/
theorem toList_ofList {vs : List Var} (h : vs.Pairwise (· < ·)) :
    (VarSet.ofList vs).toList = vs := by
  have hperm := ofList_perm (VarSet.nodup ⟨vs, h⟩)
  refine hperm.eq_of_pairwise (fun a b _ _ hab hba => ?_) (VarSet.sorted _) h
  exact absurd (Var.lt_trans hab hba) (Var.lt_irrefl a)

namespace FreshFor

variable {s t : Supply} {vars : VarSet} {names : List (String × String)}

theorem mem_iff (h : FreshFor S s t vars.tuples names) {x : String} :
    x ∈ vars.tuples ↔ ∃ r ∈ names, r.1 = x := by
  rw [← h.sources, List.mem_map]

theorem numbers (h : FreshFor S s t vars.tuples names) (hvars : ∀ x ∈ vars.tuples, Unmarked x) :
    Renaming.Numbers names := fun r hr =>
  ⟨hvars r.1 (h.mem_iff.mpr ⟨r, hr, rfl⟩), (h.numbered r hr).imp fun _ hn => hn.1⟩

/-- The new names are different. -/
theorem nodup (h : FreshFor S s t vars.tuples names) (hnodup : vars.tuples.Nodup) :
    (names.map fun r => r.2).Nodup := by
  rw [← h.sources] at hnodup
  refine List.Nodup.map_on (fun r hr q hq heq => ?_) (List.Nodup.of_map _ hnodup)
  obtain ⟨m, hm, _⟩ := h.numbered r hr
  obtain ⟨n, hn, _⟩ := h.numbered q hq
  exact List.inj_on_of_nodup_map hnodup hr hq (freshName_inj (hm.symm.trans (heq.trans hn))).1

/-- The new names are in the order of the old ones if all characters of these come behind the number
sign. -/
theorem pairwise (h : FreshFor S s t vars.tuples names)
    (hbase : ∀ v ∈ vars.toList, v = .base v.tuple)
    (hchars : ∀ x ∈ vars.tuples, ∀ c ∈ x.toList, '#' < c) :
    (names.map fun r => Var.base r.2).Pairwise (· < ·) := by
  have hsorted : vars.tuples.Pairwise (· < ·) := by
    rw [VarSet.tuples, List.pairwise_map]
    refine vars.sorted.imp_of_mem fun hv hw hlt => ?_
    rw [hbase _ hv, hbase _ hw] at hlt
    exact hlt
  rw [← h.sources, List.pairwise_map] at hsorted
  rw [List.pairwise_map]
  refine hsorted.imp_of_mem fun {r q} hr hq hlt => ?_
  obtain ⟨m, hm, _⟩ := h.numbered r hr
  obtain ⟨n, hn, _⟩ := h.numbered q hq
  rw [hm, hn]
  exact freshName_lt hlt (hchars q.1 (h.mem_iff.mpr ⟨q, hq, rfl⟩)) m n

/-- A summation over fresh names binds the tuples of the summation under new names. -/
theorem rebinds {loose : Prop} {ρ : Renaming} {body : Term} (hρ : ρ.Numbers)
    (h : FreshFor S s t vars.tuples names) (hvars : ∀ x ∈ vars.tuples, Unmarked x)
    (hbase : ∀ v ∈ vars.toList, v = .base v.tuple) (hbody : ∀ x ∈ body.names, Unmarked x)
    (hS' : ∀ r ∈ names, S'.get? r.2 = t.schemas.get? r.2)
    (horder : loose ∨ ∀ x ∈ vars.tuples, ∀ c ∈ x.toList, '#' < c) :
    Rebinds loose S S' ρ.nameOf (Renaming.nameOf (ρ.under vars ++ names)) vars.tuples
      (VarSet.ofList (names.map fun r => .base r.2)).tuples body := by
  have hnodup := VarSet.nodup_tuples hbase
  have hnumbers := h.numbers hvars
  have hbound : ∀ r ∈ names, Renaming.nameOf (ρ.under vars ++ names) r.1 = r.2 := by
    intro r hr
    rw [Renaming.nameOf_append, Renaming.nameOf_under_of_mem vars (h.mem_iff.mpr ⟨r, hr, rfl⟩)]
    exact hnumbers.nameOf_of_mem (h.sources ▸ hnodup) hr
  have hfree : ∀ y, y ∉ vars.tuples →
      Renaming.nameOf (ρ.under vars ++ names) y = ρ.nameOf y := by
    intro y hy
    rw [Renaming.nameOf_append, hρ.nameOf_under vars hy]
    rcases hρ.nameOf_cases y with hname | ⟨n, hname⟩
    · rw [hname]
      exact Renaming.nameOf_of_forall_ne fun r hr heq => hy (h.mem_iff.mpr ⟨r, hr, heq⟩)
    · rw [hname]
      exact hnumbers.nameOf_freshName y n
  have hmap : vars.tuples.map (Renaming.nameOf (ρ.under vars ++ names)) =
      names.map fun r => r.2 := by
    rw [← h.sources, List.map_map]
    exact List.map_congr_left hbound
  refine ⟨?_, fun x hx y hy heq => ?_, fun y _ hy => hfree y hy, fun x hx => ?_⟩
  · rw [hmap, VarSet.tuples]
    rcases horder with hloose | hchars
    · have hvs : (names.map fun r => Var.base r.2).Nodup := by
        have := (h.nodup hnodup).map (f := Var.base) fun _ _ heq => Var.base.inj heq
        rwa [List.map_map] at this
      have hperm := (ofList_perm hvs).map Var.tuple
      rw [List.map_map] at hperm
      exact .inr ⟨hloose, hperm.nodup_iff.mpr (h.nodup hnodup), hperm⟩
    · rw [toList_ofList (h.pairwise hbase hchars), List.map_map]
      exact .inl rfl
  · obtain ⟨r, hr, rfl⟩ := h.mem_iff.mp hx
    obtain ⟨n, hn, _⟩ := h.numbered r hr
    rw [hbound r hr, hn] at heq
    by_cases hy' : y ∈ vars.tuples
    · obtain ⟨q, hq, rfl⟩ := h.mem_iff.mp hy'
      obtain ⟨m, hm, _⟩ := h.numbered q hq
      rw [hbound q hq, hm] at heq
      exact (freshName_inj heq).1
    · -- A free tuple has kept its name, which has no number sign, or has got a number further out.
      rw [hfree y hy'] at heq
      rcases hρ.nameOf_cases y with hname | ⟨m, hname⟩
      · rw [hname] at heq
        exact absurd (heq ▸ hbody y hy.mem_names) (not_unmarked_freshName _ _)
      · rw [hname] at heq
        exact (freshName_inj heq).1
  · obtain ⟨r, hr, rfl⟩ := h.mem_iff.mp hx
    rw [hbound r hr, hS' r hr]
    exact h.schemas r hr

end FreshFor

/-! ### Freshened terms -/

/-- The map has the schemas that the supply knows of the names it has made. -/
def Supply.RecordedIn (s : Supply) (S' : SchemaMap) : Prop :=
  ∀ x n, n < s.next.toNat → S'.get? (freshName x n) = s.schemas.get? (freshName x n)

theorem Supply.Precedes.recordedIn {s t : Supply} (h : s.Precedes t) (ht : t.RecordedIn S') :
    s.RecordedIn S' := fun x n hn =>
  (ht x n (Nat.lt_of_lt_of_le hn h.next_le)).trans (h.known x n hn)

/-- What a term needs so that fresh names do not clash with its own.  Unless all characters of bound
names come behind the number sign, orders may change. -/
structure Freshenable (loose : Prop) (t : Term) : Prop where
  unmarked : ∀ x ∈ t.names, Unmarked x
  binds : t.BindsTuples
  order : loose ∨ ∀ b ∈ t.boundVars, ∀ c ∈ b.var.tuple.toList, '#' < c

namespace Freshenable

variable {loose : Prop} {t : Term}

theorem members {ts : List Term} (hnames : t.names = namesAll ts)
    (hbound : t.boundVars = ts.flatMap boundVars) (h : Freshenable loose t) :
    ∀ u ∈ ts, Freshenable loose u := by
  intro u hu
  have hsub : ∀ b ∈ u.boundVars, b ∈ t.boundVars :=
    fun b hb => hbound ▸ List.mem_flatMap.mpr ⟨u, hu, hb⟩
  refine ⟨fun x hx => h.unmarked x ?_, fun b hb => h.binds b (hsub b hb),
    h.order.imp_right fun horder b hb => horder b (hsub b hb)⟩
  rw [hnames]
  exact mem_namesAll.mpr ⟨u, hu, hx⟩

theorem body {vars : VarSet} {body : Term} (h : Freshenable loose (.sum vars body)) :
    Freshenable loose body := by
  have hsub : ∀ b ∈ body.boundVars, b ∈ (Term.sum vars body).boundVars := fun b hb => by
    rw [boundVars_sum]
    exact List.mem_append_right _ hb
  exact ⟨fun x hx => h.unmarked x (List.mem_append_right _ hx), fun b hb => h.binds b (hsub b hb),
    h.order.imp_right fun horder b hb => horder b (hsub b hb)⟩

end Freshenable

/-- Freshening the term, with any renaming and any supply, gives a term alike to it. -/
def FreshensAlike (loose : Prop) (S S' : SchemaMap) (t : Term) : Prop :=
  ∀ {ρ : Renaming} {t' : Term} {s u : Supply}, ρ.Numbers → s.Extends S → u.RecordedIn S' →
    Freshenable loose t → freshenWith ρ t s = .ok (t', u) → Alike loose S S' ρ.nameOf t t'

theorem forall₂_freshenList {loose : Prop} {ts ts' : List Term} {ρ : Renaming} {s u : Supply}
    (hρ : ρ.Numbers) (hs : s.Extends S) (hu : u.RecordedIn S')
    (hts : ∀ t ∈ ts, Freshenable loose t) (ih : ∀ t ∈ ts, FreshensAlike loose S S' t)
    (h : freshenList ρ ts s = .ok (ts', u)) :
    List.Forall₂ (Alike loose S S' ρ.nameOf) ts ts' := by
  induction ts generalizing ts' s with
  | nil =>
      cases h
      exact .nil
  | cons t ts ihs =>
      rw [List.forall_mem_cons] at ih hts
      obtain ⟨⟨t', s₁⟩, ht, ⟨ts'', s₂⟩, hrest, h⟩ := Fault.ok_of_bind₂ h
      cases h
      have hnames : ∀ x ∈ namesAll ts, Unmarked x := fun x hx => by
        obtain ⟨r, hr, hx⟩ := mem_namesAll.mp hx
        exact (hts.2 r hr).unmarked x hx
      obtain ⟨hs₁, _⟩ := freshenWith_extends t hs hts.1.unmarked ht
      obtain ⟨_, hle⟩ := freshenList_extends hs₁ (fun t _ => freshenWith_extends t) hnames hrest
      -- The schemas are those of the last supply: it still knows the names of the first term.
      exact .cons (ih.1 hρ hs (hle.recordedIn hu) hts.1 ht) (ihs hs₁ hts.2 ih.2 hrest)

/-- A freshened term is alike to the term, with the schemas that are recorded in the end. -/
theorem alike_freshenWith {loose : Prop} (t : Term) : FreshensAlike loose S S' t := by
  intro ρ t' s u hρ hs hu hfit h
  induction t using Term.induct generalizing ρ t' s u with
  | sum vars body ih =>
      have hvars : ∀ x ∈ vars.tuples, Unmarked x :=
        fun x hx => hfit.unmarked x (List.mem_append_left _ hx)
      have hmem : ∀ v ∈ vars.toList, ∃ b ∈ (Term.sum vars body).boundVars, b.var = v := by
        intro v hv
        rw [boundVars_sum]
        exact ⟨_, List.mem_append_left _ (OpenSum.mem_ofBinder_self hv), rfl⟩
      have hbase : ∀ v ∈ vars.toList, v = .base v.tuple := by
        intro v hv
        obtain ⟨b, hb, rfl⟩ := hmem v hv
        exact hfit.binds b hb
      obtain ⟨⟨names', s₁⟩, hfresh, ⟨body', s₂⟩, hbody, h⟩ := Fault.ok_of_bind₂ h
      cases h
      obtain ⟨hs₁, _, hfor⟩ := freshNames_extends hs (List.forall_mem_map.mp hvars) hfresh
      obtain ⟨_, hle⟩ := freshenWith_extends body hs₁ hfit.body.unmarked hbody
      have hunder : Renaming.Numbers (ρ.under vars ++ names') :=
        List.forall_mem_append.mpr ⟨hρ.under vars, hfor.numbers hvars⟩
      refine .sum (hfor.rebinds hρ hvars hbase hfit.body.unmarked (fun r hr => ?_) ?_)
        (ih hunder hs₁ hu hfit.body hbody)
      · obtain ⟨n, hn, _, hlt⟩ := hfor.numbered r hr
        rw [hn]
        exact hle.recordedIn hu r.1 n hlt
      · refine hfit.order.imp_right fun horder => List.forall_mem_map.mpr fun v hv => ?_
        obtain ⟨b, hb, rfl⟩ := hmem v hv
        exact horder b hb
  | add ts ih =>
      obtain ⟨⟨ts', s₁⟩, hts, h⟩ := Fault.ok_of_bind h
      cases h
      exact .addAll (forall₂_freshenList hρ hs hu (hfit.members rfl (boundVars_add ts)) ih hts)
  | mul ts ih =>
      obtain ⟨⟨ts', s₁⟩, hts, h⟩ := Fault.ok_of_bind h
      cases h
      exact .mulAll (forall₂_freshenList hρ hs hu (hfit.members rfl (boundVars_mul ts)) ih hts)
  | pred kind ts ih =>
      obtain ⟨⟨ts', s₁⟩, hts, h⟩ := Fault.ok_of_bind h
      cases h
      exact .predAll kind
        (forall₂_freshenList hρ hs hu (hfit.members rfl (boundVars_pred kind ts)) ih hts)
  | func name ts ih =>
      obtain ⟨⟨ts', s₁⟩, hts, h⟩ := Fault.ok_of_bind h
      cases h
      exact .funcAll name
        (forall₂_freshenList hρ hs hu (hfit.members rfl (boundVars_func name ts)) ih hts)
  | neg t ih =>
      obtain ⟨⟨t₁, s₁⟩, ht, h⟩ := Fault.ok_of_bind h
      cases h
      exact .neg (ih hρ hs hu ⟨hfit.unmarked, hfit.binds, hfit.order⟩ ht)
  | squash t ih =>
      obtain ⟨⟨t₁, s₁⟩, ht, h⟩ := Fault.ok_of_bind h
      cases h
      exact .squash (ih hρ hs hu ⟨hfit.unmarked, hfit.binds, hfit.order⟩ ht)
  | var v =>
      cases h
      exact .var (ρ.apply_eq v)
  | const q =>
      cases h
      exact .const
  | table name v =>
      cases h
      exact .table (ρ.apply_eq v)
  | str =>
      cases h
      exact .str

/-! ### The counter -/

theorem Supply.fresh_ends (s : Supply) (base : String) :
    Ends (s.fresh base) .overflow (2 ^ 64 ≤ s.next.toNat + 1)
      fun p => p.2.next.toNat = s.next.toNat + 1 := by
  cases h : s.fresh base with
  | ok p => exact ends_ok (fresh_ok h).2
  | error f =>
      unfold fresh at h
      dsimp only at h
      split at h
      · cases h
      · next hfull =>
          cases h
          exact .inr ⟨rfl, Nat.le_of_not_lt hfull⟩

theorem freshNames_ends (vs : List Var) (s : Supply) :
    Ends (freshNames vs s) .overflow (2 ^ 64 ≤ s.next.toNat + vs.length)
      fun p => p.2.next.toNat = s.next.toNat + vs.length := by
  induction vs generalizing s with
  | nil => exact ends_ok rfl
  | cons v vs ih =>
      rw [List.length_cons]
      refine ((s.fresh_ends v.tuple).mono (by omega) fun _ h => h).bind fun p hp => ?_
      refine ((ih p.2).mono (by omega) fun _ h => h).bind fun q hq => ends_ok ?_
      dsimp only at hp hq ⊢
      omega

/-- Freshening uses up a number for every variable that is bound, and it ends well unless there are
not enough of them. -/
theorem freshenWith_ends (ρ : Renaming) (t : Term) (s : Supply) :
    Ends (freshenWith ρ t s) .overflow (2 ^ 64 ≤ s.next.toNat + t.boundVars.length)
      fun p => p.2.next.toNat = s.next.toNat + t.boundVars.length := by
  have members : ∀ {ts : List Term} (ρ : Renaming) (s : Supply),
      (∀ t ∈ ts, ∀ (ρ : Renaming) (s : Supply),
        Ends (freshenWith ρ t s) .overflow (2 ^ 64 ≤ s.next.toNat + t.boundVars.length)
          fun p => p.2.next.toNat = s.next.toNat + t.boundVars.length) →
      Ends (freshenList ρ ts s) .overflow
        (2 ^ 64 ≤ s.next.toNat + (ts.flatMap boundVars).length)
          fun p => p.2.next.toNat = s.next.toNat + (ts.flatMap boundVars).length := by
    intro ts ρ s ih
    induction ts generalizing s with
    | nil => exact ends_ok rfl
    | cons t ts ihs =>
        rw [List.forall_mem_cons] at ih
        rw [List.flatMap_cons, List.length_append]
        refine ((ih.1 ρ s).mono (by omega) fun _ h => h).bind fun p hp => ?_
        refine ((ihs p.2 ih.2).mono (by omega) fun _ h => h).bind fun q hq => ends_ok ?_
        dsimp only at hp hq ⊢
        omega
  induction t using Term.induct generalizing ρ s with
  | sum vars body ih =>
      have hlength : (Term.sum vars body).boundVars.length =
          vars.toList.length + body.boundVars.length := by
        rw [boundVars_sum, List.length_append, BoundVar.ofBinder, List.length_map]
      rw [hlength]
      refine ((freshNames_ends vars.toList s).mono (by omega) fun _ h => h).bind fun p hp => ?_
      refine ((ih _ p.2).mono (by omega) fun _ h => h).bind fun q hq => ends_ok ?_
      dsimp only at hp hq ⊢
      omega
  | add ts ih | mul ts ih | pred _ ts ih | func _ ts ih =>
      rw [boundVars, forest, flatten_nodes_forestAll]
      exact (members ρ s ih).bind fun p hp => ends_ok hp
  | neg t ih | squash t ih => exact (ih ρ s).bind fun p hp => ends_ok hp
  | var | const | table | str => exact ends_ok rfl

/-! ### Values -/

/-- Two terms have the same value over every database, each with its schemas: in exact arithmetic
unless they ask for the value of a whole tuple and one of the readings never ends, in checked
arithmetic unless one of the readings faults, and also then if the characters of all bound names
come behind the number sign.  For the first term the schemas of the second will do. -/
structure SameReadings (t t' : Term) (S S' : SchemaMap) (output : String) : Prop where
  exactly : ∀ db, ∃ x : Option ℚ, Yields t.evaluable (t.valueOver db S output) x ∧
    Yields t.evaluable (t'.valueOver db S' output) x
  checked : ∀ db, Like True (t.valueOver db S output : Except Fault (Option Fraction))
    (t'.valueOver db S' output)
  ordered : (∀ b ∈ t.boundVars, ∀ c ∈ b.var.tuple.toList, '#' < c) → ∀ db,
    (t.valueOver db S output : Except Fault (Option Fraction)) = t'.valueOver db S' output
  extended : ∀ db,
    (t.valueOver db S' output : Except Fault (Option Fraction)) = t.valueOver db S output

theorem sameReadings_of_freshen {t t' : Term} {s u : Supply} (hs : s.Extends S)
    (hu : u.RecordedIn S') (hS' : ∀ x, Unmarked x → S'.get? x = S.get? x)
    (hnames : ∀ x ∈ t.names, Unmarked x) (hbinds : t.BindsTuples)
    (h : t.freshen s = .ok (t', u)) (output : String) : SameReadings t t' S S' output := by
  have halike : ∀ {loose : Prop},
      (loose ∨ ∀ b ∈ t.boundVars, ∀ c ∈ b.var.tuple.toList, '#' < c) →
      Alike loose S S' (Renaming.nameOf []) t t' := fun horder =>
    alike_freshenWith t (by simp [Renaming.Numbers]) hs hu ⟨hnames, hbinds, horder⟩ h
  have hlike : ∀ {loose : Prop} {ν : Type} [Arithmetic ν], (loose → Arithmetic.Commutes ν) →
      (loose ∨ ∀ b ∈ t.boundVars, ∀ c ∈ b.var.tuple.toList, '#' < c) → ∀ db,
      Like loose (t.valueOver db S output : Except Fault (Option ν))
        (t'.valueOver db S' output) := by
    intro loose ν _ hν horder db
    have hrenames : (Environment.ofDatabase db S output).Renames (Renaming.nameOf []) t.Free
        (.ofDatabase db S' output) :=
      ⟨rfl, fun x hx => hS' x (hnames x hx.mem_names), fun _ _ => rfl⟩
    exact Reader.like_number? ((halike horder).like_read hν hrenames rfl rfl)
  constructor
  · intro db
    have hevaluable : t'.evaluable = t.evaluable := (halike (.inl trivial)).evaluable_eq.symm
    exact (hlike (fun _ => Arithmetic.commutes_rat) (.inl trivial) db).exists_yields
      (t.yields_valueOver db S output) (hevaluable ▸ t'.yields_valueOver db S' output)
  · exact hlike (fun _ => Arithmetic.commutes_fraction) (.inl trivial)
  · exact fun horder db => (hlike False.elim (.inr horder) db).eq
  · intro db
    have hkept : ∀ x ∈ t.names, S'.get? x = S.get? x := fun x hx => hS' x (hnames x hx)
    have hrenames : (Environment.ofDatabase db S output).Renames id t.Free
        (.ofDatabase db S' output) :=
      ⟨rfl, fun x hx => hkept x hx.mem_names, fun _ _ => rfl⟩
    have halike : Alike False S S' id t t := .refl t hkept
    exact (Reader.like_number? (halike.like_read False.elim hrenames rfl rfl)).eq.symm

/-- Two terms that are freshened in turn become `l` and `r`: they keep their values with the schemas
of the supply that is reached, and the tuples they bind are different from each other and from all
names that were there. -/
structure FreshPair (left right : Term) (s : Supply) (output : String) (l r : Term)
    (t u : Supply) : Prop where
  ofLeft : SameReadings left l s.schemas t.schemas output
  ofLeftInBoth : SameReadings left l s.schemas u.schemas output
  ofRight : SameReadings right r s.schemas u.schemas output
  distinct : (boundNames [l, r]).Nodup
  apart : ∀ x ∈ boundNames [l, r],
    l.mentions x = false ∧ r.mentions x = false ∧ x ≠ output ∧ x ∉ s.schemas.keys

theorem extends_self {s : Supply} (h : ∀ x ∈ s.schemas.keys, Unmarked x) : s.Extends s.schemas where
  kept _ _ := rfl
  unused x n _ := by
    have hlookup : ∀ {α : Type} {es : List (String × α)} {x : String}, x ∉ es.map Prod.fst →
        NameMap.lookup x es = none := by
      intro α es x hx
      induction es with
      | nil => rfl
      | cons e es ih =>
          rw [List.map_cons, List.mem_cons, not_or] at hx
          rw [NameMap.lookup, if_neg (Ne.symm hx.1), ih hx.2]
    exact hlookup fun hmem => not_unmarked_freshName x n (h _ hmem)

theorem freshPair_of_freshen {left right l r : Term} {s t u : Supply} {output : String}
    (hleft : left.BindsTuples) (hright : right.BindsTuples)
    (hnames : ∀ x ∈ left.names ++ right.names, Unmarked x)
    (hothers : ∀ x ∈ output :: s.schemas.keys, Unmarked x) (hl : left.freshen s = .ok (l, t))
    (hr : right.freshen t = .ok (r, u)) : FreshPair left right s output l r t u := by
  rw [List.forall_mem_append] at hnames
  rw [List.forall_mem_cons] at hothers
  have hs := extends_self hothers.2
  obtain ⟨ht, _⟩ := freshenWith_extends left hs hnames.1 hl
  obtain ⟨hu, hle⟩ := freshenWith_extends right ht hnames.2 hr
  have hbound : boundNames [l, r] =
      (l.boundVars ++ r.boundVars).map fun b => b.var.tuple := by simp [boundNames]
  have hnumbered := ((freshenWith_ok left hl).1.append (freshenWith_ok right hr).1).numbered
  refine ⟨?_, ?_, ?_, hbound ▸ hnumbered.nodup, fun x hx => ?_⟩
  · exact sameReadings_of_freshen hs (fun _ _ _ => rfl) ht.kept hnames.1 hleft hl output
  · exact sameReadings_of_freshen hs hle.known hu.kept hnames.1 hleft hl output
  · exact sameReadings_of_freshen ht (fun _ _ _ => rfl) hu.kept hnames.2 hright hr output
  · -- A bound name has a number sign in it, and the others have none.
    rw [hbound] at hx
    obtain ⟨b, hb, rfl⟩ := List.mem_map.mp hx
    obtain ⟨base, n, hn, _⟩ := hnumbered.range b hb
    have hmarked : ¬ Unmarked b.var.tuple := hn ▸ not_unmarked_freshName base n
    refine ⟨Bool.eq_false_iff.mpr fun h => hmarked ?_, Bool.eq_false_iff.mpr fun h => hmarked ?_,
      fun h => hmarked (h ▸ hothers.1), fun h => hmarked (hothers.2 _ h)⟩
    · exact hnames.1 _ ((mentions_freshenWith left hl h).resolve_right (by simp))
    · exact hnames.2 _ ((mentions_freshenWith right hr h).resolve_right (by simp))

/-- **Terms that are freshened in turn keep their values**, and all the tuples they bind are
different.  Freshening fails exactly if there are not enough numbers for all bound variables. -/
theorem freshen_sameReadings {left right : Term} {s : Supply} {output : String}
    (hleft : left.BindsTuples) (hright : right.BindsTuples)
    (hnames : ∀ x ∈ left.names ++ right.names, '#' ∉ x.toList)
    (hothers : ∀ x ∈ output :: s.schemas.keys, '#' ∉ x.toList) :
    (s.next.toNat + left.boundVars.length + right.boundVars.length < 2 ^ 64 →
      ∃ l t r u, left.freshen s = .ok (l, t) ∧ right.freshen t = .ok (r, u) ∧
        FreshPair left right s output l r t u) ∧
    (2 ^ 64 ≤ s.next.toNat + left.boundVars.length + right.boundVars.length →
      (do right.freshen (← left.freshen s).2) = .error .overflow) := by
  rcases freshenWith_ends [] left s with ⟨⟨l, t⟩, hl, ht⟩ | ⟨hl, hfull⟩
  · rcases freshenWith_ends [] right t with ⟨⟨r, u⟩, hr, hu⟩ | ⟨hr, hfull⟩
    · have hlt := u.next.toNat_lt
      refine ⟨fun _ => ⟨l, t, r, u, hl, hr, ?_⟩, fun hfull => ?_⟩
      · exact freshPair_of_freshen hleft hright hnames hothers hl hr
      · dsimp only at ht hu
        omega
    · refine ⟨fun hfits => ?_, fun _ => ?_⟩
      · dsimp only at ht
        omega
      · rw [freshen, hl]
        exact hr
  · refine ⟨fun hfits => ?_, fun _ => ?_⟩
    · omega
    · rw [freshen, hl]
      rfl

/-- The pairs of a row of a table and one equal to the output, with a factor that binds the same
tuple again. -/
def pairsWithOutput : Term :=
  .sumOver ["x", "y"] (.mul [.table "r" (.base "x"), .table "r" (.base "y"),
    .pred .eq [.var (.base "y"), .var (.base "out")], .sumOver ["x"] (.table "r" (.base "x"))])

/-- Two terms that bind the same tuples are freshened in turn. -/
theorem freshen_sameReadings_pairsWithOutput :
    let s : Supply := ⟨.ofList (["x", "y", "out"].map fun x => (x, .single)), 7⟩
    pairsWithOutput.BindsTuples ∧ (commonRows "r" "s").BindsTuples ∧
      (∀ x ∈ pairsWithOutput.names ++ (commonRows "r" "s").names, '#' ∉ x.toList) ∧
      (∀ x ∈ "out" :: s.schemas.keys, '#' ∉ x.toList) ∧
      ∃ l t r u, pairsWithOutput.freshen s = .ok (l, t) ∧
        (commonRows "r" "s").freshen t = .ok (r, u) ∧
        FreshPair pairsWithOutput (commonRows "r" "s") s "out" l r t u := by
  intro s
  have hleft : pairsWithOutput.BindsTuples := by decide +kernel
  have hright : (commonRows "r" "s").BindsTuples := by decide +kernel
  have hnames : ∀ x ∈ pairsWithOutput.names ++ (commonRows "r" "s").names, '#' ∉ x.toList := by
    decide +kernel
  have hothers : ∀ x ∈ "out" :: s.schemas.keys, '#' ∉ x.toList := by decide +kernel
  exact ⟨hleft, hright, hnames, hothers,
    (freshen_sameReadings hleft hright hnames hothers).1 (by decide +kernel)⟩

/-- The values of a column added up, once for every row of the table. -/
def columnTotal (x y : String) : Term :=
  .sumOver [x, y] (.mul [.table "r" (.base x), .table "r" (.base y), .var (.proj "d" y)])

end Term

/-- A table with two large values that cancel out. -/
def Database.cancelling : Database :=
  ⟨.ofList [("r", [(.ofList [("d", .ofDatum (.int (2 ^ 62)))], 1),
    (.ofList [("d", .ofDatum (.int (-2 ^ 62)))], 1)])], .empty⟩

/-- An exclamation mark comes before the number sign, so the two variables change places.  Then a
large value is added twice before it is cancelled out. -/
theorem Term.valueOver_columnTotal_freshened :
    (columnTotal "a" "a!").BindsTuples ∧ (∀ x ∈ (columnTotal "a" "a!").names, '#' ∉ x.toList) ∧
      (columnTotal "a" "a!").freshen ⟨.empty, 0⟩ = .ok (columnTotal "a#0" "a!#1", ⟨.empty, 2⟩) ∧
      (columnTotal "a" "a!").valueOver .cancelling .empty "out" = .ok (some Fraction.zero) ∧
      (columnTotal "a#0" "a!#1").valueOver .cancelling .empty "out" =
        (.error .overflow : Except Fault (Option Fraction)) := by
  refine ⟨?_, ?_, ?_, ?_, ?_⟩ <;> decide +kernel

end BagEquiv
