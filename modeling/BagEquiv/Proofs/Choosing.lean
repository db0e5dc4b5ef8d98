/-
**What is chosen at a layer.**

However the evidence falls out, the variable chosen in a summation is one of the summation, and all
variables chosen at a layer range over the same table.  The only way to fail is a key that cannot be
computed.

Main definition:

* `Chooser.Fits` — a choice of variables, all over one table.

Main result:

* `Chooser.choose_ends` — **the choice fits**, unless a key cannot be computed.
-/

import Mathlib.Data.List.Forall2
import BagEquiv.Matching.Chooser
import BagEquiv.Proofs.Runs

set_option autoImplicit false

namespace BagEquiv

/-! ### Keys -/

namespace Term

theorem hasKey_rename (source target : String) (t : Term) :
    (t.rename source target).hasKey = t.hasKey := by
  induction t using Term.induct with
  | sum vars body ih =>
      rw [rename]
      split
      · rfl
      · exact ih
  | add ts ih | mul ts ih | pred _ ts ih | func _ ts ih =>
      rw [rename, hasKey, hasKey]
      induction ts with
      | nil => rfl
      | cons t ts ihs =>
          rw [List.forall_mem_cons] at ih
          rw [renameList, allKeyed, allKeyed, ih.1, ihs ih.2]
  | neg t ih | squash t ih => exact ih
  | var | const | table | str => simp only [rename, hasKey]

/-- The atoms of a term with a key have keys. -/
theorem hasKey_of_mem_atoms {t a : Term} (ht : t.hasKey = true) (ha : a ∈ t.atoms) :
    a.hasKey = true := by
  induction t using Term.induct with
  | sum vars body ih | neg t ih | squash t ih => exact ih ht ha
  | add ts ih | mul ts ih =>
      rw [hasKey] at ht
      rw [atoms] at ha
      induction ts with
      | nil => simp [atomsAll] at ha
      | cons t ts ihs =>
          rw [allKeyed, Bool.and_eq_true] at ht
          rw [List.forall_mem_cons] at ih
          rcases List.mem_append.mp ha with h | h
          · exact ih.1 ht.1 h
          · exact ihs ih.2 ht.2 h
  | pred kind ts _ | func name ts _ | var | const | table | str =>
      obtain rfl := List.mem_singleton.mp ha
      exact ht

theorem hasProfile_of_hasKey {t : Term} (ht : t.hasKey = true) (base : String) :
    t.hasProfile base = true := by
  rw [hasProfile, List.all_eq_true]
  intro a ha
  exact hasKey_of_mem_atoms ht (List.mem_filter.mp ha).1

end Term

/-! ### Failures -/

/-- A budget that is not used up lets a computation go on. -/
theorem ends_check {budget : Budget} (hb : budget.expired = false) {e : Failure} {E : Prop} :
    Ends (Failure.ofError budget.check) e E fun _ => True := by
  rw [Budget.check, hb]
  exact ends_ok trivial

theorem Ends.ofFault {α : Type} {x : Except Fault α} {f : Fault} {E : Prop} {P : α → Prop}
    (h : Ends x f E P) : Ends (Failure.ofFault x) (.fault f) E P := by
  rcases h with ⟨a, rfl, ha⟩ | ⟨rfl, hE⟩
  · exact .inl ⟨a, rfl, ha⟩
  · exact .inr ⟨rfl, hE⟩

/-- The keys of the bodies of the summations can be computed with words. -/
def Keyed (scope : List OpenSum) : Prop := ∀ s ∈ scope, s.body.hasKey = true

namespace Chooser

/-! ### Deciding one summation -/

variable {c : Chooser} {d : Decided} {s : OpenSum}

theorem hasKey_of_mem_decidedBodies {p : OpenSum → Bool} (hc : Keyed c.scope) {t : Term}
    (ht : t ∈ c.decidedBodies d p) : t.hasKey = true := by
  rw [decidedBodies, List.mem_filterMap] at ht
  obtain ⟨⟨s, o⟩, hso, ht⟩ := ht
  simp only at ht
  split at ht
  · obtain ⟨v, _, rfl⟩ := Option.map_eq_some_iff.mp ht
    rw [renamedBody, Term.hasKey_rename]
    exact hc s (List.of_mem_zip hso).1
  · cases ht

/-- Profiles can be compared if the keys can be computed. -/
theorem requireProfiles_ends (hs : s ∈ c.scope) {bodies : List Term} (options : List Var)
    (hb : Keyed c.scope → ∀ t ∈ bodies, t.hasKey = true) :
    Ends (c.requireProfiles bodies s options) .overflow (¬Keyed c.scope) fun _ => True := by
  unfold requireProfiles
  split
  · exact ends_ok trivial
  · next hno =>
    refine .inr ⟨rfl, fun hc => hno ?_⟩
    rw [List.all_eq_true]
    intro t ht
    refine Term.hasProfile_of_hasKey ?_ c.tuple
    rcases List.mem_append.mp ht with ht | ht
    · exact hb hc t ht
    · obtain ⟨v, _, rfl⟩ := List.mem_map.mp ht
      rw [renamedBody, Term.hasKey_rename]
      exact hc s hs

theorem mem_of_unique? {vs : List Var} {v : Var} (h : unique? vs = some v) : v ∈ vs := by
  unfold unique? at h
  split at h
  · cases h
    exact List.mem_singleton_self v
  · cases h

theorem closest_subset (targets : List Term) (options : List Var) {v : Var}
    (h : v ∈ c.closest targets s options) : v ∈ options := by
  unfold closest at h
  simp only at h
  split at h
  · obtain ⟨⟨w, n⟩, hw, rfl⟩ := List.mem_map.mp h
    obtain ⟨w', hw', heq⟩ := List.mem_map.mp (List.mem_filter.mp hw).1
    cases heq
    exact hw'
  · exact h

/-- The best of some options is the one to start with or one of them. -/
theorem foldl_best_mem (score : Var → Nat) (options : List Var) (best : Nat × Var) :
    (options.foldl (fun best v => if best.1 < score v then (score v, v) else best) best).2 ∈
      best.2 :: options := by
  induction options generalizing best with
  | nil => exact List.mem_singleton_self best.2
  | cons v options ih =>
      rw [List.foldl_cons]
      split
      · exact List.mem_cons_of_mem best.2 (ih (score v, v))
      · rcases List.mem_cons.mp (ih best) with h | h
        · exact h ▸ List.mem_cons_self
        · exact List.mem_cons_of_mem _ (List.mem_cons_of_mem v h)

theorem overlapping_mem {first : Var} {options : List Var} (hfirst : first ∈ options) :
    c.overlapping d s first options ∈ options := by
  rcases List.mem_cons.mp (foldl_best_mem _ options (0, first)) with h | h
  · unfold overlapping
    exact h ▸ hfirst
  · exact h

/-- A decision is among the options. -/
theorem tryDecide_ends (hs : s ∈ c.scope) (mode : Evidence) (vs : List Var) :
    Ends (c.tryDecide d mode s vs) .overflow (¬Keyed c.scope) fun o => ∀ v ∈ o, v ∈ vs := by
  match vs with
  | [] => exact ends_ok (by simp)
  | [only] => exact ends_ok (by simp)
  | first :: second :: rest =>
      unfold tryDecide
      simp only
      have keyed : ∀ p, Keyed c.scope → ∀ t ∈ c.decidedBodies d p, t.hasKey = true :=
        fun p hc t => hasKey_of_mem_decidedBodies hc
      cases mode with
      | strict =>
          simp only
          split
          · exact ends_ok (by simp)
          · refine (requireProfiles_ends hs _ (keyed _)).bind fun _ _ => ends_ok fun v hv => ?_
            exact closest_subset _ _ (mem_of_unique? hv)
      | pattern =>
          refine (requireProfiles_ends hs _ ?_).bind fun _ _ => ends_ok fun v hv => ?_
          · split
            · exact keyed _
            · exact keyed _
          · rcases Option.or_eq_some_iff.mp hv with h | ⟨_, h⟩
            · exact closest_subset _ _ (mem_of_unique? h)
            · rcases Option.or_eq_some_iff.mp h with h | ⟨_, h⟩
              · exact closest_subset _ _ (List.mem_filter.mp (mem_of_unique? h)).1
              · exact closest_subset _ _ (List.mem_filter.mp (mem_of_unique? h)).1
      | forced =>
          refine (requireProfiles_ends hs _ (keyed _)).bind fun _ _ => ends_ok fun v hv => ?_
          cases hv
          exact overlapping_mem List.mem_cons_self

/-! ### Deciding all of them -/

/-- Every summation has at most one variable chosen, one of its own that ranges over the table. -/
def Fits (table : Option String) : List OpenSum → Decided → Prop :=
  List.Forall₂ fun s o => ∀ v ∈ o, v ∈ options table s

theorem fits_none (table : Option String) (scope : List OpenSum) :
    Fits table scope (scope.map fun _ => none) := by
  rw [Fits, List.forall₂_map_right_iff, List.forall₂_same]
  intro s _ v hv
  cases hv

theorem Fits.set {table : Option String} {scope : List OpenSum} (h : Fits table scope d)
    {i : Nat} (hs : scope[i]? = some s) {v : Var} (hv : v ∈ options table s) :
    Fits table scope (d.set i (some v)) := by
  induction h generalizing i with
  | nil => simp at hs
  | @cons t o scope d ho hrest ih =>
      cases i with
      | zero =>
          obtain rfl : t = s := by simpa using hs
          refine .cons ?_ hrest
          rintro w ⟨⟩
          exact hv
      | succ i => exact .cons ho (ih (by simpa using hs))

/-- A summation of the scope with the options it has. -/
def Pending.Of (p : Pending) (scope : List OpenSum) (table : Option String) : Prop :=
  scope[p.index]? = some p.sum ∧ p.options = Chooser.options table p.sum

/-- What holds at any time of a round. -/
def Round.Sound (c : Chooser) (table : Option String) (r : Round) : Prop :=
  Fits table c.scope r.decided ∧ ∀ p ∈ r.delayed, p.Of c.scope table

variable {table : Option String}

theorem Round.step_ends {r : Round} (hr : r.Sound c table) {p : Pending}
    (hp : p.Of c.scope table) :
    Ends (r.step c p) .overflow (¬Keyed c.scope) (Round.Sound c table) := by
  refine (tryDecide_ends (List.mem_of_getElem? hp.1) r.mode p.options).bind fun o ho => ?_
  cases o with
  | some v => exact ends_ok ⟨hr.1.set hp.1 (hp.2 ▸ ho v rfl), hr.2⟩
  | none =>
      refine ends_ok ⟨hr.1, fun q hq => ?_⟩
      rcases List.mem_append.mp hq with hq | hq
      · exact hr.2 q hq
      · exact List.mem_singleton.mp hq ▸ hp

/-- Rounds keep the choice fitting, however many there are. -/
theorem rounds_ends (fuel : Nat) (mode : Evidence) {queue : List Pending}
    (hd : Fits table c.scope d) (hq : ∀ p ∈ queue, p.Of c.scope table) :
    Ends (c.rounds fuel d mode queue) .overflow (¬Keyed c.scope) (Fits table c.scope) := by
  induction fuel generalizing d mode queue with
  | zero => exact ends_ok hd
  | succ fuel ih =>
      have start : Round.Sound c table ⟨d, [], false, mode⟩ := ⟨hd, by simp⟩
      refine (ends_foldlM (fun p hp r hr => Round.step_ends hr (hq p hp)) start).bind fun r hr => ?_
      split
      · exact ends_ok hr.1
      · exact ih _ hr.1 hr.2

theorem mem_numbered {i : Nat} (h : (i, s) ∈ c.numbered) : c.scope[i]? = some s := by
  rw [numbered, List.mem_map] at h
  obtain ⟨⟨t, j⟩, hmem, heq⟩ := h
  cases heq
  exact List.mem_zipIdx_iff_getElem?.mp hmem

theorem mem_candidates_of_common? {x : Candidate} (h : c.common? = some x) :
    x ∈ c.candidates := by
  -- The best so far is one of those that were looked at.
  have fold : ∀ {step : Option Candidate → Candidate → Option Candidate},
      (∀ best y, step best y = some y ∨ step best y = best) → ∀ (xs : List Candidate) best,
        xs.foldl step best = some x → x ∈ xs ∨ best = some x := by
    intro step hstep xs
    induction xs with
    | nil => exact fun best h => .inr h
    | cons y xs ih =>
        intro best h
        rcases ih _ h with h | h
        · exact .inl (List.mem_cons_of_mem y h)
        · rcases hstep best y with heq | heq <;> rw [heq] at h
          · exact .inl (Option.some.inj h ▸ List.mem_cons_self)
          · exact .inr h
  refine (fold (fun best y => ?_) c.candidates none h).resolve_right (by simp)
  cases best with
  | none => exact .inl rfl
  | some z => exact (ite_eq_or_eq _ _ _)

theorem mem_options_of_mem_candidates {x : Candidate} (h : x ∈ c.candidates) :
    ∃ s, c.scope[x.index]? = some s ∧ x.var ∈ options x.table s := by
  rw [candidates, List.mem_flatMap] at h
  obtain ⟨⟨i, s⟩, his, hx⟩ := h
  obtain ⟨v, hv, rfl⟩ := List.mem_map.mp hx
  exact ⟨s, mem_numbered his, List.mem_filter.mpr ⟨hv, by simp⟩⟩

/-- **The choice fits**, unless a key cannot be computed. -/
theorem choose_ends (c : Chooser) {budget : Budget} (hb : budget.expired = false) :
    Ends (c.choose budget) (.fault .overflow) (¬Keyed c.scope) fun matched =>
      ∃ table, Fits table c.scope matched := by
  unfold choose
  split
  · exact ends_ok ⟨none, fits_none none c.scope⟩
  · next x hx =>
    obtain ⟨s, hs, hv⟩ := mem_options_of_mem_candidates (mem_candidates_of_common? hx)
    have start := (fits_none x.table c.scope).set hs hv
    refine (ends_check hb).bind fun _ _ => (rounds_ends _ .strict start ?_).ofFault.mono id ?_
    · intro p hp
      obtain ⟨⟨i, t⟩, hit, hp⟩ := List.mem_filterMap.mp hp
      simp only at hp
      split at hp
      · cases hp
        exact ⟨mem_numbered hit, rfl⟩
      · cases hp
    · exact fun matched h => ⟨x.table, h⟩

end Chooser

end BagEquiv
