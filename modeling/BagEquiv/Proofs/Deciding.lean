/-
**Every summation that can be matched is matched.**

The summations of a layer are gone through in rounds.  A round decides some of them and puts off the
others, and a round that decides none asks for less evidence the next time.  The weakest evidence
always suffices, so of three rounds in turn one decides a summation and no summation is put off for
ever.  In the end each summation with a variable over the table of the common tuple has such a
variable matched, and no other summation has any.

Profiles are compared only where there is more than one option, and then the keys of the atoms that
mention an option have to be computed with words.

Main definition:

* `Chooser.Decides` — **the summations that can be matched are, and no others**.

Main result:

* `Chooser.choose_decides` — **the choice is made for every summation that has one**.
-/

import Mathlib.Data.List.MinMax
import BagEquiv.Proofs.Binders
import BagEquiv.Proofs.Choosing

set_option autoImplicit false

namespace BagEquiv

theorem Ends.and {ε α : Type} {x : Except ε α} {e : ε} {E F : Prop} {P Q : α → Prop}
    (h : Ends x e E P) (hE : x = .error e → F) (hP : ∀ a, x = .ok a → P a → Q a) :
    Ends x e F Q := by
  rcases h with ⟨a, rfl, ha⟩ | ⟨rfl, -⟩
  · exact .inl ⟨a, rfl, hP a rfl ha⟩
  · exact .inr ⟨rfl, hE rfl⟩

namespace Chooser

variable {c : Chooser} {d : Decided} {s : OpenSum} {table : Option String}

theorem mem_options {v : Var} : v ∈ options table s ↔ v ∈ s.vars ∧ s.tableOf? v = table := by
  rw [options, List.mem_filter, decide_eq_true_iff]
  rfl

/-! ### The common tuple -/

/-- The candidate that comes first among those with the greatest reach. -/
structure IsCommon (c : Chooser) (x : Candidate) : Prop where
  mem : x ∈ c.candidates
  greatest : ∀ y ∈ c.candidates, c.reach y ≤ c.reach x
  earliest : ∀ y ∈ c.candidates, c.reach x ≤ c.reach y →
    c.candidates.idxOf x ≤ c.candidates.idxOf y

theorem common?_eq_argmax (c : Chooser) : c.common? = c.candidates.argmax c.reach := by
  unfold common? List.argmax
  congr 1
  funext best x
  cases best with
  | none => rfl
  | some y => simp [List.argAux]

theorem isCommon_of_common? {x : Candidate} (h : c.common? = some x) : c.IsCommon x := by
  rw [common?_eq_argmax] at h
  obtain ⟨hmem, hgreatest, hearliest⟩ := List.argmax_eq_some_iff.mp h
  exact ⟨hmem, hgreatest, hearliest⟩

/-- There is a common tuple unless nothing is bound. -/
theorem common?_eq_none : c.common? = none ↔ ∀ s ∈ c.scope, s.vars.toList = [] := by
  rw [common?_eq_argmax, List.argmax_eq_none, candidates, List.flatMap_eq_nil_iff]
  constructor
  · intro h s hs
    obtain ⟨i, hi⟩ := List.mem_iff_getElem?.mp hs
    have hnumbered : (i, s) ∈ c.numbered :=
      List.mem_map.mpr ⟨(s, i), List.mem_zipIdx_iff_getElem?.mpr hi, rfl⟩
    exact List.map_eq_nil_iff.mp (h (i, s) hnumbered)
  · rintro h ⟨i, s⟩ his
    rw [List.map_eq_nil_iff]
    exact h s (List.mem_of_getElem? (mem_numbered his))

/-! ### Deciding one summation -/

/-- An atom that mentions a variable over the table has no key. -/
def Unprofiled (c : Chooser) (table : Option String) : Prop :=
  ∃ s ∈ c.scope, ∃ v ∈ options table s, (c.renamedBody s v).hasProfile c.tuple = false

theorem mem_of_mem_decidedBodies (hd : Fits table c.scope d) {p : OpenSum → Bool} {t : Term}
    (ht : t ∈ c.decidedBodies d p) :
    ∃ s ∈ c.scope, ∃ v ∈ options table s, t = c.renamedBody s v := by
  rw [decidedBodies, List.mem_filterMap] at ht
  obtain ⟨⟨s, o⟩, hso, ht⟩ := ht
  simp only at ht
  split at ht
  · obtain ⟨v, hv, rfl⟩ := Option.map_eq_some_iff.mp ht
    have hmem : ∀ p ∈ c.scope.zip d, ∀ v ∈ p.2, v ∈ options table p.1 := by
      rintro ⟨s, o⟩ hso
      exact List.forall₂_zip hd hso
    exact ⟨s, (List.of_mem_zip hso).1, v, hmem _ hso v hv, rfl⟩
  · cases ht

theorem unprofiled_of_requireProfiles (hs : s ∈ c.scope) {bodies : List Term}
    (hbodies : ∀ t ∈ bodies, ∃ s ∈ c.scope, ∃ v ∈ options table s, t = c.renamedBody s v)
    {f : Fault} (h : c.requireProfiles bodies s (options table s) = .error f) :
    c.Unprofiled table := by
  unfold requireProfiles at h
  split at h
  · cases h
  · next hno =>
      rw [Bool.not_eq_true, List.all_eq_false] at hno
      obtain ⟨t, ht, hprofile⟩ := hno
      rw [Bool.not_eq_true] at hprofile
      rcases List.mem_append.mp ht with ht | ht
      · obtain ⟨s', hs', v, hv, rfl⟩ := hbodies t ht
        exact ⟨s', hs', v, hv, hprofile⟩
      · obtain ⟨v, hv, rfl⟩ := List.mem_map.mp ht
        exact ⟨s, hs, v, hv, hprofile⟩

/-- A decision fails only if there are several options and one of them cannot be compared. -/
theorem unprofiled_of_tryDecide (hd : Fits table c.scope d) (hs : s ∈ c.scope) {mode : Evidence}
    {f : Fault} (h : c.tryDecide d mode s (options table s) = .error f) :
    2 ≤ (options table s).length ∧ c.Unprofiled table := by
  have hbodies : ∀ p, ∀ t ∈ c.decidedBodies d p,
      ∃ s ∈ c.scope, ∃ v ∈ options table s, t = c.renamedBody s v :=
    fun p t => mem_of_mem_decidedBodies hd
  generalize hvs : options table s = vs at h
  match vs with
  | [] => cases h
  | [only] => cases h
  | first :: second :: rest =>
      refine ⟨by simp, ?_⟩
      unfold tryDecide at h
      simp only [← hvs] at h
      cases mode with
      | strict =>
          simp only at h
          split at h
          · cases h
          · rcases Fault.error_of_bind h with h | ⟨_, _, h⟩
            · exact unprofiled_of_requireProfiles hs (hbodies _) h
            · cases h
      | pattern =>
          rcases Fault.error_of_bind h with h | ⟨_, _, h⟩
          · refine unprofiled_of_requireProfiles hs ?_ h
            split
            · exact hbodies _
            · exact hbodies _
          · cases h
      | forced =>
          rcases Fault.error_of_bind h with h | ⟨_, _, h⟩
          · exact unprofiled_of_requireProfiles hs (hbodies _) h
          · cases h

/-- The weakest evidence suffices for a decision. -/
theorem tryDecide_forced {vs : List Var} (hvs : vs ≠ []) :
    c.tryDecide d .forced s vs ≠ .ok none := by
  intro h
  match vs with
  | [] => exact hvs rfl
  | [only] => cases h
  | first :: second :: rest =>
      unfold tryDecide at h
      obtain ⟨_, _, h⟩ := Fault.ok_of_bind h
      cases h

/-! ### One round -/

/-- The summation is one of the scope, not that of the common tuple, and it has options. -/
structure Pending.Open (p : Pending) (c : Chooser) (x : Candidate) : Prop where
  of : p.Of c.scope x.table
  other : p.index ≠ x.index
  options : p.options ≠ []

/-- Every summation with options is decided or is still to be decided. -/
def Accounted (c : Chooser) (table : Option String) (d : Decided) (queue : List Pending) : Prop :=
  ∀ i s, c.scope[i]? = some s → options table s ≠ [] →
    (∃ v, d[i]? = some (some v)) ∨ ∃ p ∈ queue, p.index = i

/-- Options have to be compared, in a summation other than that of the common tuple, and an atom
that mentions one of them has no key. -/
structure Unclear (c : Chooser) (x : Candidate) : Prop where
  compared : ∃ i s, c.scope[i]? = some s ∧ i ≠ x.index ∧ 2 ≤ (options x.table s).length
  unprofiled : c.Unprofiled x.table

variable {x : Candidate}

/-- What holds within a round, with the summations that it has yet to look at. -/
structure Round.Ongoing (c : Chooser) (x : Candidate) (r : Round) (todo : List Pending) : Prop where
  fits : Fits x.table c.scope r.decided
  delayed : ∀ p ∈ r.delayed, p.Open c x
  accounted : c.Accounted x.table r.decided (r.delayed ++ todo)

/-- What a part of a round does: the common tuple stays, and what is put off is less than what there
was if anything was decided.  If nothing was, the evidence asked for is as before, and it was not
the weakest. -/
structure Round.Advances (x : Candidate) (todo : List Pending) (r r' : Round) : Prop where
  common : r'.decided[x.index]? = r.decided[x.index]?
  shrinks : r'.delayed.length + r'.progress.toNat ≤
    r.delayed.length + todo.length + r.progress.toNat
  stuck : r'.progress = false →
    r.progress = false ∧ r'.mode = r.mode ∧ (r.mode = .forced → todo = [])

theorem Round.Advances.refl (x : Candidate) (r : Round) : r.Advances x [] r :=
  ⟨rfl, Nat.le_refl _, fun h => ⟨h, rfl, fun _ => rfl⟩⟩

theorem Round.Advances.cons {p : Pending} {todo : List Pending} {r r' r'' : Round}
    (h : r.Advances x [p] r') (h' : r'.Advances x todo r'') : r.Advances x (p :: todo) r'' := by
  refine ⟨h'.common.trans h.common, ?_, fun hstuck => ?_⟩
  · have := h.shrinks
    have := h'.shrinks
    rw [List.length_singleton] at *
    rw [List.length_cons]
    omega
  · obtain ⟨hprogress', hmode', -⟩ := h'.stuck hstuck
    obtain ⟨hprogress, hmode, hforced⟩ := h.stuck hprogress'
    exact ⟨hprogress, hmode'.trans hmode, fun hmode => by cases hforced hmode⟩

/-- A summation is decided, and then one less is left, or it is put off. -/
theorem Round.step_advances {r : Round} {p : Pending} {todo : List Pending}
    (hr : r.Ongoing c x (p :: todo)) (hp : p.Open c x) :
    Ends (r.step c p) .overflow (c.Unclear x) fun r' =>
      r'.Ongoing c x todo ∧ r.Advances x [p] r' := by
  have hmem := List.mem_of_getElem? hp.of.1
  have hdecision : Ends (c.tryDecide r.decided r.mode p.sum p.options) .overflow (c.Unclear x)
      fun o => (∀ v ∈ o, v ∈ options x.table p.sum) ∧ (r.mode = .forced → o ≠ none) := by
    refine (tryDecide_ends hmem r.mode p.options).and (fun herror => ?_) fun o ho hv => ⟨?_, ?_⟩
    · rw [hp.of.2] at herror
      obtain ⟨htwo, hunprofiled⟩ := unprofiled_of_tryDecide hr.fits hmem herror
      exact ⟨⟨p.index, p.sum, hp.of.1, hp.other, htwo⟩, hunprofiled⟩
    · exact fun v hv' => hp.of.2 ▸ hv v hv'
    · rintro hforced rfl
      rw [hforced] at ho
      exact tryDecide_forced hp.options ho
  refine hdecision.bind fun o ⟨ho, hforced⟩ => ?_
  cases o with
  | some v =>
      have hlt : p.index < r.decided.length := by
        rw [← hr.fits.length_eq]
        exact (List.getElem?_eq_some_iff.mp hp.of.1).1
      refine ends_ok ⟨⟨hr.fits.set hp.of.1 (ho v rfl), hr.delayed, ?_⟩, ?_, ?_, ?_⟩
      · intro i s hs hoptions
        by_cases hi : i = p.index
        · subst hi
          exact .inl ⟨v, by simp [hlt]⟩
        · rcases hr.accounted i s hs hoptions with ⟨w, hw⟩ | ⟨q, hq, rfl⟩
          · exact .inl ⟨w, by rw [List.getElem?_set_ne (Ne.symm hi), hw]⟩
          · refine .inr ⟨q, ?_, rfl⟩
            have hne : q ≠ p := fun heq => hi (congrArg Pending.index heq)
            simpa [hne] using hq
      · exact List.getElem?_set_ne hp.other
      · simp
      · simp
  | none =>
      refine ends_ok ⟨⟨hr.fits, ?_, ?_⟩, rfl, ?_, fun hstuck => ⟨hstuck, rfl, fun hmode => ?_⟩⟩
      · intro q hq
        rcases List.mem_append.mp hq with hq | hq
        · exact hr.delayed q hq
        · exact List.mem_singleton.mp hq ▸ hp
      · simpa using hr.accounted
      · simp
      · exact absurd rfl (hforced hmode)

/-- What one round does. -/
theorem pass_ends {todo : List Pending} {r : Round} (hr : r.Ongoing c x todo)
    (htodo : ∀ p ∈ todo, p.Open c x) :
    Ends (todo.foldlM (Round.step c) r) .overflow (c.Unclear x) fun r' =>
      r'.Ongoing c x [] ∧ r.Advances x todo r' := by
  induction todo generalizing r with
  | nil => exact ends_ok ⟨hr, .refl x r⟩
  | cons p todo ih =>
      rw [List.forall_mem_cons] at htodo
      rw [List.foldlM_cons]
      refine (Round.step_advances hr htodo.1).bind fun r' ⟨hr', hstep⟩ => ?_
      exact (ih hr' htodo.2).mono id fun r'' ⟨hr'', hrest⟩ => ⟨hr'', hstep.cons hrest⟩

/-! ### All rounds -/

/-- Rounds over the summations that are not decided, until there are none. -/
inductive Runs (c : Chooser) : Decided → Evidence → List Pending → Decided → Prop
  | last {d : Decided} {mode : Evidence} {queue : List Pending} {r : Round}
      (hpass : queue.foldlM (Round.step c) ⟨d, [], false, mode⟩ = .ok r) (hdone : r.delayed = []) :
      Runs c d mode queue r.decided
  | next {d d' : Decided} {mode : Evidence} {queue : List Pending} {r : Round}
      (hpass : queue.foldlM (Round.step c) ⟨d, [], false, mode⟩ = .ok r) (hleft : r.delayed ≠ [])
      (hrest : Runs c r.decided (nextMode r.progress r.mode) r.delayed d') : Runs c d mode queue d'

/-- The number of rounds that may be needed for a number of summations. -/
def patience : Evidence → ℕ → ℕ
  | .strict, n => 3 * n
  | .pattern, n => 3 * n - 1
  | .forced, n => 3 * n - 2

/-- After a round that leaves some summations, fewer rounds may be needed. -/
theorem patience_lt {todo : List Pending} {d : Decided} {mode : Evidence} {r : Round}
    (h : Round.Advances x todo ⟨d, [], false, mode⟩ r) (hleft : r.delayed ≠ []) :
    patience (nextMode r.progress r.mode) r.delayed.length < patience mode todo.length := by
  have hlength := List.length_pos_iff.mpr hleft
  have hshrinks := h.shrinks
  simp only [List.length_nil, Nat.zero_add, Bool.toNat_false, Nat.add_zero] at hshrinks
  cases hprogress : r.progress with
  | true =>
      -- The evidence is strict again, which three rounds less for one summation make up for.
      rw [hprogress, Bool.toNat_true] at hshrinks
      change patience .strict r.delayed.length < patience mode todo.length
      cases mode <;> simp only [patience] <;> omega
  | false =>
      obtain ⟨-, hmode, hforced⟩ := h.stuck hprogress
      rw [hmode]
      cases mode with
      | strict =>
          change 3 * r.delayed.length - 1 < 3 * todo.length
          omega
      | pattern =>
          change 3 * r.delayed.length - 2 < 3 * todo.length - 1
          omega
      | forced =>
          -- The weakest evidence decides whatever there is, so nothing can be left.
          obtain rfl := hforced rfl
          simp only [List.length_nil] at hshrinks
          omega

/-- The summations are all decided within as many rounds as may be needed. -/
theorem rounds_ends_with (fuel : ℕ) (mode : Evidence) {queue : List Pending}
    (hfuel : patience mode queue.length ≤ fuel) (hd : Fits x.table c.scope d)
    (hqueue : ∀ p ∈ queue, p.Open c x) (haccounted : c.Accounted x.table d queue) :
    Ends (c.rounds fuel d mode queue) .overflow (c.Unclear x) fun d' =>
      c.Runs d mode queue d' ∧ Fits x.table c.scope d' ∧ c.Accounted x.table d' [] ∧
        d'[x.index]? = d[x.index]? := by
  induction fuel generalizing d mode queue with
  | zero =>
      -- Every summation in the queue needs a round, so without fuel there is none.
      have hnil : queue = [] := by
        rw [← List.length_eq_zero_iff]
        cases mode <;> simp only [patience] at hfuel <;> omega
      subst hnil
      exact ends_ok ⟨.last (r := ⟨d, [], false, mode⟩) rfl rfl, hd, haccounted, rfl⟩
  | succ fuel ih =>
      have hstart : Round.Ongoing c x ⟨d, [], false, mode⟩ queue := ⟨hd, by simp, haccounted⟩
      rcases pass_ends hstart hqueue with ⟨r, hpass, hr, hadvances⟩ | ⟨hpass, hunclear⟩
      · rw [rounds, hpass]
        dsimp only [bind, Except.bind]
        split
        · next hdone =>
            refine ends_ok ⟨.last hpass hdone, hr.fits, ?_, hadvances.common⟩
            simpa [hdone] using hr.accounted
        · next hleft =>
            have hlt := patience_lt hadvances hleft
            refine (ih _ (by omega) hr.fits hr.delayed (by simpa using hr.accounted)).mono id ?_
            rintro d' ⟨hruns, hfits, haccounted', hcommon⟩
            exact ⟨.next hpass hleft hruns, hfits, haccounted', hcommon.trans hadvances.common⟩
      · rw [rounds, hpass]
        exact .inr ⟨rfl, hunclear⟩

/-! ### The choice -/

theorem mem_queue {p : Pending} : p ∈ c.queue x ↔ p.Open c x := by
  rw [queue, List.mem_filterMap]
  constructor
  · rintro ⟨⟨i, s⟩, his, hp⟩
    simp only at hp
    split at hp
    · next hcondition =>
        cases hp
        rw [Bool.and_eq_true, decide_eq_true_iff, Bool.not_eq_true', List.isEmpty_eq_false_iff]
          at hcondition
        exact ⟨⟨mem_numbered his, rfl⟩, hcondition.1, hcondition.2⟩
    · cases hp
  · intro hp
    refine ⟨(p.index, p.sum), ?_, ?_⟩
    · exact List.mem_map.mpr ⟨(p.sum, p.index), List.mem_zipIdx_iff_getElem?.mpr hp.of.1, rfl⟩
    · have hoptions := hp.options
      rw [hp.of.2] at hoptions
      have hcondition :
          (decide (p.index ≠ x.index) && !(options x.table p.sum).isEmpty) = true := by
        simp [hp.other, hoptions]
      exact (if_pos hcondition).trans (by rw [← hp.of.2])

/-- The common tuple is matched with itself.  Every summation with a variable over its table has
such a variable matched, and those without one have none. -/
structure Decides (c : Chooser) (x : Candidate) (matched : List (Option Var)) : Prop where
  length : matched.length = c.scope.length
  common : matched[x.index]? = some (some x.var)
  found : ∀ (i : ℕ) (s : OpenSum), c.scope[i]? = some s → (∃ v ∈ s.vars, s.tableOf? v = x.table) →
    ∃ v ∈ s.vars, s.tableOf? v = x.table ∧ matched[i]? = some (some v)
  missing : ∀ (i : ℕ) (s : OpenSum), c.scope[i]? = some s → (∀ v ∈ s.vars, s.tableOf? v ≠ x.table) →
    matched[i]? = some none

theorem Fits.getElem? (h : Fits table c.scope d) {i : ℕ} (hs : c.scope[i]? = some s) :
    ∃ o, d[i]? = some o ∧ ∀ v ∈ o, v ∈ options table s := by
  obtain ⟨hi, rfl⟩ := List.getElem?_eq_some_iff.mp hs
  have hi' : i < d.length := h.length_eq ▸ hi
  exact ⟨d[i], List.getElem?_eq_getElem hi', List.Forall₂.get h hi hi'⟩

theorem decides_of_accounted (hd : Fits x.table c.scope d)
    (haccounted : c.Accounted x.table d []) (hcommon : d[x.index]? = some (some x.var)) :
    c.Decides x d := by
  refine ⟨hd.length_eq.symm, hcommon, fun i s hs hfound => ?_, fun i s hs hmissing => ?_⟩
  · obtain ⟨v, hv, htable⟩ := hfound
    have hoptions : options x.table s ≠ [] := List.ne_nil_of_mem (mem_options.mpr ⟨hv, htable⟩)
    obtain ⟨w, hw⟩ := (haccounted i s hs hoptions).resolve_right (by simp)
    obtain ⟨o, ho, hfits⟩ := hd.getElem? hs
    obtain rfl := Option.some.inj (hw.symm.trans ho)
    obtain ⟨hmem, htable⟩ := mem_options.mp (hfits w rfl)
    exact ⟨w, hmem, htable, hw⟩
  · obtain ⟨o, ho, hfits⟩ := hd.getElem? hs
    cases o with
    | none => exact ho
    | some v =>
        obtain ⟨hmem, htable⟩ := mem_options.mp (hfits v rfl)
        exact absurd htable (hmissing v hmem)

/-- With a common tuple, the choice is what the rounds decide. -/
theorem choose_of_common? {budget : Budget} (hb : budget.expired = false)
    (hx : c.common? = some x) : c.choose budget =
      Failure.ofFault (c.rounds (3 * (c.queue x).length) (c.start x) .strict (c.queue x)) := by
  unfold choose
  rw [hx]
  simp only [Budget.check, hb]
  rfl

/-- The choice is made for every summation that has one.  If nothing is bound, nothing is matched.
Otherwise the rounds come to an end and match what can be matched with the common tuple, unless
options have to be compared and the key of an atom cannot be computed. -/
theorem choose_decides (c : Chooser) {budget : Budget} (hb : budget.expired = false) :
    ((∀ s ∈ c.scope, s.vars.toList = []) →
      c.choose budget = .ok (c.scope.map fun _ => none)) ∧
    ((∃ s ∈ c.scope, s.vars.toList ≠ []) → ∃ x, c.common? = some x ∧ c.IsCommon x ∧
      ((∃ matched, c.choose budget = .ok matched ∧ c.Decides x matched ∧
          c.Runs (c.start x) .strict (c.queue x) matched) ∨
        (c.choose budget = .error (.fault .overflow) ∧ c.Unclear x))) := by
  constructor
  · intro h
    rw [choose, common?_eq_none.mpr h]
  · rintro ⟨s, hs, hvars⟩
    obtain ⟨x, hx⟩ : ∃ x, c.common? = some x :=
      Option.ne_none_iff_exists'.mp fun hnone => hvars (common?_eq_none.mp hnone s hs)
    refine ⟨x, hx, isCommon_of_common? hx, ?_⟩
    obtain ⟨s, hs, hv⟩ := mem_options_of_mem_candidates (mem_candidates_of_common? hx)
    have hstart : Fits x.table c.scope (c.start x) := (fits_none x.table c.scope).set hs hv
    have hcommon : (c.start x)[x.index]? = some (some x.var) := by
      rw [start, List.getElem?_set_self]
      rw [List.length_map]
      exact (List.getElem?_eq_some_iff.mp hs).1
    have haccounted : c.Accounted x.table (c.start x) (c.queue x) := by
      intro i s hs hoptions
      by_cases hi : i = x.index
      · exact .inl ⟨x.var, hi ▸ hcommon⟩
      · exact .inr ⟨⟨i, s, options x.table s⟩, mem_queue.mpr ⟨⟨hs, rfl⟩, hi, hoptions⟩, rfl⟩
    rw [choose_of_common? hb hx]
    have hends := rounds_ends_with (3 * (c.queue x).length) .strict (Nat.le_refl _) hstart
      (fun p => mem_queue.mp) haccounted
    refine hends.ofFault.mono id ?_
    rintro d ⟨hruns, hfits, haccounted', hcommon'⟩
    exact ⟨decides_of_accounted hfits haccounted' (hcommon'.trans hcommon), hruns⟩

/-- Summations over pairs of rows on both sides, and one over another table. -/
def threeSums (bound : Fraction) : Chooser where
  scope := OpenSum.scope
    (.add [.twoRows "x" "y" bound, .sum (.ofList [.base "u"]) (.table "s" (.base "u"))])
    (.twoRows "z" "w" bound)
  tuple := placeholder 0
  output := "out"

theorem choose_decides_threeSums :
    Budget.unlimited.expired = false ∧
      (∃ s ∈ (threeSums .zero).scope, s.vars.toList ≠ []) ∧
      (threeSums .zero).choose .unlimited = .ok [some (.base "x"), none, some (.base "z")] ∧
      (threeSums .zero).Decides ⟨0, .base "x", some "r"⟩
        [some (.base "x"), none, some (.base "z")] := by
  have hbudget : Budget.unlimited.expired = false := rfl
  have hbound : ∃ s ∈ (threeSums .zero).scope, s.vars.toList ≠ [] := by decide +kernel
  have hcommon : (threeSums .zero).common? = some ⟨0, .base "x", some "r"⟩ := by decide +kernel
  have hchoose : (threeSums .zero).choose .unlimited =
      .ok [some (.base "x"), none, some (.base "z")] := by decide +kernel
  obtain ⟨x, hx, -, hends⟩ := (choose_decides (threeSums .zero) hbudget).2 hbound
  obtain rfl := Option.some.inj (hcommon.symm.trans hx)
  obtain ⟨matched, hmatched, hdecides, -⟩ := hends.resolve_right fun h => by
    cases hchoose.symm.trans h.1
  obtain rfl := Except.ok.inj (hchoose.symm.trans hmatched)
  exact ⟨hbudget, hbound, hchoose, hdecides⟩

/-- No choice is made where two options have to be compared with the key of a constant that cannot
be computed. -/
theorem choose_of_tooDeep :
    Budget.unlimited.expired = false ∧
      (threeSums .tooDeep).common? = some ⟨0, .base "x", some "r"⟩ ∧
      (threeSums .tooDeep).choose .unlimited = .error (.fault .overflow) :=
  ⟨rfl, by decide +kernel, by decide +kernel⟩

end Chooser

end BagEquiv
