/-
**Checks in which nothing is decided.**

A decision procedure may give up on every question.  A check then depends on the terms only: they
are equal as they are written, or the check is interrupted, or the first matching cannot be
translated, or the matchings that can be reached from it are tried until the limit and none of them
decides.  Nothing else can happen, since a pair that is translated under one matching is translated
under all of them, stars can always be replaced by invariants, and time does not run out.

Main definition:

* `Procedure.Undecided` — a procedure that gives up on every question.

Main result:

* `check_lawful` — **every check keeps the promise**.
-/

import Mathlib.Data.ENat.Lattice
import Mathlib.Data.Set.Card
import BagEquiv.Proofs.MatchingIndependence
import BagEquiv.Proofs.MatchingSearch
import BagEquiv.Proofs.StarElimination
import BagEquiv.Proofs.StarShape

set_option autoImplicit false

namespace BagEquiv

variable {σ : Type}

/-! ### Procedures that give up -/

namespace Procedure

/-- Every question is answered, and no answer decides. -/
structure Undecided (p : Procedure σ) : Prop where
  valid : ∀ claim s, ∃ reason t, p.checkValid claim s = (.ok (.unknown reason), t)
  sat : ∀ claim s, ∃ reason t, p.checkSat claim s = (.ok (.unknown reason), t)

/-- Without a solver nothing is decided, as long as there is time. -/
theorem undecided_unaided {limit : ℕ} (hlimit : 0 < limit) {budget : Budget}
    (hb : budget.expired = false) : (unaided limit budget).Undecided := by
  have hne : limit ≠ 0 := Nat.ne_of_gt hlimit
  have hgive : ∀ claim, giveUp limit budget claim = .ok claim.formula.obstacle := by
    intro claim
    simp [giveUp, Budget.check, hb, hne, bind, Except.bind, pure, Except.pure]
  constructor <;> intro claim s <;>
    exact ⟨claim.formula.obstacle, s, by simp [unaided, hgive, Except.map]⟩

end Procedure

/-! ### Stars -/

namespace Invariant

theorem exists_component (vector : List Symbol) {i : ℕ} (h : i < vector.length) :
    ∃ f, component vector i = .ok f := by
  rw [component, List.getElem?_eq_getElem h]
  exact ⟨_, rfl⟩

theorem exists_sideFrom (vector : List Symbol) (side : Side) {sides : List Side} {i : ℕ}
    (h : i + sides.length ≤ vector.length) :
    ∃ fs, sideFrom vector side i sides = .ok fs := by
  induction sides generalizing i with
  | nil => exact ⟨[], rfl⟩
  | cons s sides ih =>
      rw [List.length_cons] at h
      obtain ⟨fs, hfs⟩ := ih (i := i + 1) (by omega)
      obtain ⟨f, hf⟩ := exists_component vector (i := i) (by omega)
      rw [sideFrom, hf, hfs]
      split
      · exact ⟨_, rfl⟩
      · exact ⟨_, rfl⟩

/-- The candidates for a star have formulas over its vectors. -/
theorem exists_formula {vector : List Symbol} {sides : List Side}
    (hsides : sides.length ≤ vector.length) {c : Invariant}
    (hc : c ∈ candidates vector.length sides) : ∃ f, c.formula vector sides = .ok f := by
  have hindex : ∀ {i : ℕ}, i ∈ List.range vector.length → ∃ f, component vector i = .ok f :=
    fun hi => exists_component vector (List.mem_range.mp hi)
  simp only [candidates, List.mem_append, List.mem_map, List.mem_flatMap] at hc
  rcases hc with (((⟨i, hi, rfl⟩ | ⟨i, hi, rfl⟩) | ⟨⟨i, j⟩, hij, hc⟩) | hc) | ⟨⟨i, j⟩, hij, rfl⟩
  · obtain ⟨f, hf⟩ := hindex hi
    exact ⟨_, by rw [formula, hf]; rfl⟩
  · obtain ⟨f, hf⟩ := hindex hi
    exact ⟨_, by rw [formula, hf]; rfl⟩
  · obtain ⟨hi, hj⟩ := mem_of_mem_pairs hij
    obtain ⟨f, hf⟩ := hindex hi
    obtain ⟨g, hg⟩ := hindex hj
    simp only [List.mem_cons, List.not_mem_nil, or_false] at hc
    rcases hc with rfl | rfl | rfl <;> exact ⟨_, by rw [formula, hf, hg]; rfl⟩
  · split at hc
    · obtain rfl := List.mem_singleton.mp hc
      obtain ⟨fs, hfs⟩ := exists_sideFrom vector .left (i := 0) (by omega : 0 + sides.length ≤ _)
      obtain ⟨gs, hgs⟩ := exists_sideFrom vector .right (i := 0) (by omega : 0 + sides.length ≤ _)
      exact ⟨_, by rw [formula, hfs, hgs]; rfl⟩
    · exact absurd hc List.not_mem_nil
  · obtain ⟨hi, hj⟩ := mem_of_mem_pairs hij
    obtain ⟨f, hf⟩ := hindex hi
    obtain ⟨g, hg⟩ := hindex hj
    exact ⟨_, by rw [formula, hf, hg]; rfl⟩

end Invariant

namespace Formula

variable {p : Procedure σ}

/-- No candidate is found to hold. -/
theorem invariants_of_undecided (hp : p.Undecided) (outer : List Symbol) {inner : List Symbol}
    {sides : List Side} (body : Formula) (nonneg : List ℕ) {cs : List Invariant}
    (hcs : ∀ c ∈ cs, ∃ f, c.formula inner sides = .ok f) (s : σ) :
    ∃ t, Returns (invariants p outer inner sides body nonneg cs) s (.ok []) t := by
  induction cs generalizing s with
  | nil => exact ⟨s, returns_pure.mpr ⟨rfl, rfl⟩⟩
  | cons c cs ih =>
      rw [List.forall_mem_cons] at hcs
      rw [invariants]
      split
      · obtain ⟨f, hf⟩ := hcs.1
        obtain ⟨reason, t, ht⟩ := hp.valid ⟨.implies body f, [], []⟩ s
        obtain ⟨u, hu⟩ := ih hcs.2 t
        refine ⟨u, returns_bind.mpr ⟨f, s, ?_, returns_bind.mpr
          ⟨.ok (.unknown reason), t, ?_, hu⟩⟩⟩
        · rw [hf]
          exact returns_pure.mpr ⟨rfl, rfl⟩
        · exact returns_modifyGet.mpr ht
      · exact ih hcs.2 s

/-- Stars whose sides fit their vectors are replaced, and nothing is found out about them. -/
theorem overApproximate_of_undecided (hp : p.Undecided) {f : Formula} (hf : f.Conjunctive)
    (hstars : ∀ v ∈ f.stars, v.sides.length ≤ v.inner.length) (s : σ) :
    ∃ g t, Returns (overApproximate p f) s (.ok g) t := by
  induction hf generalizing s with
  | @starFree f free =>
      rw [overApproximate_of_starFree f free]
      exact ⟨f, s, returns_pure.mpr ⟨rfl, rfl⟩⟩
  | @and ts hts ih =>
      have hall : ∀ s, ∃ gs t, Returns (overApproximateAll p ts) s (.ok gs) t := by
        rw [stars, starsAll_eq] at hstars
        clear s hts
        induction ts with
        | nil => exact fun s => ⟨[], s, returns_pure.mpr ⟨rfl, rfl⟩⟩
        | cons f ts ihs =>
            intro s
            rw [List.forall_mem_cons] at ih
            rw [List.flatMap_cons, List.forall_mem_append] at hstars
            obtain ⟨g, t, hg⟩ := ih.1 hstars.1 s
            obtain ⟨gs, u, hgs⟩ := ihs ih.2 hstars.2 t
            exact ⟨g :: gs, u, returns_bind.mpr ⟨_, t, hg, returns_bind.mpr ⟨_, u, hgs,
              returns_pure.mpr ⟨rfl, rfl⟩⟩⟩⟩
      obtain ⟨gs, t, hgs⟩ := hall s
      exact ⟨.and gs, t, returns_bind.mpr ⟨_, t, hgs, returns_pure.mpr ⟨rfl, rfl⟩⟩⟩
  | @star outer inner sides body _ ih =>
      rw [stars, List.forall_mem_cons] at hstars
      obtain ⟨g, t, hg⟩ := ih hstars.2 s
      obtain ⟨u, hu⟩ := invariants_of_undecided hp outer g []
        (fun c hc => Invariant.exists_formula hstars.1 hc) t
      exact ⟨.and [], u, returns_bind.mpr ⟨_, t, hg, returns_bind.mpr ⟨_, u, hu,
        returns_pure.mpr ⟨rfl, rfl⟩⟩⟩⟩

end Formula

/-- The stars of an encoding can be replaced. -/
theorem Formula.WellShaped.of_encodePair {schemas : SchemaMap} {m : Matching} {budget : Budget}
    {left right : Term} {F : Encoding} (h : encodePair schemas m budget left right = .ok F) :
    F.formula.WellShaped := by
  obtain ⟨f, e, hreturns, hsimplify⟩ := encodePair_eq_ok h
  exact (Encoder.tally_difference (Encoder.orderly_ofSchemas schemas) rfl hreturns).1.simplify
    hsimplify

/-! ### One matching -/

namespace Check

variable {α : Type} {p : Procedure σ} {input : Input} {debug : Bool} {budget : Budget}
  {m : Matching}

theorem fails_lift {e : Failure} {P : Progress σ} :
    Fails (lift (.error e) : CheckM σ α) P e := rfl

/-- A question that is answered leaves everything but the state of the procedure as it is. -/
theorem returns_consult {c : ProcedureM σ (Except Error α)} {a : α} {P : Progress σ} {t : σ}
    (h : Returns c P.procedure (.ok a) t) :
    Returns (consult c) P a { P with procedure := t } := by
  have hrun : c.run P.procedure = (.ok (.ok a), t) := h
  refine returns_bind.mpr ⟨P, P, returns_get.mpr ⟨rfl, rfl⟩, ?_⟩
  rw [hrun]
  exact returns_bind.mpr ⟨⟨⟩, _, returns_set.mpr rfl, returns_pure.mpr ⟨rfl, rfl⟩⟩

theorem returns_note (reason : String) (P : Progress σ) :
    Returns (note reason) P ⟨⟩ { P with reason := reason } := rfl

/-- A formula whose stars can be replaced is not refuted. -/
theorem refutes_of_undecided (hp : p.Undecided) {f : Formula} (hf : f.WellShaped)
    (P : Progress σ) : ∃ Q, Returns (refutes p f) P false Q ∧ Q.tried = P.tried := by
  have hstars : ∀ v ∈ f.stars, v.sides.length ≤ v.inner.length := fun v hv => by
    have := hf.lengths v hv
    omega
  obtain ⟨g, t, hg⟩ :=
    Formula.overApproximate_of_undecided hp hf.conjunctive hstars P.procedure
  obtain ⟨reason, u, hu⟩ := hp.valid ⟨.not g, [], []⟩ t
  refine ⟨_, returns_bind.mpr ⟨g, _, returns_consult hg, returns_bind.mpr
    ⟨.unknown reason, _, returns_consult (t := u) (returns_modifyGet.mpr hu),
      returns_bind.mpr ⟨⟨⟩, _, returns_note reason _, returns_pure.mpr ⟨rfl, rfl⟩⟩⟩⟩, rfl⟩

/-- No model is found. -/
theorem separation_of_undecided (hp : p.Undecided) (input : Input) (F : Encoding)
    (P : Progress σ) : ∃ Q, Returns (separation p input F) P none Q ∧ Q.tried = P.tried := by
  obtain ⟨reason, u, hu⟩ := hp.sat ⟨F.formula.underApproximate, [], []⟩ P.procedure
  exact ⟨_, returns_bind.mpr ⟨.unknown reason, _, returns_consult (t := u)
    (returns_modifyGet.mpr hu), returns_bind.mpr
      ⟨⟨⟩, _, returns_note reason _, returns_pure.mpr ⟨rfl, rfl⟩⟩⟩, rfl⟩

theorem ofError_check (hb : budget.expired = false) : Failure.ofError budget.check = .ok () := by
  rw [Budget.check, hb]
  rfl

/-- A matching that is translated is tried, and it does not decide. -/
theorem attempt_of_undecided (hp : p.Undecided) (hb : budget.expired = false) {F : Encoding}
    (hF : encodePair input.schemas m budget input.left input.right = .ok F) (debug : Bool)
    (P : Progress σ) :
    ∃ Q, Returns (attempt p input debug budget m) P none Q ∧ Q.tried = P.tried + 1 := by
  let kept : Progress σ := { P with
    tried := P.tried + 1
    formula := if debug then some F.formula.text else P.formula }
  obtain ⟨Q, hQ, htried⟩ := refutes_of_undecided hp (.of_encodePair hF) kept
  obtain ⟨R, hR, htried'⟩ := separation_of_undecided hp input F Q
  refine ⟨R, ?_, htried'.trans htried⟩
  unfold attempt
  rw [ofError_check hb, hF]
  refine returns_bind.mpr ⟨(), P, rfl, returns_bind.mpr ⟨⟨⟩, _, rfl, returns_bind.mpr
    ⟨F, _, rfl, ?_⟩⟩⟩
  cases debug with
  | true =>
      exact returns_bind.mpr ⟨⟨⟩, kept, rfl, returns_bind.mpr ⟨false, Q, hQ,
        returns_bind.mpr ⟨none, R, hR, returns_pure.mpr ⟨rfl, rfl⟩⟩⟩⟩
  | false =>
      exact returns_bind.mpr ⟨false, Q, hQ,
        returns_bind.mpr ⟨none, R, hR, returns_pure.mpr ⟨rfl, rfl⟩⟩⟩

/-- A matching that is not translated ends the check. -/
theorem attempt_fails (hb : budget.expired = false) {e : Failure}
    (hF : encodePair input.schemas m budget input.left input.right = .error e) (p : Procedure σ)
    (debug : Bool) (P : Progress σ) : Fails (attempt p input debug budget m) P e := by
  unfold attempt
  rw [ofError_check hb, hF]
  exact fails_bind.mpr (.inr ⟨(), P, rfl, fails_bind.mpr (.inr ⟨⟨⟩, _, rfl,
    fails_bind.mpr (.inl fails_lift)⟩)⟩)

/-! ### All matchings of a search -/

/-- Matchings that are all translated are all tried, and none decides. -/
theorem attempts_of_undecided (hp : p.Undecided) (hb : budget.expired = false) {n : ℕ}
    {search : Search}
    (hF : ∀ m ∈ (search.take n).1,
      ∃ F, encodePair input.schemas m budget input.left input.right = .ok F)
    (debug : Bool) (P : Progress σ) :
    ∃ reason Q, Returns (attempts p input debug budget n search) P (.inconclusive reason) Q ∧
      Q.tried = P.tried + (search.take n).1.length := by
  induction n generalizing search P with
  | zero =>
      exact ⟨P.reason, P, returns_bind.mpr ⟨P, P, rfl, returns_pure.mpr ⟨rfl, rfl⟩⟩, rfl⟩
  | succ n ih =>
      rw [attempts]
      rw [Search.take] at hF ⊢
      cases hnext : search.next? with
      | none =>
          exact ⟨P.reason, P, returns_bind.mpr ⟨P, P, rfl, returns_pure.mpr ⟨rfl, rfl⟩⟩, rfl⟩
      | some found =>
          obtain ⟨m, rest⟩ := found
          rw [hnext] at hF
          simp only [List.forall_mem_cons] at hF
          obtain ⟨⟨F, hm⟩, hrest⟩ := hF
          obtain ⟨Q, hQ, htried⟩ := attempt_of_undecided hp hb hm debug P
          obtain ⟨reason, R, hR, htried'⟩ := ih hrest Q
          refine ⟨reason, R, returns_bind.mpr ⟨none, Q, hQ, hR⟩, ?_⟩
          rw [htried', htried, List.length_cons]
          omega

/-- A matching that is not translated ends the check if it comes next. -/
theorem attempts_succ_fails (hb : budget.expired = false) {n : ℕ} {search rest : Search}
    (hnext : search.next? = some (m, rest)) {e : Failure}
    (he : encodePair input.schemas m budget input.left input.right = .error e) (p : Procedure σ)
    (debug : Bool) (P : Progress σ) : Fails (attempts p input debug budget (n + 1) search) P e := by
  rw [attempts, hnext]
  exact fails_bind.mpr (.inl (attempt_fails hb he p debug P))

/-- If a matching is not translated, the check ends at the first such matching. -/
theorem attempts_fails (hp : p.Undecided) (hb : budget.expired = false) {n : ℕ}
    {search : Search} (hm : m ∈ (search.take n).1) {e : Failure}
    (he : encodePair input.schemas m budget input.left input.right = .error e)
    (debug : Bool) (P : Progress σ) :
    ∃ m' ∈ (search.take n).1, ∃ e',
      encodePair input.schemas m' budget input.left input.right = .error e' ∧
        Fails (attempts p input debug budget n search) P e' := by
  induction n generalizing search P with
  | zero => exact absurd hm List.not_mem_nil
  | succ n ih =>
      rw [Search.take] at hm ⊢
      cases hnext : search.next? with
      | none =>
          rw [hnext] at hm
          exact absurd hm List.not_mem_nil
      | some found =>
          obtain ⟨k, rest⟩ := found
          rw [hnext] at hm
          cases hk : encodePair input.schemas k budget input.left input.right with
          | error e' =>
              exact ⟨k, List.mem_cons_self, e', hk, attempts_succ_fails hb hnext hk p debug P⟩
          | ok F =>
              -- This one is not decided, so the search goes on to the others.
              rcases List.mem_cons.mp hm with rfl | hm
              · rw [hk] at he
                cases he
              · obtain ⟨Q, hQ, -⟩ := attempt_of_undecided hp hb hk debug P
                obtain ⟨m', hm', e', he', hfails⟩ := ih hm Q
                refine ⟨m', List.mem_cons_of_mem _ hm', e', he', ?_⟩
                rw [attempts, hnext]
                exact fails_bind.mpr (.inr ⟨none, Q, hQ, hfails⟩)

end Check

/-! ### The number of matchings -/

namespace Search

open Matching

variable {left right : Term} {seed : Matching} {limit : ℕ}

/-- To take matchings is to ask for the next one again and again. -/
theorem take_eq (s : Search) (n : ℕ) :
    s.take n = (s.results (.replicate n .next), s.after (.replicate n .next)) := by
  induction n generalizing s with
  | zero => rfl
  | succ n ih =>
      rw [take, List.replicate_succ, results, after]
      cases hnext : s.next? with
      | some found => simp only [ih]
      | none =>
          have hnil : s.results (.replicate n .next) = [] := by
            clear ih
            induction n with
            | zero => rfl
            | succ n ih => rw [List.replicate_succ, results, hnext, ih]
          simp only [hnil, after_of_next?_eq_none hnext]

theorem exists_next?_start (hlimit : 0 < limit) (left right : Term) (seed : Matching) :
    ∃ rest, (start left right seed limit).next? = some (seed, rest) :=
  ⟨_, if_neg (Nat.not_le.mpr hlimit)⟩

/-- The matchings that are taken from a search are different and can be reached, and there are as
many of them as the limit allows. -/
theorem length_take_start (hseed : seed.isValid left right = true) (limit : ℕ) :
    (((start left right seed limit).take limit).1.length : ℕ∞) =
      min (limit : ℕ∞) {m | Reachable left right seed m}.encard := by
  classical
  have hstart : Account left right seed limit (start left right seed limit) [] :=
    account_start hseed
  have account := hstart.run (.replicate limit .next)
  have hend := hstart.finite (.replicate limit .next) (by simp)
  rw [take_eq]
  generalize (start left right seed limit).results (.replicate limit .next) = done at account ⊢
  rw [List.nil_append] at account
  have hcard : {m | m ∈ done}.encard = done.length := by
    rw [← List.coe_toFinset, Set.encard_coe_eq_coe_finsetCard,
      List.toFinset_card_of_nodup account.done_nodup]
  -- Below the limit the search ended because there was nothing left to reach.
  rcases account.bounded.lt_or_eq with hlt | heq
  · have hreached : {m | Reachable left right seed m} = {m | m ∈ done} :=
      Set.ext fun m => (account.complete hend hlt m).symm
    rw [hreached, hcard, min_eq_right (by exact_mod_cast hlt.le)]
  · have hle : (done.length : ℕ∞) ≤ {m | Reachable left right seed m}.encard := by
      rw [← hcard]
      exact Set.encard_le_encard fun m hm => account.reachable m (account.done_subset m hm)
    rw [heq] at hle ⊢
    exact (min_eq_left hle).symm

end Search

/-- Without time only terms without summations are matched. -/
theorem Matching.seed_of_expired {budget : Budget} (hb : budget.expired = true)
    (left right : Term) (output : String) :
    seed left right output budget = .ok ⟨[]⟩ ∨
      seed left right output budget = .error (.error .timeout) := by
  have hlayers : ∀ fuel scope, seedLayers output budget fuel 0 scope = .ok [] ∨
      seedLayers output budget fuel 0 scope = .error (.error .timeout) := by
    intro fuel scope
    cases scope with
    | nil => exact .inl (by rw [seedLayers])
    | cons s scope =>
        cases fuel with
        | zero => exact .inl rfl
        | succ fuel =>
            have hcheck : budget.check = .error .timeout := if_pos hb
            refine .inr ?_
            rw [seedLayers, hcheck]
            · rfl
            · exact List.cons_ne_nil s scope
  rcases hlayers (left.binderCount + right.binderCount) (OpenSum.scope left right) with h | h
  · left
    simp only [seed, h]
    rfl
  · right
    simp only [seed, h]
    rfl

/-! ### Whole checks -/

namespace Check

variable {p : Procedure σ} {input fresh : Input} {config : Config} {budget : Budget}
  {seed : Matching} {s : σ}

/-- What is tried once the input is freshened and matched. -/
theorem verdict_eq_attempts (hfresh : input.freshen = .ok fresh)
    (hseed : Matching.seed fresh.left fresh.right fresh.output budget = .ok seed)
    (hvalid : seed.validate fresh.left fresh.right = .ok ())
    (hscores : Matching.requireScores fresh.left fresh.right = .ok ()) :
    verdict p input config budget = attempts p fresh config.debug budget (max config.limit 1)
      (.start fresh.left fresh.right seed (max config.limit 1)) := by
  have hstart : Search.Checked.start fresh.left fresh.right seed (max config.limit 1) =
      .ok (.start fresh.left fresh.right seed (max config.limit 1)) := by
    rw [Search.Checked.start, hscores]
    rfl
  unfold verdict
  rw [hfresh]
  change (lift (Matching.seed fresh.left fresh.right fresh.output budget) >>= _) = _
  rw [hseed]
  change (lift (Failure.ofError (seed.validate fresh.left fresh.right)) >>= _) = _
  rw [hvalid]
  change (lift (Failure.ofFault (Search.Checked.start fresh.left fresh.right seed _)) >>= _) = _
  rw [hstart]
  rfl

/-- Freshening the input can only overflow. -/
theorem exists_fresh
    (hwords : ¬Fails (verdict p input config budget) (.start s) (.fault .overflow)) :
    ∃ fresh, input.freshen = .ok fresh := by
  cases hfresh : input.freshen with
  | ok fresh => exact ⟨fresh, rfl⟩
  | error f =>
      have hfreshen : MayOverflow input.freshen :=
        (Term.mayOverflow_freshenWith _ _ _).bind fun p _ =>
          (Term.mayOverflow_freshenWith _ _ p.2).bind fun _ _ => mayOverflow_ok _
      obtain rfl := hfreshen f hfresh
      refine absurd (fails_bind.mpr (.inl ?_)) hwords
      rw [hfresh]
      rfl

/-- So can the keys for the scores of matchings. -/
theorem requireScores_of_words
    (hwords : ¬Fails (verdict p input config budget) (.start s) (.fault .overflow))
    (hfresh : input.freshen = .ok fresh)
    (hseed : Matching.seed fresh.left fresh.right fresh.output budget = .ok seed)
    (hvalid : seed.validate fresh.left fresh.right = .ok ()) :
    Matching.requireScores fresh.left fresh.right = .ok () := by
  rw [Matching.requireScores, Term.requireKeys]
  split
  · rfl
  · next hkeys =>
    refine absurd ?_ hwords
    have hscores : Matching.requireScores fresh.left fresh.right = .error .overflow :=
      if_neg hkeys
    have hstart : Search.Checked.start fresh.left fresh.right seed (max config.limit 1) =
        .error .overflow := by
      rw [Search.Checked.start, hscores]
      rfl
    refine fails_bind.mpr (.inr ⟨fresh, .start s, by rw [hfresh]; rfl, fails_bind.mpr
      (.inr ⟨seed, .start s, by rw [hseed]; rfl, fails_bind.mpr (.inr ⟨(), .start s,
        by rw [hvalid]; rfl, fails_bind.mpr (.inl ?_)⟩)⟩)⟩)
    rw [hstart]
    rfl

/-! ### Checks without time -/

/-- Without time nothing is tried. -/
theorem verdict_of_expired (hb : budget.expired = true)
    (hwords : ¬Fails (verdict p input config budget) (.start s) (.fault .overflow)) :
    (verdict p input config budget).run.run (.start s) =
      (.error (.error .timeout), .start s) := by
  obtain ⟨fresh, hfresh⟩ := exists_fresh hwords
  rcases Matching.seed_of_expired hb fresh.left fresh.right fresh.output with hseed | hseed
  · have hvalid : Matching.validate ⟨[]⟩ fresh.left fresh.right = .ok () := rfl
    have hscores := requireScores_of_words hwords hfresh hseed hvalid
    have hlimit : max config.limit 1 = max config.limit 1 - 1 + 1 := by omega
    obtain ⟨rest, hnext⟩ := Search.exists_next?_start (show 0 < max config.limit 1 by omega)
      fresh.left fresh.right ⟨[]⟩
    have hcheck : budget.check = .error .timeout := if_pos hb
    rw [verdict_eq_attempts hfresh hseed hvalid hscores, hlimit, attempts, ← hlimit, hnext]
    simp only [attempt, hcheck]
    rfl
  · unfold verdict
    rw [hfresh]
    change (lift (Matching.seed fresh.left fresh.right fresh.output budget) >>= _).run.run _ = _
    rw [hseed]
    rfl

/-! ### The promise -/

/-- The result of a check with a verdict. -/
theorem check_eq_of_returns (hsame : Term.Checked.same input.left input.right = .ok false)
    {v : Verdict} {P : Progress σ} (h : Returns (verdict p input config budget) (.start s) v P) :
    check p s input config budget = .ok ⟨v, ⟨false, false, P.tried⟩, P.formula⟩ := by
  have hrun : (verdict p input config budget).run (.start s) = (.ok v, P) := h
  unfold check
  rw [hsame, hrun]
  rfl

/-- The result of a check that fails, but not for want of time. -/
theorem check_eq_of_fails (hsame : Term.Checked.same input.left input.right = .ok false)
    {e : Failure} (h : Fails (verdict p input config budget) (.start s) e)
    (he : e ≠ .error .timeout) : check p s input config budget = .error e := by
  obtain ⟨P, hrun⟩ : ∃ P, (verdict p input config budget).run (.start s) = (.error e, P) :=
    ⟨_, Prod.ext h rfl⟩
  unfold check
  rw [hsame, hrun]
  cases e with
  | fault f => rfl
  | error e =>
      cases e with
      | timeout => exact absurd rfl he
      | _ => rfl

/-- What comes of the search from a first matching.  The check is refused exactly if the encoding
under this matching is, and for the same reason.  If it is not refused it is inconclusive, and all
matchings that can be reached were tried, up to the limit. -/
structure Searched (fresh : Input) (seed : Matching) (limit : ℕ) (budget : Budget)
    (result : Except Failure Report) : Prop where
  refused : ∀ e, result = .error (.error e) ↔
    encodePair fresh.schemas seed budget fresh.left fresh.right = .error (.error e)
  tried : (∀ e, encodePair fresh.schemas seed budget fresh.left fresh.right ≠ .error (.error e)) →
    ∃ reason tried formula,
      result = .ok ⟨.inconclusive reason, ⟨false, false, tried⟩, formula⟩ ∧
      (tried : ℕ∞) =
        min (limit : ℕ∞) {m | Matching.Reachable fresh.left fresh.right seed m}.encard

/-- What is promised of the result of a check in which nothing is decided. -/
structure Lawful (input : Input) (config : Config) (budget : Budget)
    (result : Except Failure Report) : Prop where
  /-- Terms that are equal as they are written are equivalent, interrupted or not. -/
  equal : input.left.same input.right = true →
    result = .ok ⟨.equivalent, ⟨true, false, 0⟩, none⟩
  /-- An interrupted check of other terms is inconclusive, and nothing was tried. -/
  interrupted : input.left.same input.right = false → budget.interrupted = true →
    result = .ok ⟨.inconclusive "timed out", ⟨false, true, 0⟩, none⟩
  /-- Any other check has a first matching, and searches from there. -/
  searched : input.left.same input.right = false → budget.interrupted = false →
    ∃ fresh seed, input.freshen = .ok fresh ∧
      Matching.seed fresh.left fresh.right fresh.output budget = .ok seed ∧
      Searched fresh seed (max config.limit 1) budget result

/-- If the terms are encoded under one matching, then so they are under another, or a number
overflows. -/
theorem encodePair_ok_or_overflow {schemas : SchemaMap} {left right : Term} {m : Matching}
    (hschemas : ∀ k : ℕ, schemas.get? ("#ct" ++ toString k) = none)
    (hleft : left.Known 0) (hright : right.Known 0) (hb : budget.expired = false) {F : Encoding}
    (hF : encodePair schemas m budget left right = .ok F) (m' : Matching) :
    (∃ F, encodePair schemas m' budget left right = .ok F) ∨
      encodePair schemas m' budget left right = .error (.fault .overflow) := by
  have htranslatable := (encodePair_isOk_iff hschemas hleft hright (by simp [hF])
    (by simp [hF])).mp ⟨F, hF⟩
  by_cases hwords : encodePair schemas m' budget left right = .error (.fault .overflow)
  · exact .inr hwords
  · have htime := encodePair_ne_timeout hschemas hleft hright hb m'
    exact .inl ((encodePair_isOk_iff hschemas hleft hright htime hwords).mpr htranslatable)

theorem eq_overflow_of_encodePair {schemas : SchemaMap} {left right : Term} {m : Matching}
    (hschemas : ∀ k : ℕ, schemas.get? ("#ct" ++ toString k) = none)
    (hleft : left.Known 0) (hright : right.Known 0) {fault : Fault}
    (h : encodePair schemas m budget left right = .error (.fault fault)) : fault = .overflow := by
  rcases encodePair_eq_error h with hfails | ⟨f, fault', hsimplify, heq⟩
  · exact (Encoder.decides_difference m budget (Encoder.prepared_ofSchemas hschemas) hleft
      hright).faulted hfails
  · cases heq
    exact f.mayOverflow_simplify fault hsimplify

/-- The first matching of a freshened input is valid, unless a key overflows. -/
theorem exists_seed (hb : budget.expired = false) (hfresh : input.freshen = .ok fresh)
    (hwords : ¬Fails (verdict p input config budget) (.start s) (.fault .overflow)) :
    ∃ seed, Matching.seed fresh.left fresh.right fresh.output budget = .ok seed ∧
      seed.validate fresh.left fresh.right = .ok () := by
  obtain ⟨⟨l, t⟩, hl, ⟨r, u⟩, hr, h⟩ := Fault.ok_of_bind₂ hfresh
  cases h
  rcases Matching.seed_ends (Term.wellNamed_of_freshen hl hr) input.output hb with
    ⟨seed, hseed, seeded⟩ | ⟨hseed, -⟩
  · exact ⟨seed, hseed, seeded.valid⟩
  · refine absurd ?_ hwords
    refine fails_bind.mpr (.inr ⟨_, .start s, by rw [hfresh]; rfl, fails_bind.mpr (.inl ?_)⟩)
    rw [hseed]
    rfl

/-- A check with time left tries what the search yields, if the first matching is translated. -/
theorem searched_of_time (hp : p.Undecided) (hb : budget.expired = false)
    (hnames : ∀ x ∈ input.names, x.toList.head? ≠ some '#')
    (hsame : Term.Checked.same input.left input.right = .ok false)
    (hwords : ¬Fails (verdict p input config budget) (.start s) (.fault .overflow))
    (hfresh : input.freshen = .ok fresh)
    (hseed : Matching.seed fresh.left fresh.right fresh.output budget = .ok seed)
    (hvalid : seed.validate fresh.left fresh.right = .ok ()) :
    Searched fresh seed (max config.limit 1) budget (check p s input config budget) := by
  obtain ⟨hleft, hright, hschemas⟩ := Input.known_of_freshen hnames hfresh
  have hverdict : verdict p input config budget = _ :=
    verdict_eq_attempts hfresh hseed hvalid (requireScores_of_words hwords hfresh hseed hvalid)
  have hisValid : seed.isValid fresh.left fresh.right = true := by
    rw [Matching.isValid, hvalid]
  generalize hlimit : max config.limit 1 = limit at hverdict ⊢
  obtain ⟨n, rfl⟩ : ∃ n, limit = n + 1 := ⟨limit - 1, by omega⟩
  obtain ⟨rest, hnext⟩ :=
    Search.exists_next?_start (Nat.succ_pos n) fresh.left fresh.right seed
  cases hF : encodePair fresh.schemas seed budget fresh.left fresh.right with
  | error failure =>
      have hfails : Fails (verdict p input config budget) (.start s) failure := by
        rw [hverdict]
        exact attempts_succ_fails hb hnext hF p config.debug (.start s)
      have hne : failure ≠ .error .timeout := by
        rintro rfl
        exact encodePair_ne_timeout hschemas hleft hright hb seed hF
      cases failure with
      | fault fault =>
          obtain rfl := eq_overflow_of_encodePair hschemas hleft hright hF
          exact absurd hfails hwords
      | error e =>
          rw [check_eq_of_fails hsame hfails hne]
          exact ⟨fun e' => by rw [hF]; simp, fun hnone => absurd hF (hnone e)⟩
  | ok F =>
      have hall : ∀ m ∈ ((Search.start fresh.left fresh.right seed (n + 1)).take (n + 1)).1,
          ∃ F, encodePair fresh.schemas m budget fresh.left fresh.right = .ok F := by
        intro m hm
        rcases encodePair_ok_or_overflow hschemas hleft hright hb hF m with hok | hoverflow
        · exact hok
        · -- Otherwise the check would end at the first matching that overflows.
          obtain ⟨m', -, e, he, hfails⟩ :=
            attempts_fails hp hb hm hoverflow config.debug (.start s)
          rcases encodePair_ok_or_overflow hschemas hleft hright hb hF m' with ⟨F', hF'⟩ | he'
          · rw [hF'] at he
            cases he
          · rw [he'] at he
            cases he
            rw [← hverdict] at hfails
            exact absurd hfails hwords
      obtain ⟨reason, Q, hQ, htried⟩ := attempts_of_undecided hp hb hall config.debug (.start s)
      rw [← hverdict] at hQ
      rw [check_eq_of_returns hsame hQ]
      refine ⟨fun e => by rw [hF]; simp, fun _ => ⟨reason, Q.tried, Q.formula, rfl, ?_⟩⟩
      rw [htried, ← Search.length_take_start hisValid, Progress.start, Nat.zero_add]

/-- A check keeps the promise if the procedure gives up as long as there is time. -/
theorem lawful_of_undecided (hp : budget.expired = false → p.Undecided)
    (hnames : ∀ x ∈ input.names, x.toList.head? ≠ some '#') (hdeadline : budget.left = none)
    (hwords : check p s input config budget ≠ .error (.fault .overflow)) :
    Lawful input config budget (check p s input config budget) := by
  have hexpired : budget.expired = budget.interrupted := by
    rw [Budget.expired, Budget.elapsed, hdeadline]
    exact Bool.or_false _
  cases hsame : Term.Checked.same input.left input.right with
  | error f =>
      obtain rfl := Term.Checked.mayOverflow_same _ _ f hsame
      refine absurd ?_ hwords
      unfold check
      rw [hsame]
      rfl
  | ok b =>
      have hb := Term.Checked.same_of_ok hsame
      cases b with
      | true =>
          refine ⟨fun _ => ?_, fun h => ?_, fun h => ?_⟩
          · unfold check
            rw [hsame]
            rfl
          · rw [hb] at h
            cases h
          · rw [hb] at h
            cases h
      | false =>
          have hverdict : ¬Fails (verdict p input config budget) (.start s) (.fault .overflow) :=
            fun h => hwords (check_eq_of_fails hsame h nofun)
          refine ⟨fun h => ?_, fun _ h => ?_, fun _ h => ?_⟩
          · rw [hb] at h
            cases h
          · have hrun : (verdict p input config budget).run (.start s) =
                (.error (.error .timeout), .start s) :=
              verdict_of_expired (hexpired.trans h) hverdict
            unfold check
            rw [hsame, hrun]
            rfl
          · rw [← hexpired] at h
            obtain ⟨fresh, hfresh⟩ := exists_fresh hverdict
            obtain ⟨seed, hseed, hvalid⟩ := exists_seed h hfresh hverdict
            exact ⟨fresh, seed, hfresh, hseed,
              searched_of_time (hp h) h hnames hsame hverdict hfresh hseed hvalid⟩

end Check

/-- **Every check in which nothing is decided keeps the promise**, with any procedure that gives up
on every question while there is time.  Names that begin with a number sign are left to the encoder,
and numbers are small enough. -/
theorem check_lawful {input : Input} {config : Config} {budget : Budget}
    (hnames : ∀ x ∈ input.names, x.toList.head? ≠ some '#') (hdeadline : budget.left = none)
    {p : Procedure σ} (hp : budget.expired = false → p.Undecided) {s : σ}
    (hwords : check p s input config budget ≠ .error (.fault .overflow)) :
    Check.Lawful input config budget (check p s input config budget) :=
  Check.lawful_of_undecided hp hnames hdeadline hwords

/-- A procedure that counts the questions and answers none. -/
def Procedure.counting : Procedure ℕ where
  checkValid _ n := (.ok (.unknown ""), n + 1)
  checkSat _ n := (.ok (.unknown ""), n + 1)

theorem check_lawful_rows :
    (∀ x ∈ Input.rows.names, x.toList.head? ≠ some '#') ∧ Procedure.counting.Undecided ∧
      check .counting 0 Input.rows {} .unlimited ≠ .error (.fault .overflow) ∧
      Check.Lawful Input.rows {} .unlimited (check .counting 0 Input.rows {} .unlimited) := by
  have hnames : ∀ x ∈ Input.rows.names, x.toList.head? ≠ some '#' := by decide +kernel
  have hp : Procedure.counting.Undecided := ⟨fun _ n => ⟨_, n + 1, rfl⟩, fun _ n => ⟨_, n + 1, rfl⟩⟩
  have hok : (check .counting 0 Input.rows {} .unlimited).isOk = true := by decide +kernel
  have hwords : check .counting 0 Input.rows {} .unlimited ≠ .error (.fault .overflow) := by
    intro h
    rw [h] at hok
    cases hok
  exact ⟨hnames, hp, hwords, check_lawful hnames rfl (fun _ => hp) hwords⟩

/-- Without a solver the promise is kept as well. -/
theorem verifyWithin_lawful {input : Input} {config : Config} {budget : Budget}
    (hnames : ∀ x ∈ input.names, x.toList.head? ≠ some '#') (hsolver : 0 < config.solverTimeout)
    (hdeadline : budget.left = none)
    (hwords : verifyWithin input config budget ≠ .error (.fault .overflow)) :
    Check.Lawful input config budget (verifyWithin input config budget) :=
  Check.lawful_of_undecided (Procedure.undecided_unaided hsolver) hnames hdeadline hwords

end BagEquiv
