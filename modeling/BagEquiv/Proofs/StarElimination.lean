/-
**Formulas without their stars.**

Every invariant that is put in the place of a star holds of the zero vector and is closed under
addition, so it holds of a sum of vectors as soon as it holds of the summands, and that is what the
decision procedure was asked.  Only "two components are zero together" needs more: it is closed
under addition because neither component is negative, which was found out before.

Replacing a star by its body and the equations between its two vectors asks for a sum of exactly one
summand, and this summand is the interpretation itself.  So the result holds where the formula does
with such a summand in every star, and nowhere else.  The summand agrees with the interpretation on
all symbols.  It does not matter, therefore, which of them a reading makes the summands share with
the place where the star stands.

Main definition:

* `Claim.Valid`, `Procedure.Sound` — what a claim says, and that a procedure
  accepts only claims that hold.

Main results:

* `Formula.overApproximate_sound` — **without its stars a formula has no star, and it
  holds wherever it held before**;
* `Formula.underApproximate_sound` — **every solution of the approximation from below is one of the
  formula**.
-/

import Mathlib.Algebra.Order.BigOperators.Group.List
import BagEquiv.Formula.StarFree
import BagEquiv.Proofs.FormulaValue
import BagEquiv.Proofs.Runs

set_option autoImplicit false

namespace BagEquiv

/-- For all values of the other symbols there are values of the existential ones for which the
formula holds. -/
def Claim.Valid (R : Reading) (c : Claim) : Prop :=
  ∀ ρ, R.Admits ρ →
    ∃ σ, R.Admits σ ∧ (∀ s ∉ c.existential, σ s = ρ s) ∧ c.formula.Holds R ∅ σ

/-- Of the claims without stars, the procedure calls only those valid that are. -/
def Procedure.Sound {τ : Type} (R : Reading) (p : Procedure τ) : Prop :=
  ∀ (c : Claim) (s t : τ), c.formula.hasStar = false →
    p.checkValid c s = (.ok .valid, t) → c.Valid R

/-- A claim that binds no symbol holds everywhere. -/
theorem Claim.Valid.holds {R : Reading} {f : Formula} (h : Claim.Valid R ⟨f, [], []⟩)
    {ρ : Interpretation} (hρ : R.Admits ρ) : f.Holds R ∅ ρ := by
  obtain ⟨σ, _, hσ, hf⟩ := h ρ hρ
  have : σ = ρ := funext fun s => hσ s List.not_mem_nil
  rwa [this] at hf

namespace Formula

/-- The value of an outer symbol is the sum of the values of the inner symbol at its place. -/
theorem Sums.component {outer inner : List Symbol} {ρ : Interpretation}
    {σs : List Interpretation} (h : Sums outer inner ρ σs) {i : Nat} {u v : Symbol}
    (hu : outer[i]? = some u) (hv : inner[i]? = some v) :
    ρ u = (σs.map fun σ => σ v).sum := by
  have : (outer.zip inner)[i]? = some (u, v) := by
    rw [List.getElem?_zip_eq_some]
    exact ⟨hu, hv⟩
  exact h _ (List.mem_of_getElem? this)

end Formula

/-! ### The formulas of invariants -/

namespace Invariant

open Formula

variable {R : Reading} {K : Set Symbol} {ρ : Interpretation} {σs : List Interpretation}
  {outer inner vector : List Symbol} {sides : List Side} {f g : Formula} {fs gs : List Formula}

theorem component_ok {i : Nat} (h : component vector i = .ok f) :
    ∃ s, vector[i]? = some s ∧ f = .sym s := by
  unfold component at h
  split at h
  · next s hs => exact ⟨s, hs, by simpa using h.symm⟩
  · cases h

/-- The formula of an invariant reads components of the vector. -/
theorem formula_ok {c : Invariant} (h : c.formula vector sides = .ok f) :
    match c with
    | .nonneg i => ∃ s, vector[i]? = some s ∧ f = .le .zero (.sym s)
    | .zero i => ∃ s, vector[i]? = some s ∧ f = .eq (.sym s) .zero
    | .equal i j => ∃ s t, vector[i]? = some s ∧ vector[j]? = some t ∧ f = .eq (.sym s) (.sym t)
    | .atMost i j => ∃ s t, vector[i]? = some s ∧ vector[j]? = some t ∧ f = .le (.sym s) (.sym t)
    | .balanced => ∃ l r, sideFrom vector .left 0 sides = .ok l ∧
        sideFrom vector .right 0 sides = .ok r ∧ f = .eq (.plus l) (.plus r)
    | .zeroTogether i j => ∃ s t, vector[i]? = some s ∧ vector[j]? = some t ∧
        f = .iff (.eq (.sym s) .zero) (.eq (.sym t) .zero) := by
  cases c with
  | nonneg i | zero i =>
      obtain ⟨a, ha, hf⟩ := Fault.ok_of_bind h
      obtain ⟨s, hs, rfl⟩ := component_ok ha
      exact ⟨s, hs, by cases hf; rfl⟩
  | equal i j | atMost i j | zeroTogether i j =>
      obtain ⟨a, ha, b, hb, hf⟩ := Fault.ok_of_bind₂ h
      obtain ⟨s, hs, rfl⟩ := component_ok ha
      obtain ⟨t, ht, rfl⟩ := component_ok hb
      exact ⟨s, t, hs, ht, by cases hf; rfl⟩
  | balanced =>
      obtain ⟨l, hl, r, hr, hf⟩ := Fault.ok_of_bind₂ h
      exact ⟨l, r, hl, hr, by cases hf; rfl⟩

/-- A side of the outer vector has the sum of what the side has in the summands. -/
theorem sum_sideFrom {side : Side} {i : Nat} (hs : Sums outer inner ρ σs)
    (hf : sideFrom inner side i sides = .ok fs) (hg : sideFrom outer side i sides = .ok gs) :
    (valueAll R gs K ρ).sum = (σs.map fun σ => (valueAll R fs K σ).sum).sum := by
  induction sides generalizing i fs gs with
  | nil =>
      cases hf
      cases hg
      simp [valueAll]
  | cons s sides ih =>
      rw [sideFrom] at hf hg
      split at hf
      · rw [if_pos ‹_›] at hg
        obtain ⟨a, ha, hf⟩ := Fault.ok_of_bind hf
        obtain ⟨b, hb, hg⟩ := Fault.ok_of_bind hg
        obtain ⟨v, hv, rfl⟩ := component_ok ha
        obtain ⟨u, hu, rfl⟩ := component_ok hb
        obtain ⟨fs', hfs, hf⟩ := Fault.ok_of_bind hf
        obtain ⟨gs', hgs, hg⟩ := Fault.ok_of_bind hg
        cases hf
        cases hg
        simp only [valueAll, value, List.sum_cons, List.sum_map_add]
        rw [hs.component hu hv, ih hfs hgs]
      · rw [if_neg ‹_›] at hg
        exact ih hf hg

/-- A sum of numbers that are not negative is zero only if all of them are. -/
theorem sum_eq_zero_iff {v : Symbol} (h : ∀ σ ∈ σs, 0 ≤ σ v) :
    (σs.map fun σ => σ v).sum = 0 ↔ ∀ σ ∈ σs, σ v = 0 := by
  induction σs with
  | nil => simp
  | cons σ σs ih =>
      rw [List.forall_mem_cons] at h
      have rest : 0 ≤ (σs.map fun σ => σ v).sum := by
        refine List.sum_nonneg fun x hx => ?_
        obtain ⟨τ, hτ, rfl⟩ := List.mem_map.mp hx
        exact h.2 τ hτ
      rw [List.map_cons, List.sum_cons, add_eq_zero_iff_of_nonneg h.1 rest, ih h.2,
        List.forall_mem_cons]

/-- An invariant that the summands satisfy is satisfied by the sum; for two components that are
zero together, if they are not negative in the summands. -/
theorem holds_of_summands {c : Invariant} (hs : Sums outer inner ρ σs)
    (hf : c.formula inner sides = .ok f) (hg : c.formula outer sides = .ok g)
    (hσ : ∀ σ ∈ σs, f.Holds R K σ)
    (hn : ∀ i j, c = .zeroTogether i j →
      ∀ σ ∈ σs, ∀ k ∈ [i, j], ∀ v, inner[k]? = some v → 0 ≤ σ v) :
    g.Holds R K ρ := by
  have hf := formula_ok hf
  have hg := formula_ok hg
  cases c with
  | nonneg i =>
      obtain ⟨v, hv, rfl⟩ := hf
      obtain ⟨u, hu, rfl⟩ := hg
      simp only [holds_le, value_zero, value] at hσ ⊢
      rw [hs.component hu hv]
      refine List.sum_nonneg fun x hx => ?_
      obtain ⟨σ, hσs, rfl⟩ := List.mem_map.mp hx
      exact hσ σ hσs
  | zero i =>
      obtain ⟨v, hv, rfl⟩ := hf
      obtain ⟨u, hu, rfl⟩ := hg
      simp only [holds_eq, value_zero, value] at hσ ⊢
      rw [hs.component hu hv, sum_eq_zero_iff fun σ hσs => (hσ σ hσs).ge]
      exact hσ
  | equal i j =>
      obtain ⟨v, w, hv, hw, rfl⟩ := hf
      obtain ⟨u, t, hu, ht, rfl⟩ := hg
      simp only [holds_eq, value] at hσ ⊢
      rw [hs.component hu hv, hs.component ht hw, List.map_congr_left hσ]
  | atMost i j =>
      obtain ⟨v, w, hv, hw, rfl⟩ := hf
      obtain ⟨u, t, hu, ht, rfl⟩ := hg
      simp only [holds_le, value] at hσ ⊢
      rw [hs.component hu hv, hs.component ht hw]
      exact List.sum_le_sum hσ
  | balanced =>
      obtain ⟨l, r, hl, hr, rfl⟩ := hf
      obtain ⟨l', r', hl', hr', rfl⟩ := hg
      simp only [holds_eq, value] at hσ ⊢
      rw [sum_sideFrom hs hl hl', sum_sideFrom hs hr hr', List.map_congr_left hσ]
  | zeroTogether i j =>
      obtain ⟨v, w, hv, hw, rfl⟩ := hf
      obtain ⟨u, t, hu, ht, rfl⟩ := hg
      simp only [holds_iff, holds_eq, value_zero, value] at hσ ⊢
      have hi : ∀ σ ∈ σs, 0 ≤ σ v := fun σ hσs => hn i j rfl σ hσs i (by simp) v hv
      have hj : ∀ σ ∈ σs, 0 ≤ σ w := fun σ hσs => hn i j rfl σ hσs j (by simp) w hw
      rw [hs.component hu hv, hs.component ht hw, sum_eq_zero_iff hi, sum_eq_zero_iff hj]
      exact forall₂_congr hσ

theorem hasStarAny_sideFrom {side : Side} {i : Nat} (h : sideFrom vector side i sides = .ok fs) :
    hasStarAny fs = false := by
  induction sides generalizing i fs with
  | nil =>
      cases h
      rfl
  | cons s sides ih =>
      rw [sideFrom] at h
      split at h
      · obtain ⟨a, ha, fs', hfs, h⟩ := Fault.ok_of_bind₂ h
        obtain ⟨v, _, rfl⟩ := component_ok ha
        cases h
        rw [hasStarAny, ih hfs]
        rfl
      · exact ih h

theorem hasStar_formula {c : Invariant} (h : c.formula vector sides = .ok f) :
    f.hasStar = false := by
  have h := formula_ok h
  cases c with
  | nonneg i | zero i =>
      obtain ⟨s, _, rfl⟩ := h
      rfl
  | equal i j | atMost i j | zeroTogether i j =>
      obtain ⟨s, t, _, _, rfl⟩ := h
      rfl
  | balanced =>
      obtain ⟨l, r, hl, hr, rfl⟩ := h
      rw [hasStar, hasStar, hasStar, hasStarAny_sideFrom hl, hasStarAny_sideFrom hr, Bool.or_self]

end Invariant

/-! ### The invariants of a star -/

namespace Formula

variable {τ : Type} {R : Reading} {p : Procedure τ}

/-- A step that may fault and does not leaves the state as it is. -/
theorem returns_ofExcept_bind {α β : Type} {x : Except Fault α} {f : α → ProcedureM τ β} {b : β}
    {s t : τ} (h : Returns (ProcedureM.ofExcept x >>= f) s b t) :
    ∃ a, x = .ok a ∧ Returns (f a) s b t := by
  obtain ⟨a, s', hx, h⟩ := returns_bind.mp h
  cases x with
  | ok a' =>
      obtain ⟨rfl, rfl⟩ := returns_pure.mp hx
      exact ⟨a, rfl, h⟩
  | error e => exact absurd hx returns_throw

theorem ok_of_map {α β : Type} {f : α → β} {x : Except Error α} {b : β}
    (h : Except.ok b = x.map f) : ∃ a, x = .ok a ∧ b = f a := by
  cases x with
  | ok a => exact ⟨a, rfl, Except.ok.inj h⟩
  | error e => cases h

/-- The components whose indices are listed are not negative where the body holds. -/
def NonnegAt (R : Reading) (inner : List Symbol) (body : Formula) (indices : List Nat) : Prop :=
  ∀ σ, R.Admits σ → body.Holds R ∅ σ → ∀ i ∈ indices, ∀ v, inner[i]? = some v → 0 ≤ σ v

/-- An invariant that was found to hold says which component is not negative. -/
theorem NonnegAt.note {inner : List Symbol} {sides : List Side} {body f : Formula}
    {nonneg : List Nat} {c : Invariant} (hn : NonnegAt R inner body nonneg)
    (hf : c.formula inner sides = .ok f)
    (valid : ∀ σ, R.Admits σ → body.Holds R ∅ σ → f.Holds R ∅ σ) :
    NonnegAt R inner body (c.noteNonneg nonneg) := by
  cases c with
  | nonneg i =>
      intro σ hσ hb k hk v hv
      rcases List.mem_cons.mp hk with rfl | hk
      · obtain ⟨s, hs, rfl⟩ := Invariant.formula_ok hf
        obtain rfl : s = v := Option.some.inj (hs.symm.trans hv)
        simpa using valid σ hσ hb
      · exact hn σ hσ hb k hk v hv
  | zero i | equal i j | atMost i j | balanced | zeroTogether i j => exact hn

/-- The invariants found for a star hold wherever the star does. -/
theorem invariants_sound (hp : p.Sound R) {outer inner : List Symbol} {sides : List Side}
    {body : Formula} (hb : body.hasStar = false) {nonneg : List Nat} {cs : List Invariant}
    {ks : List Formula} {s t : τ} (hn : NonnegAt R inner body nonneg)
    (h : Returns (invariants p outer inner sides body nonneg cs) s (.ok ks) t) :
    ∀ k ∈ ks, k.hasStar = false ∧ ∀ ρ σs, (∀ σ ∈ σs, R.Admits σ ∧ body.Holds R ∅ σ) →
      Sums outer inner ρ σs → k.Holds R ∅ ρ := by
  induction cs generalizing nonneg ks s t with
  | nil =>
      obtain ⟨hks, _⟩ := returns_pure.mp h
      cases hks
      simp
  | cons c cs ih =>
      rw [invariants] at h
      split at h
      · next hc =>
        obtain ⟨f, hf, h₁⟩ := returns_ofExcept_bind h
        obtain ⟨answer, s₂, ha, h₂⟩ := returns_bind.mp h₁
        replace ha := returns_modifyGet.mp ha
        match answer, h₂ with
        | .error e, h₂ =>
            obtain ⟨h₂, _⟩ := returns_pure.mp h₂
            cases h₂
        | .ok (.invalid _), h₂ => exact ih hn h₂
        | .ok (.unknown _), h₂ => exact ih hn h₂
        | .ok .valid, h₂ =>
            have valid : ∀ σ, R.Admits σ → body.Holds R ∅ σ → f.Holds R ∅ σ := by
              intro σ hσ hbody
              have free : (implies body f).hasStar = false := by
                simp [implies, hasStar, hasStarAny, hb, Invariant.hasStar_formula hf]
              exact holds_implies.mp ((hp _ _ _ free ha).holds hσ) hbody
            obtain ⟨k, hk, h₃⟩ := returns_ofExcept_bind h₂
            obtain ⟨others, s₄, hrest, h₄⟩ := returns_bind.mp h₃
            obtain ⟨hks, _⟩ := returns_pure.mp h₄
            obtain ⟨ks', rfl, rfl⟩ := ok_of_map hks
            have rest := ih (hn.note hf valid) hrest
            rw [List.forall_mem_cons]
            refine ⟨⟨Invariant.hasStar_formula hk, fun ρ σs hσ hsum => ?_⟩, rest⟩
            refine Invariant.holds_of_summands hsum hf hk
              (fun σ h => valid σ (hσ σ h).1 (hσ σ h).2) ?_
            rintro i j rfl σ hσs l hl v hv
            simp only [Invariant.isClosed, Bool.and_eq_true, decide_eq_true_eq] at hc
            refine hn σ (hσ σ hσs).1 (hσ σ hσs).2 l ?_ v hv
            rcases List.mem_pair.mp hl with rfl | rfl
            · exact hc.1
            · exact hc.2
      · exact ih hn h

/-! ### Formulas -/

theorem both_ok {α β γ : Type} {f : α → β → γ} {x : Except Error α} {y : Except Error β} {c : γ}
    (h : Except.ok c = both f x y) : ∃ a b, x = .ok a ∧ y = .ok b ∧ c = f a b := by
  cases x with
  | error e => cases y <;> cases h
  | ok a =>
      cases y with
      | error e => cases h
      | ok b => exact ⟨a, b, rfl, rfl, Except.ok.inj h⟩

theorem overApproximateAll_of_pure {ts : List Formula}
    (h : ∀ t ∈ ts, overApproximate p t = pure (.ok t)) :
    overApproximateAll p ts = pure (.ok ts) := by
  induction ts with
  | nil => rfl
  | cons t ts ih =>
      rw [List.forall_mem_cons] at h
      rw [overApproximateAll, h.1, ih h.2, pure_bind, pure_bind]
      rfl

/-- A formula without stars comes back as it is, and no question is asked. -/
theorem overApproximate_of_starFree (f : Formula) (hf : f.hasStar = false) :
    overApproximate p f = pure (.ok f) := by
  induction f using Formula.induct with
  | const q | bool b | sym s => simp only [overApproximate]
  | plus ts ih | mul ts ih | and ts ih | or ts ih | func name ts type ih =>
      rw [hasStar, hasStarAny_eq, List.any_eq_false] at hf
      rw [overApproximate, overApproximateAll_of_pure fun t ht => ih t ht (by simpa using hf t ht),
        pure_bind]
      rfl
  | not a ih =>
      rw [overApproximate, ih hf, pure_bind]
      rfl
  | minus a b iha ihb | div a b iha ihb | eq a b iha ihb | le a b iha ihb | lt a b iha ihb =>
      simp only [hasStar, Bool.or_eq_false_iff] at hf
      rw [overApproximate, iha hf.1, ihb hf.2, pure_bind, pure_bind]
      rfl
  | ite c a b ihc iha ihb =>
      simp only [hasStar, Bool.or_eq_false_iff] at hf
      rw [overApproximate, ihc hf.1.1, iha hf.1.2, ihb hf.2, pure_bind, pure_bind, pure_bind]
      rfl
  | star outer inner sides body ih => simp [hasStar] at hf

/-- The formulas of a list are treated one by one. -/
theorem overApproximateAll_ok {ts os : List Formula} {s t : τ}
    (h : Returns (overApproximateAll p ts) s (.ok os) t) :
    ∀ o ∈ os, ∃ f ∈ ts, ∃ s' t', Returns (overApproximate p f) s' (.ok o) t' := by
  induction ts generalizing os s with
  | nil =>
      obtain ⟨ho, _⟩ := returns_pure.mp h
      cases ho
      simp
  | cons f ts ih =>
      obtain ⟨x, s₁, hx, h₁⟩ := returns_bind.mp h
      obtain ⟨y, s₂, hy, h₂⟩ := returns_bind.mp h₁
      obtain ⟨ho, rfl⟩ := returns_pure.mp h₂
      obtain ⟨o, os', rfl, rfl, rfl⟩ := both_ok ho
      rw [List.forall_mem_cons]
      refine ⟨⟨f, List.mem_cons_self, s, s₁, hx⟩, fun o ho => ?_⟩
      obtain ⟨g, hg, run⟩ := ih hy o ho
      exact ⟨g, List.mem_cons_of_mem f hg, run⟩

/-- **Replacing stars by invariants is sound.**  If the decision procedure accepts only valid
claims, the result has no star and holds wherever the formula does, whatever symbols the summands
of a star share with their surroundings. -/
theorem overApproximate_sound (hp : p.Sound R) {f o : Formula} (hf : f.Conjunctive) {s t : τ}
    (h : Returns (overApproximate p f) s (.ok o) t) :
    o.hasStar = false ∧ ∀ K ρ, R.Admits ρ → f.Holds R K ρ → o.Holds R K ρ := by
  induction hf generalizing o s t with
  | starFree free =>
      rw [overApproximate_of_starFree _ free] at h
      obtain ⟨ho, _⟩ := returns_pure.mp h
      cases ho
      exact ⟨free, fun K ρ _ hρ => hρ⟩
  | @and ts hts ih =>
      rw [overApproximate] at h
      obtain ⟨x, s₁, hx, h₁⟩ := returns_bind.mp h
      obtain ⟨ho, rfl⟩ := returns_pure.mp h₁
      obtain ⟨os, rfl, rfl⟩ := ok_of_map ho
      have conjuncts := overApproximateAll_ok hx
      constructor
      · rw [hasStar, hasStarAny_eq, List.any_eq_false]
        intro o ho
        obtain ⟨f, hft, s', t', hfo⟩ := conjuncts o ho
        simp [(ih f hft hfo).1]
      · intro K ρ hρ hold
        rw [holds_and] at hold ⊢
        intro o ho
        obtain ⟨f, hft, s', t', hfo⟩ := conjuncts o ho
        exact (ih f hft hfo).2 K ρ hρ (hold f hft)
  | @star outer inner sides body hbody ih =>
      rw [overApproximate] at h
      obtain ⟨x, s₁, hx, h₁⟩ := returns_bind.mp h
      cases x with
      | error e =>
          obtain ⟨h₁, _⟩ := returns_pure.mp h₁
          cases h₁
      | ok body' =>
          obtain ⟨free, weaker⟩ := ih hx
          obtain ⟨y, s₂, hy, h₂⟩ := returns_bind.mp h₁
          obtain ⟨h₂, _⟩ := returns_pure.mp h₂
          obtain ⟨ks, rfl, rfl⟩ := ok_of_map h₂
          have none : NonnegAt R inner body' [] := fun _ _ _ _ h => absurd h List.not_mem_nil
          have found := invariants_sound hp free none hy
          constructor
          · rw [hasStar, hasStarAny_eq, List.any_eq_false]
            intro k hk
            simp [(found k hk).1]
          · intro K ρ hρ hold
            obtain ⟨σs, hσ, hsum⟩ := holds_star.mp hold
            rw [holds_and]
            intro k hk
            refine holds_of_starFree (found k hk).1 ((found k hk).2 ρ σs (fun σ h => ?_) hsum)
            obtain ⟨adm, _, hb⟩ := hσ σ h
            exact ⟨adm, holds_of_starFree free (weaker _ σ adm hb)⟩

end Formula

/-! ### A procedure that decides little -/

/-- Whether a formula is an implication of a formula by itself. -/
def Formula.isReflexive : Formula → Bool
  | .or [.not a, b] => a = b
  | _ => false

theorem Formula.holds_of_isReflexive {R : Reading} {K : Set Symbol} {ρ : Interpretation}
    {f : Formula} (h : f.isReflexive = true) : f.Holds R K ρ := by
  unfold isReflexive at h
  split at h
  · next a b =>
    obtain rfl := of_decide_eq_true h
    simp [em']
  · cases h

/-- The procedure that knows only that a formula implies itself. -/
def Procedure.reflexive : Procedure Unit where
  checkValid c s := (.ok (if c.formula.isReflexive then .valid else .unknown "not the same"), s)
  checkSat _ s := (.ok (.unknown "not asked"), s)

theorem Procedure.reflexive_sound (R : Reading) : reflexive.Sound R := by
  intro c s t _ h ρ hρ
  refine ⟨ρ, hρ, fun _ _ => rfl, Formula.holds_of_isReflexive ?_⟩
  by_contra hc
  simp [reflexive, hc] at h

/-- Natural numbers are not negative, and summands share what is in scope. -/
def Reading.ofNaturals : Reading where
  admits type := if type = .nat then {q | 0 ≤ q} else Set.univ
  apply _ _ _ := 0
  overZero _ := 0
  shared K _ _ := K
  inside K _ := K

namespace Formula

/-- A star of two components, of which the body says that the first is not negative. -/
def firstNonneg : Formula :=
  .and [.star [⟨"a", .int⟩, ⟨"b", .int⟩] [⟨"x", .int⟩, ⟨"y", .int⟩] [.left, .right]
    (.le .zero (.sym ⟨"x", .int⟩))]

theorem overApproximate_firstNonneg :
    Returns (overApproximate .reflexive firstNonneg) ()
      (.ok (.and [.and [.le .zero (.sym ⟨"a", .int⟩)]])) () := by
  rfl

theorem conjunctive_firstNonneg : firstNonneg.Conjunctive := by
  refine .and fun t ht => ?_
  obtain rfl := List.mem_singleton.mp ht
  exact .star (.starFree rfl)

/-- The result for the star of two components: the sum of its first component is not negative. -/
theorem overApproximate_sound_firstNonneg :
    Procedure.reflexive.Sound .ofNaturals ∧ firstNonneg.Conjunctive ∧
      Returns (overApproximate .reflexive firstNonneg) ()
        (.ok (.and [.and [.le .zero (.sym ⟨"a", .int⟩)]])) () ∧
      ∀ ρ, Reading.ofNaturals.Admits ρ → firstNonneg.Holds .ofNaturals ∅ ρ →
        (Formula.and [.and [.le .zero (.sym ⟨"a", .int⟩)]]).Holds .ofNaturals ∅ ρ :=
  ⟨Procedure.reflexive_sound _, conjunctive_firstNonneg, overApproximate_firstNonneg,
    (overApproximate_sound (Procedure.reflexive_sound _) conjunctive_firstNonneg
      overApproximate_firstNonneg).2 ∅⟩

variable {R : Reading} {K : Set Symbol} {ρ : Interpretation}

/-! ### Formulas without stars -/

theorem underApproximateAll_eq_map (ts : List Formula) :
    underApproximateAll ts = ts.map underApproximate := by
  induction ts with
  | nil => rfl
  | cons t ts ih => rw [underApproximateAll, ih, List.map_cons]

/-- No star is left. -/
theorem hasStar_underApproximate (f : Formula) : f.underApproximate.hasStar = false := by
  induction f using Formula.induct with
  | const | bool | sym => rfl
  | plus ts ih | mul ts ih | and ts ih | or ts ih | func _ ts _ ih =>
      rw [underApproximate, hasStar, hasStarAny_eq, underApproximateAll_eq_map, List.any_eq_false]
      intro u hu
      obtain ⟨t, ht, rfl⟩ := List.mem_map.mp hu
      exact Bool.not_eq_true _ ▸ ih t ht
  | minus a b iha ihb | div a b iha ihb | eq a b iha ihb | le a b iha ihb | lt a b iha ihb =>
      exact Bool.or_eq_false_iff.mpr ⟨iha, ihb⟩
  | ite c a b ihc iha ihb =>
      exact Bool.or_eq_false_iff.mpr ⟨Bool.or_eq_false_iff.mpr ⟨ihc, iha⟩, ihb⟩
  | not a ih => exact ih
  | star outer inner sides body ih =>
      -- Besides the body there are only equations between symbols.
      rw [underApproximate, hasStar, hasStarAny, ih, Bool.false_or, hasStarAny_eq,
        List.any_eq_false]
      intro e he
      obtain ⟨p, _, rfl⟩ := List.mem_map.mp he
      exact Bool.false_ne_true

/-- A formula without stars stays as it is. -/
theorem underApproximate_of_starFree (f : Formula) (hf : f.hasStar = false) :
    f.underApproximate = f := by
  induction f using Formula.induct with
  | const | bool | sym => rfl
  | plus ts ih | mul ts ih | and ts ih | or ts ih | func _ ts _ ih =>
      rw [hasStar, hasStarAny_eq, List.any_eq_false] at hf
      rw [underApproximate, underApproximateAll_eq_map,
        List.map_congr_left fun t ht => ih t ht (by simpa using hf t ht), List.map_id']
  | minus a b iha ihb | div a b iha ihb | eq a b iha ihb | le a b iha ihb | lt a b iha ihb =>
      rw [hasStar, Bool.or_eq_false_iff] at hf
      rw [underApproximate, iha hf.1, ihb hf.2]
  | ite c a b ihc iha ihb =>
      rw [hasStar, Bool.or_eq_false_iff, Bool.or_eq_false_iff] at hf
      rw [underApproximate, ihc hf.1.1, iha hf.1.2, ihb hf.2]
  | not a ih => rw [underApproximate, ih hf]
  | star => cases hf

/-! ### Single summands -/

/-- The formula holds, and the only summand of every star is the interpretation itself. -/
inductive HoldsSingly (R : Reading) (ρ : Interpretation) : Set Symbol → Formula → Prop
  | starFree {K : Set Symbol} {f : Formula} (free : f.hasStar = false) (holds : f.Holds R K ρ) :
      HoldsSingly R ρ K f
  | and {K : Set Symbol} {ts : List Formula} (members : ∀ t ∈ ts, HoldsSingly R ρ K t) :
      HoldsSingly R ρ K (.and ts)
  | star {K : Set Symbol} {outer inner : List Symbol} {sides : List Side} {body : Formula}
      (holds : HoldsSingly R ρ (R.inside K body) body) (sums : Sums outer inner ρ [ρ]) :
      HoldsSingly R ρ K (.star outer inner sides body)

/-- A single summand is a finite sum, and it shares all symbols. -/
theorem HoldsSingly.holds {f : Formula} (h : HoldsSingly R ρ K f) (hρ : R.Admits ρ) :
    f.Holds R K ρ := by
  induction h with
  | starFree _ holds => exact holds
  | and _ ih => exact holds_and.mpr ih
  | star _ sums ih =>
      refine holds_star.mpr ⟨[ρ], fun σ hσ => ?_, sums⟩
      obtain rfl := List.mem_singleton.mp hσ
      exact ⟨hρ, fun _ _ => rfl, ih⟩

/-- The approximation of a conjunction holds if those of its members do. -/
theorem holds_underApproximate_and {ts : List Formula} :
    (Formula.and ts).underApproximate.Holds R K ρ ↔ ∀ t ∈ ts, t.underApproximate.Holds R K ρ := by
  rw [underApproximate, holds_and, underApproximateAll_eq_map, List.forall_mem_map]

/-- The approximation of a star says that the body holds and that the equations between the two
vectors make the interpretation the only summand. -/
theorem holds_underApproximate_star {outer inner : List Symbol} {sides : List Side}
    {body : Formula} : (Formula.star outer inner sides body).underApproximate.Holds R K ρ ↔
      body.underApproximate.Holds R K ρ ∧ Sums outer inner ρ [ρ] := by
  rw [underApproximate, holds_and, List.forall_mem_cons, List.forall_mem_map]
  simp only [holds_eq, value, Sums, List.map_cons, List.map_nil, List.sum_singleton]

/-- With a single summand in every star the approximation holds. -/
theorem HoldsSingly.underApproximate {f : Formula} (h : HoldsSingly R ρ K f) :
    f.underApproximate.Holds R K ρ := by
  induction h with
  | starFree free holds => rwa [underApproximate_of_starFree _ free]
  | and _ ih => exact holds_underApproximate_and.mpr ih
  | star _ sums ih =>
      -- The scope changes in the body, where no star is left to read it.
      exact holds_underApproximate_star.mpr
        ⟨holds_of_starFree (hasStar_underApproximate _) ih, sums⟩

/-- Where the approximation holds, a single summand is enough for every star. -/
theorem Conjunctive.holdsSingly {f : Formula} (hf : f.Conjunctive)
    (h : f.underApproximate.Holds R K ρ) : HoldsSingly R ρ K f := by
  induction hf generalizing K with
  | starFree free =>
      rw [underApproximate_of_starFree _ free] at h
      exact .starFree free h
  | and _ ih => exact .and fun t ht => ih t ht (holds_underApproximate_and.mp h t ht)
  | star _ ih =>
      obtain ⟨hbody, sums⟩ := holds_underApproximate_star.mp h
      exact .star (ih (holds_of_starFree (hasStar_underApproximate _) hbody)) sums

/-- **Approximation from below is sound.**  The result has no star.  It holds exactly where the
formula does with the interpretation as the only summand of every star, and there the formula holds,
whatever symbols the summands of a star share with their surroundings. -/
theorem underApproximate_sound {f : Formula} (hf : f.Conjunctive) :
    f.underApproximate.hasStar = false ∧
      ∀ (R : Reading) (K : Set Symbol) (ρ : Interpretation), R.Admits ρ →
        (f.underApproximate.Holds R K ρ ↔ HoldsSingly R ρ K f) ∧
        (f.underApproximate.Holds R K ρ → f.Holds R K ρ) := by
  refine ⟨hasStar_underApproximate f, fun R K ρ hρ => ⟨⟨hf.holdsSingly, ?_⟩, fun h => ?_⟩⟩
  · exact HoldsSingly.underApproximate
  · exact (hf.holdsSingly h).holds hρ

/-- A star in the body of a star: sums of sums of natural numbers that are not zero. -/
def sumOfSums : Formula :=
  .and [.lt .zero (.sym ⟨"a", .nat⟩), .star [⟨"a", .nat⟩] [⟨"b", .nat⟩] [.left]
    (.star [⟨"b", .nat⟩] [⟨"c", .nat⟩] [.left] (.not (.eq (.sym ⟨"c", .nat⟩) .zero)))]

/-- The approximation of the star in a star asks for three equal numbers that are positive, and
where they are the formula holds. -/
theorem underApproximate_sound_sumOfSums :
    sumOfSums.Conjunctive ∧ sumOfSums.underApproximate.hasStar = false ∧
      Reading.ofNaturals.Admits (fun _ => 1) ∧
      sumOfSums.underApproximate.Holds .ofNaturals ∅ (fun _ => 1) ∧
      sumOfSums.Holds .ofNaturals ∅ (fun _ => 1) := by
  have hf : sumOfSums.Conjunctive := by
    refine .and fun t ht => ?_
    rcases List.mem_pair.mp ht with rfl | rfl
    · exact .starFree rfl
    · exact .star (.star (.starFree rfl))
  have hρ : Reading.ofNaturals.Admits (fun _ => 1) := by
    intro s
    by_cases h : s.type = .nat <;> simp [Reading.ofNaturals, h]
  have hold : sumOfSums.underApproximate.Holds .ofNaturals ∅ (fun _ => 1) := by
    have hzero : zero.underApproximate = zero := rfl
    simp [sumOfSums, underApproximate, underApproximateAll, hzero]
  obtain ⟨free, sound⟩ := underApproximate_sound hf
  exact ⟨hf, free, hρ, hold, (sound _ _ _ hρ).2 hold⟩

end Formula

end BagEquiv
