/-
**Terms and the summations that were taken out of them.**

When the summations of a term are taken out nothing is lost, provided that the placeholders differ
from each other and from all that the term names.  No summation is left, each placeholder stands at
one place, and with the summations put back in these places the term is what it was.

Main definition:

* `Term.refill` — a term with terms in the places of placeholders.

Main result:

* `Term.refill_strip` — **taking summations out is exact**.
-/

import Mathlib.Algebra.Order.BigOperators.Group.List
import BagEquiv.Proofs.StarRows
import BagEquiv.Proofs.Subterms

set_option autoImplicit false

namespace BagEquiv.Term

mutual

/-- The term with terms in the places of placeholders. -/
def refill (φ : String → Option Term) : Term → Term
  | .sum vars body => .sum vars (refill φ body)
  | .add terms => .add (refillList φ terms)
  | .mul factors => .mul (refillList φ factors)
  | .neg term => .neg (refill φ term)
  | .squash term => .squash (refill φ term)
  | .pred kind args => .pred kind (refillList φ args)
  | .var (.base x) => (φ x).getD (tuple x)
  | .func name args => .func name (refillList φ args)
  | t => t

def refillList (φ : String → Option Term) : List Term → List Term
  | [] => []
  | t :: ts => refill φ t :: refillList φ ts

end

/-- The summation that a placeholder stands for. -/
def standsFor (found : List Stripped) (x : String) : Option Term :=
  (found.find? fun st => st.name = x).map fun st => .sum st.vars st.body

theorem standsFor_of_mem {found : List Stripped} (hnames : (found.map Stripped.name).Nodup)
    {st : Stripped} (hst : st ∈ found) : standsFor found st.name = some (.sum st.vars st.body) := by
  have hfind : found.find? (fun st' => st'.name = st.name) = some st := by
    induction found with
    | nil => cases hst
    | cons head found ih =>
        rw [List.map_cons, List.nodup_cons] at hnames
        rcases List.mem_cons.mp hst with rfl | hst
        · exact List.find?_cons_of_pos (decide_eq_true rfl)
        · have hne : head.name ≠ st.name := fun heq => hnames.1 (heq ▸ List.mem_map_of_mem hst)
          rw [List.find?_cons_of_neg (by simpa using hne), ih hnames.2 hst]
  rw [standsFor, hfind, Option.map_some]

theorem standsFor_eq_none {found : List Stripped} {x : String}
    (hx : x ∉ found.map Stripped.name) : standsFor found x = none := by
  rw [standsFor, Option.map_eq_none_iff, List.find?_eq_none]
  exact fun st hst heq => hx (of_decide_eq_true heq ▸ List.mem_map_of_mem hst)

/-! ### What is left of a term -/

/-- What is left of a term when the summations `found` were taken out. -/
structure Emptied (t t' : Term) (found : List Stripped) : Prop where
  bare : t'.binderCount = 0
  once : ∀ x ∉ t.names, t'.names.count x = (found.map Stripped.name).count x
  whole : ∀ φ : String → Option Term,
    (∀ st ∈ found, φ st.name = some (.sum st.vars st.body)) →
    (∀ x ∈ t.names, φ x = none) → t'.refill φ = t

/-- The same for a list of terms. -/
structure EmptiedList (ts ts' : List Term) (found : List Stripped) : Prop where
  bare : binderCountAll ts' = 0
  once : ∀ x ∉ namesAll ts, (namesAll ts').count x = (found.map Stripped.name).count x
  whole : ∀ φ : String → Option Term,
    (∀ st ∈ found, φ st.name = some (.sum st.vars st.body)) →
    (∀ x ∈ namesAll ts, φ x = none) → refillList φ ts' = ts

theorem Emptied.leaf {t : Term} (bare : t.binderCount = 0)
    (whole : ∀ φ : String → Option Term, (∀ x ∈ t.names, φ x = none) → t.refill φ = t) :
    Emptied t t [] :=
  ⟨bare, fun _ hx => List.count_eq_zero_of_not_mem hx, fun φ _ => whole φ⟩

theorem EmptiedList.cons {t t' : Term} {ts ts' : List Term} {found more : List Stripped}
    (h : Emptied t t' found) (hs : EmptiedList ts ts' more) :
    EmptiedList (t :: ts) (t' :: ts') (found ++ more) := by
  refine ⟨?_, fun x hx => ?_, fun φ hfound hφ => ?_⟩
  · rw [binderCountAll, h.bare, hs.bare]
  · rw [namesAll, List.mem_append, not_or] at hx
    rw [namesAll, List.count_append, h.once x hx.1, hs.once x hx.2, List.map_append,
      List.count_append]
  · rw [List.forall_mem_append] at hfound
    rw [namesAll, List.forall_mem_append] at hφ
    rw [refillList, h.whole φ hfound.1 hφ.1, hs.whole φ hfound.2 hφ.2]

variable {σ : Type} (fresh : σ → String × σ)

mutual

/-- What is left of a term has no summations. -/
theorem emptied_strip : ∀ (t : Term) (s : σ),
    Emptied t (t.strip fresh s).1 (t.strip fresh s).2.1
  | .sum vars body, s => by
      refine ⟨rfl, fun _ _ => rfl, fun φ hfound _ => ?_⟩
      have hname : φ (fresh s).1 = some (.sum vars body) := hfound _ (List.mem_singleton.mpr rfl)
      change (φ (fresh s).1).getD _ = _
      rw [hname, Option.getD_some]
  | .add ts, s =>
      have h := emptied_stripList ts s
      ⟨h.bare, h.once, fun φ hfound hφ => congrArg Term.add (h.whole φ hfound hφ)⟩
  | .mul ts, s =>
      have h := emptied_stripList ts s
      ⟨h.bare, h.once, fun φ hfound hφ => congrArg Term.mul (h.whole φ hfound hφ)⟩
  | .neg t, s =>
      have h := emptied_strip t s
      ⟨h.bare, h.once, fun φ hfound hφ => congrArg Term.neg (h.whole φ hfound hφ)⟩
  | .squash t, s =>
      have h := emptied_strip t s
      ⟨h.bare, h.once, fun φ hfound hφ => congrArg Term.squash (h.whole φ hfound hφ)⟩
  | .pred kind ts, s =>
      have h := emptied_stripList ts s
      ⟨h.bare, h.once, fun φ hfound hφ => congrArg (Term.pred kind) (h.whole φ hfound hφ)⟩
  -- A tuple of the term looks like a placeholder, but nothing stands for its name.
  | .var (.base x), _ => .leaf rfl fun φ hφ => by
      rw [refill, hφ x List.mem_cons_self, Option.getD_none]
      rfl
  | .var (.proj _ _), _ | .const _, _ | .table _ _, _ | .str _, _ => .leaf rfl fun _ _ => rfl
  | .func name ts, s =>
      have h := emptied_stripList ts s
      ⟨h.bare, h.once, fun φ hfound hφ => congrArg (Term.func name) (h.whole φ hfound hφ)⟩

theorem emptied_stripList : ∀ (ts : List Term) (s : σ),
    EmptiedList ts (stripList fresh ts s).1 (stripList fresh ts s).2.1
  | [], _ => ⟨rfl, fun _ _ => rfl, fun _ _ _ => rfl⟩
  | t :: ts, s => .cons (emptied_strip t s) (emptied_stripList ts _)

end

theorem not_mem_subterms_of_binderCount {t : Term} (h : t.binderCount = 0) (vars : VarSet)
    (body : Term) : .sum vars body ∉ t.subterms := by
  intro hmem
  have hmem : (vars.toList, body) ∈ t.binders := mem_binders.mpr ⟨vars, rfl, hmem⟩
  have hle := List.le_sum_of_mem (List.mem_map_of_mem (f := fun b => 1 + b.1.length) hmem)
  rw [← binderCount_eq, h] at hle
  omega

/-- Taking summations out is exact, if the names of the supply differ from each other and from those
of the term: no summation is left, the outermost ones are taken out in order, each placeholder
stands at one place, and with the summations in these places the term is what it was. -/
theorem refill_strip (t : Term) (s : σ) (hfresh : ∀ names s', Drawn fresh s names s' →
      names.Nodup ∧ ∀ x ∈ names, x ∉ t.names) :
    (∀ vars body, .sum vars body ∉ (t.strip fresh s).1.subterms) ∧
    ((t.strip fresh s).2.1.map fun st => (st.vars, st.body)) = t.summations ∧
    (∀ st ∈ (t.strip fresh s).2.1, (t.strip fresh s).1.names.count st.name = 1) ∧
    (t.strip fresh s).1.refill (standsFor (t.strip fresh s).2.1) = t := by
  have hleft := emptied_strip fresh t s
  obtain ⟨hnodup, hnew⟩ := hfresh _ _ (drawn_strip fresh t s)
  refine ⟨not_mem_subterms_of_binderCount hleft.bare, strip_found fresh t s, fun st hst => ?_,
    hleft.whole _ (fun st hst => standsFor_of_mem hnodup hst) fun x hx =>
      standsFor_eq_none fun hmem => hnew x hmem hx⟩
  have hmem := List.mem_map_of_mem (f := Stripped.name) hst
  rw [hleft.once _ (hnew _ hmem), List.count_eq_one_of_mem hnodup hmem]

/-- Two summations are taken out and put back, with the placeholders that the encoder numbers. -/
theorem refill_strip_of_add : ∃ t : Term,
    (t.strip Encoder.freshCount (.ofSchemas .empty)).1 =
      .add [tuple "#u0", .neg (tuple "#u1")] ∧
    (t.strip Encoder.freshCount (.ofSchemas .empty)).1.refill
      (standsFor (t.strip Encoder.freshCount (.ofSchemas .empty)).2.1) = t := by
  refine ⟨.add [sumOver ["x"] (.table "r" (.base "x")),
    .neg (sumOver ["y"] (.table "r" (.base "y")))], by decide +kernel,
    (refill_strip Encoder.freshCount _ _ fun names e hdrawn => ?_).2.2.2⟩
  have hdraws := Encoder.Draws.of_drawn hdrawn
  refine ⟨hdraws.nodup, fun x hx hmem => ?_⟩
  obtain ⟨k, -, -, rfl⟩ := hdraws.exists_number hx
  have hhead : ∀ y ∈ ["x", "x", "y", "y"], y.toList.head? ≠ some '#' := by decide
  exact hhead _ hmem (by simp)

end BagEquiv.Term
