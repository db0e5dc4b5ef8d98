/-
**Peeling runs out.**

A layer takes a variable from a summation, or the summation with all its variables, so there are
fewer binders below it than in it, whichever variables are matched and however the tuples are
called.  After as many layers as two terms have binders no summation is left.  Therefore the bounds
that the first matching and the encoder put on the number of layers are never reached: with a
greater bound they do the same.

Main definition:

* `OpenSum.Below` — the summations that a layer may leave.

Main results:

* `OpenSum.eq_nil_of_below` — **a sequence of layers ends**;
* `peeling_ends` — **no more layers than summations and variables**.
-/

import BagEquiv.Proofs.LayerCalls
import BagEquiv.Proofs.SeedMatching

set_option autoImplicit false

namespace BagEquiv

namespace OpenSum

/-- The binders of some summations. -/
def weight (scope : List OpenSum) : ℕ := (scope.map binderCount).sum

theorem eq_nil_of_weight {scope : List OpenSum} (h : weight scope = 0) : scope = [] := by
  rw [List.eq_nil_iff_forall_not_mem]
  intro s hs
  have hle : s.binderCount ≤ weight scope := List.le_sum_of_mem (List.mem_map_of_mem hs)
  rw [h, binderCount] at hle
  omega

/-- What some of the summations in scope leave, each with a variable of it matched, or none, and
with any tuple for that variable. -/
def Below (scope below : List OpenSum) : Prop :=
  ∃ picks : List (OpenSum × Option Var × String),
    (picks.map Prod.fst).Subperm scope ∧ (∀ p ∈ picks, ∀ v ∈ p.2.1, v ∈ p.1.vars) ∧
    below = picks.flatMap fun p => p.1.peel p.2.1 p.2.2

theorem below_descend (m : Matching) (depth : ℕ) (scope : List OpenSum) :
    Below scope (m.descend depth scope) := by
  refine ⟨scope.map fun s => (s, m.matchedIn? depth s, placeholder depth), ?_, ?_, ?_⟩
  · rw [List.map_map]
    exact (List.map_id' scope).symm ▸ List.Subperm.refl scope
  · rw [List.forall_mem_map]
    exact fun s _ v => Encoder.mem_of_matchedIn?
  · rw [List.flatMap_map]
    rfl

/-- A layer that leaves something takes a binder away. -/
theorem Below.weight_lt {scope below : List OpenSum} (h : Below scope below) (hne : below ≠ []) :
    weight below < weight scope := by
  obtain ⟨picks, ⟨picked, hperm, hsub⟩, hvars, rfl⟩ := h
  have hpicks : picks ≠ [] := by
    rintro rfl
    exact hne rfl
  calc weight (picks.flatMap fun p => p.1.peel p.2.1 p.2.2)
      = (picks.map fun p => (p.1.rest p.2.1 p.2.2).binderCount).sum := by
        rw [weight, List.map_flatMap, List.flatMap_def, List.sum_flatten, List.map_map]
        exact congrArg List.sum (List.map_congr_left fun p _ => sum_binderCount_ofTerm _ _)
    _ < (picks.map fun p => p.1.binderCount).sum :=
        List.sum_lt_sum_of_ne_nil hpicks _ _ fun p hp => p.1.binderCount_rest_lt (hvars p hp) _
    _ = (picked.map binderCount).sum := by
        rw [(hperm.map binderCount).sum_eq, List.map_map]
        rfl
    _ ≤ weight scope := (hsub.map _).sum_le_sum fun _ _ => Nat.zero_le _

/-- There are no more layers than binders in the first one. -/
theorem eq_nil_of_below {scopes : ℕ → List OpenSum} (h : ∀ n, Below (scopes n) (scopes (n + 1)))
    {n : ℕ} (hn : weight (scopes 0) ≤ n) : scopes n = [] := by
  -- A layer that is still there has cost a binder for each layer above it.
  have hweight : ∀ n, scopes n ≠ [] → weight (scopes n) + n ≤ weight (scopes 0) := by
    intro n
    induction n with
    | zero => exact fun _ => le_rfl
    | succ n ih =>
        intro hne
        have hlt := (h n).weight_lt hne
        have hle := ih fun hnil => by simp [hnil, weight] at hlt
        omega
  by_contra hne
  have hle := hweight n hne
  exact hne (eq_nil_of_weight (by omega))

end OpenSum

/-! ### The first matching -/

/-- The layers of the first matching do not depend on the bound. -/
theorem Matching.seedLayers_of_le (output : String) (budget : Budget) {fuel fuel' depth : ℕ}
    {scope : List OpenSum} (h : OpenSum.weight scope ≤ fuel) (h' : OpenSum.weight scope ≤ fuel') :
    seedLayers output budget fuel depth scope = seedLayers output budget fuel' depth scope := by
  induction fuel generalizing fuel' depth scope with
  | zero => rw [OpenSum.eq_nil_of_weight (Nat.le_zero.mp h), seedLayers, seedLayers]
  | succ fuel ih =>
      cases scope with
      | nil => rw [seedLayers, seedLayers]
      | cons s scope =>
          obtain ⟨k, rfl⟩ := Nat.exists_eq_succ_of_ne_zero fun hzero : fuel' = 0 =>
            List.cons_ne_nil s scope (OpenSum.eq_nil_of_weight (by omega))
          rw [seedLayers, seedLayers, Budget.check]
          · cases hb : budget.expired with
            | true => rfl
            | false =>
                rcases Chooser.choose_ends ⟨s :: scope, placeholder depth, output⟩ hb with
                  ⟨matched, hmatched, table, hfits⟩ | ⟨herror, -⟩
                · have hless : OpenSum.weight (below (s :: scope) matched (placeholder depth)) <
                      OpenSum.weight (s :: scope) :=
                    sum_binderCount_below_lt hfits.toMatches (List.cons_ne_nil _ _) _
                  have hrest := @ih k (depth + 1) _ (Nat.le_of_lt_succ (hless.trans_le h))
                    (Nat.le_of_lt_succ (hless.trans_le h'))
                  dsimp only
                  rw [hmatched]
                  refine bind_congr fun _ => ?_
                  exact congrArg (· >>= fun layers =>
                    pure (.ofList (matched.filterMap id) :: layers)) hrest
                · dsimp only
                  rw [herror]
                  rfl
          · simp
          · simp

/-! ### The encoder -/

namespace Encoder

variable {ε σ α β : Type}

theorem bind_congr_of_returns {x : ExceptT ε (StateM σ) α} {f g : α → ExceptT ε (StateM σ) β}
    (h : ∀ s a t, Returns x s a t → f a = g a) : x >>= f = x >>= g := by
  refine ExceptT.ext (StateT.ext fun s => ?_)
  rw [run_bind, run_bind]
  rcases hx : x.run.run s with ⟨e | a, t⟩
  · rfl
  · simp only
    rw [h s a t hx]

theorem mapM_congr {f g : α → ExceptT ε (StateM σ) β} {xs : List α} (h : ∀ x ∈ xs, f x = g x) :
    xs.mapM f = xs.mapM g := by
  induction xs with
  | nil => rfl
  | cons x xs ih =>
      rw [List.forall_mem_cons] at h
      rw [List.mapM_cons, List.mapM_cons, h.1, ih h.2]

variable {m : Matching} {budget : Budget} {fuel depth : ℕ} {scope : List Counted}

theorem layer_nil : layer m budget fuel depth [] = do poll budget; return [] := by
  cases fuel with
  | zero => rfl
  | succ fuel =>
      rw [layer_succ]
      exact bind_congr fun _ => rfl

/-- The layers of the encoder do not depend on the bound. -/
theorem layer_of_le {fuel' : ℕ} (h : binders scope ≤ fuel) (h' : binders scope ≤ fuel') :
    layer m budget fuel depth scope = layer m budget fuel' depth scope := by
  induction fuel generalizing fuel' depth scope with
  | zero => rw [eq_nil_of_binders (Nat.le_zero.mp h), layer_nil, layer_nil]
  | succ fuel ih =>
      cases fuel' with
      | zero => rw [eq_nil_of_binders (Nat.le_zero.mp h'), layer_nil, layer_nil]
      | succ fuel' =>
          rw [layer_succ, layer_succ]
          refine bind_congr fun _ => bind_congr fun e => mapM_congr fun st hst => ?_
          -- How much is left below a station is known of the rows that were encoded, so only for
          -- runs that get so far.
          refine bind_congr fun tuple => bind_congr_of_returns fun e₁ p e₂ hrows => ?_
          obtain ⟨rows, below⟩ := p
          have hmembers := (stations_ok e (membersAt m depth scope)).1
          have hlt := binders_below_lt hrows ((stations_ok e _).2 st hst).members_ne_nil
            fun mem hmem => mem_of_mem_membersAt mem
              (hmembers.mem_iff.mp (List.mem_flatMap.mpr ⟨st, hst, hmem⟩))
          have hle := binders_station_le hst
          have hnext : layer m budget fuel (depth + 1) below = layer m budget fuel' _ below :=
            ih (by omega) (by omega)
          refine bind_congr fun nulls => ?_
          rw [hnext]

end Encoder

/-- Peeling runs out: however variables are matched, after as many layers as two terms have
summations and bound variables no summation is left, and neither the first matching nor the encoder
depends on a greater bound. -/
theorem peeling_ends (left right : Term) :
    (∀ scopes : ℕ → List OpenSum, scopes 0 = OpenSum.scope left right →
      (∀ n, OpenSum.Below (scopes n) (scopes (n + 1))) →
      ∀ n, left.binderCount + right.binderCount ≤ n → scopes n = []) ∧
    (∀ (m : Matching) n, left.binderCount + right.binderCount ≤ n → m.scopeAt left right n = []) ∧
    (∀ output budget fuel, left.binderCount + right.binderCount ≤ fuel →
      Matching.seed left right output budget =
        (Matching.seedLayers output budget fuel 0 (OpenSum.scope left right)).map .mk) ∧
    ∀ m budget fuel (scope : List Encoder.Counted),
      scope.map Prod.snd = OpenSum.scope left right → left.binderCount + right.binderCount ≤ fuel →
      Encoder.layer m budget (left.binderCount + right.binderCount) 0 scope =
        Encoder.layer m budget fuel 0 scope := by
  have hweight := OpenSum.sum_binderCount_scope left right
  refine ⟨fun scopes hstart hbelow n hn => ?_, fun m n hn => ?_, fun output budget fuel hfuel => ?_,
    fun m budget fuel scope hscope hfuel => ?_⟩
  · refine OpenSum.eq_nil_of_below hbelow ?_
    rw [hstart]
    exact hweight.trans_le hn
  · exact OpenSum.eq_nil_of_below (fun n => OpenSum.below_descend m n _) (hweight.trans_le hn)
  · rw [Matching.seed, Matching.seedLayers_of_le output budget hweight.le (hweight.trans_le hfuel)]
    rfl
  · have hbinders : Encoder.binders scope = left.binderCount + right.binderCount := by
      rw [Encoder.binders_eq, hscope, hweight]
    exact Encoder.layer_of_le hbinders.le (hbinders.trans_le hfuel)

/-- Two variables are matched, and the third layer is a summation without variables. -/
theorem peeling_ends_of_nested : ∃ (t : Term) (m : Matching), t.binderCount = 4 ∧
    (m.scopeAt t (.add []) 2).map OpenSum.vars = [.ofList []] ∧ m.scopeAt t (.add []) 4 = [] := by
  refine ⟨.sumOver ["x", "y"] (.squash (.sumOver [] (.table "r" (.base "x")))),
    ⟨[.ofList [.base "y"], .ofList [.base "x"]]⟩, by decide +kernel, by decide +kernel, ?_⟩
  exact (peeling_ends _ _).2.1 _ 4 (by decide +kernel)

end BagEquiv
