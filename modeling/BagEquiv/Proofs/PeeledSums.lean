/-
**Sums peeled off variable by variable.**

A layer takes one variable out of a summation: what is left of it is read with the tuple of the
layer bound to a row, for every row of the variable, and the results are added up.  In exact
arithmetic that does not change the value, whatever the variable is and whatever the summations
inside bind, so all orders in which the variables are taken out lead to the same value.

Main definition:

* `OpenSum.Ranges` — the variables of a summation are tuples in tables.

Main result:

* `OpenSum.value_eq_peeled` — **a summation has the value that it has when it is peeled
  off**.
-/

import BagEquiv.Proofs.AlphaRenaming
import BagEquiv.Proofs.BagMeaning

set_option autoImplicit false

namespace BagEquiv

namespace OpenSum

/-- The variables of the summation are tuples, and each is in a table. -/
structure Ranges (s : OpenSum) : Prop where
  base : ∀ v ∈ s.vars.toList, v = .base v.tuple
  table : ∀ v ∈ s.vars.toList, (s.tableOf? v).isSome

variable {s : OpenSum} {v : Var} {tuple : String}

theorem Ranges.ne_of_ne (h : s.Ranges) (hv : v ∈ s.vars) :
    ∀ u ∈ s.vars, u ≠ v → u.tuple ≠ v.tuple := by
  intro u hu hne heq
  exact hne (by rw [h.base u hu, h.base v hv, heq])

/-! ### One variable -/

/-- What is left of a summation, in terms of the name that the layer's tuple had. -/
theorem number_rest_bind (h : s.Ranges) (hv : v ∈ s.vars) (htuple : tuple ∉ s.term.names)
    {env : Environment} (hschema : env.schemas.get? tuple = env.schemas.get? v.tuple) (r : Row) :
    (s.rest (some v) tuple).number (env.bind tuple r).world =
      (s.without v).number (env.world.bind v.tuple (Row.exact r)) := by
  have hfresh : ∀ b ∈ s.boundVars, b.var.tuple ≠ tuple := by
    rintro b hb rfl
    exact htuple (Term.tuple_mem_names (s.boundVars_term ▸ hb))
  have hfree : s.body.mentions tuple = false :=
    Bool.eq_false_iff.mpr fun hx => htuple (List.mem_append_right _ (Term.Free.mem_names hx))
  rw [env.world_bind]
  refine number_rest_of_renames (h.ne_of_ne hv) hfresh hfree
    ⟨rfl, rfl, fun x hx => ?_, fun x hx => ?_, fun _ _ => rfl, fun _ => ⟨rfl, rfl⟩⟩
  all_goals by_cases hxv : x = v.tuple
  · simpa [World.renamed, World.bind, Environment.world, hxv] using hschema
  · simp [World.renamed, World.bind, hxv]
  · simp [World.renamed, World.bind, hxv]
  · simp [World.renamed, World.bind, hxv, hx]

theorem evaluable_rest (s : OpenSum) (v : Var) (tuple : String) :
    (s.rest (some v) tuple).evaluable = s.body.evaluable := by
  rw [rest_some]
  split <;> exact Term.evaluable_rename _ _ _

/-- A summation adds up what is left of it when the tuple of a layer takes the place of one of its
variables, over the rows of the variable, in whatever way that is computed. -/
theorem yields_sum_rest (h : s.Ranges) (hv : v ∈ s.vars) {table : String}
    (htable : s.tableOf? v = some table) (htuple : tuple ∉ s.term.names) {env : Environment}
    (hschema : env.schemas.get? tuple = env.schemas.get? v.tuple) {c : Prop}
    {f : Row → Except Fault (Option ℚ)}
    (hf : ∀ r,
      Yields c (f r) (optional ((s.rest (some v) tuple).number (env.bind tuple r).world))) :
    Yields c (Reader.sumFrom 0 ((env.database.rows table).map fun r _ => f r))
      (optional (s.term.number env.world)) := by
  have hsummands : List.Forall₂ (fun f x => Yields c (f ()) (optional x))
      ((env.database.rows table).map fun r _ => f r) ((env.database.rows table).map fun r =>
        (s.rest (some v) tuple).number (env.bind tuple r).world) := by
    rw [List.forall₂_map_left_iff, List.forall₂_map_right_iff, List.forall₂_same]
    exact fun r _ => hf r
  have hsum : s.term.number env.world = ((env.database.rows table).map fun r =>
      (s.rest (some v) tuple).number (env.bind tuple r).world).sum := by
    refine (number_eq_sum_without (VarSet.nodup_tuples h.base) hv h.table htable _).trans ?_
    rw [show env.world.rows table = (env.database.rows table).map Row.exact from rfl, List.map_map]
    simp only [number_rest_bind h hv htuple hschema]
    rfl
  have := Reader.yields_sumFrom hsummands 0
  rwa [WithTop.coe_zero, zero_add, ← hsum] at this

end OpenSum

/-! ### All orders -/

/-- The value of a summation whose variables are taken out in the given order, each in favour of a
tuple.  What is left in the end is read at once. -/
def Term.inOrder {ν : Type} [Arithmetic ν] :
    List (Var × String) → Term → Environment → Except Fault (Option ν)
  | [], t, env => (t.read : Reader ν).number? env
  | (v, tuple) :: order, .sum vars body, env =>
      match body.tableOf? v.tuple with
      | none => .ok none
      | some name =>
          Reader.sumFrom Arithmetic.zero ((env.database.rows name).map fun r _ =>
            inOrder order (OpenSum.rest ⟨.left, vars, body⟩ (some v) tuple) (env.bind tuple r))
  | _ :: _, _, _ => .ok none

namespace OpenSum

/-- Variables of a summation, none of them twice, with different tuples that do not occur in the
summation and have the schemas of the variables. -/
structure Order (s : OpenSum) (schemas : SchemaMap) (order : List (Var × String)) : Prop where
  vars : ∀ p ∈ order, p.1 ∈ s.vars
  nodup : (order.map Prod.fst).Nodup
  fresh : ∀ p ∈ order, p.2 ∉ s.term.names
  distinct : (order.map Prod.snd).Nodup
  schema : ∀ p ∈ order, schemas.get? p.2 = schemas.get? p.1.tuple

/-- What is left of a summation with several variables. -/
def below (s : OpenSum) (v : Var) (tuple : String) : OpenSum :=
  ⟨s.side, s.vars.erase v, s.body.rename v.tuple tuple⟩

variable {s : OpenSum} {v : Var} {tuple : String}

theorem Ranges.below (h : s.Ranges) (hv : v ∈ s.vars) (htuple : tuple ∉ s.term.names) :
    (s.below v tuple).Ranges where
  base u hu := h.base u (VarSet.mem_erase.mp hu).1
  table u hu := by
    obtain ⟨hu, hne⟩ := VarSet.mem_erase.mp hu
    have htu : u.tuple ≠ tuple :=
      fun heq => htuple (heq ▸ List.mem_append_left _ (List.mem_map_of_mem hu))
    rw [tableOf?, OpenSum.below, Term.tableOf?_rename (h.ne_of_ne hv u hu hne) htu]
    exact h.table u hu

theorem Order.below {schemas : SchemaMap} {order : List (Var × String)}
    (h : s.Order schemas ((v, tuple) :: order)) : (s.below v tuple).Order schemas order := by
  obtain ⟨hvars, hnodup, hfresh, hdistinct, hschema⟩ := h
  rw [List.map_cons, List.nodup_cons] at hnodup hdistinct
  rw [List.forall_mem_cons] at hvars hfresh hschema
  refine ⟨fun p hp => VarSet.mem_erase.mpr ⟨hvars.2 p hp, fun heq => ?_⟩, hnodup.2,
    fun p hp h => ?_, hdistinct.2, hschema.2⟩
  · exact hnodup.1 (List.mem_map.mpr ⟨p, hp, heq⟩)
  · have hp' := hfresh.2 p hp
    rw [term, Term.names, List.mem_append, not_or] at hp'
    rcases List.mem_append.mp h with h | h
    · obtain ⟨u, hu, heq⟩ := List.mem_map.mp h
      exact hp'.1 (heq ▸ List.mem_map_of_mem (VarSet.mem_erase.mp hu).1)
    · rcases Term.names_rename h with h | h
      · exact hdistinct.1 (List.mem_map.mpr ⟨p, hp, h⟩)
      · exact hp'.2 h

/-- Taking out variables one after the other does not change the value. -/
theorem yields_inOrder (h : s.Ranges) {env : Environment} {order : List (Var × String)}
    (horder : s.Order env.schemas order) :
    Yields s.body.evaluable (s.term.inOrder order env) (optional (s.term.number env.world)) := by
  induction order generalizing s env with
  | nil => exact s.term.yields_number? env
  | cons p order ih =>
      obtain ⟨v, tuple⟩ := p
      have hv := horder.vars _ List.mem_cons_self
      have hfresh := horder.fresh _ List.mem_cons_self
      obtain ⟨table, htable⟩ := Option.isSome_iff_exists.mp (h.table v hv)
      have hbelow : ∀ r, Yields s.body.evaluable
          ((s.rest (some v) tuple).inOrder order (env.bind tuple r))
          (optional ((s.rest (some v) tuple).number (env.bind tuple r).world)) := by
        intro r
        have hrest : Yields (s.body.rename v.tuple tuple).evaluable
            ((s.below v tuple).term.inOrder order (env.bind tuple r))
            (optional ((s.below v tuple).term.number (env.bind tuple r).world)) :=
          ih (h.below hv hfresh) horder.below
        rw [← Term.evaluable_rename v.tuple tuple s.body, rest_some]
        split
        · -- No variable is left, so the order has come to its end.
          next hempty =>
            cases order with
            | nil => exact Term.yields_number? _ _
            | cons p order =>
                have hp : p.1 ∈ (s.vars.erase v).toList := horder.below.vars p List.mem_cons_self
                rw [List.isEmpty_iff.mp hempty] at hp
                exact absurd hp List.not_mem_nil
        · exact hrest
      rw [term, Term.inOrder, show s.body.tableOf? v.tuple = some table from htable]
      change Yields _ (Reader.sumFrom Arithmetic.zero ((env.database.rows table).map fun r _ =>
        (s.rest (some v) tuple).inOrder order (env.bind tuple r))) _
      rw [Arithmetic.zero_rat]
      exact yields_sum_rest h hv htable hfresh (horder.schema _ List.mem_cons_self) hbelow

/-- **A summation has the value that it has when it is peeled off**, or it has none either way: what
is left when one of its variables gives way to a new tuple with the variable's schema is added up
over the rows of the variable.  So all orders in which variables can be taken out lead to the same
value.  Only a body that asks for the value of a whole tuple may take forever, one way or
another. -/
theorem value_eq_peeled (h : s.Ranges) (env : Environment) :
    ∃ x : Option ℚ, Yields s.body.evaluable ((s.term.read : Reader ℚ).number? env) x ∧
      (∀ v ∈ s.vars, ∀ table tuple, s.tableOf? v = some table → tuple ∉ s.term.names →
        env.schemas.get? tuple = env.schemas.get? v.tuple →
        Yields s.body.evaluable (Reader.sumFrom 0 ((env.database.rows table).map fun r _ =>
          ((s.rest (some v) tuple).read : Reader ℚ).number? (env.bind tuple r))) x) ∧
      ∀ order, s.Order env.schemas order →
        Yields s.body.evaluable (s.term.inOrder order env) x := by
  refine ⟨_, s.term.yields_number? env, ?_, fun order horder => yields_inOrder h horder⟩
  intro v hv table tuple htable htuple hschema
  refine yields_sum_rest h hv htable htuple hschema fun r => ?_
  rw [← evaluable_rest s v tuple]
  exact Term.yields_number? _ _

/-- The pairs of equal rows of two tables, counted with a factor that binds a tuple again. -/
def equalPairs : OpenSum :=
  ⟨.left, .ofList [.base "x", .base "y"], .mul [.table "r" (.base "x"), .table "s" (.base "y"),
    .pred .eq [.var (.base "x"), .var (.base "y")],
    .sumOver ["x"] (.table "r" (.base "x"))]⟩

/-- An environment in which two tuples and two names for layers have schemas. -/
def overlapping : Environment :=
  .ofDatabase .overlapping (.ofList (["x", "y", "p", "q"].map fun x => (x, .single))) "out"

/-- The variables of the pairs of equal rows can be taken out in both orders. -/
theorem value_eq_peeled_equalPairs :
    equalPairs.Ranges ∧ equalPairs.body.evaluable = true ∧
      equalPairs.Order overlapping.schemas [(.base "x", "p"), (.base "y", "q")] ∧
      equalPairs.Order overlapping.schemas [(.base "y", "p"), (.base "x", "q")] ∧
      (equalPairs.term.read : Reader ℚ).number? overlapping = .ok (some 18) ∧
      equalPairs.term.inOrder [(.base "x", "p"), (.base "y", "q")] overlapping =
        .ok (some (18 : ℚ)) ∧
      equalPairs.term.inOrder [(.base "y", "p"), (.base "x", "q")] overlapping =
        .ok (some (18 : ℚ)) := by
  have hranges : equalPairs.Ranges := ⟨by decide +kernel, by decide +kernel⟩
  have hxy : equalPairs.Order overlapping.schemas [(.base "x", "p"), (.base "y", "q")] :=
    ⟨by decide +kernel, by decide +kernel, by decide +kernel, by decide +kernel, by decide +kernel⟩
  have hyx : equalPairs.Order overlapping.schemas [(.base "y", "p"), (.base "x", "q")] :=
    ⟨by decide +kernel, by decide +kernel, by decide +kernel, by decide +kernel, by decide +kernel⟩
  have hvalue : (equalPairs.term.read : Reader ℚ).number? overlapping = .ok (some 18) := by
    decide +kernel
  have hends : equalPairs.body.evaluable = true := by decide +kernel
  obtain ⟨x, hx, -, horders⟩ := value_eq_peeled hranges overlapping
  obtain rfl := hx.eq_of_ok hvalue
  exact ⟨hranges, hends, hxy, hyx, hvalue, (horders _ hxy).ok hends, (horders _ hyx).ok hends⟩

/-- One where the column of a tuple has the given value. -/
def columnIs (x : String) (n : Int64) : Term :=
  .pred .eq [.var (.proj "a" x), .const (.ofWord n)]

/-- Pairs of rows of which one asks for the value of a whole tuple and another one has none. -/
def unevenPairs : OpenSum :=
  ⟨.left, .ofList [.base "x", .base "y"], .mul [.table "r" (.base "x"), .table "s" (.base "y"),
    .add [.mul [columnIs "x" 0, columnIs "y" 2, .var (.base "x")],
      .mul [columnIs "x" 1, columnIs "y" 1, .str ""]]]⟩

/-- Pairs of rows whose large numbers cancel out for each row of the second table. -/
def cancellingPairs : OpenSum :=
  ⟨.left, .ofList [.base "x", .base "y"], .mul [.table "r" (.base "x"), .table "s" (.base "y"),
    .add [.mul [columnIs "x" 0, .const (.ofWord 1152921504606846976)],
      .mul [columnIs "x" 1, .const (.ofWord (-576460752303423488))]]]⟩

/-- The whole tuple comes first if the variables are gone through together, but not if the second
one is taken out before the first.  And the large numbers are added up before they are cancelled
out, or they are not. -/
theorem value_ne_peeled :
    let order : List (Var × String) := [(.base "y", "p"), (.base "x", "q")]
    (unevenPairs.Ranges ∧ unevenPairs.Order overlapping.schemas order ∧
      (unevenPairs.term.read : Reader ℚ).number? overlapping = .error .endless ∧
      unevenPairs.term.inOrder order overlapping = (.ok none : Except Fault (Option ℚ))) ∧
    cancellingPairs.Ranges ∧ cancellingPairs.Order overlapping.schemas order ∧
      (cancellingPairs.term.read : Reader Fraction).number? overlapping = .error .overflow ∧
      cancellingPairs.term.inOrder order overlapping = .ok (some Fraction.zero) := by
  refine ⟨⟨⟨?_, ?_⟩, ⟨?_, ?_, ?_, ?_, ?_⟩, ?_, ?_⟩, ⟨?_, ?_⟩, ⟨?_, ?_, ?_, ?_, ?_⟩, ?_, ?_⟩ <;>
    decide +kernel

end OpenSum

end BagEquiv
