/-
**The exact value of a term.**

Over exact arithmetic nothing overflows, and reading a term over a database only fails to give a
value, or it asks for the value of a whole tuple and never ends.  What a reading that ends gives is
a function of a *world*: the exact rows of the tables and of the tuples that are bound.  Numbers
that may be missing are elements of `WithTop ℚ`, where the top element stands for no value: it
absorbs every summand, and it is absorbed by a factor of zero and by no other factor.

Main definition:

* `Yields` — a computation that gives a result unless it never ends.

Main result:

* `Term.yields_read` — **reading a term in exact arithmetic gives its meaning**, or it never
  ends, which takes a whole tuple where a value is asked for.
-/

import Mathlib.Algebra.BigOperators.Group.List.Basic
import Mathlib.Algebra.Order.Ring.WithTop
import BagEquiv.Proofs.ExactRows

set_option autoImplicit false

namespace BagEquiv

/-! ### Computations that may not end -/

/-- The computation gives `x`, or it never ends and the condition does not hold. -/
def Yields {α : Type} (condition : Prop) (a : Except Fault α) (x : α) : Prop :=
  a = .ok x ∨ ¬condition ∧ a = .error .endless

namespace Yields

variable {α β : Type} {c c' : Prop} {a : Except Fault α} {x : α}

/-- If both steps give results, or one of them never ends, so it is with the two in turn. -/
theorem bind {f : α → Except Fault β} {y : β} (h : Yields c a x) (hf : Yields c (f x) y) :
    Yields c (a >>= f) y := by
  rcases h with rfl | ⟨hc, rfl⟩
  · exact hf
  · exact .inr ⟨hc, rfl⟩

theorem mono (h : Yields c a x) (hc : c' → c) : Yields c' a x :=
  h.imp_right fun h => ⟨mt hc h.1, h.2⟩

/-- A result that is returned is the one that is told. -/
theorem eq_of_ok (h : Yields c a x) {y : α} (ha : a = .ok y) : x = y := by
  rcases h with rfl | ⟨_, rfl⟩
  · exact Except.ok.inj ha
  · cases ha

theorem ok (h : Yields c a x) (hc : c) : a = .ok x := h.resolve_right fun h => h.1 hc

end Yields

variable {c : Prop} {env : Environment} {r : Reader ℚ} {rs : List (Reader ℚ)}
  {values : List (Option (Scalar ℚ))}

/-! ### Numbers that may be missing -/

/-- A number that may be missing as an optional number. -/
def optional : WithTop ℚ → Option ℚ
  | ⊤ => none
  | (q : ℚ) => some q

namespace Scalar

/-- The number of a scalar, if there is one. -/
def toNumber : Option (Scalar ℚ) → WithTop ℚ
  | some (.number q) => q
  | _ => ⊤

/-- The scalar of a number, if there is one. -/
def ofNumber (n : WithTop ℚ) : Option (Scalar ℚ) := (optional n).map Scalar.number

@[simp] theorem toNumber_none : toNumber none = ⊤ := rfl

@[simp] theorem toNumber_number (q : ℚ) : toNumber (some (.number q)) = q := rfl

@[simp] theorem toNumber_text (s : String) : toNumber (some (.text s)) = ⊤ := rfl

@[simp] theorem ofNumber_top : ofNumber ⊤ = none := rfl

@[simp] theorem ofNumber_coe (q : ℚ) : ofNumber (q : WithTop ℚ) = some (.number q) := rfl

@[simp] theorem toNumber_ofNumber (n : WithTop ℚ) : toNumber (ofNumber n) = n := by
  cases n <;> rfl

theorem optional_toNumber (s : Option (Scalar ℚ)) :
    optional (toNumber s) = s.bind Scalar.number? := by
  rcases s with _ | n | t <;> rfl

theorem toNumber_eq_coe {s : Option (Scalar ℚ)} {q : ℚ} :
    toNumber s = q ↔ s = some (.number q) := by
  rcases s with _ | n | t
  · simp
  · simp
  · simp

theorem ofNumber_eq_some {n : WithTop ℚ} {s : Scalar ℚ} :
    ofNumber n = some s ↔ ∃ q : ℚ, n = q ∧ s = .number q := by
  cases n with
  | top => simp
  | coe q => simp [eq_comm]

/-- Numbers are ordered, and so are texts. -/
def order? : Scalar ℚ → Scalar ℚ → Option Ordering
  | .number a, .number b => some (if a < b then .lt else if a = b then .eq else .gt)
  | .text s, .text t => some (if s < t then .lt else if s = t then .eq else .gt)
  | _, _ => none

/-- In exact arithmetic comparing never fails. -/
theorem compare?_eq (a b : Scalar ℚ) : a.compare? b = .ok (a.order? b) := by
  cases a <;> cases b <;> rfl

end Scalar

/-! ### Worlds -/

/-- The exact rows of tables and of bound tuples. -/
structure World where
  /-- The rows of a table, in the order in which they are listed. -/
  rows : String → List ExactRow
  /-- How often a row occurs in a table. -/
  count : String → ExactRow → ℕ
  schemas : String → Option Schema
  /-- The rows of the tuples that are bound. -/
  tuples : String → Option ExactRow
  /-- The numbers that placeholders stand for. -/
  placeholders : String → Option (WithTop ℚ)

/-- The tuple that a term names. -/
def Term.tuple? : Term → Option String
  | .var (.base x) => some x
  | _ => none

theorem Term.tuple?_eq_some {t : Term} {x : String} : t.tuple? = some x ↔ t = .var (.base x) := by
  unfold tuple?
  split <;> simp_all

/-- The column that a term names, and its tuple. -/
def Term.column? : Term → Option (String × String)
  | .var (.proj attr x) => some (attr, x)
  | _ => none

theorem Term.column?_eq_some {t : Term} {p : String × String} :
    t.column? = some p ↔ t = .var (.proj p.1 p.2) := by
  obtain ⟨attr, x⟩ := p
  unfold column?
  split <;> simp_all

/-- Whether two rows have equal cells in a pair of columns. -/
def ExactRow.agree (a b : ExactRow) (p : Column × Column) : Bool :=
  (a p.1.name).isSome && decide (a p.1.name = b p.2.name)

namespace World

/-- The world in which a tuple is bound to a row. -/
def bind (w : World) (x : String) (r : ExactRow) : World :=
  { w with tuples := Function.update w.tuples x (some r) }

@[simp] theorem tuples_bind_self (w : World) (x : String) (r : ExactRow) :
    (w.bind x r).tuples x = some r := by
  simp [bind]

theorem tuples_bind_of_ne (w : World) {x y : String} (h : y ≠ x) (r : ExactRow) :
    (w.bind x r).tuples y = w.tuples y := by
  simp [bind, h]

def cell? (w : World) (x attr : String) : Option ExactCell := (w.tuples x).bind fun r => r attr

/-- Whether two tuples agree in corresponding columns of their schemas. -/
def same? (w : World) (x y : String) : Option Bool :=
  match w.tuples x, w.tuples y, w.schemas x, w.schemas y with
  | some a, some b, some sx, some sy =>
      if sx.columns.length ≠ sy.columns.length then none
      else some ((sx.columns.zip sy.columns).all (a.agree b))
  | _, _, _, _ => none

/-- The sum of the numbers of all worlds in which the given tuples are bound to rows from the lists
given for them. -/
def total (f : World → WithTop ℚ) : List (String × List ExactRow) → World → WithTop ℚ
  | [], w => f w
  | (x, rs) :: rest, w => (rs.map fun r => total f rest (w.bind x r)).sum

/-- The variables of a summation with the rows they range over. -/
def ranges (w : World) (vars : VarSet) (body : Term) : List (String × List ExactRow) :=
  vars.toList.map fun v => (v.tuple, (body.tableOf? v.tuple).elim [] w.rows)

/-- The sum of a number over the variables of a summation; there is none if a variable ranges over
no table. -/
def summation (w : World) (vars : VarSet) (body : Term) (f : World → WithTop ℚ) : WithTop ℚ :=
  if ∀ v ∈ vars.toList, (body.tableOf? v.tuple).isSome then w.total f (w.ranges vars body) else ⊤

/-- Whether a comparison holds of two scalars. -/
def compare? (kind : Pred) (a b : Option (Scalar ℚ)) : Option Bool :=
  a.bind fun x => b.bind fun y => (x.order? y).bind kind.holds?

/-- Whether a comparison holds of two tuples. -/
def compareTuples? (w : World) (kind : Pred) (x y : String) : Option Bool :=
  match kind, w.same? x y with
  | .eq, some same => some same
  | .ne, some same => some !same
  | _, _ => none

theorem compareTuples?_eq (w : World) (x y : String) : w.compareTuples? .eq x y = w.same? x y := by
  unfold compareTuples?
  cases w.same? x y <;> rfl

theorem compareTuples?_ne (w : World) (x y : String) :
    w.compareTuples? .ne x y = (w.same? x y).map not := by
  unfold compareTuples?
  cases w.same? x y <;> rfl

/-- The tuple that a term names, unless it is a placeholder. -/
def named? (w : World) (t : Term) : Option String :=
  t.tuple?.filter fun x => (w.placeholders x).isNone

theorem named?_eq_some {w : World} {t : Term} {x : String} :
    w.named? t = some x ↔ t = .var (.base x) ∧ w.placeholders x = none := by
  rw [named?, Option.filter_eq_some_iff, Term.tuple?_eq_some, Option.isNone_iff_eq_none]

/-- The tuples that two arguments name. -/
def pair? (w : World) : List Term → Option (String × String)
  | [a, b] => (w.named? a).bind fun x => (w.named? b).map fun y => (x, y)
  | _ => none

theorem pair?_eq_some {w : World} {ts : List Term} {p : String × String}
    (h : w.pair? ts = some p) :
    ts = [.var (.base p.1), .var (.base p.2)] ∧
      w.placeholders p.1 = none ∧ w.placeholders p.2 = none := by
  unfold pair? at h
  split at h
  · next a b =>
      obtain ⟨x, hx, h⟩ := Option.bind_eq_some_iff.mp h
      obtain ⟨y, hy, rfl⟩ := Option.map_eq_some_iff.mp h
      obtain ⟨rfl, hx'⟩ := named?_eq_some.mp hx
      obtain ⟨rfl, hy'⟩ := named?_eq_some.mp hy
      exact ⟨rfl, hx', hy'⟩
  · cases h

/-- Whether a comparison holds of what two arguments stand for. -/
def compareValues? (kind : Pred) : List (Option (Scalar ℚ)) → Option Bool
  | [a, b] => compare? kind a b
  | _ => none

/-- Whether a comparison holds of two arguments, given what they stand for. -/
def compareAll? (w : World) (kind : Pred) (args : List Term)
    (values : List (Option (Scalar ℚ))) : Option Bool :=
  match w.pair? args with
  | some (x, y) => w.compareTuples? kind x y
  | none => compareValues? kind values

/-- Whether a predicate holds of its arguments, given what they stand for. -/
def judge (w : World) (kind : Pred) (args : List Term) (values : List (Option (Scalar ℚ))) :
    Option Bool :=
  match kind, args with
  | .isNull, [arg] => arg.column?.bind fun (attr, x) => (w.cell? x attr).map ExactCell.null
  | .isNull, _ => none
  | .named _, _ => none
  | kind, args => w.compareAll? kind args values

/-- A predicate that is neither a test for null nor a named one compares. -/
theorem judge_of_comparison {w : World} {kind : Pred} {args : List Term}
    {values : List (Option (Scalar ℚ))} (hnull : kind ≠ .isNull)
    (hname : ∀ name, kind ≠ .named name) :
    w.judge kind args values = w.compareAll? kind args values := by
  cases kind with
  | isNull => exact absurd rfl hnull
  | named name => exact absurd rfl (hname name)
  | eq | ne | lt | le | gt | ge => rfl

end World

/-- The result of an operation on numbers, if it has one. -/
def Operation.result? : Operation → List ℚ → Option ℚ
  | .divide, [a, b] => if b = 0 then none else some (a / b)
  | .minus, [a, b] => some (a - b)
  | .minus, [a] => some (-a)
  | .plus, ns => some ns.sum
  | .times, ns => some ns.prod
  | _, _ => none

/-- The result of a function.  Its arguments all need numbers, and only operations have results. -/
def World.applied? (name : String) (values : List (Option (Scalar ℚ))) : Option ℚ := do
  (← Operation.ofName? name.toLower).result? (← values.mapM fun s => s.bind Scalar.number?)

namespace Term

mutual

/-- What a term stands for in a world. -/
@[simp] def meaning : Term → World → Option (Scalar ℚ)
  | .sum vars body, w =>
      Scalar.ofNumber (w.summation vars body fun w => Scalar.toNumber (meaning body w))
  | .add terms, w => Scalar.ofNumber ((meanings terms w).map Scalar.toNumber).sum
  | .mul factors, w => Scalar.ofNumber ((meanings factors w).map Scalar.toNumber).prod
  | .neg term, w =>
      Scalar.ofNumber ((Scalar.toNumber (meaning term w)).map fun q => if q = 0 then 1 else 0)
  | .squash term, w =>
      Scalar.ofNumber ((Scalar.toNumber (meaning term w)).map fun q => if q = 0 then 0 else 1)
  | .pred kind args, w =>
      (w.judge kind args (meanings args w)).map fun b => .number (if b then 1 else 0)
  | .var (.proj attr x), w => (w.cell? x attr).map fun c => c.value.scalar
  | .var (.base x), w => (w.placeholders x).bind Scalar.ofNumber
  | .const q, _ => some (.number q.toRat)
  | .table name (.base x), w => (w.tuples x).map fun r => .number (w.count name r)
  | .table _ (.proj _ _), _ => none
  | .func name args, w => (World.applied? name (meanings args w)).map .number
  | .str s, _ => some (.text s)

def meanings : List Term → World → List (Option (Scalar ℚ))
  | [], _ => []
  | t :: ts, w => meaning t w :: meanings ts w

end

theorem meanings_eq_map (ts : List Term) (w : World) :
    meanings ts w = ts.map fun t => meaning t w := by
  induction ts with
  | nil => rfl
  | cons t ts ih => rw [meanings, ih, List.map_cons]

/-- The number that a term stands for, if it stands for one. -/
def number (t : Term) (w : World) : WithTop ℚ := Scalar.toNumber (t.meaning w)

end Term

/-! ### Terms whose reading ends -/

namespace Pred

/-- Whether the predicate is a comparison. -/
def compares : Pred → Bool
  | .isNull => false
  | .named _ => false
  | _ => true

/-- Whether the arguments of a predicate are asked for their values: there are two of them, not
both tuples, to be compared. -/
def evaluates (kind : Pred) (args : List Term) : Bool :=
  kind.compares && args.length == 2 && args.any fun t => t.tuple?.isNone

/-- Two arguments are compared as tuples only if both are tuples. -/
theorem evaluates_pair {kind : Pred} {a b : Term} (hnull : kind ≠ .isNull)
    (hname : ∀ name, kind ≠ .named name)
    (htuples : ∀ x y, [a, b] ≠ [.var (.base x), .var (.base y)]) :
    kind.evaluates [a, b] = true := by
  have hcompares : kind.compares = true := by
    unfold compares
    split <;> simp_all
  have hany : ([a, b].any fun t => t.tuple?.isNone) = true := by
    by_contra hall
    simp only [List.any_cons, List.any_nil, Bool.or_false, Bool.or_eq_true, not_or,
      Option.isNone_iff_eq_none, Option.ne_none_iff_exists', Term.tuple?_eq_some] at hall
    obtain ⟨⟨x, rfl⟩, y, rfl⟩ := hall
    exact htuples x y rfl
  rw [evaluates, hcompares, hany]
  rfl

/-- Only which arguments are tuples matters. -/
theorem evaluates_congr (kind : Pred) {ts us : List Term}
    (h : (ts.map fun t => t.tuple?.isNone) = us.map fun t => t.tuple?.isNone) :
    kind.evaluates ts = kind.evaluates us := by
  have hlength := congrArg List.length h
  have hany := congrArg (List.any · id) h
  rw [List.length_map, List.length_map] at hlength
  rw [List.any_map, List.any_map] at hany
  rw [evaluates, evaluates, hlength]
  exact congrArg _ hany

end Pred

namespace Term

mutual

/-- Whether no whole tuple stands where a value is asked for. -/
def evaluable : Term → Bool
  | .sum _ body => evaluable body
  | .add terms => evaluableAll terms
  | .mul factors => evaluableAll factors
  | .neg term => evaluable term
  | .squash term => evaluable term
  | .pred kind args => !kind.evaluates args || evaluableAll args
  | .var (.proj _ _) => true
  | .var (.base _) => false
  | .const _ => true
  | .table _ _ => true
  | .func name args => (Operation.ofName? name.toLower).isNone || evaluableAll args
  | .str _ => true

def evaluableAll : List Term → Bool
  | [] => true
  | t :: ts => evaluable t && evaluableAll ts

end

theorem evaluableAll_eq (ts : List Term) : evaluableAll ts = ts.all evaluable := by
  induction ts with
  | nil => rfl
  | cons t ts ih => rw [evaluableAll, ih, List.all_cons]

theorem evaluableAll_congr {ts us : List Term} (h : ts.map evaluable = us.map evaluable) :
    evaluableAll ts = evaluableAll us := by
  have hall := congrArg (List.all · id) h
  rwa [List.all_map, List.all_map, Function.id_comp, ← evaluableAll_eq, ← evaluableAll_eq] at hall

end Term

/-! ### The world of an environment -/

namespace Environment

/-- The exact rows of an environment, which has no placeholders. -/
noncomputable def world (env : Environment) : World where
  rows name := (env.database.rows name).map Row.exact
  count name e := (env.database.table name).count e
  schemas := env.schemas.get?
  tuples x := (env.rows x).map Row.exact
  placeholders _ := none

theorem world_bind (env : Environment) (x : String) (r : Row) :
    (env.bind x r).world = env.world.bind x (Row.exact r) := by
  have htuples : (fun n => ((env.bind x r).rows n).map Row.exact) =
      Function.update env.world.tuples x (some (Row.exact r)) := by
    funext n
    by_cases h : n = x
    · simp [bind, h]
    · simp [bind, world, h]
  unfold world World.bind
  rw [htuples]
  rfl

theorem cell?_world (env : Environment) (x attr : String) :
    env.world.cell? x attr = (env.cell? x attr).map Cell.exact := by
  unfold World.cell? cell?
  cases h : env.rows x <;> simp [world, h, Row.exact]

end Environment

/-! ### Reading in exact arithmetic -/

theorem Arithmetic.zero_rat : (Arithmetic.zero : ℚ) = 0 := by
  simp [zero, ofFraction, Fraction.zero, Fraction.toRat_ofWord]

theorem Arithmetic.one_rat : (Arithmetic.one : ℚ) = 1 := by
  simp [one, ofFraction, Fraction.one, Fraction.toRat_ofWord]

namespace Reader

theorem yields_number? {s : Option (Scalar ℚ)} (h : Yields c (r env) s) :
    Yields c (r.number? env) (optional (Scalar.toNumber s)) := by
  rw [Scalar.optional_toNumber]
  exact h.bind (.inl rfl)

/-- Numbers are added up, and one that is missing makes the sum missing. -/
theorem yields_sumFrom {fs : List (Unit → Except Fault (Option ℚ))} {xs : List (WithTop ℚ)}
    (h : List.Forall₂ (fun f x => Yields c (f ()) (optional x)) fs xs) (q : ℚ) :
    Yields c (sumFrom q fs) (optional (q + xs.sum)) := by
  induction h generalizing q with
  | nil =>
      rw [List.sum_nil, add_zero]
      exact .inl rfl
  | @cons f x fs xs hhead _ ih =>
      rw [List.sum_cons, ← add_assoc]
      refine hhead.bind ?_
      cases x with
      | top =>
          rw [add_top, top_add]
          exact .inl rfl
      | coe n => exact ih (q + n)

/-- The rows of one variable are added up from the left. -/
theorem yields_throughRows {step : Environment → ℚ → Except Fault (Option ℚ)}
    {g : Environment → WithTop ℚ}
    (hs : ∀ env q, Yields c (step env q) (optional (q + g env))) (env : Environment)
    (rows : List (String × Row)) (q : ℚ) :
    Yields c (throughRows step env rows q)
      (optional (q + (rows.map fun p => g (env.bind p.1 p.2)).sum)) := by
  induction rows generalizing q with
  | nil =>
      rw [List.map_nil, List.sum_nil, add_zero]
      exact .inl rfl
  | cons p rows ih =>
      rw [List.map_cons, List.sum_cons, ← add_assoc]
      refine (hs (env.bind p.1 p.2) q).bind ?_
      cases (q : WithTop ℚ) + g (env.bind p.1 p.2) with
      | top =>
          rw [top_add]
          exact .inl rfl
      | coe n => exact ih n

/-- Carrying a total through all choices of rows adds up the numbers of the worlds they lead to. -/
theorem yields_throughChoices {f : World → WithTop ℚ}
    (hr : ∀ env : Environment, Yields c (r.number? env) (optional (f env.world)))
    (domains : List (String × List Row)) (env : Environment) (q : ℚ) :
    Yields c (throughChoices r (domains.map fun d => d.2.map fun row => (d.1, row)) env q)
      (optional (q + env.world.total f (domains.map fun d => (d.1, d.2.map Row.exact)))) := by
  induction domains generalizing env q with
  | nil =>
      have hworld : List.Forall₂ (fun f x => Yields c (f ()) (optional x))
          [fun _ => r.number? env] [f env.world] := .cons (hr env) .nil
      have := yields_sumFrom hworld q
      rwa [List.sum_singleton] at this
  | cons d domains ih =>
      have := yields_throughRows ih env (d.2.map fun row => (d.1, row)) q
      simp only [List.map_map, Function.comp_def, Environment.world_bind] at this
      rw [List.map_cons, List.map_cons, throughChoices, World.total, List.map_map]
      exact this

/-- The rows that a variable ranges over. -/
theorem domain?_eq (env : Environment) (body : Term) (v : Var) :
    domain? env body v =
      (body.tableOf? v.tuple).map fun name =>
        (env.database.rows name).map fun r => (v.tuple, r) := by
  unfold domain?
  cases body.tableOf? v.tuple <;> rfl

theorem mapM_of_some {α β : Type} {f : α → Option β} {g : α → β} {as : List α}
    (h : ∀ a ∈ as, f a = some (g a)) : as.mapM f = some (as.map g) := by
  induction as with
  | nil => rfl
  | cons a as ih =>
      rw [List.forall_mem_cons] at h
      rw [List.mapM_cons, h.1, ih h.2]
      rfl

theorem mapM_of_none {α β : Type} {f : α → Option β} {as : List α} {a : α} (ha : a ∈ as)
    (h : f a = none) : as.mapM f = none := by
  induction as with
  | nil => exact absurd ha List.not_mem_nil
  | cons b as ih =>
      rw [List.mapM_cons]
      rcases List.mem_cons.mp ha with rfl | ha
      · rw [h]
        rfl
      · rw [ih ha]
        cases f b <;> rfl

theorem mem_of_mapM {α β : Type} {f : α → Option β} {as : List α} {bs : List β}
    (h : as.mapM f = some bs) : ∀ b ∈ bs, ∃ a ∈ as, f a = some b := by
  induction as generalizing bs with
  | nil =>
      cases h
      simp
  | cons a as ih =>
      rw [List.mapM_cons] at h
      obtain ⟨b, hb, h⟩ := Option.bind_eq_some_iff.mp h
      obtain ⟨bs', hbs', h⟩ := Option.bind_eq_some_iff.mp h
      cases h
      refine List.forall_mem_cons.mpr ⟨⟨a, List.mem_cons_self, hb⟩, fun b' hb' => ?_⟩
      obtain ⟨a', ha', h'⟩ := ih hbs' b' hb'
      exact ⟨a', List.mem_cons_of_mem _ ha', h'⟩

/-- A sum is zero if one of the variables has no rows. -/
theorem total_of_nil_mem {f : World → WithTop ℚ} {ranges : List (String × List ExactRow)}
    {x : String} (h : (x, []) ∈ ranges) (w : World) : w.total f ranges = 0 := by
  induction ranges generalizing w with
  | nil => exact absurd h List.not_mem_nil
  | cons range ranges ih =>
      obtain ⟨y, rs⟩ := range
      rw [World.total]
      rcases List.mem_cons.mp h with heq | h
      · obtain ⟨rfl, rfl⟩ := Prod.mk.injEq _ _ _ _ ▸ heq
        rfl
      · refine List.sum_eq_zero fun n hn => ?_
        obtain ⟨r, _, rfl⟩ := List.mem_map.mp hn
        exact ih h _

/-- A summation goes through all rows of its variables, and adds up its body. -/
theorem yields_summation {f : World → WithTop ℚ}
    (hr : ∀ env : Environment, Yields c (r.number? env) (optional (f env.world))) (vars : VarSet)
    (body : Term) (env : Environment) :
    Yields c (Reader.summation vars body r env) (optional (env.world.summation vars body f)) := by
  unfold Reader.summation World.summation
  by_cases hall : ∀ v ∈ vars.toList, (body.tableOf? v.tuple).isSome
  · rw [if_pos hall]
    have hdomains : vars.toList.mapM (domain? env body) =
        some ((vars.toList.map fun v =>
          (v.tuple, (body.tableOf? v.tuple).elim [] env.database.rows)).map
            fun d => d.2.map fun row => (d.1, row)) := by
      rw [List.map_map]
      refine mapM_of_some fun v hv => ?_
      obtain ⟨name, hname⟩ := Option.isSome_iff_exists.mp (hall v hv)
      rw [domain?_eq, hname]
      simp [hname]
    have hranges : env.world.ranges vars body =
        (vars.toList.map fun v =>
          (v.tuple, (body.tableOf? v.tuple).elim [] env.database.rows)).map
            fun d => (d.1, d.2.map Row.exact) := by
      rw [World.ranges, List.map_map]
      refine List.map_congr_left fun v _ => ?_
      cases hname : body.tableOf? v.tuple <;> simp [hname, Environment.world]
    rw [hdomains, hranges]
    generalize vars.toList.map _ = domains
    simp only
    split
    · -- An empty table leaves no choice, so nothing is added up.
      next hempty =>
        obtain ⟨d, hd, hnil⟩ : ∃ d ∈ domains, d.2 = [] := by
          simpa using hempty
        have hmem : (d.1, []) ∈ domains.map fun d => (d.1, d.2.map Row.exact) :=
          List.mem_map.mpr ⟨d, hd, by rw [hnil, List.map_nil]⟩
        rw [total_of_nil_mem hmem]
        exact .inl rfl
    · have := yields_throughChoices hr domains env 0
      rwa [WithTop.coe_zero, zero_add] at this
  · rw [if_neg hall]
    simp only [not_forall] at hall
    obtain ⟨v, hv, hnone⟩ := hall
    have : domain? env body v = none := by
      rw [domain?_eq, Option.not_isSome_iff_eq_none.mp hnone, Option.map_none]
    rw [mapM_of_none hv this]
    exact .inl rfl

theorem yields_addition {xs : List (WithTop ℚ)}
    (h : List.Forall₂ (fun r x => Yields c (r.number? env) (optional x)) rs xs) :
    Yields c (addition rs env) (optional xs.sum) := by
  have hread : List.Forall₂ (fun f x => Yields c (f ()) (optional x))
      (rs.map fun r _ => r.number? env) xs := List.forall₂_map_left_iff.mpr h
  have := yields_sumFrom hread 0
  rwa [WithTop.coe_zero, zero_add, ← Arithmetic.zero_rat] at this

theorem yields_test {condition : ℚ → Bool} {f : ℚ → ℚ}
    (hf : ∀ q, Arithmetic.indicator (condition q) = f q) {x : WithTop ℚ}
    (h : Yields c (r.number? env) (optional x)) :
    Yields c (test condition r env) (optional (x.map f)) := by
  obtain rfl := funext hf
  refine h.bind (.inl ?_)
  cases x <;> rfl

/-- Numbers are multiplied.  A missing one makes the product missing, unless a factor is zero. -/
theorem yields_productFrom {xs : List (WithTop ℚ)}
    (h : List.Forall₂ (fun r x => Yields c (r.number? env) (optional x)) rs xs) {q : ℚ}
    (hq : q ≠ 0) (unknown : Bool) :
    Yields c (productFrom env q unknown rs)
      (optional ((if unknown then ⊤ else (q : WithTop ℚ)) * xs.prod)) := by
  induction h generalizing q unknown with
  | nil =>
      rw [List.prod_nil, mul_one]
      cases unknown <;> exact .inl rfl
  | @cons r x rs xs hr _ ih =>
      rw [List.prod_cons, ← mul_assoc]
      have hq' : (q : WithTop ℚ) ≠ 0 := by exact_mod_cast hq
      refine hr.bind ?_
      cases x with
      | top =>
          have htop : (if unknown then ⊤ else (q : WithTop ℚ)) * ⊤ = ⊤ := by
            cases unknown
            · exact WithTop.mul_top hq'
            · exact WithTop.mul_top WithTop.top_ne_zero
          rw [htop]
          exact ih hq true
      | coe n =>
          change Yields c (if Arithmetic.isZero n then .ok (some n)
            else productFrom env (q * n) unknown rs) _
          by_cases hn : n = 0
          · rw [if_pos (by simp [Arithmetic.isZero, hn]), hn, WithTop.coe_zero, mul_zero, zero_mul]
            exact .inl rfl
          · have hmul : (if unknown then ⊤ else (q : WithTop ℚ)) * n =
                if unknown then ⊤ else ((q * n : ℚ) : WithTop ℚ) := by
              cases unknown
              · exact (WithTop.coe_mul q n).symm
              · exact WithTop.top_mul (by exact_mod_cast hn)
            rw [if_neg (by simpa [Arithmetic.isZero] using hn), hmul]
            exact ih (mul_ne_zero hq hn) unknown

/-! ### Predicates and functions -/

theorem agree_exact (a b : Row) (columns : List (Column × Column)) :
    Environment.agree (Arithmetic.sameFraction ℚ) a b columns =
      .ok (columns.all ((Row.exact a).agree (Row.exact b))) := by
  induction columns with
  | nil => rfl
  | cons p columns ih =>
      obtain ⟨c, d⟩ := p
      rw [Environment.agree, ih, List.all_cons, ExactRow.agree]
      cases ha : a.get? c.name with
      | none => simp [Row.exact, ha]
      | some x =>
          cases hb : b.get? d.name with
          | none => simp [Row.exact, ha, hb]
          | some y =>
              simp only [Cell.sameBy_exact]
              by_cases h : x.exact = y.exact <;>
                simp [Row.exact, ha, hb, h, bind, Except.bind, pure, Except.pure]

/-- Rows are compared as exact rows. -/
theorem sameTuple?_exact (env : Environment) (x y : String) :
    env.sameTuple? (Arithmetic.sameFraction ℚ) x y = .ok (env.world.same? x y) := by
  unfold Environment.sameTuple? World.same?
  simp only [Environment.world]
  cases env.rows x <;> cases env.rows y <;> cases env.schemas.get? x <;>
    cases env.schemas.get? y <;> try rfl
  simp only [Option.map_some, agree_exact]
  split <;> rfl

/-- A comparison of two values has no answer if one of them has no value. -/
theorem yields_comparison {kind : Pred} {a b : Reader ℚ} {x y : Option (Scalar ℚ)}
    (ha : Yields c (a env) x) (hb : Yields c (b env) y) :
    Yields c (comparison kind a b env) (World.compare? kind x y) := by
  refine ha.bind ?_
  cases x with
  | none => exact .inl rfl
  | some x =>
      refine hb.bind ?_
      cases y with
      | none => exact .inl rfl
      | some y =>
          simp only [Scalar.compare?_eq]
          exact .inl rfl

/-- A predicate looks at the tuples or the column that its arguments name, or at what they stand
for, and only then they have to be evaluable. -/
theorem yields_predicate (kind : Pred) (args : List Term)
    (h : List.Forall₂ (fun r v => Yields c (r env) v) rs values)
    (hlength : rs.length = args.length) :
    Yields (kind.evaluates args → c) (predicate kind args rs env)
      (env.world.judge kind args values) := by
  have hpair : (∀ x y, args ≠ [.var (.base x), .var (.base y)]) → env.world.pair? args = none := by
    intro hargs
    by_contra hne
    obtain ⟨p, hp⟩ := Option.ne_none_iff_exists'.mp hne
    exact hargs p.1 p.2 (World.pair?_eq_some hp).1
  fun_cases predicate kind args rs env with
  | case1 rs attr x =>
      refine .inl ?_
      simp [World.judge, Term.column?, Environment.cell?_world, Cell.exact, Function.comp_def]
  | case2 args rs hargs =>
      refine .inl (congrArg _ ?_)
      rcases args with _ | ⟨arg, _ | _⟩
      · rfl
      · have hcolumn : arg.column? = none := by
          unfold Term.column?
          split
          · next attr x => exact absurd rfl (hargs attr x)
          · rfl
        rw [World.judge, hcolumn]
        rfl
      · rfl
  | case3 => exact .inl rfl
  | case4 rs kind x y hnull hname =>
      rw [sameTuple?_exact, World.judge_of_comparison hnull hname]
      refine .inl ?_
      change _ = Except.ok (env.world.compareTuples? kind x y)
      simp only [bind, Except.bind, World.compareTuples?]
      cases kind <;> cases env.world.same? x y <;> rfl
  | case5 args kind a b hnull hname _ htuples =>
      rw [World.judge_of_comparison hnull hname, World.compareAll?, hpair htuples]
      obtain _ | ⟨ha, _ | ⟨hb, _ | _⟩⟩ := h
      obtain ⟨s, t, rfl⟩ := List.length_eq_two.mp hlength.symm
      exact (yields_comparison ha hb).mono fun hc => hc (Pred.evaluates_pair hnull hname htuples)
  | case6 kind args rs hnull hname htuples _ hreaders =>
      rw [World.judge_of_comparison hnull hname, World.compareAll?, hpair htuples]
      refine .inl (congrArg _ ?_)
      change none = World.compareValues? kind values
      unfold World.compareValues?
      split
      · obtain _ | ⟨_, _ | ⟨_, _ | _⟩⟩ := h
        exact absurd rfl (hreaders _ _)
      · rfl

theorem yields_numbers (h : List.Forall₂ (fun r v => Yields c (r env) v) rs values) :
    Yields c (numbers env rs) (values.mapM fun s => s.bind Scalar.number?) := by
  induction h with
  | nil => exact .inl rfl
  | @cons r v rs values hr _ ih =>
      have hv := yields_number? hr
      rw [Scalar.optional_toNumber] at hv
      rw [List.mapM_cons]
      refine hv.bind ?_
      cases v.bind Scalar.number? with
      | none => exact .inl rfl
      | some n =>
          refine ih.bind (.inl ?_)
          cases values.mapM fun s => s.bind Scalar.number? <;> rfl

theorem sum_exact (ns : List ℚ) : Arithmetic.sum ns = .ok ns.sum := by
  have fold : ∀ (ns : List ℚ) (q : ℚ), ns.foldlM Arithmetic.add q = .ok (q + ns.sum) := by
    intro ns
    induction ns with
    | nil => intro q; simp [pure, Except.pure]
    | cons n ns ih =>
        intro q
        rw [List.foldlM_cons, List.sum_cons, ← add_assoc]
        exact ih (q + n)
  rw [Arithmetic.sum, fold, Arithmetic.zero_rat, zero_add]

theorem product_exact (ns : List ℚ) : Arithmetic.product ns = .ok ns.prod := by
  have fold : ∀ (ns : List ℚ) (q : ℚ), ns.foldlM Arithmetic.mul q = .ok (q * ns.prod) := by
    intro ns
    induction ns with
    | nil => intro q; simp [pure, Except.pure]
    | cons n ns ih =>
        intro q
        rw [List.foldlM_cons, List.prod_cons, ← mul_assoc]
        exact ih (q * n)
  rw [Arithmetic.product, fold, Arithmetic.one_rat, one_mul]

theorem operate_exact (op : Operation) (ns : List ℚ) : operate op ns = .ok (op.result? ns) := by
  unfold operate Operation.result?
  split
  · next a b =>
      by_cases h : b = 0 <;> simp [Arithmetic.isZero, Arithmetic.div, h, bind, Except.bind, pure,
        Except.pure]
  · rfl
  · rfl
  · rw [sum_exact]
    rfl
  · rw [product_exact]
    rfl
  · split <;> simp_all

/-- A function that is no operation has no value, and reads no argument. -/
theorem yields_application (name : String)
    (h : List.Forall₂ (fun r v => Yields c (r env) v) rs values) :
    Yields ((Operation.ofName? name.toLower).isSome → c) (application name rs env)
      (World.applied? name values) := by
  unfold application World.applied?
  cases Operation.ofName? name.toLower with
  | none => exact .inl rfl
  | some op =>
      refine ((yields_numbers h).mono fun hc => hc rfl).bind ?_
      cases values.mapM fun s => s.bind Scalar.number? with
      | none => exact .inl rfl
      | some ns => exact .inl (operate_exact op ns)

/-- In exact arithmetic the multiplicity of a row is its count. -/
theorem membership_exact (name x : String) (env : Environment) :
    (membership name (.base x) env : Except Fault (Option ℚ)) =
      .ok ((env.world.tuples x).map fun r => (env.world.count name r : ℚ)) := by
  unfold membership
  cases hx : env.rows x with
  | none => simp [Environment.world, hx]
  | some r =>
      simp only [Environment.world, hx, Database.multiplicityBy, Table.multiplicityBy_exact,
        Option.map_some, ← Table.toNat_multiplicity]
      rfl

end Reader

/-! ### The reading of a term -/

namespace Term

theorem yields_asScalar {n : Except Fault (Option ℚ)} {x : WithTop ℚ}
    (h : Yields c n (optional x)) : Yields c (asScalar n) (Scalar.ofNumber x) := by
  refine h.bind (.inl ?_)
  cases x <;> rfl

/-- Reading a term in exact arithmetic gives its meaning, unless it never ends. -/
theorem yields_read (t : Term) (env : Environment) :
    Yields t.evaluable ((t.read : Reader ℚ) env) (t.meaning env.world) := by
  have members : ∀ {ts : List Term} (env : Environment),
      (∀ t ∈ ts, ∀ env : Environment,
        Yields t.evaluable ((t.read : Reader ℚ) env) (t.meaning env.world)) →
      List.Forall₂ (fun (r : Reader ℚ) v => Yields (evaluableAll ts) (r env) v) (readAll ts)
        (meanings ts env.world) := by
    intro ts env ih
    rw [readAll_eq_map, meanings_eq_map, List.forall₂_map_left_iff, List.forall₂_map_right_iff,
      List.forall₂_same]
    rw [evaluableAll_eq]
    exact fun t ht => (ih t ht env).mono fun h => List.all_eq_true.mp h t ht
  have numbers : ∀ {ts : List Term} (env : Environment),
      (∀ t ∈ ts, ∀ env : Environment,
        Yields t.evaluable ((t.read : Reader ℚ) env) (t.meaning env.world)) →
      List.Forall₂ (fun (r : Reader ℚ) n => Yields (evaluableAll ts) (r.number? env) (optional n))
        (readAll ts) ((meanings ts env.world).map Scalar.toNumber) := by
    intro ts env ih
    rw [List.forall₂_map_right_iff]
    exact (members env ih).imp fun _ _ h => Reader.yields_number? h
  induction t using Term.induct generalizing env with
  | sum vars body ih =>
      have hbody : ∀ env : Environment, Yields body.evaluable (body.read.number? env)
          (optional (body.number env.world)) := fun env => Reader.yields_number? (ih env)
      exact yields_asScalar (Reader.yields_summation hbody vars body env)
  | add ts ih => exact yields_asScalar (Reader.yields_addition (numbers env ih))
  | mul ts ih =>
      have := Reader.yields_productFrom (numbers env ih) one_ne_zero false
      simp only [Bool.false_eq_true, if_false, WithTop.coe_one, one_mul] at this
      rw [← Arithmetic.one_rat] at this
      exact yields_asScalar this
  | neg t ih | squash t ih =>
      refine yields_asScalar (Reader.yields_test (fun q => ?_) (Reader.yields_number? (ih env)))
      simp [Arithmetic.indicator, Arithmetic.isZero, Arithmetic.zero_rat, Arithmetic.one_rat]
  | pred kind ts ih =>
      have hlength : (readAll ts : List (Reader ℚ)).length = ts.length := by
        rw [readAll_eq_map, List.length_map]
      have := Reader.yields_predicate kind ts (members env ih) hlength
      refine (this.mono ?_).bind (.inl ?_)
      · simp [evaluable, or_iff_not_imp_left]
      · simp only [Arithmetic.indicator, Arithmetic.zero_rat, Arithmetic.one_rat]
        rfl
  | var v =>
      cases v with
      | base x => exact .inr ⟨Bool.false_ne_true, rfl⟩
      | proj attr x =>
          refine .inl ?_
          simp only [read, meaning, Environment.cell?_world, Option.map_map, Scalar.ofDatum_eq]
          rfl
  | const q | str s => exact .inl rfl
  | table name v =>
      refine .inl ?_
      cases v with
      | base x =>
          simp only [read, Reader.membership_exact, meaning]
          cases env.world.tuples x <;> rfl
      | proj attr x => rfl
  | func name ts ih =>
      refine ((Reader.yields_application name (members env ih)).mono ?_).bind (.inl rfl)
      simp [evaluable, or_iff_not_imp_left, Option.isSome_iff_ne_none]

theorem yields_number? (t : Term) (env : Environment) :
    Yields t.evaluable ((t.read : Reader ℚ).number? env) (optional (t.number env.world)) :=
  Reader.yields_number? (t.yields_read env)

/-- A number that is read in exact arithmetic is the one that the term stands for. -/
theorem number_of_exact {t : Term} {q : ℚ} (hq : t.read.number? env = .ok (some q)) :
    t.number env.world = q := by
  have hn := (t.yields_number? env).eq_of_ok hq
  cases hnumber : t.number env.world with
  | top =>
      rw [hnumber] at hn
      cases hn
  | coe n =>
      rw [hnumber] at hn
      cases hn
      rfl

/-- The value of a term over a database is its number in the world of the database, unless it takes
forever to read it. -/
theorem yields_valueOver (t : Term) (db : Database) (schemas : SchemaMap) (output : String) :
    Yields t.evaluable (t.valueOver db schemas output : Except Fault (Option ℚ))
      (optional (t.number (Environment.ofDatabase db schemas output).world)) :=
  t.yields_number? _

end Term

end BagEquiv
