/-
**Values belong to the types of their terms.**

The type of a term is that of its formula: whole numbers are closed under sums and products, but a
quotient is real, and so is whatever is made with it.  Where the rows of a database conform to the
schemas of the tuples, a term has values of its type.  For a summation this is an assumption about
its body: a summation is taken to be an integer, which it is if its body is not real.

Main definition:

* `SymbolType.Admits` — the values of a type.

Main result:

* `Term.admits_meaning` — **a term whose summations have no real bodies stands for a value
  of its type**.
-/

import Mathlib.Algebra.Ring.Subring.Basic
import BagEquiv.Proofs.EncodingSoundness
import BagEquiv.Proofs.Translatability

set_option autoImplicit false

namespace BagEquiv

/-! ### Values of types -/

/-- The scalar is a value of the type. -/
def SymbolType.Admits : SymbolType → Scalar ℚ → Prop
  | .int, s => ∃ n : ℤ, s = .number n
  | .nat, s => ∃ n : ℕ, s = .number n
  | .real, s => ∃ q : ℚ, s = .number q
  | .char, s => ∃ text : String, s = .text text
  | .str, s => ∃ text : String, s = .text text

/-- The number is an integer, if there is one. -/
def Whole (n : WithTop ℚ) : Prop := ∀ q : ℚ, n = q → q ∈ (Int.castRingHom ℚ).range

namespace Whole

theorem intCast (k : ℤ) : Whole ((k : ℚ) : WithTop ℚ) := by
  intro q hq
  exact ⟨k, WithTop.coe_injective hq⟩

theorem top : Whole ⊤ := fun _ hq => absurd hq WithTop.top_ne_coe

theorem add {a b : WithTop ℚ} (ha : Whole a) (hb : Whole b) : Whole (a + b) := by
  intro q hq
  obtain ⟨x, y, rfl, rfl, rfl⟩ := WithTop.add_eq_coe.mp hq
  exact add_mem (ha x rfl) (hb y rfl)

/-- A product of whole numbers is whole; a factor of zero absorbs a number that is missing. -/
theorem mul {a b : WithTop ℚ} (ha : Whole a) (hb : Whole b) : Whole (a * b) := by
  by_cases ha0 : a = 0
  · rw [ha0, zero_mul]
    exact intCast 0
  by_cases hb0 : b = 0
  · rw [hb0, mul_zero]
    exact intCast 0
  cases a with
  | top =>
      rw [WithTop.top_mul hb0]
      exact top
  | coe x =>
      cases b with
      | top =>
          rw [WithTop.mul_top ha0]
          exact top
      | coe y =>
          intro q hq
          rw [← WithTop.coe_mul] at hq
          exact WithTop.coe_injective hq ▸ mul_mem (ha x rfl) (hb y rfl)

theorem sum {ns : List (WithTop ℚ)} (h : ∀ n ∈ ns, Whole n) : Whole ns.sum := by
  induction ns with
  | nil => exact intCast 0
  | cons n ns ih =>
      rw [List.forall_mem_cons] at h
      rw [List.sum_cons]
      exact h.1.add (ih h.2)

theorem prod {ns : List (WithTop ℚ)} (h : ∀ n ∈ ns, Whole n) : Whole ns.prod := by
  induction ns with
  | nil => exact intCast 1
  | cons n ns ih =>
      rw [List.forall_mem_cons] at h
      rw [List.prod_cons]
      exact h.1.mul (ih h.2)

end Whole

namespace SymbolType

/-- A number of a type that is not real is an integer. -/
theorem Admits.mem_range {type : SymbolType} {q : ℚ} (h : type.Admits (.number q))
    (htype : type ≠ .real) : q ∈ (Int.castRingHom ℚ).range := by
  cases type with
  | int =>
      obtain ⟨n, hn⟩ := h
      exact ⟨n, (Scalar.number.inj hn).symm⟩
  | nat =>
      obtain ⟨n, hn⟩ := h
      exact ⟨n, by simp [Scalar.number.inj hn]⟩
  | real => exact absurd rfl htype
  | char | str =>
      obtain ⟨text, htext⟩ := h
      cases htext

theorem whole_of_admits {type : SymbolType} {m : Option (Scalar ℚ)}
    (h : ∀ s, m = some s → type.Admits s) (htype : type ≠ .real) : Whole (Scalar.toNumber m) := by
  intro q hq
  exact (h _ (Scalar.toNumber_eq_coe.mp hq)).mem_range htype

/-- A number of the type of numbers that are real or whole. -/
theorem admits_numberType {real : Bool} {q : ℚ}
    (h : real = false → q ∈ (Int.castRingHom ℚ).range) :
    (Vocabulary.numberType real).Admits (.number q) := by
  cases real with
  | true => exact ⟨q, rfl⟩
  | false =>
      obtain ⟨n, rfl⟩ := h rfl
      exact ⟨n, rfl⟩

theorem admits_ofNumber {real : Bool} {n : WithTop ℚ} (h : real = false → Whole n)
    {s : Scalar ℚ} (hs : Scalar.ofNumber n = some s) :
    (Vocabulary.numberType real).Admits s := by
  obtain ⟨q, hq, rfl⟩ := Scalar.ofNumber_eq_some.mp hs
  exact admits_numberType fun hreal => h hreal q hq

end SymbolType

/-- A cell of a conforming row has a value of the type of its column. -/
theorem Datum.HasType.admits_scalar : ∀ {type : DataType} {d : Datum}, d.HasType type →
    (SymbolType.ofDataType type).Admits d.exact.scalar
  | .integer, .int n, _ | .real, .int n, _ => ⟨n.toInt, rfl⟩
  | .natural, .int n, h => ⟨n.toInt.toNat, by
      rw [← Int.cast_natCast, Int.toNat_of_nonneg h]
      rfl⟩
  | .real, .real q, _ => ⟨q.toRat, rfl⟩
  | .string, .str s, _ | .char, .str s, _ => ⟨s, rfl⟩

/-! ### Worlds with typed rows -/

/-- The cells of the row have values of the types of their columns. -/
def ExactRow.Typed (schema : Option Schema) (r : ExactRow) : Prop :=
  ∀ attr c, r attr = some c → (columnType schema attr).Admits c.value.scalar

theorem Row.Conforms.typed {S : Schema} {r : Row} (h : r.Conforms S) :
    r.exact.Typed (some S) := by
  intro attr c hc
  obtain ⟨c₀, hc₀, rfl⟩ := Option.map_eq_some_iff.mp hc
  obtain ⟨col, hcol, hname⟩ := h.columns _ (NameMap.mem_of_get? hc₀)
  obtain ⟨type, htype⟩ := Option.isSome_iff_exists.mp
    ((S.isSome_typeOf? attr).mpr ⟨col, hcol, hname⟩)
  obtain ⟨col', hcol', rfl, rfl⟩ := Schema.typeOf?_eq_some htype
  obtain ⟨c₁, hc₁, hvalue⟩ := h.values col' hcol'
  cases hc₀.symm.trans hc₁
  rw [columnType, Option.bind_some, htype]
  exact hvalue.admits_scalar

namespace World

/-- The rows of the bound tuples, and those that the variables of the term range over, have cells of
the types of their columns, there are no placeholders, and no summation of the term has a real
body. -/
structure Hosts (S : SchemaMap) (w : World) (t : Term) : Prop where
  tuples : ∀ x r, w.tuples x = some r → r.Typed (S.get? x)
  ranges : ∀ b ∈ t.boundVars, ∀ table ∈ b.table, ∀ r ∈ w.rows table, r.Typed (S.get? b.var.tuple)
  placeholders : ∀ x, w.placeholders x = none
  bodies : t.everyBody S.isDiscrete = true

variable {S : SchemaMap} {w : World} {t : Term}

theorem Hosts.bind (h : w.Hosts S t) {x : String} {r : ExactRow} (hr : r.Typed (S.get? x)) :
    (w.bind x r).Hosts S t := by
  refine ⟨fun y q hq => ?_, h.ranges, h.placeholders, h.bodies⟩
  by_cases hy : y = x
  · subst hy
    rw [tuples_bind_self] at hq
    exact Option.some.inj hq ▸ hr
  · rw [tuples_bind_of_ne w hy] at hq
    exact h.tuples y q hq

theorem Hosts.child (h : w.Hosts S t) {c : Term} (hc : c ∈ t.children) : w.Hosts S c := by
  have members : ∀ {ts : List Term}, c ∈ ts → (∀ b ∈ ts.flatMap Term.boundVars,
      ∀ table ∈ b.table, ∀ r ∈ w.rows table, r.Typed (S.get? b.var.tuple)) →
      Term.everyBodyAll S.isDiscrete ts = true → w.Hosts S c := by
    intro ts hc hranges hbodies
    rw [Term.everyBodyAll_eq, List.all_eq_true] at hbodies
    exact ⟨h.tuples, fun b hb => hranges b (List.mem_flatMap.mpr ⟨c, hc, hb⟩), h.placeholders,
      hbodies c hc⟩
  have hranges := h.ranges
  cases t with
  | sum vars body =>
      obtain rfl := List.mem_singleton.mp hc
      have hbodies := h.bodies
      rw [Term.everyBody, Bool.and_eq_true] at hbodies
      rw [Term.boundVars_sum] at hranges
      exact ⟨h.tuples, fun b hb => hranges b (List.mem_append_right _ hb), h.placeholders,
        hbodies.2⟩
  | add ts | mul ts | pred _ ts | func _ ts =>
      exact members hc (Term.flatten_nodes_forestAll ts ▸ hranges) h.bodies
  | neg t | squash t =>
      obtain rfl := List.mem_singleton.mp hc
      exact ⟨h.tuples, hranges, h.placeholders, h.bodies⟩
  | var | const | table | str => exact absurd hc List.not_mem_nil

/-- The rows that a variable of a summation ranges over. -/
theorem Hosts.range {vars : VarSet} {body : Term} (h : w.Hosts S (.sum vars body)) {v : Var}
    (hv : v ∈ vars) {table : String} (htable : body.tableOf? v.tuple = some table)
    {r : ExactRow} (hr : r ∈ w.rows table) : r.Typed (S.get? v.tuple) := by
  refine h.ranges ⟨v, body.tableOf? v.tuple⟩ ?_ table htable r hr
  rw [Term.boundVars_sum]
  exact List.mem_append_left _ (OpenSum.mem_ofBinder_self hv)

/-- A summation over fewer variables. -/
theorem Hosts.erase {vars : VarSet} {body : Term} (h : w.Hosts S (.sum vars body)) (v : Var) :
    w.Hosts S (.sum (vars.erase v) body) := by
  have hranges := h.ranges
  rw [Term.boundVars_sum, List.forall_mem_append] at hranges
  refine ⟨h.tuples, ?_, h.placeholders, h.bodies⟩
  rw [Term.boundVars_sum, List.forall_mem_append]
  refine ⟨fun b hb => hranges.1 b ?_, hranges.2⟩
  obtain ⟨hvar, htable⟩ := OpenSum.mem_ofBinder.mp hb
  exact OpenSum.mem_ofBinder.mpr ⟨(VarSet.mem_erase.mp hvar).1, htable⟩

theorem Hosts.body_ne_real {vars : VarSet} {body : Term} (h : w.Hosts S (.sum vars body)) :
    S.vocabulary.type body ≠ .real := by
  have hbodies := h.bodies
  rw [Term.everyBody, Bool.and_eq_true] at hbodies
  exact of_decide_eq_true hbodies.1

/-- A sum over choices of rows is whole if its summands are. -/
theorem whole_total {f : World → WithTop ℚ} {P : World → Prop} (hf : ∀ w, P w → Whole (f w))
    {ranges : List (String × List ExactRow)}
    (hranges : ∀ range ∈ ranges, ∀ r ∈ range.2, ∀ w, P w → P (w.bind range.1 r)) (hw : P w) :
    Whole (w.total f ranges) := by
  induction ranges generalizing w with
  | nil => exact hf w hw
  | cons range ranges ih =>
      rw [List.forall_mem_cons] at hranges
      rw [total]
      refine Whole.sum fun n hn => ?_
      obtain ⟨r, hr, rfl⟩ := List.mem_map.mp hn
      exact ih hranges.2 (hranges.1 r hr w hw)

/-- A summation is whole if its body is, whatever rows its variables are bound to. -/
theorem Hosts.whole_summation {vars : VarSet} {body : Term} {f : World → WithTop ℚ}
    (h : w.Hosts S (.sum vars body)) (hf : ∀ w : World, w.Hosts S (.sum vars body) → Whole (f w)) :
    Whole (w.summation vars body f) := by
  unfold summation
  split
  · refine whole_total hf (fun range hrange r hr w' hw' => ?_) h
    obtain ⟨v, hv, rfl⟩ := List.mem_map.mp hrange
    refine hw'.bind ?_
    cases htable : body.tableOf? v.tuple with
    | none =>
        rw [htable] at hr
        exact absurd hr List.not_mem_nil
    | some table =>
        rw [htable] at hr
        exact h.range hv htable hr
  · exact Whole.top

end World

/-! ### Terms -/

namespace Term

/-- A term whose formula is the constant zero is zero, and one whose formula is the constant one is
one. -/
theorem number_of_vanishes (w : World) {t : Term} (h : t.vanishes = true) : t.number w = 0 := by
  induction t using Term.induct with
  | mul ts ih =>
      rw [vanishes] at h
      have hprod : ((meanings ts w).map Scalar.toNumber).prod = 0 := by
        induction ts with
        | nil => cases h
        | cons t ts ihs =>
            rw [List.forall_mem_cons] at ih
            rw [vanishesAny, Bool.or_eq_true] at h
            rw [meanings, List.map_cons, List.prod_cons]
            rcases h with h | h
            · have hzero : Scalar.toNumber (t.meaning w) = 0 := ih.1 h
              rw [hzero, zero_mul]
            · rw [ihs ih.2 h, mul_zero]
      rw [number, meaning, hprod]
      rfl
  | const q =>
      rw [vanishes] at h
      rw [number, meaning, Scalar.toNumber_number, (Fraction.isZero_iff q).mp h]
      rfl
  | sum | add | neg | squash | pred | var | table | func | str => cases h

theorem number_of_isUnit (w : World) {t : Term} (h : t.isUnit = true) : t.number w = 1 := by
  unfold isUnit at h
  split at h
  · next q =>
      rw [number, meaning, Scalar.toNumber_number, (Fraction.isOne_iff q).mp h]
      rfl
  · cases h

theorem anyReal_eq_false {v : Vocabulary} {ts : List Term} (h : v.anyReal ts = false) :
    ∀ t ∈ ts, v.type t ≠ .real := by
  induction ts with
  | nil => simp
  | cons t ts ih =>
      rw [Vocabulary.anyReal, Bool.or_eq_false_iff, decide_eq_false_iff_not] at h
      exact List.forall_mem_cons.mpr ⟨h.1, ih h.2⟩

theorem anyRealFactor_eq_false {v : Vocabulary} {ts : List Term} (h : v.anyRealFactor ts = false) :
    ∀ t ∈ ts, t.isUnit = true ∨ v.type t ≠ .real := by
  induction ts with
  | nil => simp
  | cons t ts ih =>
      rw [Vocabulary.anyRealFactor, Bool.or_eq_false_iff, Bool.and_eq_false_iff,
        Bool.not_eq_false', decide_eq_false_iff_not] at h
      exact List.forall_mem_cons.mpr ⟨h.1, ih h.2⟩

/-- Operations other than division have whole results for whole numbers. -/
theorem result?_mem_range {op : Operation} {ns : List ℚ} {q : ℚ}
    (hns : ∀ n ∈ ns, n ∈ (Int.castRingHom ℚ).range) (hop : ¬(op = .divide ∧ ns.length = 2))
    (h : op.result? ns = some q) : q ∈ (Int.castRingHom ℚ).range := by
  unfold Operation.result? at h
  split at h
  · exact absurd ⟨rfl, rfl⟩ hop
  · cases h
    simp only [List.forall_mem_cons] at hns
    exact sub_mem hns.1 hns.2.1
  · cases h
    exact neg_mem (hns _ (List.mem_singleton.mpr rfl))
  · cases h
    exact list_sum_mem hns
  · cases h
    exact list_prod_mem hns
  · cases h

/-- A function has a value of its type if its arguments have. -/
theorem admits_applied? {S : SchemaMap} {w : World} {name : String} {ts : List Term} {q : ℚ}
    (hts : ∀ t ∈ ts, ∀ s, t.meaning w = some s → (S.vocabulary.type t).Admits s)
    (h : World.applied? name (meanings ts w) = some q) :
    (S.vocabulary.type (.func name ts)).Admits (.number q) := by
  obtain ⟨op, hop, h⟩ := Option.bind_eq_some_iff.mp h
  obtain ⟨ns, hns, h⟩ := Option.bind_eq_some_iff.mp h
  have hlength := Encoder.length_of_mapM hns
  rw [meanings_eq_map, List.length_map] at hlength
  have hcounting : ¬isCounting name.toLower = true := by
    intro hcounting
    cases hop.symm.trans (Encoder.ofName?_of_isCounting hcounting)
  rw [Vocabulary.type, Vocabulary.funcType, if_neg hcounting]
  refine SymbolType.admits_numberType fun hreal => ?_
  rw [Bool.or_eq_false_iff, Bool.or_eq_false_iff] at hreal
  obtain ⟨⟨hargs, -⟩, hdivide⟩ := hreal
  refine result?_mem_range (fun n hn => ?_) ?_ h
  · obtain ⟨m, hm, hnumber⟩ := Reader.mem_of_mapM hns n hn
    rw [meanings_eq_map] at hm
    obtain ⟨t, ht, rfl⟩ := List.mem_map.mp hm
    obtain ⟨s, hs, hnumber⟩ := Option.bind_eq_some_iff.mp hnumber
    cases s with
    | text => cases hnumber
    | number p =>
        cases hnumber
        exact (hts t ht _ hs).mem_range (anyReal_eq_false hargs t ht)
  · rintro ⟨rfl, hlen⟩
    rw [hop, ← hlength, hlen] at hdivide
    cases hdivide

/-- A product is whole if it vanishes, or if its factors other than one are whole. -/
theorem whole_prod {v : Vocabulary} {w : World} {ts : List Term}
    (hreal : (!vanishesAny ts && v.anyRealFactor ts) = false)
    (hts : ∀ t ∈ ts, v.type t ≠ .real → Whole (t.number w)) :
    Whole ((meanings ts w).map Scalar.toNumber).prod := by
  rw [Bool.and_eq_false_iff, Bool.not_eq_false'] at hreal
  rcases hreal with hzero | hreal
  · have hnumber : (Term.mul ts).number w = 0 := number_of_vanishes w hzero
    rw [number, meaning, Scalar.toNumber_ofNumber] at hnumber
    rw [hnumber]
    exact .intCast 0
  · refine Whole.prod fun n hn => ?_
    rw [meanings_eq_map, List.map_map] at hn
    obtain ⟨t, ht, rfl⟩ := List.mem_map.mp hn
    rcases anyRealFactor_eq_false hreal t ht with hunit | htype
    · exact (congrArg Whole (number_of_isUnit w hunit)).mpr (.intCast 1)
    · exact hts t ht htype

/-- A term whose summations have no real bodies stands for a value of its type. -/
theorem admits_meaning {S : SchemaMap} {w : World} {t : Term} (h : w.Hosts S t) :
    ∀ s, t.meaning w = some s → (S.vocabulary.type t).Admits s := by
  intro s hs
  induction t using Term.induct generalizing w s with
  | sum vars body ih =>
      rw [meaning] at hs
      refine SymbolType.admits_ofNumber (fun _ => h.whole_summation fun w' hw' => ?_ :
        false = false → _) hs
      exact SymbolType.whole_of_admits (ih (hw'.child (List.mem_singleton.mpr rfl)))
        hw'.body_ne_real
  | add ts ih =>
      rw [meaning, meanings_eq_map, List.map_map] at hs
      refine SymbolType.admits_ofNumber (fun hreal => Whole.sum fun n hn => ?_) hs
      obtain ⟨t, ht, rfl⟩ := List.mem_map.mp hn
      exact SymbolType.whole_of_admits (ih t ht (h.child ht)) (anyReal_eq_false hreal t ht)
  | mul ts ih =>
      rw [meaning] at hs
      refine SymbolType.admits_ofNumber (fun hreal => whole_prod hreal fun t ht htype => ?_) hs
      exact SymbolType.whole_of_admits (ih t ht (h.child ht)) htype
  | neg t _ | squash t _ =>
      rw [meaning] at hs
      refine SymbolType.admits_ofNumber (fun _ => ?_ : false = false → _) hs
      cases Scalar.toNumber (t.meaning w) with
      | top => exact Whole.top
      | coe q =>
          rw [WithTop.map_coe]
          split
          · exact .intCast _
          · exact .intCast _
  | pred kind ts _ =>
      rw [meaning] at hs
      obtain ⟨b, _, rfl⟩ := Option.map_eq_some_iff.mp hs
      cases b
      · exact ⟨0, rfl⟩
      · exact ⟨1, rfl⟩
  | var v =>
      cases v with
      | base x =>
          rw [meaning, h.placeholders x] at hs
          cases hs
      | proj attr x =>
          rw [meaning] at hs
          obtain ⟨c, hc, rfl⟩ := Option.map_eq_some_iff.mp hs
          obtain ⟨r, hr, hc⟩ := Option.bind_eq_some_iff.mp hc
          exact h.tuples x r hr attr c hc
  | const q =>
      cases hs
      refine SymbolType.admits_numberType fun hwhole => ⟨q.num.toInt, ?_⟩
      rw [Bool.not_eq_false', Fraction.isWhole, beq_iff_eq] at hwhole
      simp [Fraction.toRat, hwhole]
  | table name v =>
      cases v with
      | base x =>
          rw [meaning] at hs
          obtain ⟨r, _, rfl⟩ := Option.map_eq_some_iff.mp hs
          exact ⟨w.count name r, rfl⟩
      | proj attr x => cases hs
  | func name ts ih =>
      rw [meaning] at hs
      obtain ⟨q, hq, rfl⟩ := Option.map_eq_some_iff.mp hs
      exact admits_applied? (fun t ht => ih t ht (h.child ht)) hq
  | str text =>
      cases hs
      exact ⟨text, rfl⟩

/-! ### Parts of terms, row by row -/

/-- Where reading a term in an environment leads: to the terms one step below, and to what is left
of a summation after one of its variables is bound to a row that it ranges over. -/
inductive Leads (t : Term) (env : Environment) : Term → Environment → Prop
  | self : Leads t env t env
  | child {u c : Term} {env' : Environment} (h : Leads t env u env') (hc : c ∈ u.children) :
      Leads t env c env'
  | row {vars : VarSet} {body : Term} {env' : Environment} {v : Var} {table : String} {r : Row}
      (h : Leads t env (.sum vars body) env') (hv : v ∈ vars)
      (htable : body.tableOf? v.tuple = some table) (hr : r ∈ env'.database.rows table) :
      Leads t env (.sum (vars.erase v) body) (env'.bind v.tuple r)

variable {S : SchemaMap} {t u : Term} {env env' : Environment}

/-- What is known of the rows and of the bodies of summations stays known on the way. -/
theorem Leads.hosts (h : t.Leads env u env') (henv : env.world.Hosts S t) :
    env'.world.Hosts S u := by
  induction h with
  | self => exact henv
  | child _ hc ih => exact ih.child hc
  | row _ hv htable hr ih =>
      rw [Environment.world_bind]
      exact (ih.bind (ih.range hv htable (List.mem_map_of_mem hr))).erase _

/-- All parts of a term have values of their types, over every choice of rows. -/
theorem Leads.admits (h : t.Leads env u env') (henv : env.world.Hosts S t) {s : Scalar ℚ}
    (hs : u.read env' = .ok (some s)) : (S.vocabulary.type u).Admits s :=
  admits_meaning (h.hosts henv) s ((u.yields_read env').eq_of_ok hs)

end Term

namespace Database

variable {schemas : SchemaMap} {output : String} {ts : List Term} {db : Database}

/-- The rows that the variables of the terms range over, and the output row, have values of the
types of their columns.  They may be listed repeatedly, and any cell may be null. -/
structure Typed (schemas : SchemaMap) (output : String) (ts : List Term) (db : Database) :
    Prop where
  ranged : ∀ b ∈ ts.flatMap Term.boundVars, ∀ table ∈ b.table, ∀ r ∈ db.rows table,
    r.exact.Typed (schemas.get? b.var.tuple)
  output : db.output.exact.Typed (schemas.get? output)

theorem Conforms.typed (h : db.Conforms schemas output ts) : db.Typed schemas output ts where
  ranged b hb table htable r hr := by
    obtain ⟨S, hS, hrows⟩ := h.ranged b hb
    rw [hS]
    exact (hrows table htable r hr).typed
  output := by
    obtain ⟨S, hS, hrow⟩ := h.output
    rw [hS]
    exact hrow.typed

/-- A database with values of the right types hosts terms without real bodies. -/
theorem Typed.hosts (h : db.Typed schemas output ts) {t : Term} (ht : t ∈ ts)
    (hbodies : t.everyBody schemas.isDiscrete = true) :
    (Environment.ofDatabase db schemas output).world.Hosts schemas t := by
  refine ⟨fun x r hr => ?_, fun b hb table htable r hr => ?_, fun _ => rfl, hbodies⟩
  · obtain ⟨row, hrow, rfl⟩ := Option.map_eq_some_iff.mp hr
    obtain ⟨rfl, rfl⟩ := Environment.rows_ofDatabase hrow
    exact h.output
  · obtain ⟨row, hrow, rfl⟩ := List.mem_map.mp hr
    exact h.ranged b (List.mem_flatMap.mpr ⟨t, ht, hb⟩) table htable row hrow

end Database

end BagEquiv
