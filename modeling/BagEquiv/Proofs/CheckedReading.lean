/-
**Checked arithmetic gives exact values.**

A term is read in the same steps whatever the numbers are.  In checked arithmetic a step may
overflow, and then nothing is said.  Otherwise every number that comes up stands for the number of
exact arithmetic, as long as the fractions in the term and in the rows have positive denominators
and no row occurs more often than a signed word can count.

Main definition:

* `Tracks` — a computation that succeeds gives what another one gives, up to a relation.

Main result:

* `Term.number_of_checked` — **a number that is read in checked arithmetic is the number
  that the term stands for**.
-/

import BagEquiv.Proofs.Stripping

set_option autoImplicit false

namespace BagEquiv

/-! ### Computations that follow others -/

/-- If the first computation succeeds then so does the second, with a related result. -/
def Tracks {α β : Type} (rel : α → β → Prop) (a : Except Fault α) (b : Except Fault β) : Prop :=
  ∀ x, a = .ok x → ∃ y, b = .ok y ∧ rel x y

namespace Tracks

variable {α β γ δ : Type} {rel : α → β → Prop} {rel' : γ → δ → Prop}

theorem ok {x : α} {y : β} (h : rel x y) : Tracks rel (.ok x) (.ok y) := by
  rintro _ ⟨⟩
  exact ⟨y, rfl, h⟩

/-- Steps that are tracked can be made in turn. -/
theorem bind {a : Except Fault α} {b : Except Fault β} {f : α → Except Fault γ}
    {g : β → Except Fault δ} (h : Tracks rel a b)
    (hf : ∀ x y, rel x y → Tracks rel' (f x) (g y)) : Tracks rel' (a >>= f) (b >>= g) := by
  intro z hz
  obtain ⟨x, hx, hz⟩ := Fault.ok_of_bind hz
  obtain ⟨y, rfl, hxy⟩ := h x hx
  exact hf x y hxy z hz

theorem of_eq {a b : Except Fault α} (h : ∀ x, a = .ok x → b = .ok x) : Tracks Eq a b :=
  fun x hx => ⟨x, h x hx, rfl⟩

end Tracks

/-! ### Numbers -/

namespace Fraction

/-- The fraction, with a positive denominator, stands for the number. -/
structure Stands (p : Fraction) (q : ℚ) : Prop where
  value : q = p.toRat
  positive : p.Positive

theorem Positive.stands {p : Fraction} (h : p.Positive) : p.Stands (Arithmetic.ofFraction p) :=
  ⟨rfl, h⟩

theorem stands_zero : (Arithmetic.zero : Fraction).Stands Arithmetic.zero :=
  (positive_ofWord 0).stands

theorem stands_one : (Arithmetic.one : Fraction).Stands Arithmetic.one := (positive_ofWord 1).stands

theorem stands_indicator (b : Bool) :
    (Arithmetic.indicator b : Fraction).Stands (Arithmetic.indicator b) := by
  cases b
  · exact stands_zero
  · exact stands_one

/-- A multiplicity that is not too large for a signed word. -/
theorem stands_ofCount {n : UInt64} (h : n.toNat < 2 ^ 63) :
    (Arithmetic.ofCount n : Fraction).Stands (Arithmetic.ofCount n) := by
  refine ⟨?_, positive_ofWord _⟩
  -- Below that bound the sign bit is not set.
  have hword : n.toInt64.toInt = n.toNat := by
    change n.toBitVec.toInt = n.toNat
    rw [BitVec.toInt_eq_toNat_of_lt (by change 2 * n.toNat < _; omega)]
    rfl
  change (n.toNat : ℚ) = (ofWord n.toInt64).toRat
  rw [toRat_ofWord, hword, Int.cast_natCast]

namespace Stands

variable {p p' : Fraction} {q q' : ℚ}

theorem isZero (h : p.Stands q) : Arithmetic.isZero p = Arithmetic.isZero q := by
  change p.isZero = (q == 0)
  rw [Bool.eq_iff_iff, isZero_iff, beq_iff_eq, h.value]

/-- Fractions with positive denominators compare as the numbers do. -/
theorem compare (h : p.Stands q) (h' : p'.Stands q') :
    Tracks Eq (Arithmetic.compare p p') (Arithmetic.compare q q') := by
  refine .of_eq fun o ho => ?_
  change Checked.compare p p' = .ok o at ho
  unfold Checked.compare at ho
  split at ho
  · rw [compare_of_positive h.positive h'.positive, ← h.value, ← h'.value] at ho
    exact ho
  · cases ho

theorem add (h : p.Stands q) (h' : p'.Stands q') :
    Tracks Stands (Arithmetic.add p p') (Arithmetic.add q q') := fun _ hr =>
  ⟨_, rfl, by rw [(add_ok hr).1, h.value, h'.value], (add_ok hr).2⟩

theorem sub (h : p.Stands q) (h' : p'.Stands q') :
    Tracks Stands (Arithmetic.sub p p') (Arithmetic.sub q q') := fun _ hr =>
  ⟨_, rfl, by rw [(sub_ok hr).1, h.value, h'.value], (sub_ok hr).2⟩

theorem mul (h : p.Stands q) (h' : p'.Stands q') :
    Tracks Stands (Arithmetic.mul p p') (Arithmetic.mul q q') := fun _ hr =>
  ⟨_, rfl, by rw [(mul_ok hr).1, h.value, h'.value], (mul_ok hr).2⟩

theorem div (h : p.Stands q) (h' : p'.Stands q') (hzero : p'.isZero = false) :
    Tracks Stands (Arithmetic.div p p') (Arithmetic.div q q') := fun _ hr =>
  ⟨_, rfl, by rw [(div_ok hzero hr).1, h.value, h'.value], (div_ok hzero hr).2⟩

theorem neg (h : p.Stands q) : Tracks Stands (Arithmetic.neg p) (Arithmetic.neg q) := by
  intro r hr
  obtain ⟨n, hn, hr⟩ := Fault.ok_of_bind hr
  cases hr
  refine ⟨-q, rfl, ?_, h.positive⟩
  rw [toRat_eq, Word.cast_of_neg hn, neg_div, ← toRat_eq, h.value]

end Stands

/-- A loop is tracked if its steps are. -/
theorem foldlM_tracks {f : Fraction → Fraction → Except Fault Fraction}
    {g : ℚ → ℚ → Except Fault ℚ}
    (hfg : ∀ {p p' q q'}, Stands p q → Stands p' q' → Tracks Stands (f p p') (g q q'))
    {ps : List Fraction} {qs : List ℚ} (h : List.Forall₂ Stands ps qs) {p : Fraction} {q : ℚ}
    (hp : p.Stands q) : Tracks Stands (ps.foldlM f p) (qs.foldlM g q) := by
  induction h generalizing p q with
  | nil => exact .ok hp
  | cons hhead _ ih =>
      rw [List.foldlM_cons, List.foldlM_cons]
      exact (hfg hp hhead).bind fun _ _ h => ih h

end Fraction

/-! ### Scalars -/

/-- A scalar for an exact one: a number that stands for a number, or the same text. -/
inductive Scalar.Stands : Scalar Fraction → Scalar ℚ → Prop
  | number {p : Fraction} {q : ℚ} (h : p.Stands q) : Stands (.number p) (.number q)
  | text (s : String) : Stands (.text s) (.text s)

/-- A fraction in a cell has a positive denominator. -/
def Datum.Positive : Datum → Prop
  | .real q => q.Positive
  | _ => True

theorem Datum.Positive.stands {d : Datum} (h : d.Positive) :
    (Scalar.ofDatum d : Scalar Fraction).Stands (Scalar.ofDatum d) := by
  cases d with
  | int n => exact .number (Fraction.positive_ofWord n).stands
  | real q => exact .number (Fraction.Positive.stands h)
  | str s => exact .text s

theorem Scalar.Stands.compare? {a a' : Scalar Fraction} {b b' : Scalar ℚ} (h : a.Stands b)
    (h' : a'.Stands b') : Tracks Eq (a.compare? a') (b.compare? b') := by
  cases h with
  | number h =>
      cases h' with
      | number h' =>
          refine (h.compare h').bind ?_
          rintro o _ rfl
          exact .ok rfl
      | text s => exact .ok rfl
  | text s =>
      cases h' with
      | number h' => exact .ok rfl
      | text s' => exact .ok rfl

theorem Scalar.Stands.number? {a : Option (Scalar Fraction)} {b : Option (Scalar ℚ)}
    (h : Option.Rel Scalar.Stands a b) :
    Option.Rel Fraction.Stands (a.bind Scalar.number?) (b.bind Scalar.number?) := by
  cases h with
  | none => exact .none
  | some h =>
      cases h with
      | number h => exact .some h
      | text s => exact .none

/-! ### Environments -/

/-- A row occurs no more often than the entries of the table say. -/
theorem Table.multiplicity_lt {t : Table} {b : ℕ} (hb : 0 < b)
    (h : ∀ entry ∈ t, entry.2.toNat < b) (r : Row) : (t.multiplicity r).toNat < b := by
  induction t with
  | nil => exact hb
  | cons entry t ih =>
      rw [List.forall_mem_cons] at h
      rw [multiplicity]
      split
      · exact h.1
      · exact ih h.2

namespace Environment

/-- The fractions in the rows have positive denominators, and signed words can count how often the
rows occur. -/
structure InRange (env : Environment) : Prop where
  bound : ∀ x r attr c, env.rows x = some r → r.get? attr = some c → c.value.Positive
  listed : ∀ table, ∀ entry ∈ env.database.table table, entry.2.toNat < 2 ^ 63 ∧
    ∀ attr c, entry.1.get? attr = some c → c.value.Positive

theorem InRange.bind {env : Environment} (h : env.InRange) {table x : String} {r : Row}
    (hr : r ∈ env.database.rows table) : (env.bind x r).InRange where
  bound y r' attr c hr' hc := by
    unfold Environment.bind at hr'
    dsimp only at hr'
    split at hr'
    · cases hr'
      obtain ⟨entry, hentry, rfl⟩ := List.mem_map.mp hr
      exact (h.listed table entry hentry).2 attr c hc
    · exact h.bound y r' attr c hr' hc
  listed := h.listed

/-- A row in no list does not occur, and the others do so less than `2 ^ 63` times. -/
theorem InRange.multiplicity_lt {env : Environment} (h : env.InRange) (table : String) (r : Row) :
    ((env.database.table table).multiplicity r).toNat < 2 ^ 63 :=
  Table.multiplicity_lt (Nat.two_pow_pos 63) (fun entry hentry => (h.listed table entry hentry).1) r

theorem agree_tracks (a b : Row) (columns : List (Column × Column)) :
    Tracks Eq (agree (Arithmetic.sameFraction Fraction) a b columns)
      (agree (Arithmetic.sameFraction ℚ) a b columns) := by
  induction columns with
  | nil => exact .ok rfl
  | cons p columns ih =>
      obtain ⟨c, d⟩ := p
      unfold agree
      split
      · next x y _ _ =>
          have hcell : Tracks Eq (x.sameBy (Arithmetic.sameFraction Fraction) y)
              (x.sameBy (Arithmetic.sameFraction ℚ) y) := by
            refine .of_eq fun same hsame => ?_
            rw [Cell.sameBy_exact,
              ← Cell.same_of_sameBy (fun _ _ _ => Fraction.Checked.same_of_ok) hsame]
            exact congrArg _ (Bool.eq_iff_iff.mpr
              (decide_eq_true_iff.trans (Cell.same_iff_exact x y).symm))
          refine hcell.bind ?_
          rintro same _ rfl
          cases same
          · exact .ok rfl
          · exact ih
      · exact .ok rfl

theorem sameTuple?_tracks (env : Environment) (x y : String) :
    Tracks Eq (env.sameTuple? (Arithmetic.sameFraction Fraction) x y)
      (env.sameTuple? (Arithmetic.sameFraction ℚ) x y) := by
  unfold sameTuple?
  split
  · split
    · exact .ok rfl
    · refine (agree_tracks _ _ _).bind ?_
      rintro same _ rfl
      exact .ok rfl
  · exact .ok rfl

end Environment

/-! ### Readers -/

/-- In environments that are in range, the checked reader follows the exact one. -/
def Reader.Follows (r : Reader Fraction) (r' : Reader ℚ) : Prop :=
  ∀ env : Environment, env.InRange → Tracks (Option.Rel Scalar.Stands) (r env) (r' env)

namespace Reader

variable {r : Reader Fraction} {r' : Reader ℚ} {rs : List (Reader Fraction)}
  {rs' : List (Reader ℚ)} {p : Fraction} {q : ℚ}

/-- An optional number follows another. -/
abbrev NumberTracks : Except Fault (Option Fraction) → Except Fault (Option ℚ) → Prop :=
  Tracks (Option.Rel Fraction.Stands)

variable {env : Environment}

theorem Follows.number? (h : r.Follows r') (henv : env.InRange) :
    NumberTracks (r.number? env) (r'.number? env) :=
  (h env henv).bind fun _ _ h => .ok (Scalar.Stands.number? h)

/-- Summands are added up until one has no value, in both arithmetics. -/
theorem sumFrom_tracks {xs : List (Unit → Except Fault (Option Fraction))}
    {ys : List (Unit → Except Fault (Option ℚ))}
    (h : List.Forall₂ (fun x y => NumberTracks (x ()) (y ())) xs ys) (hp : p.Stands q) :
    NumberTracks (sumFrom p xs) (sumFrom q ys) := by
  induction h generalizing p q with
  | nil => exact .ok (.some hp)
  | cons hhead _ ih =>
      refine hhead.bind fun n m hnm => ?_
      cases hnm with
      | none => exact .ok .none
      | some hnm => exact (hp.add hnm).bind fun _ _ htotal => ih htotal

theorem throughRows_tracks {step : Environment → Fraction → Except Fault (Option Fraction)}
    {step' : Environment → ℚ → Except Fault (Option ℚ)}
    (hstep : ∀ {env' p q}, env'.database = env.database → env'.InRange → Fraction.Stands p q →
      NumberTracks (step env' p) (step' env' q)) (henv : env.InRange) {rows : List (String × Row)}
    (hrows : ∀ d ∈ rows, ∃ table, d.2 ∈ env.database.rows table) (hp : p.Stands q) :
    NumberTracks (throughRows step env rows p) (throughRows step' env rows q) := by
  induction rows generalizing p q with
  | nil => exact .ok (.some hp)
  | cons d rows ih =>
      rw [List.forall_mem_cons] at hrows
      obtain ⟨⟨table, hd⟩, hrows⟩ := hrows
      have hdatabase : (env.bind d.1 d.2).database = env.database := rfl
      refine (hstep hdatabase (henv.bind hd) hp).bind fun n m hnm => ?_
      cases hnm with
      | none => exact .ok .none
      | some hnm => exact ih hrows hnm

theorem throughChoices_tracks (h : r.Follows r') {domains : List (List (String × Row))}
    (henv : env.InRange)
    (hdomains : ∀ rows ∈ domains, ∀ d ∈ rows, ∃ table, d.2 ∈ env.database.rows table)
    {p : Fraction} {q : ℚ} (hp : p.Stands q) :
    NumberTracks (throughChoices r domains env p) (throughChoices r' domains env q) := by
  induction domains generalizing env p q with
  | nil => exact sumFrom_tracks (.cons (h.number? henv) .nil) hp
  | cons rows domains ih =>
      rw [List.forall_mem_cons] at hdomains
      -- The rows that are bound on the way do not change the database the others are taken from.
      refine throughRows_tracks (fun hdb henv' hp' => ih henv' ?_ hp') henv hdomains.1 hp
      rw [hdb]
      exact hdomains.2

/-- A summation goes through the same rows in both arithmetics. -/
theorem summation_tracks (h : r.Follows r') (vars : VarSet) (body : Term) (henv : env.InRange) :
    NumberTracks (summation vars body r env) (summation vars body r' env) := by
  unfold summation
  cases hdomains : vars.toList.mapM (domain? env body) with
  | none => exact .ok .none
  | some domains =>
      dsimp only
      split
      · exact .ok (.some Fraction.stands_zero)
      · refine throughChoices_tracks h henv (fun rows hrows d hd => ?_) Fraction.stands_zero
        obtain ⟨v, _, hv⟩ := mem_of_mapM hdomains rows hrows
        rw [domain?_eq] at hv
        obtain ⟨table, _, rfl⟩ := Option.map_eq_some_iff.mp hv
        obtain ⟨r, hr, rfl⟩ := List.mem_map.mp hd
        exact ⟨table, hr⟩

theorem addition_tracks (h : List.Forall₂ Follows rs rs') (henv : env.InRange) :
    NumberTracks (addition rs env) (addition rs' env) := by
  refine sumFrom_tracks ?_ Fraction.stands_zero
  rw [List.forall₂_map_left_iff, List.forall₂_map_right_iff]
  exact h.imp fun _ _ h => h.number? henv

/-- A product ends early at the same factor, since zero stands for zero only. -/
theorem productFrom_tracks (h : List.Forall₂ Follows rs rs') (henv : env.InRange) (hp : p.Stands q)
    (unknown : Bool) :
    NumberTracks (productFrom env p unknown rs) (productFrom env q unknown rs') := by
  induction h generalizing p q unknown with
  | nil =>
      cases unknown
      · exact .ok (.some hp)
      · exact .ok .none
  | cons hhead _ ih =>
      refine (hhead.number? henv).bind fun n m hnm => ?_
      cases hnm with
      | none =>
          -- A later factor may still be zero.
          exact ih hp true
      | @some n m hnm =>
          dsimp only
          rw [hnm.isZero]
          split
          · exact .ok (.some hnm)
          · exact (hp.mul hnm).bind fun _ _ htotal => ih htotal unknown

theorem test_tracks {condition : Fraction → Bool} {condition' : ℚ → Bool} (h : r.Follows r')
    (hcondition : ∀ {p q}, Fraction.Stands p q → condition p = condition' q) (henv : env.InRange) :
    NumberTracks (r.test condition env) (r'.test condition' env) := by
  refine (h.number? henv).bind fun n m hnm => .ok ?_
  cases hnm with
  | none => exact .none
  | some hnm =>
      rw [Option.map_some, Option.map_some, hcondition hnm]
      exact .some (Fraction.stands_indicator _)

theorem comparison_tracks {kind : Pred} {a b : Reader Fraction} {a' b' : Reader ℚ}
    (ha : a.Follows a') (hb : b.Follows b') (henv : env.InRange) :
    Tracks Eq (comparison kind a b env) (comparison kind a' b' env) := by
  refine (ha env henv).bind fun x x' hx => ?_
  cases hx with
  | none => exact .ok rfl
  | some hx =>
      refine (hb env henv).bind fun y y' hy => ?_
      cases hy with
      | none => exact .ok rfl
      | some hy =>
          refine (hx.compare? hy).bind ?_
          rintro o _ rfl
          exact .ok rfl

/-- Predicates have the same answers, whatever they ask for. -/
theorem predicate_tracks (kind : Pred) (args : List Term) (h : List.Forall₂ Follows rs rs')
    (henv : env.InRange) :
    Tracks Eq (predicate kind args rs env) (predicate kind args rs' env) := by
  -- Which case applies depends on the terms and on how many readers there are, not on the readers.
  fun_cases predicate kind args rs env with
  | case1 | case3 => exact .ok rfl
  | case2 args rs hcolumn =>
      rw [predicate.eq_2 args rs' env hcolumn]
      exact .ok rfl
  | case4 rs kind x y hnull hname =>
      rw [predicate.eq_4 kind rs' env x y hnull hname]
      refine (env.sameTuple?_tracks x y).bind ?_
      rintro same _ rfl
      exact .of_eq fun _ h => h
  | case5 args kind a b hnull hname hcolumn htuples =>
      obtain _ | ⟨ha, _ | ⟨hb, _ | _⟩⟩ := h
      rw [predicate.eq_5 kind args env _ _ hnull hname htuples hcolumn]
      exact comparison_tracks ha hb henv
  | case6 kind args rs hnull hname htuples hcolumn hpair =>
      rw [predicate.eq_6 kind args rs' env hnull hname htuples hcolumn]
      · exact .ok rfl
      · rintro a' b' rfl
        obtain _ | ⟨_, _ | ⟨_, _ | _⟩⟩ := h
        exact hpair _ _ rfl

theorem numbers_tracks (h : List.Forall₂ Follows rs rs') (henv : env.InRange) :
    Tracks (Option.Rel (List.Forall₂ Fraction.Stands)) (numbers env rs) (numbers env rs') := by
  induction h with
  | nil => exact .ok (.some .nil)
  | cons hhead _ ih =>
      refine (hhead.number? henv).bind fun n m hnm => ?_
      cases hnm with
      | none => exact .ok .none
      | some hnm =>
          refine ih.bind fun ns ms hns => .ok ?_
          cases hns with
          | none => exact .none
          | some hns => exact .some (.cons hnm hns)

/-- An operation on numbers is exact where it does not overflow. -/
theorem operate_tracks (op : Operation) {ns : List Fraction} {ms : List ℚ}
    (h : List.Forall₂ Fraction.Stands ns ms) : NumberTracks (operate op ns) (operate op ms) := by
  cases op with
  | plus =>
      unfold operate
      exact (Fraction.foldlM_tracks Fraction.Stands.add h Fraction.stands_zero).bind
        fun _ _ h => .ok (.some h)
  | times =>
      unfold operate
      exact (Fraction.foldlM_tracks Fraction.Stands.mul h Fraction.stands_one).bind
        fun _ _ h => .ok (.some h)
  | divide =>
      match h with
      | .nil | .cons _ .nil | .cons _ (.cons _ (.cons _ _)) => exact .ok .none
      | .cons ha (.cons hb .nil) =>
          unfold operate
          dsimp only
          rw [hb.isZero]
          split
          · exact .ok .none
          · next hzero =>
              rw [← hb.isZero, Bool.not_eq_true] at hzero
              exact (ha.div hb hzero).bind fun _ _ h => .ok (.some h)
  | minus =>
      match h with
      | .nil | .cons _ (.cons _ (.cons _ _)) => exact .ok .none
      | .cons ha .nil => exact ha.neg.bind fun _ _ h => .ok (.some h)
      | .cons ha (.cons hb .nil) => exact (ha.sub hb).bind fun _ _ h => .ok (.some h)

theorem application_tracks (name : String) (h : List.Forall₂ Follows rs rs') (henv : env.InRange) :
    NumberTracks (application name rs env) (application name rs' env) := by
  unfold application
  cases Operation.ofName? name.toLower with
  | none => exact .ok .none
  | some op =>
      refine (numbers_tracks h henv).bind fun ns ms hns => ?_
      cases hns with
      | none => exact .ok .none
      | some hns => exact operate_tracks op hns

/-- Multiplicities in range are not changed by the cast to a signed word. -/
theorem membership_tracks (table : String) (v : Var) (henv : env.InRange) :
    NumberTracks (membership table v env) (membership table v env) := by
  cases v with
  | proj attr x => exact .ok .none
  | base x =>
      unfold membership
      dsimp only
      cases env.rows x with
      | none => exact .ok .none
      | some r =>
          have hcount : Tracks (fun n m => n = m ∧ n.toNat < 2 ^ 63)
              (env.database.multiplicityBy (Arithmetic.sameFraction Fraction) table r)
              (env.database.multiplicityBy (Arithmetic.sameFraction ℚ) table r) := by
            intro n hn
            have hn := Table.multiplicity_of_multiplicityBy
              (fun _ _ _ => Fraction.Checked.same_of_ok) hn
            refine ⟨n, ?_, rfl, hn ▸ henv.multiplicity_lt table r⟩
            rw [Database.multiplicityBy, Table.multiplicityBy_exact, hn]
          refine hcount.bind ?_
          rintro n _ ⟨rfl, hn⟩
          exact .ok (.some (Fraction.stands_ofCount hn))

end Reader

/-! ### Terms -/

namespace Term

theorem asScalar_tracks {n : Except Fault (Option Fraction)} {m : Except Fault (Option ℚ)}
    (h : Reader.NumberTracks n m) :
    Tracks (Option.Rel Scalar.Stands) (asScalar n) (asScalar m) := by
  refine h.bind fun p q hpq => .ok ?_
  cases hpq with
  | none => exact .none
  | some h => exact .some (.number h)

/-- A checked reading follows the exact one. -/
theorem follows_read {t : Term} (h : t.Regular) :
    (t.read : Reader Fraction).Follows (t.read : Reader ℚ) := by
  have members : ∀ {ts : List Term}, AllRegular ts →
      (∀ t ∈ ts, t.Regular → (t.read : Reader Fraction).Follows (t.read : Reader ℚ)) →
      List.Forall₂ Reader.Follows (readAll ts) (readAll ts) := by
    intro ts h ih
    rw [readAll_eq_map, readAll_eq_map, List.forall₂_map_left_iff, List.forall₂_map_right_iff,
      List.forall₂_same]
    exact fun t ht => ih t ht (allRegular_iff.mp h t ht)
  induction t using Term.induct with
  | sum vars body ih =>
      intro env henv
      exact asScalar_tracks (Reader.summation_tracks (ih h) vars body henv)
  | add ts ih =>
      intro env henv
      exact asScalar_tracks (Reader.addition_tracks (members h ih) henv)
  | mul ts ih =>
      intro env henv
      exact asScalar_tracks
        (Reader.productFrom_tracks (members h ih) henv Fraction.stands_one false)
  | neg t ih =>
      intro env henv
      exact asScalar_tracks (Reader.test_tracks (ih h) Fraction.Stands.isZero henv)
  | squash t ih =>
      intro env henv
      exact asScalar_tracks (Reader.test_tracks (ih h) (fun h => by rw [h.isZero]) henv)
  | pred kind ts ih =>
      intro env henv
      refine (Reader.predicate_tracks kind ts (members h ih) henv).bind ?_
      rintro b _ rfl
      refine .ok ?_
      cases b with
      | none => exact .none
      | some b => exact .some (.number (Fraction.stands_indicator b))
  | var v =>
      intro env henv
      cases v with
      | base x =>
          rintro _ ⟨⟩
      | proj attr x =>
          refine .ok ?_
          cases hc : env.cell? x attr with
          | none => exact .none
          | some c =>
              obtain ⟨r, hr, hc⟩ := Option.bind_eq_some_iff.mp hc
              exact .some (henv.bound x r attr c hr hc).stands
  | const q => exact fun env _ => .ok (.some (.number (Fraction.Positive.stands h)))
  | table name v =>
      intro env henv
      exact asScalar_tracks (Reader.membership_tracks name v henv)
  | func name ts ih =>
      intro env henv
      exact asScalar_tracks (Reader.application_tracks name (members h ih) henv)
  | str s => exact fun env _ => .ok (.some (.text s))

variable {t : Term} {env : Environment}

/-- A number that is read in checked arithmetic is the one that the term stands for, too. -/
theorem number_of_checked (h : t.Regular) (henv : env.InRange) {p : Fraction}
    (hp : t.read.number? env = .ok (some p)) : t.number env.world = (p.toRat : WithTop ℚ) := by
  obtain ⟨m, hm, hpm⟩ := (follows_read h).number? henv (some p) hp
  cases hpm with
  | some hpm => rw [← hpm.value, number_of_exact hm]

end Term

end BagEquiv
