/-
**Sums in another order.**

Checked sums may overflow in one order and not in another, but two orders that both succeed give the
same fraction: every sum is in lowest terms, so it is determined by its value.  A summation that
goes through its variables in another order therefore has the same outcome, unless one of the two
faults.

Main definition:

* `Like` — two computations have the same outcome, perhaps up to faults.

Main result:

* `Arithmetic.commutes_fraction` — **checked sums of the same fractions that succeed are
  equal**.
-/

import Mathlib.Data.Multiset.Bind
import BagEquiv.Proofs.Binders
import BagEquiv.Proofs.FractionValues
import BagEquiv.Proofs.Meaning

set_option autoImplicit false

namespace BagEquiv

/-! ### Outcomes that agree -/

/-- Two computations have the same outcome.  If `loose`, this is only asked where neither of them
faults. -/
def Like (loose : Prop) {α : Type} (a b : Except Fault α) : Prop :=
  a = b ∨ loose ∧ ((∃ f, a = .error f) ∨ ∃ f, b = .error f)

namespace Like

variable {loose : Prop} {α β : Type} {a b : Except Fault α}

theorem refl (a : Except Fault α) : Like loose a a := .inl rfl

theorem eq (h : Like False a b) : a = b := h.resolve_right fun h => h.1

theorem eq_of_ok (h : Like loose a b) {x y : α} (ha : a = .ok x) (hb : b = .ok y) : x = y := by
  subst ha hb
  rcases h with h | ⟨_, ⟨f, h⟩ | ⟨f, h⟩⟩
  · exact Except.ok.inj h
  · cases h
  · cases h

/-- Two computations with the same outcome that give results unless they never end give the same
one. -/
theorem exists_yields (h : Like loose a b) {c : Prop} {x y : α} (ha : Yields c a x)
    (hb : Yields c b y) : ∃ z, Yields c a z ∧ Yields c b z := by
  rcases ha with ha | ha
  · rcases hb with hb | hb
    · exact ⟨x, .inl ha, .inl (h.eq_of_ok ha hb ▸ hb)⟩
    · exact ⟨x, .inl ha, .inr hb⟩
  · exact ⟨y, .inr ha, hb⟩

theorem of_ok (hloose : loose) (h : ∀ x y, a = .ok x → b = .ok y → x = y) : Like loose a b := by
  cases ha : a with
  | error f => exact .inr ⟨hloose, .inl ⟨f, rfl⟩⟩
  | ok x =>
      cases hb : b with
      | error f => exact .inr ⟨hloose, .inr ⟨f, rfl⟩⟩
      | ok y => exact .inl (congrArg Except.ok (h x y ha hb))

theorem symm (h : Like loose a b) : Like loose b a := by
  rcases h with h | ⟨hloose, h⟩
  · exact .inl h.symm
  · exact .inr ⟨hloose, h.symm⟩

theorem bind (h : Like loose a b) {f g : α → Except Fault β} (hf : ∀ x, Like loose (f x) (g x)) :
    Like loose (a >>= f) (b >>= g) := by
  rcases h with rfl | ⟨hloose, ⟨e, rfl⟩ | ⟨e, rfl⟩⟩
  · cases a with
    | error e => exact refl _
    | ok x => exact hf x
  · exact .inr ⟨hloose, .inl ⟨e, rfl⟩⟩
  · exact .inr ⟨hloose, .inr ⟨e, rfl⟩⟩

end Like

/-! ### Lowest terms -/

namespace Fraction

/-- The numerator and the denominator have no common divisor. -/
def Lowest (q : Fraction) : Prop := q.num.toInt.natAbs.Coprime q.den.toInt.natAbs

theorem coprime_of_reduce {n d : Int64} {q : Fraction} (hd : d.toInt ≠ 0)
    (h : reduce n d = .ok q) : q.Lowest := by
  unfold reduce at h
  split at h
  · cases h
    exact Nat.coprime_one_right _
  · split at h
    · cases h
      exact Nat.coprime_one_right _
    · obtain ⟨g, hg, n', hn, d', hd', h⟩ := Fault.ok_of_bind₃ h
      obtain ⟨hgn, hgd, hpos⟩ := Word.toInt_of_gcd hg
      have hlowest : n'.toInt.natAbs.Coprime d'.toInt.natAbs := by
        rw [Word.toInt_of_narrow hn, Word.toInt_of_narrow hd', Int.tdiv_eq_ediv_of_dvd hgn,
          Int.tdiv_eq_ediv_of_dvd hgd, Word.toInt_of_narrow hg]
        exact Int.gcd_div_gcd_div_gcd (Int.gcd_pos_of_ne_zero_right _ hd)
      split at h
      · obtain ⟨m, hm, e, he, h⟩ := Fault.ok_of_bind₂ h
        obtain ⟨rfl, rfl⟩ := build_ok h
        rwa [Lowest, Word.toInt_of_narrow hm, Word.toInt_of_narrow he, Int.natAbs_neg,
          Int.natAbs_neg]
      · obtain ⟨rfl, rfl⟩ := build_ok h
        exact hlowest

theorem lowest_of_add {a b c : Fraction} (h : a.add b = .ok c) : c.Lowest := by
  unfold add combine at h
  split at h
  · obtain ⟨n, _, h⟩ := Fault.ok_of_bind h
    exact coprime_of_reduce a.toInt_den_ne_zero h
  · obtain ⟨l, hl, _, _, _, _, h⟩ := Fault.ok_of_bind₃ h
    obtain ⟨_, _, _, _, _, _, h⟩ := Fault.ok_of_bind₃ h
    obtain ⟨_, _, hl0⟩ := Word.dvd_of_lcm a.toInt_den_ne_zero b.toInt_den_ne_zero hl
    exact coprime_of_reduce hl0 h

/-- A fraction in lowest terms with a positive denominator is determined by its value. -/
theorem eq_of_toRat_eq {p q : Fraction} (hp : p.Positive) (hq : q.Positive) (hp' : p.Lowest)
    (hq' : q.Lowest) (h : p.toRat = q.toRat) : p = q := by
  rw [toRat_eq, toRat_eq] at h
  obtain ⟨hnum, hden⟩ := Rat.div_int_inj hp hq hp' hq' h
  obtain ⟨n, d, _⟩ := p
  obtain ⟨n', d', _⟩ := q
  obtain rfl : n = n' := Int64.toInt_inj.mp hnum
  obtain rfl : d = d' := Int64.toInt_inj.mp hden
  rfl

end Fraction

/-! ### Orders of summands -/

namespace Arithmetic

/-- Sums of the same numbers that succeed are equal, whatever the order. -/
def Commutes (ν : Type) [Arithmetic ν] : Prop :=
  ∀ {ms ns : List ν} {total a b : ν}, ms.Perm ns → ms.foldlM add total = .ok a →
    ns.foldlM add total = .ok b → a = b

variable {ν : Type} [Arithmetic ν]

/-- Numbers with values that are added up, such that a sum is determined by its value. -/
theorem commutes_of_value (value : ν → ℚ)
    (hadd : ∀ {a b c : ν}, add a b = .ok c → value c = value a + value b)
    (hinj : ∀ {a b c a' b' c' : ν}, add a b = .ok c → add a' b' = .ok c' → value c = value c' →
      c = c') : Commutes ν := by
  have hsum : ∀ {ns : List ν} {total a : ν}, ns.foldlM add total = .ok a →
      value a = value total + (ns.map value).sum := by
    intro ns total a h
    induction ns generalizing total with
    | nil =>
        cases h
        simp
    | cons n ns ih =>
        rw [List.foldlM_cons] at h
        obtain ⟨total', htotal, h⟩ := Fault.ok_of_bind h
        rw [ih h, hadd htotal, List.map_cons, List.sum_cons, add_assoc]
  have hlast : ∀ {ns : List ν} {total a : ν}, ns ≠ [] → ns.foldlM add total = .ok a →
      ∃ m n, add m n = .ok a := by
    intro ns total a hne h
    induction ns generalizing total with
    | nil => exact absurd rfl hne
    | cons n ns ih =>
        rw [List.foldlM_cons] at h
        obtain ⟨total', htotal, h⟩ := Fault.ok_of_bind h
        cases ns with
        | nil =>
            cases h
            exact ⟨total, n, htotal⟩
        | cons => exact ih (List.cons_ne_nil _ _) h
  intro ms ns total a b hperm ha hb
  by_cases hms : ms = []
  · subst hms
    obtain rfl := hperm.nil_eq
    exact Except.ok.inj (ha.symm.trans hb)
  · have hns : ns ≠ [] := fun h => hms (h ▸ hperm).eq_nil
    obtain ⟨_, _, ha'⟩ := hlast hms ha
    obtain ⟨_, _, hb'⟩ := hlast hns hb
    refine hinj ha' hb' ?_
    rw [hsum ha, hsum hb, (hperm.map value).sum_eq]

theorem commutes_rat : Commutes ℚ :=
  commutes_of_value id (fun h => (Except.ok.inj h).symm) fun _ _ h => h

theorem commutes_fraction : Commutes Fraction :=
  commutes_of_value Fraction.toRat (fun h => (Fraction.add_ok h).1)
    fun h h' => Fraction.eq_of_toRat_eq (Fraction.add_ok h).2 (Fraction.add_ok h').2
      (Fraction.lowest_of_add h) (Fraction.lowest_of_add h')

end Arithmetic

namespace Reader

variable {ν : Type} [Arithmetic ν] {loose : Prop} {total : ν}
  {xs ys zs : List (Unit → Except Fault (Option ν))}

/-- A sum has a number if all summands have. -/
theorem forall₂_of_sumFrom_eq_some {n : ν} (h : sumFrom total xs = .ok (some n)) :
    ∃ ns, List.Forall₂ (fun x n => x () = .ok (some n)) xs ns ∧
      ns.foldlM Arithmetic.add total = .ok n := by
  induction xs generalizing total with
  | nil =>
      cases h
      exact ⟨[], .nil, rfl⟩
  | cons x xs ih =>
      rw [sumFrom] at h
      obtain ⟨m, hm, h⟩ := Fault.ok_of_bind h
      cases m with
      | none => cases h
      | some m =>
          obtain ⟨total', htotal, h⟩ := Fault.ok_of_bind h
          obtain ⟨ns, hns, h⟩ := ih h
          refine ⟨m :: ns, .cons hm hns, ?_⟩
          rw [List.foldlM_cons, htotal]
          exact h

/-- Where the summands of one sum have numbers, another sum of alike summands adds up the same
numbers. -/
theorem foldlM_of_sumFrom {ns : List ν} {a : Option ν}
    (h : List.Forall₂ (fun x y => Like loose (x ()) (y ())) xs ys)
    (hns : List.Forall₂ (fun y n => y () = .ok (some n)) ys ns) (ha : sumFrom total xs = .ok a) :
    ∃ n, a = some n ∧ ns.foldlM Arithmetic.add total = .ok n := by
  induction h generalizing total ns with
  | nil =>
      cases hns
      cases ha
      exact ⟨total, rfl, rfl⟩
  | cons hhead _ ih =>
      obtain _ | ⟨hn, hns⟩ := hns
      rw [sumFrom] at ha
      obtain ⟨m, hm, ha⟩ := Fault.ok_of_bind ha
      obtain rfl := hhead.eq_of_ok hm hn
      obtain ⟨total', htotal, ha⟩ := Fault.ok_of_bind ha
      obtain ⟨n, rfl, hn⟩ := ih hns ha
      refine ⟨n, rfl, ?_⟩
      rw [List.foldlM_cons, htotal]
      exact hn

theorem like_sumFrom (h : List.Forall₂ (fun x y => Like loose (x ()) (y ())) xs ys) (total : ν) :
    Like loose (sumFrom total xs) (sumFrom total ys) := by
  induction h generalizing total with
  | nil => exact .refl _
  | cons hhead _ ih =>
      refine hhead.bind fun n => ?_
      cases n with
      | none => exact .refl _
      | some n => exact (Like.refl _).bind fun total => ih total

/-- Sums of alike summands, one of them in another order. -/
theorem like_sumFrom_perm (hν : Arithmetic.Commutes ν) (hloose : loose)
    (h : List.Forall₂ (fun x z => Like loose (x ()) (z ())) xs zs) (hperm : zs.Perm ys)
    (total : ν) : Like loose (sumFrom total xs) (sumFrom total ys) := by
  -- A sum that has a number has only summands with numbers, whatever the order.
  have key : ∀ {xs zs ys : List (Unit → Except Fault (Option ν))} {a : Option ν} {n : ν},
      List.Forall₂ (fun x z => Like loose (x ()) (z ())) xs zs → zs.Perm ys →
      sumFrom total xs = .ok a → sumFrom total ys = .ok (some n) → a = some n := by
    intro xs zs ys a n h hperm ha hb
    obtain ⟨ms, hms, hb⟩ := forall₂_of_sumFrom_eq_some hb
    obtain ⟨ns, hns, hp⟩ := List.perm_comp_forall₂ hperm hms
    obtain ⟨m, rfl, hsum⟩ := foldlM_of_sumFrom h hns ha
    rw [hν hp hsum hb]
  refine .of_ok hloose fun a b ha hb => ?_
  cases b with
  | some n => exact key h hperm ha hb
  | none =>
      cases a with
      | none => rfl
      | some m =>
          obtain ⟨ws, hws, hp⟩ := List.perm_comp_forall₂ hperm.symm h.flip
          exact (key (hws.imp fun _ _ h => Like.symm h) hp hb ha).symm

end Reader

/-! ### Choices of rows -/

namespace Environment

theorem bind_comm (env : Environment) {x y : String} (h : x ≠ y) (r s : Row) :
    (env.bind x r).bind y s = (env.bind y s).bind x r := by
  simp only [bind, mk.injEq, true_and]
  funext n
  by_cases hx : n = x
  · subst hx
    simp [h]
  · simp [hx]

/-- The environment with the given tuples bound to rows, for every choice of rows. -/
def extensions (env : Environment) (rows : String → List Row) (xs : List String) :
    List Environment :=
  (choices (xs.map fun x => (rows x).map fun r => (x, r))).map env.bindAll

variable {rows : String → List Row}

theorem extensions_cons (env : Environment) (x : String) (xs : List String) :
    env.extensions rows (x :: xs) =
      (rows x).flatMap fun r => (env.bind x r).extensions rows xs := by
  rw [extensions, List.map_cons, choices, List.map_flatMap, List.flatMap_map]
  simp only [List.map_map]
  rfl

theorem extensions_eq_nil (env : Environment) {x : String} {xs : List String} (hx : x ∈ xs)
    (h : rows x = []) : env.extensions rows xs = [] := by
  induction xs generalizing env with
  | nil => exact absurd hx List.not_mem_nil
  | cons y xs ih =>
      rw [extensions_cons]
      rcases List.mem_cons.mp hx with rfl | hx
      · rw [h, List.flatMap_nil]
      · exact List.flatMap_eq_nil_iff.mpr fun r _ => ih _ hx

/-- Tuples with different names may be bound in any order. -/
theorem extensions_perm (env : Environment) {xs ys : List String} (h : xs.Perm ys)
    (hnodup : xs.Nodup) : (env.extensions rows xs).Perm (env.extensions rows ys) := by
  induction h generalizing env with
  | nil => exact .refl _
  | cons x _ ih =>
      rw [extensions_cons, extensions_cons]
      exact .flatMap_left _ fun r _ => ih _ (List.nodup_cons.mp hnodup).2
  | swap x y xs =>
      have hne : y ≠ x := fun h => (List.nodup_cons.mp hnodup).1 (h ▸ List.mem_cons_self)
      simp only [extensions_cons, ← Multiset.coe_eq_coe, ← Multiset.coe_bind]
      rw [Multiset.bind_bind]
      simp only [env.bind_comm hne]
  | trans h _ ih ih' => exact (ih env hnodup).trans (ih' env (h.nodup_iff.mp hnodup))

/-- Choices of rows in two environments lead to related ones, where binding a tuple relates the
environments as far as the tuples that are still to come. -/
theorem forall₂_extensions {Q : List String → Environment → Environment → Prop}
    {τ : String → String} {rows' : String → List Row} {xs : List String}
    (hrows : ∀ x ∈ xs, rows' (τ x) = rows x)
    (hbind : ∀ {x ys env env'} (r : Row), x ∈ xs → Q (x :: ys) env env' →
      Q ys (env.bind x r) (env'.bind (τ x) r))
    {env env' : Environment} (h : Q xs env env') :
    List.Forall₂ (Q []) (env.extensions rows xs) (env'.extensions rows' (xs.map τ)) := by
  induction xs generalizing env env' with
  | nil => exact .cons h .nil
  | cons x xs ih =>
      rw [List.forall_mem_cons] at hrows
      rw [List.map_cons, extensions_cons, extensions_cons, hrows.1]
      have heq : List.Forall₂ Eq (rows x) (rows x) := List.forall₂_same.mpr fun _ _ => rfl
      refine List.rel_flatMap heq ?_
      rintro r _ rfl
      exact ih hrows.2 (fun r hx => hbind r (List.mem_cons_of_mem _ hx))
        (hbind r List.mem_cons_self h)

end Environment

/-- The rows that a tuple of a summation ranges over. -/
def Environment.range (env : Environment) (body : Term) (x : String) : List Row :=
  (body.tableOf? x).elim [] env.database.rows

/-- The tuples that a set of variables belongs to. -/
def VarSet.tuples (vars : VarSet) : List String := vars.toList.map Var.tuple

/-- Variables that are tuples have different names. -/
theorem VarSet.nodup_tuples {vars : VarSet} (h : ∀ v ∈ vars.toList, v = .base v.tuple) :
    vars.tuples.Nodup := by
  refine List.Nodup.map_on (fun v hv w hw heq => ?_) vars.nodup
  rw [h v hv, h w hw, heq]

namespace Reader

variable {ν : Type} [Arithmetic ν] {vars : VarSet} {body : Term} (r : Reader ν) (env : Environment)

/-- A summation goes through all choices of rows for its tuples. -/
theorem summation_eq (h : ∀ x ∈ vars.tuples, (body.tableOf? x).isSome) :
    summation vars body r env = sumFrom Arithmetic.zero
      ((env.extensions (env.range body) vars.tuples).map fun e _ => r.number? e) := by
  have hdomains : vars.toList.mapM (domain? env body) =
      some (vars.tuples.map fun x => (env.range body x).map fun r => (x, r)) := by
    rw [VarSet.tuples, List.map_map]
    refine mapM_of_some fun v hv => ?_
    obtain ⟨name, hname⟩ := Option.isSome_iff_exists.mp (h _ (List.mem_map_of_mem hv))
    rw [domain?_eq, hname]
    simp [Environment.range, hname]
  rw [summation, hdomains]
  dsimp only
  split
  · -- An empty table leaves no choice.
    next hempty =>
      obtain ⟨rows, hrows, hnil⟩ := List.any_eq_true.mp hempty
      obtain ⟨x, hx, rfl⟩ := List.mem_map.mp hrows
      rw [env.extensions_eq_nil hx (by simpa using hnil)]
      rfl
  · rw [throughChoices_eq, Environment.extensions, List.map_map (f := env.bindAll)]
    rfl

/-- A summation over a tuple that is in no table has no number. -/
theorem summation_eq_none {x : String} (hx : x ∈ vars.tuples) (h : body.tableOf? x = none) :
    summation vars body r env = .ok none := by
  obtain ⟨v, hv, rfl⟩ := List.mem_map.mp hx
  have hdomain : domain? env body v = none := by rw [domain?_eq, h, Option.map_none]
  rw [summation, mapM_of_none hv hdomain]

end Reader

end BagEquiv
