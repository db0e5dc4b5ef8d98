/-
**Names of tuples do not matter.**

Two terms that differ in the names of tuples only have the same value, if the environments know
under the new names what they knew under the old ones.  Bound tuples may get any names that no other
tuple in their scope has.  The variables of a summation are gone through in the order of their
names, and where the new names change that order, a checked reading of one term may overflow while
that of the other does not.

Main definition:

* `Alike` — **two terms that differ in the names of tuples only**.

Main result:

* `Alike.like_read` — **alike terms stand for the same**.
-/

import BagEquiv.Proofs.CheckedReading
import BagEquiv.Proofs.ReorderedSums
import BagEquiv.Proofs.Translatability

set_option autoImplicit false

namespace BagEquiv

/-! ### Terms with other names -/

theorem Term.bound_iff {x : String} {vars : VarSet} : bound x vars = true ↔ x ∈ vars.tuples := by
  simp [bound, VarSet.tuples]

/-- The variable of the tuple that its tuple is now called. -/
def Var.mapTuple (σ : String → String) : Var → Var
  | .base x => .base (σ x)
  | .proj attr x => .proj attr (σ x)

/-- The tuple occurs in the term where it is not bound. -/
abbrev Term.Free (t : Term) (x : String) : Prop := t.mentions x = true

theorem Term.free_sum {x : String} {vars : VarSet} {body : Term} :
    (Term.sum vars body).Free x ↔ x ∉ vars.tuples ∧ body.Free x := by
  rw [← bound_iff, Term.Free, mentions, Bool.and_eq_true, Bool.not_eq_true', Bool.not_eq_true]

theorem Term.Free.mem_names {t : Term} {x : String} (h : t.Free x) : x ∈ t.names := by
  induction t using Term.induct with
  | sum vars body ih => exact List.mem_append_right _ (ih (free_sum.mp h).2)
  | add ts ih | mul ts ih | pred _ ts ih | func _ ts ih =>
      rw [Free, mentions, mentionsAny_eq, List.any_eq_true] at h
      obtain ⟨t, ht, h⟩ := h
      exact mem_namesAll.mpr ⟨t, ht, ih t ht h⟩
  | neg t ih | squash t ih => exact ih h
  | var v | table _ v => exact List.mem_singleton.mpr (of_decide_eq_true h).symm
  | const | str => cases h

/-- The tuples `xs` that a summation binds are called `xs'`, where `x` becomes `τ x`.  In the body
no other tuple gets one of these names, and tuples that are not bound are called what `σ` says.  If
`loose`, the new names may come in another order. -/
structure Rebinds (loose : Prop) (S S' : SchemaMap) (σ τ : String → String) (xs xs' : List String)
    (body : Term) : Prop where
  names : xs' = xs.map τ ∨ loose ∧ xs'.Nodup ∧ xs'.Perm (xs.map τ)
  apart : ∀ x ∈ xs, ∀ y, body.Free y → τ y = τ x → y = x
  free : ∀ y, body.Free y → y ∉ xs → τ y = σ y
  schemas : ∀ x ∈ xs, S'.get? (τ x) = S.get? x

/-- Two terms differ in the names of tuples only: free ones are called what `σ` says, and bound ones
have the schemas that they had. -/
inductive Alike (loose : Prop) (S S' : SchemaMap) : (String → String) → Term → Term → Prop
  | sum {σ τ : String → String} {vars vars' : VarSet} {body body' : Term}
      (hvars : Rebinds loose S S' σ τ vars.tuples vars'.tuples body)
      (hbody : Alike loose S S' τ body body') :
      Alike loose S S' σ (.sum vars body) (.sum vars' body')
  | add {σ : String → String} {ts ts' : List Term} (hlength : ts.length = ts'.length)
      (h : ∀ {t t' : Term}, (t, t') ∈ ts.zip ts' → Alike loose S S' σ t t') :
      Alike loose S S' σ (.add ts) (.add ts')
  | mul {σ : String → String} {ts ts' : List Term} (hlength : ts.length = ts'.length)
      (h : ∀ {t t' : Term}, (t, t') ∈ ts.zip ts' → Alike loose S S' σ t t') :
      Alike loose S S' σ (.mul ts) (.mul ts')
  | neg {σ : String → String} {t t' : Term} (h : Alike loose S S' σ t t') :
      Alike loose S S' σ (.neg t) (.neg t')
  | squash {σ : String → String} {t t' : Term} (h : Alike loose S S' σ t t') :
      Alike loose S S' σ (.squash t) (.squash t')
  | pred {σ : String → String} {kind : Pred} {ts ts' : List Term}
      (hlength : ts.length = ts'.length)
      (h : ∀ {t t' : Term}, (t, t') ∈ ts.zip ts' → Alike loose S S' σ t t') :
      Alike loose S S' σ (.pred kind ts) (.pred kind ts')
  | var {σ : String → String} {v v' : Var} (h : v' = v.mapTuple σ) :
      Alike loose S S' σ (.var v) (.var v')
  | const {σ : String → String} {q : Fraction} : Alike loose S S' σ (.const q) (.const q)
  | table {σ : String → String} {name : String} {v v' : Var} (h : v' = v.mapTuple σ) :
      Alike loose S S' σ (.table name v) (.table name v')
  | func {σ : String → String} {name : String} {ts ts' : List Term}
      (hlength : ts.length = ts'.length)
      (h : ∀ {t t' : Term}, (t, t') ∈ ts.zip ts' → Alike loose S S' σ t t') :
      Alike loose S S' σ (.func name ts) (.func name ts')
  | str {σ : String → String} {s : String} : Alike loose S S' σ (.str s) (.str s)

/-- Under the name `σ x` the second environment knows what the first one knows under the name `x`,
for the names in question. -/
structure Environment.Renames (σ : String → String) (P : String → Prop) (env env' : Environment) :
    Prop where
  database : env'.database = env.database
  schemas : ∀ x, P x → env'.schemas.get? (σ x) = env.schemas.get? x
  rows : ∀ x, P x → env'.rows (σ x) = env.rows x

namespace Environment.Renames

variable {σ : String → String} {P Q : String → Prop} {env env' : Environment}

theorem mono (h : env.Renames σ P env') (hQ : ∀ x, Q x → P x) : env.Renames σ Q env' :=
  ⟨h.database, fun x hx => h.schemas x (hQ x hx), fun x hx => h.rows x (hQ x hx)⟩

theorem cell?_eq (h : env.Renames σ P env') {x : String} (hx : P x) (attr : String) :
    env'.cell? (σ x) attr = env.cell? x attr := by
  rw [cell?, cell?, h.rows x hx]

theorem sameTuple?_eq (h : env.Renames σ P env')
    (test : Fraction → Fraction → Except Fault Bool) {x y : String} (hx : P x) (hy : P y) :
    env'.sameTuple? test (σ x) (σ y) = env.sameTuple? test x y := by
  simp only [sameTuple?, h.rows x hx, h.rows y hy, h.schemas x hx, h.schemas y hy]

end Environment.Renames

/-! ### Readers -/

namespace Reader

variable {ν : Type} [Arithmetic ν] {loose : Prop} {env env' : Environment}
  {r r' : Reader ν} {rs rs' : List (Reader ν)}

/-- The readers give alike results in the two environments. -/
abbrev AllLike (loose : Prop) (env env' : Environment) : List (Reader ν) → List (Reader ν) → Prop :=
  List.Forall₂ fun r r' => Like loose (r env) (r' env')

omit [Arithmetic ν] in
theorem like_number? (h : Like loose (r env) (r' env')) :
    Like loose (r.number? env) (r'.number? env') := h.bind fun _ => .refl _

theorem like_test (h : Like loose (r env) (r' env')) (condition : ν → Bool) :
    Like loose (r.test condition env) (r'.test condition env') :=
  (like_number? h).bind fun _ => .refl _

theorem like_addition (h : AllLike loose env env' rs rs') :
    Like loose (addition rs env) (addition rs' env') := by
  refine like_sumFrom ?_ _
  rw [List.forall₂_map_left_iff, List.forall₂_map_right_iff]
  exact h.imp fun _ _ h => like_number? h

theorem like_productFrom (h : AllLike loose env env' rs rs') (total : ν) (unknown : Bool) :
    Like loose (productFrom env total unknown rs) (productFrom env' total unknown rs') := by
  induction h generalizing total unknown with
  | nil => exact .refl _
  | cons hhead _ ih =>
      refine (like_number? hhead).bind fun n => ?_
      cases n with
      | none => exact ih total true
      | some n =>
          dsimp only
          split
          · exact .refl _
          · exact (Like.refl _).bind fun total => ih total unknown

theorem like_comparison (kind : Pred) {a b a' b' : Reader ν} (ha : Like loose (a env) (a' env'))
    (hb : Like loose (b env) (b' env')) :
    Like loose (comparison kind a b env) (comparison kind a' b' env') := by
  refine ha.bind fun x => ?_
  cases x with
  | none => exact .refl _
  | some x => exact hb.bind fun y => .refl _

omit [Arithmetic ν] in
theorem like_numbers (h : AllLike loose env env' rs rs') :
    Like loose (numbers env rs) (numbers env' rs') := by
  induction h with
  | nil => exact .refl _
  | cons hhead _ ih =>
      refine (like_number? hhead).bind fun n => ?_
      cases n with
      | none => exact .refl _
      | some n => exact ih.bind fun _ => .refl _

theorem like_application (name : String) (h : AllLike loose env env' rs rs') :
    Like loose (application name rs env) (application name rs' env') := by
  unfold application
  cases Operation.ofName? name.toLower with
  | none => exact .refl _
  | some op => exact (like_numbers h).bind fun _ => .refl _

theorem membership_eq {σ : String → String} {P : String → Prop} (henv : env.Renames σ P env')
    (table : String) {v : Var} (hv : P v.tuple) :
    (membership table (v.mapTuple σ) env' : Except Fault (Option ν)) = membership table v env := by
  cases v with
  | proj attr x => rfl
  | base x =>
      change membership table (.base (σ x)) env' = membership table (.base x) env
      rw [membership, membership, henv.rows x hv, henv.database]

end Reader

/-! ### Alike terms -/

namespace Alike

variable {loose : Prop} {S S' : SchemaMap} {σ : String → String} {t t' : Term} {ts ts' : List Term}

theorem addAll (h : List.Forall₂ (Alike loose S S' σ) ts ts') :
    Alike loose S S' σ (.add ts) (.add ts') := .add h.length_eq (List.forall₂_zip h)

theorem mulAll (h : List.Forall₂ (Alike loose S S' σ) ts ts') :
    Alike loose S S' σ (.mul ts) (.mul ts') := .mul h.length_eq (List.forall₂_zip h)

theorem predAll (kind : Pred) (h : List.Forall₂ (Alike loose S S' σ) ts ts') :
    Alike loose S S' σ (.pred kind ts) (.pred kind ts') := .pred h.length_eq (List.forall₂_zip h)

theorem funcAll (name : String) (h : List.Forall₂ (Alike loose S S' σ) ts ts') :
    Alike loose S S' σ (.func name ts) (.func name ts') := .func h.length_eq (List.forall₂_zip h)

/-- A tuple whose new name no other tuple has is in the same table. -/
theorem tableOf?_eq (h : Alike loose S S' σ t t') {x : String}
    (hx : ∀ y, t.Free y → σ y = σ x → y = x) : t'.tableOf? (σ x) = t.tableOf? x := by
  have member : ∀ {σ : String → String} {ts ts' : List Term},
      List.Forall₂ (fun t t' => (∀ y, t.Free y → σ y = σ x → y = x) →
        t'.tableOf? (σ x) = t.tableOf? x) ts ts' →
      (∀ y, Term.mentionsAny y ts = true → σ y = σ x → y = x) →
      Term.tableOfAny? (σ x) ts' = Term.tableOfAny? x ts := by
    intro σ ts ts' h hx
    induction h with
    | nil => rfl
    | cons hhead _ ih =>
        rw [Term.tableOfAny?, Term.tableOfAny?,
          hhead fun y hy => hx y (by rw [Term.mentionsAny, hy, Bool.true_or]),
          ih fun y hy => hx y (by rw [Term.mentionsAny, hy, Bool.or_true])]
  induction h with
  | mul hlength _ ih => exact member (List.forall₂_iff_zip.mpr ⟨hlength, ih⟩) hx
  | @table σ name v _ h =>
      subst h
      cases v with
      | proj attr y => rfl
      | base y =>
          have hiff : σ y = σ x ↔ y = x := ⟨hx y (decide_eq_true rfl), congrArg σ⟩
          simp only [Var.mapTuple, Term.tableOf?, hiff]
  | sum | add | neg | squash | pred | var | const | func | str => rfl

theorem of_var {v : Var} (h : Alike loose S S' σ (.var v) t') : t' = .var (v.mapTuple σ) := by
  cases h with
  | var h => rw [h]

theorem of_base {y : String} (h : Alike loose S S' σ t (.var (.base y))) :
    ∃ x, t = .var (.base x) ∧ y = σ x := by
  cases h with
  | @var _ v _ hv =>
      cases v with
      | base x => exact ⟨x, rfl, Var.base.inj hv⟩
      | proj => cases hv

theorem of_proj {attr y : String} (h : Alike loose S S' σ t (.var (.proj attr y))) :
    ∃ x, t = .var (.proj attr x) := by
  cases h with
  | @var _ v _ hv =>
      cases v with
      | base => cases hv
      | proj attr' x =>
          obtain ⟨rfl, _⟩ := Var.proj.inj hv
          exact ⟨x, rfl⟩

/-- A predicate of alike arguments. -/
theorem like_predicate {ν : Type} [Arithmetic ν] (kind : Pred) {rs rs' : List (Reader ν)}
    {env env' : Environment}
    (h : List.Forall₂ (Alike loose S S' σ) ts ts') (hr : Reader.AllLike loose env env' rs rs')
    (henv : env.Renames σ (fun x => Term.mentionsAny x ts = true) env') :
    Like loose (Reader.predicate kind ts rs env) (Reader.predicate kind ts' rs' env') := by
  -- Variables come from variables of the same kind, so the same case applies to both lists.
  have hcolumn : (∀ attr x, ts ≠ [.var (.proj attr x)]) →
      ∀ attr y, ts' ≠ [.var (.proj attr y)] := by
    rintro hts attr y rfl
    obtain _ | ⟨ht, _ | _⟩ := h
    obtain ⟨x, rfl⟩ := ht.of_proj
    exact hts attr x rfl
  have htuples : (∀ x y, ts ≠ [.var (.base x), .var (.base y)]) →
      ∀ x y, ts' ≠ [.var (.base x), .var (.base y)] := by
    rintro hts x' y' rfl
    obtain _ | ⟨ht, _ | ⟨hu, _ | _⟩⟩ := h
    obtain ⟨x, rfl, _⟩ := ht.of_base
    obtain ⟨y, rfl, _⟩ := hu.of_base
    exact hts x y rfl
  fun_cases Reader.predicate kind ts rs env with
  | case1 rs attr x =>
      obtain _ | ⟨ht, _ | _⟩ := h
      obtain rfl := ht.of_var
      change Like loose _ (.ok ((env'.cell? (σ x) attr).map Cell.null))
      rw [henv.cell?_eq (by simp [Term.mentionsAny, Term.mentions, Var.tuple])]
      exact .refl _
  | case2 ts rs hts =>
      rw [Reader.predicate.eq_2 ts' rs' env' (hcolumn hts)]
      exact .refl _
  | case3 => exact .refl _
  | case4 rs kind x y hnull hname =>
      obtain _ | ⟨ht, _ | ⟨hu, _ | _⟩⟩ := h
      obtain rfl := ht.of_var
      obtain rfl := hu.of_var
      change Like loose _ (Reader.predicate kind [.var (.base (σ x)), .var (.base (σ y))] rs' env')
      rw [Reader.predicate.eq_4 kind rs' env' _ _ hnull hname,
        henv.sameTuple?_eq _ (by simp [Term.mentionsAny, Term.mentions, Var.tuple])
          (by simp [Term.mentionsAny, Term.mentions, Var.tuple])]
      exact .refl _
  | case5 ts kind a b hnull hname hnone hpair =>
      obtain _ | ⟨ha, _ | ⟨hb, _ | _⟩⟩ := hr
      rw [Reader.predicate.eq_5 kind ts' env' _ _ hnull hname (htuples hpair)
        fun _ _ h => absurd h hnull]
      exact Reader.like_comparison kind ha hb
  | case6 kind ts rs hnull hname hpair hnone hreaders =>
      rw [Reader.predicate.eq_6 kind ts' rs' env' hnull hname (htuples hpair)
        fun _ _ h => absurd h hnull]
      · exact .refl _
      · rintro a' b' rfl
        obtain _ | ⟨_, _ | ⟨_, _ | _⟩⟩ := hr
        exact hreaders _ _ rfl

end Alike

namespace Rebinds

variable {loose : Prop} {σ τ : String → String} {xs xs' : List String} {body : Term}
  {env env' : Environment}

/-- Another tuple of a summation is bound to a row, under its two names. -/
theorem renames_bind (h : Rebinds loose env.schemas env'.schemas σ τ xs xs' body) {x : String}
    {ys : List String} (hx : x ∈ xs)
    (henv : env.Renames τ (fun y => body.Free y ∧ y ∉ x :: ys) env') (r : Row) :
    (env.bind x r).Renames τ (fun y => body.Free y ∧ y ∉ ys) (env'.bind (τ x) r) where
  database := henv.database
  schemas y hy := by
    by_cases hyx : y = x
    · subst hyx
      exact h.schemas y hx
    · exact henv.schemas y ⟨hy.1, by simp [hyx, hy.2]⟩
  rows y hy := by
    by_cases hyx : y = x
    · subst hyx
      simp [Environment.bind]
    · have hne : τ y ≠ τ x := fun heq => hyx (h.apart x hx y hy.1 heq)
      simp only [Environment.bind, if_neg hyx, if_neg hne]
      exact henv.rows y ⟨hy.1, by simp [hyx, hy.2]⟩

/-- Every choice of rows for the tuples of a summation leads to environments that know the tuples
of the body under their two names. -/
theorem forall₂_extensions (h : Rebinds loose env.schemas env'.schemas σ τ xs xs' body)
    {P : String → Prop} (henv : env.Renames σ P env') (hP : ∀ y, body.Free y → y ∉ xs → P y)
    {rows rows' : String → List Row} (hrows : ∀ x ∈ xs, rows' (τ x) = rows x) :
    List.Forall₂ (fun e e' => e.schemas = env.schemas ∧ e'.schemas = env'.schemas ∧
        e.Renames τ body.Free e') (env.extensions rows xs) (env'.extensions rows' (xs.map τ)) := by
  have hstart : env.Renames τ (fun y => body.Free y ∧ y ∉ xs) env' := by
    refine ⟨henv.database, fun y hy => ?_, fun y hy => ?_⟩
    · rw [h.free y hy.1 hy.2]
      exact henv.schemas y (hP y hy.1 hy.2)
    · rw [h.free y hy.1 hy.2]
      exact henv.rows y (hP y hy.1 hy.2)
  -- Along the extensions `ys` are the tuples that are yet to be bound.
  let Q (ys : List String) (e e' : Environment) : Prop := e.schemas = env.schemas ∧
    e'.schemas = env'.schemas ∧ e.Renames τ (fun y => body.Free y ∧ y ∉ ys) e'
  have hall : List.Forall₂ (Q []) (env.extensions rows xs) (env'.extensions rows' (xs.map τ)) := by
    refine Environment.forall₂_extensions hrows (fun r hx hQ => ?_) ⟨rfl, rfl, hstart⟩
    obtain ⟨hS, hS', hQ⟩ := hQ
    exact ⟨hS, hS', renames_bind (hS ▸ hS' ▸ h) hx hQ r⟩
  exact hall.imp fun _ _ hQ => ⟨hQ.1, hQ.2.1, hQ.2.2.mono fun y hy => ⟨hy, List.not_mem_nil⟩⟩

end Rebinds

namespace Alike

variable {loose : Prop} {S S' : SchemaMap} {σ : String → String} {t t' : Term}
  {ν : Type} [Arithmetic ν]

/-- A summation and the same with other names for its variables. -/
theorem like_summation (hν : loose → Arithmetic.Commutes ν) {τ : String → String}
    {vars vars' : VarSet} {body body' : Term} {env env' : Environment}
    (hvars : Rebinds loose env.schemas env'.schemas σ τ vars.tuples vars'.tuples body)
    (hbody : Alike loose env.schemas env'.schemas τ body body') {r r' : Reader ν}
    (hr : ∀ {e e' : Environment}, e.Renames τ body.Free e' → e.schemas = env.schemas →
      e'.schemas = env'.schemas → Like loose (r e) (r' e'))
    (henv : env.Renames σ (Term.sum vars body).Free env') :
    Like loose (Reader.summation vars body r env) (Reader.summation vars' body' r' env') := by
  have htables : ∀ x ∈ vars.tuples, body'.tableOf? (τ x) = body.tableOf? x :=
    fun x hx => hbody.tableOf?_eq (hvars.apart x hx)
  have hmem : ∀ y, y ∈ vars'.tuples ↔ ∃ x ∈ vars.tuples, τ x = y := by
    intro y
    rcases hvars.names with h | ⟨_, _, h⟩
    · rw [h, List.mem_map]
    · rw [h.mem_iff, List.mem_map]
  by_cases hall : ∀ x ∈ vars.tuples, (body.tableOf? x).isSome
  · have hall' : ∀ y ∈ vars'.tuples, (body'.tableOf? y).isSome := by
      intro y hy
      obtain ⟨x, hx, rfl⟩ := (hmem y).mp hy
      rw [htables x hx]
      exact hall x hx
    rw [Reader.summation_eq r env hall, Reader.summation_eq r' env' hall']
    have hrows : ∀ x ∈ vars.tuples, env'.range body' (τ x) = env.range body x := by
      intro x hx
      rw [Environment.range, Environment.range, htables x hx, henv.database]
    have hforall := hvars.forall₂_extensions henv
      (fun y hy hnot => Term.free_sum.mpr ⟨hnot, hy⟩) hrows
    have hlike : List.Forall₂ (fun x y => Like loose (x ()) (y ()))
        ((env.extensions (env.range body) vars.tuples).map fun e _ => r.number? e)
        ((env'.extensions (env'.range body') (vars.tuples.map τ)).map
          fun e _ => r'.number? e) := by
      rw [List.forall₂_map_left_iff, List.forall₂_map_right_iff]
      exact hforall.imp fun _ _ h => Reader.like_number? (hr h.2.2 h.1 h.2.1)
    rcases hvars.names with hnames | ⟨hloose, hnodup, hperm⟩
    · rw [hnames]
      exact Reader.like_sumFrom hlike _
    · refine Reader.like_sumFrom_perm (hν hloose) hloose hlike (List.Perm.map _ ?_) _
      exact env'.extensions_perm hperm.symm (hperm.nodup_iff.mp hnodup)
  · -- A tuple in no table makes both summations unknown, whatever comes before it.
    simp only [not_forall] at hall
    obtain ⟨x, hx, hnone⟩ := hall
    rw [Option.not_isSome_iff_eq_none] at hnone
    rw [Reader.summation_eq_none r env hx hnone,
      Reader.summation_eq_none r' env' ((hmem _).mpr ⟨x, hx, rfl⟩) ((htables x hx).trans hnone)]
    exact .refl _

omit [Arithmetic ν] in
theorem like_asScalar {n n' : Except Fault (Option ν)} (h : Like loose n n') :
    Like loose (Term.asScalar n) (Term.asScalar n') := h.bind fun _ => .refl _

/-- **Alike terms stand for the same** in environments that know the tuples under their two
names. -/
theorem like_read (hν : loose → Arithmetic.Commutes ν) (h : Alike loose S S' σ t t')
    {env env' : Environment} (henv : env.Renames σ t.Free env') (hS : env.schemas = S)
    (hS' : env'.schemas = S') :
    Like loose ((t.read : Reader ν) env) ((t'.read : Reader ν) env') := by
  have members : ∀ {σ : String → String} {ts ts' : List Term} {env env' : Environment},
      ts.length = ts'.length →
      (∀ {t t' : Term}, (t, t') ∈ ts.zip ts' → ∀ {env env' : Environment},
        env.Renames σ t.Free env' → env.schemas = S → env'.schemas = S' →
        Like loose ((t.read : Reader ν) env) ((t'.read : Reader ν) env')) →
      env.Renames σ (fun x => Term.mentionsAny x ts = true) env' →
      env.schemas = S → env'.schemas = S' →
      Reader.AllLike loose env env' (Term.readAll ts : List (Reader ν)) (Term.readAll ts') := by
    intro σ ts ts' env env' hlength ih henv hS hS'
    rw [Term.readAll_eq_map, Term.readAll_eq_map, Reader.AllLike, List.forall₂_map_left_iff,
      List.forall₂_map_right_iff, List.forall₂_iff_zip]
    refine ⟨hlength, fun hmem => ih hmem (henv.mono fun x hx => ?_) hS hS'⟩
    rw [Term.mentionsAny_eq, List.any_eq_true]
    exact ⟨_, (List.of_mem_zip hmem).1, hx⟩
  induction h generalizing env env' with
  | sum hvars hbody ih =>
      subst hS hS'
      exact like_asScalar (like_summation hν hvars hbody ih henv)
  | add hlength _ ih =>
      exact like_asScalar (Reader.like_addition (members hlength ih henv hS hS'))
  | mul hlength _ ih =>
      exact like_asScalar (Reader.like_productFrom (members hlength ih henv hS hS') _ _)
  | neg _ ih | squash _ ih => exact like_asScalar (Reader.like_test (ih henv hS hS') _)
  | pred hlength h ih =>
      refine (like_predicate _ (List.forall₂_iff_zip.mpr ⟨hlength, h⟩)
        (members hlength ih henv hS hS') henv).bind fun _ => .refl _
  | @var σ v _ h =>
      subst h
      cases v with
      | base x => exact .refl _
      | proj attr x =>
          refine .inl ?_
          simp only [Var.mapTuple, Term.read, henv.cell?_eq (x := x) (decide_eq_true rfl)]
  | const | str => exact .refl _
  | @table σ name v _ h =>
      subst h
      simp only [Term.read, Reader.membership_eq henv name (v := v) (decide_eq_true rfl)]
      exact .refl _
  | func hlength _ ih =>
      exact like_asScalar (Reader.like_application _ (members hlength ih henv hS hS'))

theorem isNone_tuple? (h : Alike loose S S' σ t t') : t.tuple?.isNone = t'.tuple?.isNone := by
  cases h with
  | @var _ v _ h =>
      subst h
      cases v <;> rfl
  | sum | add | mul | neg | squash | pred | const | table | func | str => rfl

/-- Alike terms both ask for the value of a whole tuple, or none does. -/
theorem evaluable_eq (h : Alike loose S S' σ t t') : t.evaluable = t'.evaluable := by
  have members : ∀ {α : Type} {f : Term → α} {ts ts' : List Term}, ts.length = ts'.length →
      (∀ {t t' : Term}, (t, t') ∈ ts.zip ts' → f t = f t') → ts.map f = ts'.map f := by
    intro α f ts ts' hlength h
    rw [← List.forall₂_eq_eq_eq, List.forall₂_map_left_iff, List.forall₂_map_right_iff,
      List.forall₂_iff_zip]
    exact ⟨hlength, h⟩
  induction h with
  | sum _ _ ih | neg _ ih | squash _ ih => rw [Term.evaluable, Term.evaluable, ih]
  | add hlength _ ih | mul hlength _ ih | func hlength _ ih =>
      rw [Term.evaluable, Term.evaluable, Term.evaluableAll_congr (members hlength ih)]
  | @pred _ kind _ _ hlength h ih =>
      have htuples := kind.evaluates_congr (members hlength fun hmem => (h hmem).isNone_tuple?)
      rw [Term.evaluable, Term.evaluable, Term.evaluableAll_congr (members hlength ih), htuples]
  | @var _ v _ h =>
      subst h
      cases v <;> rfl
  | const | table | str => rfl

end Alike

/-! ### Names that stay -/

theorem Var.mapTuple_id (v : Var) : v.mapTuple id = v := by
  cases v <;> rfl

theorem Var.renamed_eq (source target : String) (v : Var) :
    v.renamed source target = v.mapTuple (World.renamed source target) := by
  cases v with
  | base x => exact Term.renamed_base source target x
  | proj attr x => exact Term.renamed_proj source target attr x

/-- A term is alike to itself, with any schemas that agree on its names. -/
theorem Alike.refl {loose : Prop} {S S' : SchemaMap} (t : Term)
    (h : ∀ x ∈ t.names, S'.get? x = S.get? x) : Alike loose S S' id t t := by
  have members : ∀ {ts : List Term}, (∀ x ∈ Term.namesAll ts, S'.get? x = S.get? x) →
      (∀ t ∈ ts, (∀ x ∈ t.names, S'.get? x = S.get? x) → Alike loose S S' id t t) →
      List.Forall₂ (Alike loose S S' id) ts ts := by
    intro ts h ih
    refine List.forall₂_same.mpr fun t ht => ih t ht fun x hx => h x ?_
    exact Term.mem_namesAll.mpr ⟨t, ht, hx⟩
  induction t using Term.induct with
  | sum vars body ih =>
      rw [Term.names, List.forall_mem_append] at h
      exact .sum ⟨.inl (List.map_id _).symm, fun _ _ _ _ h => h, fun _ _ _ => rfl, h.1⟩ (ih h.2)
  | add ts ih => exact .addAll (members h ih)
  | mul ts ih => exact .mulAll (members h ih)
  | neg t ih => exact .neg (ih h)
  | squash t ih => exact .squash (ih h)
  | pred kind ts ih => exact .predAll kind (members h ih)
  | var v => exact .var v.mapTuple_id.symm
  | const q => exact .const
  | table name v => exact .table v.mapTuple_id.symm
  | func name ts ih => exact .funcAll name (members h ih)
  | str s => exact .str

end BagEquiv
