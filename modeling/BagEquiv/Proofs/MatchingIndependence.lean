/-
**Whether a pair can be translated does not depend on the matching.**

A run answers whether the two terms can be translated, whatever the matching is, as long as its
placeholders and common tuples are not mistaken for tuples of the terms.  Names that freshening
leaves are apart from them if the names it starts from do not begin with a number sign.

Main definition:

* `Input.names` — the names of an input.

Main results:

* `encodePair_isOk_iff` — **a pair is encoded exactly if both terms can be translated**;
* `encodePair_isOk_iff_of_matchings` — **the matching does not matter for freshened
  terms**.
-/

import BagEquiv.Check
import BagEquiv.Proofs.EncodingSoundness
import BagEquiv.Proofs.Freshening
import BagEquiv.Proofs.PieceRuns

set_option autoImplicit false

namespace BagEquiv

/-- A pair that is not encoded has no formula, or one that cannot be simplified. -/
theorem encodePair_eq_error {schemas : SchemaMap} {m : Matching} {budget : Budget}
    {left right : Term} {failure : Failure}
    (h : encodePair schemas m budget left right = .error failure) :
    Fails (Encoder.difference m budget left right) (.ofSchemas schemas) failure ∨
      ∃ (f : Formula) (fault : Fault), f.simplify = .error fault ∧ failure = .fault fault := by
  unfold encodePair at h
  split at h
  · next hrun =>
      cases h
      exact .inl (congrArg Prod.fst hrun)
  · next f e hrun =>
      cases hsimplify : f.simplify with
      | ok g =>
          rw [hsimplify] at h
          cases h
      | error fault =>
          rw [hsimplify] at h
          cases h
          exact .inr ⟨f, fault, hsimplify, rfl⟩

/-- A pair is encoded exactly if both terms can be translated, unless time runs out or a number
overflows. -/
theorem encodePair_isOk_iff {schemas : SchemaMap} {left right : Term} {m : Matching}
    {budget : Budget} (hschemas : ∀ k : ℕ, schemas.get? ("#ct" ++ toString k) = none)
    (hleft : left.Known 0) (hright : right.Known 0)
    (htime : encodePair schemas m budget left right ≠ .error (.error .timeout))
    (hwords : encodePair schemas m budget left right ≠ .error (.fault .overflow)) :
    (∃ F, encodePair schemas m budget left right = .ok F) ↔
      Translatable schemas left ∧ Translatable schemas right := by
  have hdecides := Encoder.decides_difference m budget (Encoder.prepared_ofSchemas hschemas) hleft
    hright
  constructor
  · rintro ⟨F, hF⟩
    obtain ⟨f, e, hreturns, -⟩ := encodePair_eq_ok hF
    exact (hdecides.returned hreturns).1
  · intro htranslatable
    cases h : encodePair schemas m budget left right with
    | ok F => exact ⟨F, rfl⟩
    | error failure =>
        rw [h] at htime hwords
        rcases encodePair_eq_error h with hfails | ⟨f, fault, hsimplify, rfl⟩
        · cases failure with
          | error err =>
              refine absurd htranslatable (hdecides.refused hfails ?_)
              rintro rfl
              exact htime rfl
          | fault f =>
              obtain rfl := hdecides.faulted hfails
              exact absurd rfl hwords
        · obtain rfl := f.mayOverflow_simplify fault hsimplify
          exact absurd rfl hwords

/-- An encoding does not time out within its budget. -/
theorem encodePair_ne_timeout {schemas : SchemaMap} {left right : Term} {budget : Budget}
    (hschemas : ∀ k : ℕ, schemas.get? ("#ct" ++ toString k) = none)
    (hleft : left.Known 0) (hright : right.Known 0) (hb : budget.expired = false)
    (m : Matching) : encodePair schemas m budget left right ≠ .error (.error .timeout) := by
  intro h
  rcases encodePair_eq_error h with hfails | ⟨f, fault, -, heq⟩
  · have hdecides := Encoder.decides_difference m budget (Encoder.prepared_ofSchemas hschemas)
      hleft hright
    exact Bool.eq_false_iff.mp hb (hdecides.delayed hfails)
  · cases heq

/-! ### Freshened terms -/

/-- A number sign at the beginning of the name is followed by a digit. -/
def Plain (x : String) : Prop := ∀ c cs, x.toList = '#' :: c :: cs → c.isDigit = true

theorem plain_of_head {x : String} (h : x.toList.head? ≠ some '#') : Plain x := by
  intro c cs hx
  rw [hx] at h
  exact absurd rfl h

theorem plain_fresh {x : String} (h : x.toList.head? ≠ some '#') (n : ℕ) :
    Plain (x ++ "#" ++ toString n) := by
  intro c cs hx
  have hlist : (x ++ "#" ++ toString n).toList = x.toList ++ '#' :: (toString n).toList := by
    simp
  rw [hlist] at hx
  cases hfirst : x.toList with
  | nil =>
      rw [hfirst] at hx
      refine isDigit_of_mem_toString (n := n) ?_
      rw [(List.cons.inj hx).2]
      exact List.mem_cons_self
  | cons d ds =>
      rw [hfirst] at hx h
      exact absurd (congrArg some (List.cons.inj hx).1) h

theorem Plain.known {x : String} (h : Plain x) : Known 0 x := by
  constructor
  · rintro k rfl
    exact absurd (h 'u' (toString k).toList (by simp)) (by decide)
  · rintro k rfl
    exact absurd (h 'c' ('t' :: (toString k).toList) (by simp)) (by decide)

namespace Term

/-- The tuple of a variable after renamings. -/
theorem tuple_apply (ρ : Renaming) (v : Var) :
    (ρ.apply v).tuple = v.tuple ∨ ∃ r ∈ ρ, (ρ.apply v).tuple = r.2 := by
  induction ρ generalizing v with
  | nil => exact .inl rfl
  | cons r ρ ih =>
      rcases ih (v.renamed r.1 r.2) with h | ⟨q, hq, h⟩
      · rw [tuple_renamed, World.renamed] at h
        split at h
        · exact .inr ⟨r, List.mem_cons_self, h⟩
        · exact .inl h
      · exact .inr ⟨q, List.mem_cons_of_mem _ hq, h⟩

section Names

variable {P Q : String → Prop} (hkeep : ∀ x, P x → Q x)
  (hnumber : ∀ x (n : ℕ), P x → Q (x ++ "#" ++ toString n))

include hnumber in
theorem Supply.fresh_names {s t : Supply} {base name : String} (hbase : P base)
    (h : s.fresh base = .ok (name, t)) :
    Q name ∧ ∀ x S, t.schemas.get? x = some S → s.schemas.get? x = some S ∨ Q x := by
  have hname : Q name := by
    rw [(fresh_ok h).1]
    exact hnumber _ _ hbase
  refine ⟨hname, fun x S hx => ?_⟩
  unfold Supply.fresh at h
  dsimp only at h
  split at h
  · cases h
    dsimp only at hx
    split at hx
    · rw [NameMap.get?_insert] at hx
      split at hx
      · next heq => exact .inr (heq ▸ hname)
      · exact .inl hx
    · exact .inl hx
  · cases h

include hnumber in
theorem freshNames_names {vs : List Var} {s t : Supply} {names : List (String × String)}
    (hvs : ∀ v ∈ vs, P v.tuple) (h : freshNames vs s = .ok (names, t)) :
    (∀ r ∈ names, Q r.2) ∧
      ∀ x S, t.schemas.get? x = some S → s.schemas.get? x = some S ∨ Q x := by
  induction vs generalizing s names with
  | nil =>
      cases h
      exact ⟨by simp, fun _ _ => .inl⟩
  | cons v vs ih =>
      rw [List.forall_mem_cons] at hvs
      obtain ⟨⟨name, s₁⟩, hname, ⟨names', s₂⟩, hnames, h⟩ := Fault.ok_of_bind₂ h
      cases h
      obtain ⟨hfirst, hs₁⟩ := Supply.fresh_names hnumber hvs.1 hname
      obtain ⟨hrest, hs₂⟩ := ih hvs.2 hnames
      exact ⟨List.forall_mem_cons.mpr ⟨hfirst, hrest⟩,
        fun x S hx => (hs₂ x S hx).elim (hs₁ x S) .inr⟩

include hkeep hnumber in
/-- The names of a freshened term are given ones, as they are or with numbers, and so are those that
get schemas. -/
theorem freshenWith_names (t : Term) {ρ : Renaming} {t' : Term} {s u : Supply}
    (hρ : ∀ r ∈ ρ, Q r.2) (ht : ∀ x ∈ t.names, P x) (h : freshenWith ρ t s = .ok (t', u)) :
    (∀ x ∈ t'.names, Q x) ∧
      ∀ x S, u.schemas.get? x = some S → s.schemas.get? x = some S ∨ Q x := by
  have name : ∀ {ρ : Renaming} (v : Var), (∀ r ∈ ρ, Q r.2) → P v.tuple → Q (ρ.apply v).tuple := by
    intro ρ v hρ hv
    rcases tuple_apply ρ v with h | ⟨r, hr, h⟩
    · rw [h]
      exact hkeep _ hv
    · rw [h]
      exact hρ r hr
  induction t using Term.induct generalizing ρ t' s u with
  | sum vars body ih =>
      rw [names, List.forall_mem_append, List.forall_mem_map] at ht
      obtain ⟨⟨names', s₁⟩, hnames, ⟨body', s₂⟩, hbody, h⟩ := Fault.ok_of_bind₂ h
      cases h
      obtain ⟨hnew, hs₁⟩ := freshNames_names hnumber ht.1 hnames
      have hρ' : ∀ r ∈ ρ.under vars ++ names', Q r.2 :=
        List.forall_mem_append.mpr ⟨fun r hr => hρ r (List.mem_filter.mp hr).1, hnew⟩
      obtain ⟨hbelow, hs₂⟩ := ih hρ' ht.2 hbody
      refine ⟨List.forall_mem_append.mpr ⟨List.forall_mem_map.mpr fun v hv => ?_, hbelow⟩,
        fun x S hx => (hs₂ x S hx).elim (hs₁ x S) .inr⟩
      obtain ⟨r, hr, rfl⟩ := List.mem_map.mp (VarSet.mem_ofList.mp hv)
      exact hnew r hr
  | add ts ih | mul ts ih | pred _ ts ih | func _ ts ih =>
      obtain ⟨⟨ts', s₁⟩, hts, hend⟩ := Fault.ok_of_bind h
      cases hend
      clear h
      rw [names] at ht ⊢
      induction ts generalizing ts' s with
      | nil =>
          cases hts
          exact ⟨by simp [namesAll], fun _ _ => .inl⟩
      | cons t ts ihs =>
          rw [List.forall_mem_cons] at ih
          rw [namesAll, List.forall_mem_append] at ht
          obtain ⟨⟨t', s₁⟩, ht', ⟨ts'', s₂⟩, hts', h⟩ := Fault.ok_of_bind₂ hts
          cases h
          obtain ⟨hhead, hs₁⟩ := ih.1 hρ ht.1 ht'
          obtain ⟨htail, hs₂⟩ := ihs ih.2 ht.2 _ hts'
          exact ⟨List.forall_mem_append.mpr ⟨hhead, htail⟩,
            fun x S hx => (hs₂ x S hx).elim (hs₁ x S) .inr⟩
  | neg t ih | squash t ih =>
      obtain ⟨⟨t₁, s₁⟩, ht₁, h⟩ := Fault.ok_of_bind h
      cases h
      obtain ⟨hbelow, hs₁⟩ := ih hρ ht ht₁
      exact ⟨hbelow, hs₁⟩
  | var v | table _ v =>
      cases h
      refine ⟨List.forall_mem_singleton.mpr (name v hρ ?_), fun _ _ => .inl⟩
      exact ht _ (List.mem_singleton.mpr rfl)
  | const | str =>
      cases h
      exact ⟨fun x hx => absurd hx List.not_mem_nil, fun _ _ => .inl⟩

end Names

/-- The names that have schemas are plain. -/
def Supply.Plain (s : Supply) : Prop := ∀ x S, s.schemas.get? x = some S → BagEquiv.Plain x

/-- Freshening a term whose names do not begin with a number sign leaves plain names. -/
theorem freshenWith_plain (t : Term) {ρ : Renaming} {t' : Term} {s u : Supply} (hs : s.Plain)
    (hρ : ∀ r ∈ ρ, BagEquiv.Plain r.2) (ht : ∀ x ∈ t.names, x.toList.head? ≠ some '#')
    (h : freshenWith ρ t s = .ok (t', u)) : (∀ x ∈ t'.names, BagEquiv.Plain x) ∧ u.Plain := by
  obtain ⟨hnames, hschemas⟩ := freshenWith_names (P := fun x => x.toList.head? ≠ some '#')
    (fun _ => plain_of_head) (fun _ n hx => plain_fresh hx n) t hρ ht h
  exact ⟨hnames, fun x S hx => (hschemas x S hx).elim (hs x S) id⟩

end Term

/-- The names that have schemas, and those of the tuples of both terms. -/
def Input.names (input : Input) : List String :=
  input.schemas.entries.map Prod.fst ++ (input.left.names ++ input.right.names)

/-- The names of a freshened input cannot be mistaken for those that the encoder gives. -/
theorem Input.known_of_freshen {input fresh : Input}
    (hnames : ∀ x ∈ input.names, x.toList.head? ≠ some '#') (h : input.freshen = .ok fresh) :
    fresh.left.Known 0 ∧ fresh.right.Known 0 ∧
      ∀ k : ℕ, fresh.schemas.get? ("#ct" ++ toString k) = none := by
  rw [names, List.forall_mem_append, List.forall_mem_append, List.forall_mem_map] at hnames
  obtain ⟨hschemas, hleft, hright⟩ := hnames
  obtain ⟨⟨left, s₁⟩, hl, ⟨right, s₂⟩, hr, h⟩ := Fault.ok_of_bind₂ h
  cases h
  have hstart : (⟨input.schemas, 0⟩ : Term.Supply).Plain :=
    fun x S hx => plain_of_head (hschemas _ (NameMap.mem_of_get? hx))
  obtain ⟨hl, hs₁⟩ := Term.freshenWith_plain _ hstart (by simp) hleft hl
  obtain ⟨hr, hs₂⟩ := Term.freshenWith_plain _ hs₁ (by simp) hright hr
  exact ⟨fun x hx => (hl x hx).known, fun x hx => (hr x hx).known,
    get?_common_eq_none fun x S hS => (hs₂ x S hS).known⟩

/-- Whether the terms of a freshened input can be encoded does not depend on the matching, as long
as time does not run out and no number overflows. -/
theorem encodePair_isOk_iff_of_matchings {input fresh : Input}
    (hnames : ∀ x ∈ input.names, x.toList.head? ≠ some '#') (hfresh : input.freshen = .ok fresh)
    {m₁ m₂ : Matching} {budget₁ budget₂ : Budget}
    (htime₁ : encodePair fresh.schemas m₁ budget₁ fresh.left fresh.right ≠
      .error (.error .timeout))
    (hwords₁ : encodePair fresh.schemas m₁ budget₁ fresh.left fresh.right ≠
      .error (.fault .overflow))
    (htime₂ : encodePair fresh.schemas m₂ budget₂ fresh.left fresh.right ≠
      .error (.error .timeout))
    (hwords₂ : encodePair fresh.schemas m₂ budget₂ fresh.left fresh.right ≠
      .error (.fault .overflow)) :
    (∃ F, encodePair fresh.schemas m₁ budget₁ fresh.left fresh.right = .ok F) ↔
      ∃ F, encodePair fresh.schemas m₂ budget₂ fresh.left fresh.right = .ok F := by
  obtain ⟨hleft, hright, hschemas⟩ := Input.known_of_freshen hnames hfresh
  rw [encodePair_isOk_iff hschemas hleft hright htime₁ hwords₁,
    encodePair_isOk_iff hschemas hleft hright htime₂ hwords₂]

/-- Rows that no row is equal to, and pairs of rows. -/
def Input.rows : Input where
  schemas := .ofList (["x", "y", "w", "z"].map fun x => (x, .single))
  output := "out"
  left := .unmatchedRows "x" "y"
  right := .twoRows "z" "w" (.ofWord 2)

theorem encodePair_isOk_iff_of_matchings_rows : ∃ fresh : Input,
    (∀ x ∈ Input.rows.names, x.toList.head? ≠ some '#') ∧ Input.rows.freshen = .ok fresh ∧
    ((∃ F, encodePair fresh.schemas ⟨[.ofList [.base "x#0", .base "z#3"]]⟩ .unlimited fresh.left
        fresh.right = .ok F) ↔
      ∃ F, encodePair fresh.schemas ⟨[]⟩ .unlimited fresh.left fresh.right = .ok F) := by
  have hnames : ∀ x ∈ Input.rows.names, x.toList.head? ≠ some '#' := by decide +kernel
  let fresh : Input := ⟨.ofList (["x", "y", "w", "z", "x#0", "y#1", "w#2", "z#3"].map fun x =>
    (x, .single)), "out", .unmatchedRows "x#0" "y#1", .twoRows "z#3" "w#2" (.ofWord 2)⟩
  have hfresh : Input.rows.freshen = .ok fresh := rfl
  have hok : ∀ m ∈ [(⟨[.ofList [.base "x#0", .base "z#3"]]⟩ : Matching), ⟨[]⟩],
      (encodePair fresh.schemas m .unlimited fresh.left fresh.right).isOk = true := by
    decide +kernel
  have hne : ∀ {x : Except Failure Encoding} {failure : Failure}, x.isOk = true →
      x ≠ .error failure := by
    rintro x failure h rfl
    cases h
  rw [List.forall_mem_cons, List.forall_mem_singleton] at hok
  exact ⟨fresh, hnames, hfresh, encodePair_isOk_iff_of_matchings hnames hfresh (hne hok.1)
    (hne hok.1) (hne hok.2) (hne hok.2)⟩

end BagEquiv
