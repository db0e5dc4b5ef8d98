/-
**Placeholders for summations.**

Taking the summations out of a term leaves placeholders in their places.  In a world in which each
placeholder stands for the number of its summation, the term that is left means what the term
meant.  What is taken out and what is left mention no other tuples than the term, apart from the
placeholders, and are regular if the term is.

Main definition:

* `Term.Drawn` — the names that a supply yields one after the other.

Main result:

* `Term.meaning_strip` — **the meaning of a term whose summations are placeholders**.
-/

import BagEquiv.Proofs.FractionValues
import BagEquiv.Proofs.Peeling
import BagEquiv.Term.Strip

set_option autoImplicit false

namespace BagEquiv

/-- The world in which placeholders stand for the given numbers. -/
def World.fill (w : World) (φ : String → Option (WithTop ℚ)) : World := { w with placeholders := φ }

namespace Term

variable {σ : Type} (fresh : σ → String × σ)

/-! ### What is taken out -/

mutual

/-- The outermost summations are taken out, in order. -/
theorem strip_found : ∀ (t : Term) (s : σ),
    ((t.strip fresh s).2.1.map fun st => (st.vars, st.body)) = t.summations
  | .sum _ _, _ | .var _, _ | .const _, _ | .table _ _, _ | .str _, _ => rfl
  | .add ts, s | .mul ts, s | .pred _ ts, s | .func _ ts, s => stripList_found ts s
  | .neg t, s | .squash t, s => strip_found t s

theorem stripList_found : ∀ (ts : List Term) (s : σ),
    ((stripList fresh ts s).2.1.map fun st => (st.vars, st.body)) = summationsAll ts
  | [], _ => rfl
  | t :: ts, s => by
      rw [stripList, List.map_append, strip_found t s, stripList_found ts, summationsAll]

end

/-- The names that the supply yields one after the other. -/
inductive Drawn : σ → List String → σ → Prop
  | nil (s : σ) : Drawn s [] s
  | cons {s s' : σ} {names : List String} :
    Drawn (fresh s).2 names s' → Drawn s ((fresh s).1 :: names) s'

theorem Drawn.append {s s' s'' : σ} {xs ys : List String} (h : Drawn fresh s xs s')
    (h' : Drawn fresh s' ys s'') : Drawn fresh s (xs ++ ys) s'' := by
  induction h with
  | nil => exact h'
  | cons _ ih => exact .cons (ih h')

mutual

/-- The placeholders are drawn from left to right. -/
theorem drawn_strip : ∀ (t : Term) (s : σ),
    Drawn fresh s ((t.strip fresh s).2.1.map Stripped.name) (t.strip fresh s).2.2
  | .sum _ _, _ => .cons (.nil _)
  | .add ts, s | .mul ts, s | .pred _ ts, s | .func _ ts, s => drawn_stripList ts s
  | .neg t, s | .squash t, s => drawn_strip t s
  | .var _, s | .const _, s | .table _ _, s | .str _, s => .nil s

theorem drawn_stripList : ∀ (ts : List Term) (s : σ),
    Drawn fresh s ((stripList fresh ts s).2.1.map Stripped.name) (stripList fresh ts s).2.2
  | [], s => .nil s
  | t :: ts, s => by
      rw [stripList, List.map_append]
      exact (drawn_strip t s).append fresh (drawn_stripList ts _)

end

/-! ### Meaning -/

variable {fresh}

theorem column?_strip (t : Term) (s : σ) : (t.strip fresh s).1.column? = t.column? := by
  cases t <;> rfl

variable {w : World} {φ : String → Option (WithTop ℚ)}

/-- A term names the tuple that it named before: placeholders are no tuples. -/
theorem named?_strip {t : Term} {s : σ}
    (hfound : ∀ st ∈ (t.strip fresh s).2.1, (φ st.name).isSome)
    (hfree : ∀ x, t.mentions x = true → φ x = w.placeholders x) :
    (w.fill φ).named? (t.strip fresh s).1 = w.named? t := by
  cases t with
  | sum vars body =>
      have := hfound _ (List.mem_singleton.mpr rfl)
      change Option.filter (fun x => (φ x).isNone) (some (fresh s).1) = none
      rw [Option.filter_some, if_neg]
      rw [Option.isNone_iff_eq_none]
      intro hnone
      rw [hnone] at this
      cases this
  | var v =>
      cases v with
      | base x =>
          have := hfree x (decide_eq_true rfl)
          change Option.filter (fun x => (φ x).isNone) (some x) =
            Option.filter (fun x => (w.placeholders x).isNone) (some x)
          rw [Option.filter_some, Option.filter_some, this]
      | proj attr x => rfl
  | add | mul | neg | squash | pred | const | table | func | str => rfl

theorem pair?_stripList {ts : List Term} {s : σ}
    (hfound : ∀ st ∈ (stripList fresh ts s).2.1, (φ st.name).isSome)
    (hfree : ∀ x, mentionsAny x ts = true → φ x = w.placeholders x) :
    (w.fill φ).pair? (stripList fresh ts s).1 = w.pair? ts := by
  match ts with
  | [] | [_] | _ :: _ :: _ :: _ => rfl
  | [a, b] =>
      simp only [stripList, List.append_nil, List.forall_mem_append] at hfound
      simp only [mentionsAny, Bool.or_false, Bool.or_eq_true] at hfree
      simp only [stripList, World.pair?, named?_strip hfound.1 fun x hx => hfree x (.inl hx),
        named?_strip hfound.2 fun x hx => hfree x (.inr hx)]

theorem judge_stripList (kind : Pred) {ts : List Term} {s : σ}
    (hfound : ∀ st ∈ (stripList fresh ts s).2.1, (φ st.name).isSome)
    (hfree : ∀ x, mentionsAny x ts = true → φ x = w.placeholders x)
    (values : List (Option (Scalar ℚ))) :
    (w.fill φ).judge kind (stripList fresh ts s).1 values = w.judge kind ts values := by
  have hcompare : (w.fill φ).compareAll? kind (stripList fresh ts s).1 values =
      w.compareAll? kind ts values := by
    rw [World.compareAll?, World.compareAll?, pair?_stripList hfound hfree]
    rfl
  cases kind with
  | isNull =>
      rcases ts with _ | ⟨t, _ | ⟨_, _⟩⟩
      · rfl
      · simp only [stripList, World.judge, column?_strip]
        rfl
      · rfl
  | named name => rfl
  | eq | ne | lt | le | gt | ge => exact hcompare

mutual

/-- The meaning of a term whose summations are placeholders for their numbers. -/
theorem meaning_strip : ∀ (t : Term) (s : σ),
    (∀ st ∈ (t.strip fresh s).2.1, φ st.name = some ((Term.sum st.vars st.body).number w)) →
    (∀ x, t.mentions x = true → φ x = w.placeholders x) →
    (t.strip fresh s).1.meaning (w.fill φ) = t.meaning w
  | .sum vars body, s, hfound, _ => by
      change (φ (fresh s).1).bind Scalar.ofNumber = _
      rw [hfound _ (List.mem_singleton.mpr rfl), Option.bind_some, number, meaning,
        Scalar.toNumber_ofNumber]
  | .add ts, s, hfound, hfree | .mul ts, s, hfound, hfree | .func _ ts, s, hfound, hfree => by
      rw [strip, meaning, meaning, meanings_stripList ts s hfound hfree]
  | .neg t, s, hfound, hfree | .squash t, s, hfound, hfree => by
      rw [strip, meaning, meaning, meaning_strip t s hfound hfree]
  | .pred kind ts, s, hfound, hfree => by
      have hsome : ∀ st ∈ (stripList fresh ts s).2.1, (φ st.name).isSome :=
        fun st hst => by rw [hfound st hst, Option.isSome_some]
      rw [strip, meaning, meaning, meanings_stripList ts s hfound hfree,
        judge_stripList kind hsome hfree]
  | .var (.base x), s, _, hfree => by
      rw [strip, meaning, meaning, ← hfree x (by simp [mentions, Var.tuple])]
      rfl
  | .var (.proj attr x), _, _, _ | .const _, _, _, _ | .table _ (.base _), _, _, _
  | .table _ (.proj _ _), _, _, _ | .str _, _, _, _ => rfl

theorem meanings_stripList : ∀ (ts : List Term) (s : σ),
    (∀ st ∈ (stripList fresh ts s).2.1,
      φ st.name = some ((Term.sum st.vars st.body).number w)) →
    (∀ x, mentionsAny x ts = true → φ x = w.placeholders x) →
    meanings (stripList fresh ts s).1 (w.fill φ) = meanings ts w
  | [], _, _, _ => rfl
  | t :: ts, s, hfound, hfree => by
      rw [stripList, List.forall_mem_append] at hfound
      rw [stripList, meanings, meanings,
        meaning_strip t s hfound.1 fun x hx => hfree x (by simp [mentionsAny, hx]),
        meanings_stripList ts _ hfound.2 fun x hx => hfree x (by simp [mentionsAny, hx])]

end

/-! ### What is mentioned -/

mutual

/-- What is mentioned in the end was mentioned before, or is a placeholder. -/
theorem mentions_strip {x : String} : ∀ (t : Term) (s : σ),
    (t.strip fresh s).1.mentions x = true →
    t.mentions x = true ∨ ∃ st ∈ (t.strip fresh s).2.1, st.name = x
  | .sum _ _, _, h => .inr ⟨_, List.mem_singleton.mpr rfl, of_decide_eq_true h⟩
  | .add ts, s, h | .mul ts, s, h | .pred _ ts, s, h | .func _ ts, s, h =>
      mentionsAny_stripList ts s h
  | .neg t, s, h | .squash t, s, h => mentions_strip t s h
  | .var _, _, h | .const _, _, h | .table _ _, _, h | .str _, _, h => .inl h

theorem mentionsAny_stripList {x : String} : ∀ (ts : List Term) (s : σ),
    mentionsAny x (stripList fresh ts s).1 = true →
    mentionsAny x ts = true ∨ ∃ st ∈ (stripList fresh ts s).2.1, st.name = x
  | [], _, h => .inl h
  | t :: ts, s, h => by
      simp only [stripList, mentionsAny, Bool.or_eq_true, List.mem_append] at h ⊢
      rcases h with h | h
      · rcases mentions_strip t s h with h | ⟨st, hst, rfl⟩
        · exact .inl (.inl h)
        · exact .inr ⟨st, .inl hst, rfl⟩
      · rcases mentionsAny_stripList ts _ h with h | ⟨st, hst, rfl⟩
        · exact .inl (.inr h)
        · exact .inr ⟨st, .inr hst, rfl⟩

end

/-- What an outermost summation mentions is mentioned by the term. -/
theorem mentions_of_mem_summations {t : Term} {s : VarSet × Term} (hs : s ∈ t.summations)
    {x : String} (h : (Term.sum s.1 s.2).mentions x = true) : t.mentions x = true := by
  induction t using Term.induct with
  | sum vars body _ =>
      obtain rfl := List.mem_singleton.mp hs
      exact h
  | add ts ih | mul ts ih | pred _ ts ih | func _ ts ih =>
      obtain ⟨t, ht, hs⟩ := mem_summationsAll.mp hs
      rw [mentions, mentionsAny_eq, List.any_eq_true]
      exact ⟨t, ht, ih t ht hs⟩
  | neg t ih | squash t ih => exact ih hs
  | var | const | table | str => cases hs

/-- What is mentioned after a renaming is the new name, or another name that was mentioned. -/
theorem mentions_rename {source target x : String} {t : Term}
    (h : (t.rename source target).mentions x = true) :
    x = target ∨ x ≠ source ∧ t.mentions x = true := by
  have name : ∀ v : Var, decide ((v.renamed source target).tuple = x) = true →
      x = target ∨ x ≠ source ∧ decide (v.tuple = x) = true := by
    intro v hv
    have hv := of_decide_eq_true hv
    rw [tuple_renamed, World.renamed] at hv
    split at hv
    · exact .inl hv.symm
    · next hne => exact .inr ⟨hv ▸ hne, decide_eq_true hv⟩
  induction t using Term.induct with
  | sum vars body ih =>
      rw [rename] at h
      split at h
      · next hbound =>
          refine .inr ⟨?_, h⟩
          rintro rfl
          simp [mentions, hbound] at h
      · simp only [mentions, Bool.and_eq_true] at h ⊢
        exact (ih h.2).imp_right fun hx => ⟨hx.1, h.1, hx.2⟩
  | add ts ih | mul ts ih | pred _ ts ih | func _ ts ih =>
      rw [rename, mentions, renameList_eq, mentionsAny_eq, List.any_map, List.any_eq_true] at h
      obtain ⟨t, ht, h⟩ := h
      rw [mentions, mentionsAny_eq, List.any_eq_true]
      exact (ih t ht h).imp_right fun h => ⟨h.1, t, ht, h.2⟩
  | neg t ih | squash t ih => exact ih h
  | var v | table _ v => exact name v h
  | const | str => cases h

/-! ### Regular terms -/

mutual

/-- The constants have positive denominators, and the columns have names without exclamation
marks. -/
def Regular : Term → Prop
  | .sum _ body => Regular body
  | .add terms => AllRegular terms
  | .mul factors => AllRegular factors
  | .neg term => Regular term
  | .squash term => Regular term
  | .pred _ args => AllRegular args
  | .var (.base _) => True
  | .var (.proj attr _) => '!' ∉ attr.toList
  | .const q => q.Positive
  | .table _ _ => True
  | .func _ args => AllRegular args
  | .str _ => True

def AllRegular : List Term → Prop
  | [] => True
  | t :: ts => Regular t ∧ AllRegular ts

end

theorem allRegular_iff {ts : List Term} : AllRegular ts ↔ ∀ t ∈ ts, Regular t := by
  induction ts with
  | nil => simp [AllRegular]
  | cons t ts ih => rw [AllRegular, ih, List.forall_mem_cons]

mutual

theorem Regular.strip : ∀ {t : Term}, t.Regular → ∀ s : σ, (t.strip fresh s).1.Regular
  | .sum _ _, _, _ => trivial
  | .add _, h, s | .mul _, h, s | .pred _ _, h, s | .func _ _, h, s => AllRegular.stripList h s
  | .neg t, h, s | .squash t, h, s => Regular.strip (t := t) h s
  | .var _, h, _ | .const _, h, _ | .table _ _, h, _ | .str _, h, _ => h

theorem AllRegular.stripList : ∀ {ts : List Term}, AllRegular ts → ∀ s : σ,
    AllRegular (stripList fresh ts s).1
  | [], h, _ => h
  | _ :: _, h, s => ⟨Regular.strip h.1 s, AllRegular.stripList h.2 _⟩

end

theorem Regular.of_mem_summations {t : Term} (h : t.Regular) {s : VarSet × Term}
    (hs : s ∈ t.summations) : s.2.Regular := by
  induction t using Term.induct with
  | sum vars body _ =>
      obtain rfl := List.mem_singleton.mp hs
      exact h
  | add ts ih | mul ts ih | pred _ ts ih | func _ ts ih =>
      obtain ⟨t, ht, hs⟩ := mem_summationsAll.mp hs
      exact ih t ht (allRegular_iff.mp h t ht) hs
  | neg t ih | squash t ih => exact ih h hs
  | var | const | table | str => cases hs

theorem Regular.rename {t : Term} (h : t.Regular) (source target : String) :
    (t.rename source target).Regular := by
  induction t using Term.induct with
  | sum vars body ih =>
      rw [Term.rename]
      split
      · exact h
      · exact ih h
  | add ts ih | mul ts ih | pred _ ts ih | func _ ts ih =>
      rw [Regular, allRegular_iff] at h
      rw [Term.rename, Regular, allRegular_iff, renameList_eq, List.forall_mem_map]
      exact fun t ht => ih t ht (h t ht)
  | neg t ih | squash t ih => exact ih h
  | var v =>
      cases v with
      | base x =>
          rw [Term.rename, renamed_base]
          trivial
      | proj attr x =>
          rw [Term.rename, renamed_proj]
          exact h
  | const | table | str => exact h

end Term

end BagEquiv
