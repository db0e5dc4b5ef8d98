/-
**Runs of the encoder over a term.**

A formula that was written for a term has symbols and conjunctions in it.  The conjunctions are the
conditions that tuples are equal; the symbols are numbered ones, or stand for columns, memberships,
tests and null flags that are in the term.  What is known of the steps that write them is therefore
known of the run.

Main definition:

* `Formula.leaves`, `Formula.Made` — the symbols, conjunctions and stars that a formula is made
  from.

Main result:

* `Encoder.EncodeRule.encode` — **what the steps write is what the formula of a term is made from**.
-/

import BagEquiv.Proofs.TermEncoding

set_option autoImplicit false

namespace BagEquiv

/-! ### Leaves of formulas -/

namespace Formula

mutual

/-- The symbols, conjunctions and stars that a formula is made from; what is inside a conjunction or
a star is not looked at. -/
def leaves : Formula → List Formula
  | .const _ => []
  | .bool _ => []
  | .sym s => [.sym s]
  | .plus terms => leavesAll terms
  | .minus a b => leaves a ++ leaves b
  | .mul factors => leavesAll factors
  | .div a b => leaves a ++ leaves b
  | .ite c a b => leaves c ++ leaves a ++ leaves b
  | .eq a b => leaves a ++ leaves b
  | .le a b => leaves a ++ leaves b
  | .lt a b => leaves a ++ leaves b
  | .not a => leaves a
  | .and terms => [.and terms]
  | .or terms => leavesAll terms
  | .func _ args _ => leavesAll args
  | .star outer inner sides body => [.star outer inner sides body]

def leavesAll : List Formula → List Formula
  | [] => []
  | t :: ts => leaves t ++ leavesAll ts

end

theorem leavesAll_eq (ts : List Formula) : leavesAll ts = ts.flatMap leaves := by
  induction ts with
  | nil => rfl
  | cons t ts ih => rw [leavesAll, ih, List.flatMap_cons]

/-- All leaves have a property. -/
def Made (P : Formula → Prop) (f : Formula) : Prop := ∀ l ∈ f.leaves, P l

section Made

variable {P Q : Formula → Prop} {a b c : Formula} {ts : List Formula}

theorem Made.mono {f : Formula} (h : f.Made P) (hPQ : ∀ l, P l → Q l) : f.Made Q :=
  fun l hl => hPQ l (h l hl)

/-- What is known of the leaves of a list is known of all its members. -/
theorem forall_mem_leavesAll : (∀ l ∈ leavesAll ts, P l) ↔ ∀ t ∈ ts, t.Made P := by
  rw [leavesAll_eq]
  exact List.forall_mem_flatMap

@[simp] theorem made_const (q : Fraction) : (Formula.const q).Made P := fun _ h => by cases h

@[simp] theorem made_zero : zero.Made P := made_const _

@[simp] theorem made_one : one.Made P := made_const _

@[simp] theorem made_sym {s : Symbol} : (Formula.sym s).Made P ↔ P (.sym s) :=
  List.forall_mem_singleton

@[simp] theorem made_and : (Formula.and ts).Made P ↔ P (.and ts) := List.forall_mem_singleton

@[simp] theorem made_plus : (Formula.plus ts).Made P ↔ ∀ t ∈ ts, t.Made P := forall_mem_leavesAll

@[simp] theorem made_mul : (Formula.mul ts).Made P ↔ ∀ t ∈ ts, t.Made P := forall_mem_leavesAll

@[simp] theorem made_or : (Formula.or ts).Made P ↔ ∀ t ∈ ts, t.Made P := forall_mem_leavesAll

@[simp] theorem made_func {name : String} {type : SymbolType} :
    (Formula.func name ts type).Made P ↔ ∀ t ∈ ts, t.Made P := forall_mem_leavesAll

@[simp] theorem made_minus : (Formula.minus a b).Made P ↔ a.Made P ∧ b.Made P :=
  List.forall_mem_append

@[simp] theorem made_div : (Formula.div a b).Made P ↔ a.Made P ∧ b.Made P :=
  List.forall_mem_append

@[simp] theorem made_eq : (Formula.eq a b).Made P ↔ a.Made P ∧ b.Made P := List.forall_mem_append

@[simp] theorem made_le : (Formula.le a b).Made P ↔ a.Made P ∧ b.Made P := List.forall_mem_append

@[simp] theorem made_lt : (Formula.lt a b).Made P ↔ a.Made P ∧ b.Made P := List.forall_mem_append

@[simp] theorem made_not : (Formula.not a).Made P ↔ a.Made P := Iff.rfl

@[simp] theorem made_ite : (Formula.ite c a b).Made P ↔ (c.Made P ∧ a.Made P) ∧ b.Made P := by
  rw [Made, leaves, List.forall_mem_append, List.forall_mem_append]
  rfl

@[simp] theorem made_indicator : (indicator c).Made P ↔ c.Made P := by simp [indicator]

end Made

end Formula

/-! ### Elements of terms -/

/-- Something in a term that a formula may have symbols for. -/
inductive Element where
  | tuple (x : String)
  | column (x attr : String)
  | membership (table x : String)
  /-- The name of a predicate without a meaning of its own. -/
  | test (name : String)
deriving DecidableEq

namespace Element

/-- The tuple that the element is about. -/
def owner? : Element → Option String
  | .tuple x => some x
  | .column x _ => some x
  | .membership _ x => some x
  | .test _ => none

/-- The element with a tuple renamed. -/
def renamed (source target : String) : Element → Element
  | .tuple x => .tuple (if x = source then target else x)
  | .column x attr => .column (if x = source then target else x) attr
  | .membership table x => .membership table (if x = source then target else x)
  | .test name => .test name

end Element

/-- The element that a predicate stands for. -/
def Pred.elements : Pred → List Element
  | .named name => [.test name]
  | _ => []

theorem Pred.exists_of_mem_elements {kind : Pred} {k : Element} (h : k ∈ kind.elements) :
    ∃ name, k = .test name := by
  cases kind with
  | named name => exact ⟨name, List.mem_singleton.mp h⟩
  | eq | ne | lt | le | gt | ge | isNull => cases h

namespace Term

mutual

/-- What is in a term, in its summations as well. -/
def elements : Term → List Element
  | .sum _ body => elements body
  | .add terms => elementsAll terms
  | .mul factors => elementsAll factors
  | .neg term => elements term
  | .squash term => elements term
  | .pred kind args => kind.elements ++ elementsAll args
  | .var (.base x) => [.tuple x]
  | .var (.proj attr x) => [.column x attr]
  | .const _ => []
  | .table name v => [.membership name v.tuple]
  | .func _ args => elementsAll args
  | .str _ => []

def elementsAll : List Term → List Element
  | [] => []
  | t :: ts => elements t ++ elementsAll ts

end

variable {k : Element}

theorem mem_elementsAll {ts : List Term} : k ∈ elementsAll ts ↔ ∃ t ∈ ts, k ∈ t.elements := by
  induction ts with
  | nil => simp [elementsAll]
  | cons t ts ih => rw [elementsAll, List.mem_append, ih, List.exists_mem_cons_iff]

/-- A summation in a term has no elements that the term has not. -/
theorem elements_of_mem_summations {t : Term} {s : VarSet × Term} (hs : s ∈ t.summations) :
    s.2.elements ⊆ t.elements := by
  have members : ∀ {ts : List Term}, s ∈ summationsAll ts →
      (∀ t ∈ ts, s ∈ t.summations → s.2.elements ⊆ t.elements) →
      s.2.elements ⊆ elementsAll ts := by
    intro ts hs ih k hk
    rw [summationsAll_eq] at hs
    obtain ⟨t, ht, hs⟩ := List.mem_flatMap.mp hs
    exact mem_elementsAll.mpr ⟨t, ht, ih t ht hs hk⟩
  induction t using Term.induct with
  | sum vars body _ =>
      obtain rfl := List.mem_singleton.mp hs
      exact List.Subset.refl _
  | add ts ih | mul ts ih | func _ ts ih => exact members hs ih
  | pred kind ts ih => exact List.subset_append_of_subset_right _ (members hs ih)
  | neg t ih | squash t ih => exact ih hs
  | var | const | table | str => cases hs

/-- The elements of a renamed term; only a summation that binds the name is left as it is. -/
theorem mem_elements_rename {source target : String} {t : Term}
    (h : k ∈ (t.rename source target).elements) :
    (k ∈ t.elements ∧ ∃ b ∈ t.boundVars, b.var.tuple = source) ∨
      ∃ k' ∈ t.elements, k = k'.renamed source target := by
  have members : ∀ {ts : List Term},
      (∀ t ∈ ts, k ∈ (t.rename source target).elements →
        (k ∈ t.elements ∧ ∃ b ∈ t.boundVars, b.var.tuple = source) ∨
          ∃ k' ∈ t.elements, k = k'.renamed source target) →
      k ∈ elementsAll (renameList source target ts) →
      (k ∈ elementsAll ts ∧ ∃ b ∈ ts.flatMap boundVars, b.var.tuple = source) ∨
        ∃ k' ∈ elementsAll ts, k = k'.renamed source target := by
    intro ts ih h
    rw [renameList_eq] at h
    obtain ⟨u, hu, hk⟩ := mem_elementsAll.mp h
    obtain ⟨t, ht, rfl⟩ := List.mem_map.mp hu
    rcases ih t ht hk with ⟨hk, b, hb, hsource⟩ | ⟨k', hk', rfl⟩
    · exact .inl ⟨mem_elementsAll.mpr ⟨t, ht, hk⟩, b, List.mem_flatMap.mpr ⟨t, ht, hb⟩, hsource⟩
    · exact .inr ⟨k', mem_elementsAll.mpr ⟨t, ht, hk'⟩, rfl⟩
  induction t using Term.induct with
  | sum vars body ih =>
      rw [boundVars_sum]
      rw [rename] at h
      split at h
      · next hbound =>
          obtain ⟨v, hv, hsource⟩ := OpenSum.bound_eq_true.mp hbound
          exact .inl ⟨h, _, List.mem_append_left _ (OpenSum.mem_ofBinder_self hv), hsource⟩
      · refine (ih h).imp_left ?_
        rintro ⟨hk, b, hb, hsource⟩
        exact ⟨hk, b, List.mem_append_right _ hb, hsource⟩
  | add ts ih | mul ts ih | func _ ts ih =>
      rw [boundVars, forest, flatten_nodes_forestAll]
      exact members ih h
  | pred kind ts ih =>
      rw [boundVars_pred]
      rw [rename, elements, List.mem_append] at h
      rcases h with h | h
      · obtain ⟨name, rfl⟩ := Pred.exists_of_mem_elements h
        exact .inr ⟨.test name, List.mem_append_left _ h, rfl⟩
      · rcases members ih h with ⟨hk, hb⟩ | ⟨k', hk', rfl⟩
        · exact .inl ⟨List.mem_append_right _ hk, hb⟩
        · exact .inr ⟨k', List.mem_append_right _ hk', rfl⟩
  | neg t ih | squash t ih => exact ih h
  | var v =>
      refine .inr ?_
      cases v with
      | base x =>
          refine ⟨.tuple x, List.mem_singleton_self _, ?_⟩
          by_cases hx : x = source <;>
            simpa [rename, Var.renamed, elements, Element.renamed, hx] using h
      | proj attr x =>
          refine ⟨.column x attr, List.mem_singleton_self _, ?_⟩
          by_cases hx : x = source <;>
            simpa [rename, Var.renamed, elements, Element.renamed, hx] using h
  | table name v =>
      refine .inr ⟨.membership name v.tuple, List.mem_singleton_self _, ?_⟩
      cases v with
      | base x | proj _ x =>
          by_cases hx : x = source <;>
            simpa [rename, Var.renamed, elements, Element.renamed, Var.tuple, hx] using h
  | const | str => cases h

/-- The tuple of an element is mentioned, or bound in a summation. -/
theorem mentions_of_mem_elements {x : String} (hx : k.owner? = some x) {t : Term}
    (h : k ∈ t.elements) : t.mentions x = true ∨ ∃ b ∈ t.boundVars, b.var.tuple = x := by
  have members : ∀ {ts : List Term},
      (∀ t ∈ ts, k ∈ t.elements → t.mentions x = true ∨ ∃ b ∈ t.boundVars, b.var.tuple = x) →
      k ∈ elementsAll ts →
      mentionsAny x ts = true ∨ ∃ b ∈ ts.flatMap boundVars, b.var.tuple = x := by
    intro ts ih h
    obtain ⟨t, ht, hk⟩ := mem_elementsAll.mp h
    rw [mentionsAny_eq, List.any_eq_true]
    refine (ih t ht hk).imp (fun hx => ⟨t, ht, hx⟩) ?_
    rintro ⟨b, hb, hx⟩
    exact ⟨b, List.mem_flatMap.mpr ⟨t, ht, hb⟩, hx⟩
  induction t using Term.induct with
  | sum vars body ih =>
      rw [boundVars_sum, mentions]
      rcases ih h with hbody | ⟨b, hb, hx⟩
      · cases hbound : bound x vars with
        | false => exact .inl (by simpa using hbody)
        | true =>
            obtain ⟨v, hv, hx⟩ := OpenSum.bound_eq_true.mp hbound
            exact .inr ⟨_, List.mem_append_left _ (OpenSum.mem_ofBinder_self hv), hx⟩
      · exact .inr ⟨b, List.mem_append_right _ hb, hx⟩
  | add ts ih | mul ts ih | func _ ts ih =>
      rw [boundVars, forest, flatten_nodes_forestAll]
      exact members ih h
  | pred kind ts ih =>
      rw [boundVars_pred]
      rcases List.mem_append.mp h with h | h
      · obtain ⟨name, rfl⟩ := Pred.exists_of_mem_elements h
        cases hx
      · exact members ih h
  | neg t ih | squash t ih => exact ih h
  | var v =>
      cases v <;>
      · obtain rfl := List.mem_singleton.mp h
        cases hx
        exact .inl (by simp [mentions, Var.tuple])
  | table name v =>
      obtain rfl := List.mem_singleton.mp h
      cases hx
      exact .inl (by simp [mentions])
  | const | str => cases h

/-- The elements of a stripped term: placeholders, and the elements of the term that are outside its
summations, where their tuples are mentioned. -/
theorem mem_elements_strip {σ : Type} {fresh : σ → String × σ} {t : Term} {s : σ}
    (h : k ∈ (t.strip fresh s).1.elements) :
    (k ∈ t.elements ∧ ∀ x, k.owner? = some x → t.mentions x = true) ∨
      ∃ st ∈ (t.strip fresh s).2.1, k = .tuple st.name := by
  have members : ∀ {ts : List Term},
      (∀ t ∈ ts, ∀ {s : σ}, k ∈ (t.strip fresh s).1.elements →
        (k ∈ t.elements ∧ ∀ x, k.owner? = some x → t.mentions x = true) ∨
          ∃ st ∈ (t.strip fresh s).2.1, k = .tuple st.name) →
      ∀ {s : σ}, k ∈ elementsAll (stripList fresh ts s).1 →
        (k ∈ elementsAll ts ∧ ∀ x, k.owner? = some x → mentionsAny x ts = true) ∨
          ∃ st ∈ (stripList fresh ts s).2.1, k = .tuple st.name := by
    intro ts ih
    induction ts with
    | nil => exact fun h => by cases h
    | cons t ts ihs =>
        rw [List.forall_mem_cons] at ih
        intro s h
        rw [stripList, elementsAll, List.mem_append] at h
        simp only [stripList, elementsAll, mentionsAny, List.mem_append, Bool.or_eq_true,
          or_and_right, exists_or]
        rcases h with h | h
        · exact (ih.1 h).imp (fun h => .inl ⟨h.1, fun x hx => .inl (h.2 x hx)⟩) .inl
        · exact (ihs ih.2 h).imp (fun h => .inr ⟨h.1, fun x hx => .inr (h.2 x hx)⟩) .inr
  induction t using Term.induct generalizing s with
  | sum vars body _ => exact .inr ⟨_, List.mem_singleton_self _, List.mem_singleton.mp h⟩
  | add ts ih | mul ts ih | func _ ts ih => exact members ih h
  | pred kind ts ih =>
      rw [strip, elements, List.mem_append] at h
      rcases h with h | h
      · obtain ⟨name, rfl⟩ := Pred.exists_of_mem_elements h
        exact .inl ⟨List.mem_append_left _ h, by simp [Element.owner?]⟩
      · exact (members ih h).imp_left fun h => ⟨List.mem_append_right _ h.1, h.2⟩
  | neg t ih | squash t ih => exact ih h
  | var v | table _ v =>
      exact .inl ⟨h, fun x hx => (mentions_of_mem_elements hx h).resolve_right
        fun hb => hb.elim fun _ hb => List.not_mem_nil hb.1⟩
  | const | str => cases h

end Term

/-- The elements of what is left of a summation. -/
theorem OpenSum.mem_elements_rest {s : OpenSum} {matched : Option Var} {tuple : String}
    {k : Element} (h : k ∈ (s.rest matched tuple).elements) :
    (k ∈ s.body.elements ∧ ∀ v ∈ matched, ∃ b ∈ s.body.boundVars, b.var.tuple = v.tuple) ∨
      ∃ v ∈ matched, ∃ k' ∈ s.body.elements, k = k'.renamed v.tuple tuple := by
  cases matched with
  | none => exact .inl ⟨h, nofun⟩
  | some v =>
      have hrename : k ∈ (s.body.rename v.tuple tuple).elements := by
        rw [rest_some] at h
        split at h <;> exact h
      refine (Term.mem_elements_rename hrename).imp (fun h => ⟨h.1, ?_⟩) fun h => ⟨v, rfl, h⟩
      rintro w hw
      cases hw
      exact h.2

namespace Encoder

variable {α β : Type} {K : Element → Prop} {I : Encoder → Prop} {A : Encoder → Encoder → Prop}
  {L : Encoder → Formula → Prop} {e e' : Encoder}

/-! ### Rules for the steps -/

/-- What is known of the steps of encoding a term whose elements have the property `K`.  The state
of the encoder keeps the invariant `I`, `A` relates it to later states, and `L` is known of the
symbols and conditions that are written. -/
structure EncodeRule (K : Element → Prop) (I : Encoder → Prop) (A : Encoder → Encoder → Prop)
    (L : Encoder → Formula → Prop) : Prop where
  refl : ∀ e, A e e
  trans : ∀ {e e₁ e'}, A e e₁ → A e₁ e' → A e e'
  keep : ∀ {e e'}, A e e' → I e → I e'
  mono : ∀ {e e' l}, A e e' → L e l → L e' l
  placeholder : ∀ {e x}, I e → x ∈ e.counts → L e (.sym ⟨x, .int⟩)
  column : ∀ {e x attr}, K (.column x attr) → L e (.sym (e.column x attr))
  membership : ∀ {e table x}, K (.membership table x) → L e (.sym ⟨countName table x, .nat⟩)
  test : ∀ {e name x attr}, K (.test name) → K (.column x attr) →
    L e (.sym (testFlag name x attr))
  null : ∀ {e x attr}, I e → K (.column x attr) →
    A e (e.nullFlag x attr).2 ∧ L (e.nullFlag x attr).2 (.sym ⟨nullName x attr, .nat⟩)
  literal : ∀ {e} s, I e → A e (e.literal s).2 ∧ L (e.literal s).2 (.sym (e.literal s).1)
  counting : ∀ {e name app v e'}, I e → isCounting name = true →
    Returns (counting name app) e v e' → A e e' ∧ L e' (.sym v)
  equation : ∀ {e q}, I e → q.Compares e.schemas → K (.tuple q.left) → K (.tuple q.right) →
    e.isCount q.left = false → e.isCount q.right = false →
    A e { e with equations := e.equations ++ [q] } ∧
      L { e with equations := e.equations ++ [q] } q.condition

/-- Started in the state `e`, the computation ends in a related state, and what it returns has the
property there. -/
def Yields (A : Encoder → Encoder → Prop) (e : Encoder) (x : EncodeM α) (P : Encoder → α → Prop) :
    Prop := ∀ a e', Returns x e a e' → A e e' ∧ P e' a

theorem yields_refuse {P : Encoder → α → Prop} (err : Error) : Yields A e (refuse err) P :=
  fun _ _ h => absurd h not_returns_refuse

theorem made_holds {P : Formula → Prop} {f : Formula} (h : f.Made P) : (holds f).Made P := by
  simpa [holds] using h

namespace EncodeRule

variable (rule : EncodeRule K I A L)
include rule

section Yields

variable {x : EncodeM α} {P : Encoder → α → Prop} {Q : Encoder → β → Prop}

/-- Runs in turn: the second starts where the first one ends. -/
theorem bind {f : α → EncodeM β} (hx : Yields A e x P)
    (hf : ∀ a e₁, A e e₁ → P e₁ a → Yields A e₁ (f a) Q) : Yields A e (x >>= f) Q := by
  intro b e₂ h
  obtain ⟨a, e₁, h₁, h₂⟩ := returns_bind.mp h
  obtain ⟨hrel, ha⟩ := hx a e₁ h₁
  obtain ⟨hrel', hb⟩ := hf a e₁ hrel ha b e₂ h₂
  exact ⟨rule.trans hrel hrel', hb⟩

theorem pure {a : α} (h : P e a) : Yields A e (pure a) P := by
  intro b e' hreturns
  obtain ⟨rfl, rfl⟩ := returns_pure.mp hreturns
  exact ⟨rule.refl _, h⟩

theorem map {g : α → β} (hx : Yields A e x P) (hg : ∀ a e₁, P e₁ a → Q e₁ (g a)) :
    Yields A e (do return g (← x)) Q :=
  rule.bind hx fun a e₁ _ ha => rule.pure (hg a e₁ ha)

theorem get : Yields A e get fun e₁ e₀ => e₀ = e ∧ e₁ = e := by
  intro a e' h
  obtain ⟨rfl, rfl⟩ := returns_get.mp h
  exact ⟨rule.refl _, rfl, rfl⟩

end Yields

/-! ### Predicates and functions -/

/-- The condition of a comparison of tuples is written by the rule. -/
theorem tupleComparison (kind : Pred) {x y : String} (he : I e) (hx : K (.tuple x))
    (hy : K (.tuple y)) (hcx : e.isCount x = false) (hcy : e.isCount y = false) :
    Yields A e (tupleComparison kind x y) fun e f => f.Made (L e) := by
  have hequation : Yields A e (tupleEquation x y) fun e f => f.Made (L e) := by
    intro c e' h
    obtain ⟨q, hq, rfl, rfl, rfl, rfl⟩ := tupleEquation_ok h
    obtain ⟨hrel, hleaf⟩ := rule.equation he hq hx hy hcx hcy
    refine ⟨hrel, ?_⟩
    rw [hq.condition] at hleaf ⊢
    exact Formula.made_and.mpr hleaf
  refine rule.bind hequation fun equal e₁ _ hequal => ?_
  cases kind with
  | eq | ne => exact rule.pure (by simpa using hequal)
  | lt | le | gt | ge | isNull | named => exact yields_refuse _

/-- A comparison of values writes nothing of its own. -/
theorem comparison (kind : Pred) {a b : Formula} (ha : a.Made (L e)) (hb : b.Made (L e)) :
    Yields A e (comparison kind a b) fun e f => f.Made (L e) := by
  cases kind with
  | eq | ne | lt | le => exact rule.pure (by simpa using ⟨ha, hb⟩)
  | gt | ge => exact rule.pure (by simpa using ⟨hb, ha⟩)
  | isNull | named => exact yields_refuse _

section Values

variable {values : EncodeM (List Formula)}
  (hvalues : ∀ {e}, I e → Yields A e values fun e fs => ∀ f ∈ fs, f.Made (L e))
include hvalues

theorem encodeBinary (kind : Pred) {args : List Term} (he : I e)
    (hargs : ∀ k ∈ Term.elementsAll args, K k) :
    Yields A e (encodeBinary kind args values) fun e f => f.Made (L e) := by
  refine rule.bind rule.get fun e₀ e₁ _ => ?_
  rintro ⟨rfl, rfl⟩
  split
  · next x y hxy =>
      unfold tuples? at hxy
      split at hxy
      · split at hxy
        · cases hxy
        · next hcount =>
            cases hxy
            rw [Bool.or_eq_true, not_or, Bool.not_eq_true, Bool.not_eq_true] at hcount
            exact rule.tupleComparison kind he (hargs _ (by simp [Term.elementsAll, Term.elements]))
              (hargs _ (by simp [Term.elementsAll, Term.elements])) hcount.1 hcount.2
      · cases hxy
  · refine rule.bind (hvalues he) fun fs e₂ _ hfs => ?_
    split
    · exact rule.comparison kind (hfs _ (by simp)) (hfs _ (by simp))
    · exact yields_refuse _

theorem encodeTest {flag : String → String → EncodeM Symbol} (name : String) {arg : Term}
    (he : I e) (hflag : ∀ attr x, arg = .var (.proj attr x) →
      Yields A e (flag x attr) fun e s => L e (.sym s)) :
    Yields A e (encodeTest flag name arg values) fun e f => f.Made (L e) := by
  unfold Encoder.encodeTest
  split
  · exact rule.map (hflag _ _ rfl) fun s e₁ hs => by simpa [isZero] using hs
  · exact rule.map (hvalues he) fun fs e₁ hfs => made_holds (Formula.made_func.mpr hfs)

/-- Predicates write flags and conditions, and what their arguments do. -/
theorem encodePred (kind : Pred) {args : List Term} (he : I e)
    (hargs : ∀ k ∈ (Term.pred kind args).elements, K k) :
    Yields A e (encodePred kind args values) fun e f => f.Made (L e) := by
  rw [Term.elements, List.forall_mem_append] at hargs
  unfold Encoder.encodePred
  split
  · refine rule.encodeTest hvalues _ he ?_
    rintro attr x rfl s e' h
    obtain ⟨⟩ := returns_step.mp h
    exact rule.null he (hargs.2 _ (by simp [Term.elementsAll, Term.elements]))
  · exact yields_refuse _
  · refine rule.encodeTest hvalues _ he ?_
    rintro attr x rfl
    exact rule.pure (rule.test (hargs.1 _ (List.mem_singleton_self _))
      (hargs.2 _ (by simp [Term.elementsAll, Term.elements])))
  · exact rule.map (hvalues he) fun fs e₁ hfs => made_holds (Formula.made_func.mpr hfs)
  · exact rule.encodeBinary hvalues kind he hargs.2
  · exact yields_refuse _

/-- Functions write what their arguments do, or a symbol of their own. -/
theorem encodeFunc (name : String) (args : List Term) (he : I e) :
    Yields A e (encodeFunc name args values) fun e f => f.Made (L e) := by
  have hfunc : ∀ {name : String} {type : SymbolType} {fs : List Formula} {e : Encoder},
      (∀ f ∈ fs, f.Made (L e)) → (Formula.func name fs type).Made (L e) :=
    Formula.made_func.mpr
  unfold Encoder.encodeFunc
  dsimp only
  split
  · exact rule.map (hvalues he) fun fs e₁ hfs => Formula.made_plus.mpr hfs
  · exact rule.map (hvalues he) fun fs e₁ hfs => Formula.made_mul.mpr hfs
  · refine rule.bind (hvalues he) fun fs e₁ _ hfs => ?_
    split
    · exact rule.pure (Formula.made_div.mpr ⟨hfs _ (by simp), hfs _ (by simp)⟩)
    · exact rule.pure (hfunc hfs)
  · refine rule.bind (hvalues he) fun fs e₁ _ hfs => ?_
    split
    · exact rule.pure (Formula.made_minus.mpr ⟨hfs _ (by simp), hfs _ (by simp)⟩)
    · exact rule.pure (hfunc hfs)
  · refine rule.bind (hvalues he) fun fs e₁ _ hfs => ?_
    split
    · exact rule.pure (Formula.made_minus.mpr ⟨Formula.made_zero, hfs _ (by simp)⟩)
    · exact rule.pure (hfunc hfs)
  · split
    · next hcounting =>
        refine rule.map (P := fun e s => L e (.sym s)) (fun s e' h => ?_)
          fun s e₁ hs => Formula.made_sym.mpr hs
        exact rule.counting he hcounting h
    · split
      · exact rule.map (hvalues he) fun fs e₁ hfs => hfunc hfs
      · exact rule.bind (hvalues he) fun fs e₁ _ hfs => rule.pure (hfunc hfs)

end Values

/-! ### Terms -/

section Lists

variable {ts : List Term}
  (hts : ∀ t ∈ ts, ∀ {e}, I e → Yields A e (encode t) fun e f => f.Made (L e))
include hts

theorem encodeList (he : I e) :
    Yields A e (encodeList ts) fun e fs => ∀ f ∈ fs, f.Made (L e) := by
  induction ts generalizing e with
  | nil => exact rule.pure (by simp)
  | cons t ts ih =>
      rw [List.forall_mem_cons] at hts
      refine rule.bind (hts.1 he) fun f e₁ h₁ hf => ?_
      refine rule.bind (ih hts.2 (rule.keep h₁ he)) fun fs e₂ h₂ hfs => ?_
      exact rule.pure (List.forall_mem_cons.mpr ⟨hf.mono fun _ => rule.mono h₂, hfs⟩)

/-- Factors are encoded until one is zero. -/
theorem encodeFactors (he : I e) :
    Yields A e (encodeFactors ts) fun e o => ∀ fs ∈ o, ∀ f ∈ fs, f.Made (L e) := by
  induction ts generalizing e with
  | nil => exact rule.pure (by simp)
  | cons t ts ih =>
      rw [List.forall_mem_cons] at hts
      refine rule.bind (hts.1 he) fun f e₁ h₁ hf => ?_
      split
      · exact rule.pure (by simp)
      · split
        · exact ih hts.2 (rule.keep h₁ he)
        · refine rule.bind (ih hts.2 (rule.keep h₁ he)) fun o e₂ h₂ ho => rule.pure fun fs hfs => ?_
          obtain ⟨gs, hgs, rfl⟩ := Option.map_eq_some_iff.mp hfs
          exact List.forall_mem_cons.mpr ⟨hf.mono fun _ => rule.mono h₂, ho gs hgs⟩

end Lists

/-- What is known of the steps is known of what the formula of a term is made from. -/
theorem encode {t : Term} (ht : ∀ k ∈ t.elements, K k) (he : I e) :
    Yields A e (encode t) fun e f => f.Made (L e) := by
  have members : ∀ {ts : List Term},
      (∀ t ∈ ts, ∀ {e}, (∀ k ∈ t.elements, K k) → I e →
        Yields A e (Encoder.encode t) fun e f => f.Made (L e)) →
      (∀ k ∈ Term.elementsAll ts, K k) →
      ∀ t ∈ ts, ∀ {e}, I e → Yields A e (Encoder.encode t) fun e f => f.Made (L e) :=
    fun ih hts t ht => ih t ht fun k hk => hts k (Term.mem_elementsAll.mpr ⟨t, ht, hk⟩)
  induction t using Term.induct generalizing e with
  | sum vars body _ =>
      rw [Encoder.encode]
      exact yields_refuse _
  | add ts ih =>
      rw [Encoder.encode]
      exact rule.map (rule.encodeList (members ih ht) he) fun fs e₁ hfs => Formula.made_plus.mpr hfs
  | mul ts ih =>
      rw [Encoder.encode]
      refine rule.bind (rule.encodeFactors (members ih ht) he) fun o e₁ _ ho => ?_
      cases o with
      | none => exact rule.pure Formula.made_zero
      | some fs => exact rule.pure (Formula.made_mul.mpr (ho fs rfl))
  | neg t ih | squash t ih =>
      rw [Encoder.encode]
      exact rule.map (ih ht he) fun f e₁ hf => by simpa using hf
  | pred kind ts ih =>
      have hts : ∀ k ∈ Term.elementsAll ts, K k := fun k hk => ht k (List.mem_append_right _ hk)
      rw [Encoder.encode]
      exact rule.encodePred (fun he => rule.encodeList (members ih hts) he) kind he ht
  | var v =>
      cases v with
      | base x =>
          rw [Encoder.encode]
          refine rule.bind rule.get fun e₀ e₁ _ => ?_
          rintro ⟨rfl, rfl⟩
          split
          · next hcount =>
              rw [isCount, decide_eq_true_eq] at hcount
              exact rule.pure (Formula.made_sym.mpr (rule.placeholder he hcount))
          · exact yields_refuse _
      | proj attr x =>
          rw [Encoder.encode]
          refine rule.map rule.get fun e₀ e₁ h => Formula.made_sym.mpr ?_
          rw [h.1, ← h.2]
          exact rule.column (ht _ (List.mem_singleton_self _))
  | const q =>
      rw [Encoder.encode]
      exact rule.pure (Formula.made_const q)
  | table name v =>
      cases v with
      | base x =>
          rw [Encoder.encode]
          refine rule.pure (Formula.made_sym.mpr (rule.membership (ht _ ?_)))
          exact List.mem_singleton_self _
      | proj attr x =>
          rw [Encoder.encode]
          exact yields_refuse _
  | func name ts ih =>
      rw [Encoder.encode]
      exact rule.encodeFunc (fun he => rule.encodeList (members ih ht) he) name ts he
  | str s =>
      rw [Encoder.encode]
      refine rule.map (P := fun e s => L e (.sym s)) (fun v e' h => ?_)
        fun v e₁ hv => Formula.made_sym.mpr hv
      have hliteral := rule.literal s he
      rwa [returns_step.mp h] at hliteral

end EncodeRule

end Encoder

end BagEquiv
