/-
**The tuples of layers.**

Each layer introduces tuples: a common one for every group of summations, and the variables of every
summation without a matched variable.  Common tuples have numbers of their own.  A bound variable
goes either way once: it is matched, and then its name is given up, or it is left over at some layer
and becomes a tuple there.  So the tuples have different names, and none is that of a variable that
was matched.

Main definition:

* `Term.Within` — a term is made from given names.

Main result:

* `Encoder.introduces_rule` — **the tuples that layers introduce**.
-/

import BagEquiv.Proofs.LayerCalls
import BagEquiv.Proofs.SymbolOrigins

set_option autoImplicit false

namespace BagEquiv

/-! ### Terms within some tuples -/

namespace Term

mutual

/-- The columns that occur in a term. -/
def columns : Term → List String
  | .sum _ body => columns body
  | .add terms => columnsAll terms
  | .mul factors => columnsAll factors
  | .neg term => columns term
  | .squash term => columns term
  | .pred _ args => columnsAll args
  | .var (.proj attr _) => [attr]
  | .var (.base _) => []
  | .const _ => []
  | .table _ _ => []
  | .func _ args => columnsAll args
  | .str _ => []

def columnsAll : List Term → List String
  | [] => []
  | t :: ts => columns t ++ columnsAll ts

end

theorem columnsAll_eq (ts : List Term) : columnsAll ts = ts.flatMap columns := by
  induction ts with
  | nil => rfl
  | cons t ts ih => rw [columnsAll, ih, List.flatMap_cons]

theorem columns_rename (source target : String) (t : Term) :
    (t.rename source target).columns = t.columns := by
  induction t using Term.induct with
  | sum vars body ih =>
      rw [rename]
      split
      · rfl
      · exact ih
  | add ts ih | mul ts ih | pred _ ts ih | func _ ts ih =>
      rw [rename, columns, columns, columnsAll_eq, columnsAll_eq, renameList_eq, List.flatMap_map]
      exact List.flatMap_congr ih
  | neg t ih | squash t ih => exact ih
  | var v =>
      cases v with
      | base x | proj attr x => rw [rename, Var.renamed]; split <;> rfl
  | const | table | str => rfl

theorem columns_of_mem_summations {t : Term} {s : VarSet × Term} (hs : s ∈ t.summations) :
    s.2.columns ⊆ t.columns := by
  induction t using Term.induct with
  | sum vars body _ =>
      obtain rfl := List.mem_singleton.mp hs
      exact List.Subset.refl _
  | add ts ih | mul ts ih | pred _ ts ih | func _ ts ih =>
      obtain ⟨t, ht, hs⟩ := mem_summationsAll.mp hs
      rw [columns, columnsAll_eq]
      exact fun a ha => List.mem_flatMap.mpr ⟨t, ht, ih t ht hs ha⟩
  | neg t ih | squash t ih => exact ih hs
  | var | const | table | str => cases hs

/-- The columns of the elements of a term. -/
theorem mem_columns_of_elements {x attr : String} {t : Term}
    (h : .column x attr ∈ t.elements) : attr ∈ t.columns := by
  have members : ∀ {ts : List Term}, (∀ t ∈ ts, .column x attr ∈ t.elements → attr ∈ t.columns) →
      .column x attr ∈ elementsAll ts → attr ∈ columnsAll ts := by
    intro ts ih h
    obtain ⟨t, ht, h⟩ := mem_elementsAll.mp h
    rw [columnsAll_eq]
    exact List.mem_flatMap.mpr ⟨t, ht, ih t ht h⟩
  induction t using Term.induct with
  | sum vars body ih | neg t ih | squash t ih => exact ih h
  | add ts ih | mul ts ih | func _ ts ih => exact members ih h
  | pred kind ts ih =>
      rcases List.mem_append.mp h with h | h
      · obtain ⟨name, hname⟩ := Pred.exists_of_mem_elements h
        cases hname
      · exact members ih h
  | var v =>
      cases v with
      | base y => simp [elements] at h
      | proj a y =>
          obtain ⟨rfl, rfl⟩ : x = y ∧ attr = a := by simpa [elements] using h
          exact List.mem_singleton_self _
  | table name v => simp [elements] at h
  | const | str => cases h

/-- The term mentions tuples and columns of `N` only. -/
structure Within (N : Lexicon) (t : Term) : Prop where
  mentions : ∀ x, t.mentions x = true → N.tuple x
  columns : ∀ a ∈ t.columns, N.column a

variable {N : Lexicon}

theorem Within.mono {M : Lexicon} {t : Term} (h : t.Within N) (hNM : N ≤ M) :
    t.Within M :=
  ⟨fun x hx => hNM.1 x (h.mentions x hx), fun a ha => hNM.2 a (h.columns a ha)⟩

theorem Within.of_mem_summations {t : Term} (h : t.Within N) {s : VarSet × Term}
    (hs : s ∈ t.summations) : (Term.sum s.1 s.2).Within N :=
  ⟨fun x hx => h.mentions x (mentions_of_mem_summations hs hx),
    fun a ha => h.columns a (columns_of_mem_summations hs ha)⟩

/-- With placeholders for its summations the term is about the same tuples. -/
theorem Within.about_strip {σ : Type} {fresh : σ → String × σ} {C : List String} {t : Term}
    (h : t.Within N) {s : σ} (hC : ∀ st ∈ (t.strip fresh s).2.1, st.name ∈ C) :
    ∀ k ∈ (t.strip fresh s).1.elements, k.About N C := by
  intro k hk
  rcases mem_elements_strip hk with ⟨hk, hmentions⟩ | ⟨st, hst, rfl⟩
  · cases k with
    | tuple x => exact .inl (h.mentions x (hmentions x rfl))
    | column x attr =>
        exact ⟨h.mentions x (hmentions x rfl), h.columns attr (mem_columns_of_elements hk)⟩
    | membership table x => exact h.mentions x (hmentions x rfl)
    | test name => trivial
  · exact .inr (hC st hst)

end Term

namespace OpenSum

variable {N : Lexicon} {s : OpenSum}

/-- What is left of a summation is within the tuples of the summation, and those of the layer. -/
theorem within_rest (h : s.term.Within N) {matched : Option Var} {tuple : String}
    (hcommon : ∀ v, matched = some v → N.tuple tuple)
    (hlocal : matched = none → ∀ v ∈ s.vars, N.tuple v.tuple) :
    (s.rest matched tuple).Within N := by
  cases matched with
  | none =>
      refine ⟨fun x hx => ?_, h.columns⟩
      rcases mentions_body hx with hx | ⟨v, hv, rfl⟩
      · exact h.mentions x hx
      · exact hlocal rfl v hv
  | some v =>
      have hbody : (s.body.rename v.tuple tuple).columns = s.term.columns :=
        Term.columns_rename _ _ _
      -- What the renamed body mentions is the new tuple or was mentioned without the variable.
      have hmentions : ∀ x, (s.rest (some v) tuple).mentions x = true →
          x = tuple ∨ x ≠ v.tuple ∧ (s.without v).mentions x = true := by
        intro x hx
        rw [rest] at hx
        rw [without]
        split at hx
        · next hempty =>
            exact (Term.mentions_rename hx).imp_right fun h => ⟨h.1, by rw [if_pos hempty, h.2]⟩
        · next hempty =>
            rw [Term.mentions, Bool.and_eq_true] at hx
            refine (Term.mentions_rename hx.2).imp_right fun h => ⟨h.1, ?_⟩
            rw [if_neg hempty, Term.mentions, hx.1, h.2]
            rfl
      refine ⟨fun x hx => ?_, ?_⟩
      · rcases hmentions x hx with rfl | ⟨hne, hx⟩
        · exact hcommon v rfl
        · exact h.mentions x (mentions_without hx hne)
      · rw [rest]
        split
        · exact hbody ▸ h.columns
        · exact hbody ▸ h.columns

end OpenSum

namespace Encoder

variable {N : Lexicon} {e e' e₁ : Encoder}

/-! ### The rows of stars -/

/-- A part of a run that introduces no tuple and keeps the account. -/
structure Continues (N : Lexicon) (e e' : Encoder) : Prop extends Accounted N e' where
  tuples_eq : e'.tuples = e.tuples
  next_le : e.next ≤ e'.next

theorem Continues.trans (h : Continues N e e₁) (h' : Continues N e₁ e') : Continues N e e' :=
  { h' with
    tuples_eq := h'.tuples_eq.trans h.tuples_eq
    next_le := h.next_le.trans h'.next_le }

/-- A computation that keeps the account whatever placeholders and tuples are in use. -/
theorem Preserves.continues {α : Type} {x : EncodeM α} {P : α → Prop} {a : α}
    (hx : Preserves (Steady N e.counts e.tuples e.next) x P) (he : e.Accounted N)
    (h : Returns x e a e') : Continues N e e' ∧ e'.counts = e.counts ∧ P a := by
  obtain ⟨hsteady, ha⟩ :=
    hx e a e' { he with counts_eq := rfl, tuples_eq := rfl, next_le := le_rfl } h
  exact ⟨{ hsteady with }, hsteady.counts_eq, ha⟩

/-- The placeholder has an origin, and the summation is within the given tuples. -/
structure CountedWithin (N : Lexicon) (p : Counted) : Prop where
  symbol : p.1.Origin N
  sum : p.2.term.Within N

theorem accounted_stripTerm {t t' : Term} {side : Side} {found : List Counted}
    (he : e.Accounted N) (ht : t.Within N) (h : Returns (stripTerm t side) e (t', found) e') :
    Continues N e e' ∧ (∀ C, e'.counts ⊆ C → ∀ k ∈ t'.elements, k.About N C) ∧
      ∀ p ∈ found, CountedWithin N p := by
  have hopened := stripTerm_ok h
  have hdraws := draws_strip t e
  have hstate := returns_step.mp h
  obtain ⟨h₁, rfl⟩ := Prod.mk.inj hstate
  obtain ⟨rfl, rfl⟩ := Prod.mk.inj h₁
  refine ⟨⟨?_, by rw [hdraws.state], hopened.growth.next⟩, fun C hC => ?_, fun p hp => ⟨?_, ?_⟩⟩
  · rw [hdraws.state]
    refine { he with counts := List.forall_mem_append.mpr ⟨fun x hx => ?_, he.counts⟩ }
    obtain ⟨k, -, -, hk⟩ := hdraws.exists_number (List.mem_reverse.mp hx)
    exact ⟨k, hk⟩
  · exact ht.about_strip fun st hst => hC (hopened.counts _ (List.mem_map_of_mem hst))
  · obtain ⟨k, -, -, hk⟩ := hopened.symbols p hp
    exact hk ▸ .placeholder k
  · have hmem : p.2 ∈ OpenSum.ofTerm t side := hopened.sums ▸ List.mem_map_of_mem hp
    obtain ⟨s, hs, heq⟩ := List.mem_map.mp hmem
    rw [← heq]
    exact ht.of_mem_summations hs

/-- The rows of a star keep the account, and their symbols have an origin. -/
theorem starRows_accounted {tuple : String} {ms : List Member} {rows : List (Symbol × Formula)}
    {below : List Counted} (he : e.Accounted N)
    (hms : ∀ m ∈ ms, (m.sum.rest m.matched tuple).Within N)
    (h : Returns (starRows tuple ms) e (rows, below) e') :
    Continues N e e' ∧ (∀ r ∈ rows, r.1.Origin N ∧ Sourced N r.2) ∧
      ∀ p ∈ below, CountedWithin N p := by
  replace h := rowRun_of_starRows h
  induction h with
  | nil => exact ⟨{ he with tuples_eq := rfl, next_le := le_rfl }, by simp, by simp⟩
  | @cons _ _ _ _ _ _ _ _ e₁ _ _ hstrip hencode _ ih =>
      rw [List.forall_mem_cons] at hms
      obtain ⟨hstripped, habout, hinner⟩ := accounted_stripTerm he hms.1 hstrip
      have hmarked : Continues N e₁ { e₁ with next := e₁.next + 1 } :=
        { hstripped.toAccounted with tuples_eq := rfl, next_le := Nat.le_succ _ }
      obtain ⟨hencoded, -, hf⟩ := Preserves.continues (e := { e₁ with next := e₁.next + 1 })
        (preserves_encode (habout _ (List.Subset.refl _))) hmarked.toAccounted hencode
      obtain ⟨hrest, hrows, hmore⟩ := ih hencoded.toAccounted hms.2
      refine ⟨((hstripped.trans hmarked).trans hencoded).trans hrest,
        List.forall_mem_cons.mpr ⟨⟨.rowCount _, ?_⟩, hrows⟩,
        List.forall_mem_append.mpr ⟨hinner, hmore⟩⟩
      exact Formula.over_eq.mpr ⟨Formula.over_sym.mpr (.rowCount _), hf⟩

end Encoder

/-! ### Names that are matched and names that are left over -/

theorem mem_sum_map {α β : Type} {f : α → Multiset β} {xs : List α} {b : β} :
    b ∈ (xs.map f).sum ↔ ∃ a ∈ xs, b ∈ f a := by
  induction xs with
  | nil => simp
  | cons a xs ih =>
      rw [List.map_cons, List.sum_cons, Multiset.mem_add, ih, List.exists_mem_cons_iff]

namespace Outline

mutual

/-- The names of the tuples that a summation and those inside it bind. -/
def names : Outline → Multiset String
  | .mk _ vars inner => (vars.toList.map Var.tuple : List String) + namesAll inner

def namesAll : List Outline → Multiset String
  | [] => 0
  | o :: os => names o + namesAll os

end

theorem namesAll_eq (os : List Outline) : namesAll os = (os.map names).sum := by
  induction os with
  | nil => rfl
  | cons o os ih => rw [namesAll, ih, List.map_cons, List.sum_cons]

variable (matched : VarSet → Option Var)

/-- The name of the variable that is matched. -/
def matchedNames : Outline → Multiset String
  | .mk _ vars _ => (((matched vars).map Var.tuple).toList : List String)

/-- The names of the variables if none of them is matched. -/
def looseNames : Outline → Multiset String
  | .mk _ vars _ => if (matched vars).isSome then 0 else (vars.toList.map Var.tuple : List String)

variable {matched}

/-- A name is matched, or left over at the layer, or bound below it. -/
theorem names_eq (hmatched : ∀ vars v, matched vars = some v → v ∈ vars) (o : Outline) :
    o.names = o.matchedNames matched + o.looseNames matched +
      ((o.peel matched).map names).sum := by
  obtain ⟨side, vars, inner⟩ := o
  cases hv : matched vars with
  | none => simp [names, matchedNames, looseNames, peel, namesAll_eq, hv]
  | some v =>
      -- The variable leaves the binder, and with no other variable the binder goes as well.
      have hvars : ((vars.toList.map Var.tuple : List String) : Multiset String) =
          {v.tuple} + ((vars.erase v).toList.map Var.tuple : List String) :=
        Multiset.coe_eq_coe.mpr ((VarSet.perm_cons_erase (hmatched vars v hv)).map Var.tuple)
      have hpeel : ((peel matched (.mk side vars inner)).map names).sum =
          ((vars.erase v).toList.map Var.tuple : List String) + (inner.map names).sum := by
        rw [peel, hv]
        dsimp only
        split
        · next hempty =>
            have hnil : (vars.erase v).toList = [] := List.isEmpty_iff.mp hempty
            rw [hnil]
            simp
        · simp [names, namesAll_eq]
      rw [hpeel, names, hvars, namesAll_eq, add_assoc]
      simp [matchedNames, looseNames, hv]

end Outline

namespace Matching

variable (m : Matching)

/-- The names that a summation at `depth` leaves over, at its layer and so many below. -/
def leftNames : (fuel depth : ℕ) → Outline → Multiset String
  | 0, _, _ => 0
  | fuel + 1, depth, o => o.looseNames (m.matchedAmong? depth) +
      ((o.peel (m.matchedAmong? depth)).map (leftNames fuel (depth + 1))).sum

variable {m} {depth : ℕ}

theorem mem_of_matchedAmong? {vars : VarSet} {v : Var} (h : m.matchedAmong? depth vars = some v) :
    v ∈ vars := by
  unfold matchedAmong? at h
  split at h
  · exact List.mem_of_find?_eq_some h
  · cases h

/-- The names of some summations: those matched at the layer, those left over, and those below. -/
theorem sum_names_eq (m : Matching) (depth : ℕ) (os : List Outline) : (os.map Outline.names).sum =
    (os.map (Outline.matchedNames (m.matchedAmong? depth))).sum +
      (os.map (Outline.looseNames (m.matchedAmong? depth))).sum +
      ((os.flatMap (Outline.peel (m.matchedAmong? depth))).map Outline.names).sum := by
  have hbelow : ((os.flatMap (Outline.peel (m.matchedAmong? depth))).map Outline.names).sum =
      (os.map fun o => ((o.peel (m.matchedAmong? depth)).map Outline.names).sum).sum := by
    rw [List.map_flatMap, List.flatMap_def, List.sum_flatten, List.map_map]
    rfl
  rw [hbelow, ← List.sum_map_add, ← List.sum_map_add]
  refine congrArg List.sum (List.map_congr_left fun o _ => ?_)
  exact o.names_eq fun _ _ => mem_of_matchedAmong?

theorem sum_leftNames_succ (fuel : ℕ) (os : List Outline) :
    (os.map (m.leftNames (fuel + 1) depth)).sum =
      (os.map (Outline.looseNames (m.matchedAmong? depth))).sum +
        ((os.flatMap (Outline.peel (m.matchedAmong? depth))).map
          (m.leftNames fuel (depth + 1))).sum := by
  rw [List.map_flatMap, List.flatMap_def, List.sum_flatten, List.map_map, ← List.sum_map_add]
  rfl

theorem sum_leftNames_le (m : Matching) (fuel depth : ℕ) (os : List Outline) :
    (os.map (m.leftNames fuel depth)).sum ≤ (os.map Outline.names).sum := by
  induction fuel generalizing depth os with
  | zero =>
      have hzero : (os.map (m.leftNames 0 depth)).sum = 0 := by simp [leftNames]
      exact hzero ▸ Multiset.zero_le _
  | succ fuel ih =>
      rw [sum_leftNames_succ, m.sum_names_eq depth, add_assoc]
      exact (add_le_add (le_refl _) (ih _ _)).trans (Multiset.le_add_left _ _)

/-- If all names differ, those matched are not left over, neither here nor below; and those below
are not left over here. -/
theorem names_disjoint (m : Matching) (depth : ℕ) {os : List Outline}
    (h : (os.map Outline.names).sum.Nodup) :
    (∀ x ∈ (os.map (Outline.matchedNames (m.matchedAmong? depth))).sum,
      x ∉ (os.map (Outline.looseNames (m.matchedAmong? depth))).sum +
        ((os.flatMap (Outline.peel (m.matchedAmong? depth))).map Outline.names).sum) ∧
    (∀ x ∈ ((os.flatMap (Outline.peel (m.matchedAmong? depth))).map Outline.names).sum,
      x ∉ (os.map (Outline.looseNames (m.matchedAmong? depth))).sum) ∧
    ((os.flatMap (Outline.peel (m.matchedAmong? depth))).map Outline.names).sum.Nodup := by
  rw [m.sum_names_eq depth, add_assoc, Multiset.nodup_add] at h
  obtain ⟨-, hrest, hdisjoint⟩ := h
  rw [Multiset.nodup_add] at hrest
  obtain ⟨-, hbelow, hdisjoint'⟩ := hrest
  exact ⟨fun _ => Multiset.disjoint_left.mp hdisjoint,
    fun _ => Multiset.disjoint_right.mp hdisjoint', hbelow⟩

/-- A variable that is matched at some layer is not left over. -/
theorem notMem_leftNames {os : List Outline} (hnodup : (os.map Outline.names).sum.Nodup) {k : ℕ}
    {label : Side × VarSet} (hlabel : label ∈ (os.map (m.tier k depth)).sum) {v : Var}
    (hv : m.matchedAmong? (depth + k) label.2 = some v) :
    v.tuple ∈ (os.map Outline.names).sum ∧
      ∀ fuel, v.tuple ∉ (os.map (m.leftNames fuel depth)).sum := by
  -- Down to the layer where it is matched the name is below, so that it is not left over before;
  -- there it is taken out, so that it is not left over later.
  induction k generalizing depth os with
  | zero =>
      obtain ⟨⟨side, vars, inner⟩, ho, hlabel⟩ := mem_sum_map.mp hlabel
      obtain rfl := Multiset.mem_singleton.mp hlabel
      have hv : m.matchedAmong? depth vars = some v := hv
      have hmatched : v.tuple ∈ (os.map (Outline.matchedNames (m.matchedAmong? depth))).sum :=
        mem_sum_map.mpr ⟨_, ho, by simp [Outline.matchedNames, hv]⟩
      refine ⟨?_, fun fuel hmem => (m.names_disjoint depth hnodup).1 _ hmatched ?_⟩
      · rw [m.sum_names_eq depth, add_assoc, Multiset.mem_add]
        exact .inl hmatched
      · cases fuel with
        | zero => simp [leftNames] at hmem
        | succ fuel =>
            rw [sum_leftNames_succ] at hmem
            exact Multiset.mem_of_le (add_le_add (le_refl _) (m.sum_leftNames_le _ _ _)) hmem
  | succ k ih =>
      obtain ⟨-, hdisjoint, hbelow⟩ := m.names_disjoint depth hnodup
      rw [← sum_tier_succ] at hlabel
      obtain ⟨hmem, hleft⟩ := ih hbelow hlabel (by rwa [Nat.add_right_comm])
      refine ⟨?_, fun fuel => ?_⟩
      · rw [m.sum_names_eq depth, Multiset.mem_add]
        exact .inr hmem
      · cases fuel with
        | zero => simp [leftNames]
        | succ fuel =>
            rw [sum_leftNames_succ, Multiset.mem_add, not_or]
            exact ⟨hdisjoint _ hmem, hleft fuel⟩

end Matching

namespace Encoder

variable {B : Lexicon} {e e' e₁ : Encoder} {L L' : Multiset String} {fs gs : List Formula}

/-! ### Introducing tuples -/

/-- The names that a formula may be made from: given ones, and those of the tuples introduced so
far. -/
def reported (B : Lexicon) (e : Encoder) : Lexicon :=
  { B with tuple := fun x => B.tuple x ∨ x ∈ e.tuples.map TupleInfo.name }

theorem reported_of_append {new : List TupleInfo} (h : e'.tuples = e.tuples ++ new) :
    e.reported B ≤ e'.reported B := by
  refine ⟨fun x hx => hx.imp_right fun hx => ?_, fun _ => id⟩
  rw [h, List.map_append]
  exact List.mem_append_left _ hx

theorem reported_of_tuples_eq (h : e'.tuples = e.tuples) : e'.reported B = e.reported B := by
  unfold reported
  rw [h]

/-- The part of a run from `e` to `e'` introduces common tuples, numbered as they come, and tuples
with the names `L`.  The formulas that it returns are about given and reported tuples. -/
structure Introduces (B : Lexicon) (L : Multiset String) (e : Encoder) (fs : List Formula)
    (e' : Encoder) : Prop where
  next_le : e.next ≤ e'.next
  tuples : ∃ (new : List TupleInfo) (numbers : List ℕ), e'.tuples = e.tuples ++ new ∧
    (new.map TupleInfo.name : Multiset String) =
      (numbers.map fun k => "#ct" ++ toString k : List String) + L ∧
    numbers.Nodup ∧ ∀ k ∈ numbers, e.next ≤ k ∧ k < e'.next
  accounted : e'.Accounted (e'.reported B)
  sourced : ∀ f ∈ fs, Sourced (e'.reported B) f

namespace Introduces

theorem reported_le (h : Introduces B L e fs e') : e.reported B ≤ e'.reported B := by
  obtain ⟨new, -, htuples, -⟩ := h.tuples
  exact reported_of_append htuples

theorem append (h : Introduces B L e fs e₁) (h' : Introduces B L' e₁ gs e') :
    Introduces B (L + L') e (fs ++ gs) e' := by
  have hnext := h.next_le
  have hnext' := h'.next_le
  refine ⟨hnext.trans hnext', ?_, h'.accounted, List.forall_mem_append.mpr ⟨?_, h'.sourced⟩⟩
  · obtain ⟨new, ks, htuples, hnames, hnodup, hks⟩ := h.tuples
    obtain ⟨new', ks', htuples', hnames', hnodup', hks'⟩ := h'.tuples
    refine ⟨new ++ new', ks ++ ks', by rw [htuples', htuples, List.append_assoc], ?_, ?_, ?_⟩
    · rw [List.map_append, ← Multiset.coe_add, hnames, hnames', add_add_add_comm, List.map_append,
        ← Multiset.coe_add]
    · -- What comes later has greater numbers.
      refine List.nodup_append.mpr ⟨hnodup, hnodup', fun k hk k' hk' => ?_⟩
      have := hks k hk
      have := hks' k' hk'
      omega
    · refine List.forall_mem_append.mpr ⟨fun k hk => ?_, fun k hk => ?_⟩
      · have := hks k hk
        omega
      · have := hks' k hk
        omega
  · exact fun f hf s hs => (h.sourced f hf s hs).mono h'.reported_le

end Introduces

/-- A part of a run that introduces no tuple. -/
theorem Continues.introduces (h : Continues (e.reported B) e e')
    (hfs : ∀ f ∈ fs, Sourced (e.reported B) f) : Introduces B 0 e fs e' := by
  have hreported : e'.reported B = e.reported B := reported_of_tuples_eq h.tuples_eq
  refine ⟨h.next_le, ⟨[], [], ?_, rfl, List.nodup_nil, by simp⟩, ?_, ?_⟩
  · rw [h.tuples_eq, List.append_nil]
  · exact hreported ▸ h.toAccounted
  · exact hreported ▸ hfs

theorem introduces_nil (he : e.Accounted (e.reported B)) : Introduces B 0 e [] e :=
  Continues.introduces { he with tuples_eq := rfl, next_le := le_rfl } (by simp)

theorem CountedWithin.mono {N M : Lexicon} {p : Counted} (h : CountedWithin N p)
    (hNM : N ≤ M) : CountedWithin M p :=
  ⟨h.symbol.mono hNM, h.sum.mono hNM⟩

/-! ### Stars and layers -/

/-- The stars of a scope introduce the tuples that are left over at `depth` and below. -/
def IntroducesLeft (B : Lexicon) (m : Matching) (fuel depth : ℕ)
    (next : List Counted → EncodeM (List Formula)) : Prop :=
  ∀ scope e fs e', e.Accounted (e.reported B) → (∀ p ∈ scope, CountedWithin (e.reported B) p) →
    Returns (next scope) e fs e' →
    Introduces B (((scope.map Prod.snd).map OpenSum.outline).map (m.leftNames fuel depth)).sum
      e fs e'

variable {m : Matching} {fuel depth : ℕ} {next : List Counted → EncodeM (List Formula)}

theorem introduces_star {tuple : String} {ms : List Member} {f : Formula}
    (hnext : IntroducesLeft B m fuel (depth + 1) next) (he : e.Accounted (e.reported B))
    (hms : ∀ mem ∈ ms, mem.symbol.Origin (e.reported B))
    (hrest : ∀ mem ∈ ms, (mem.sum.rest mem.matched tuple).Within (e.reported B))
    (hmatched : ∀ mem ∈ ms, mem.matched = m.matchedIn? depth mem.sum)
    (h : Returns (star next tuple ms) e f e') :
    Introduces B ((ms.flatMap fun mem => mem.sum.outline.peel (m.matchedAmong? depth)).map
      (m.leftNames fuel (depth + 1))).sum e [f] e' := by
  obtain ⟨rows, below, nulls, stars, e₁, e₂, hrows, hnulls, hstars, rfl⟩ := exists_of_star h
  obtain ⟨hcontinues, hsourced, hbelow⟩ := starRows_accounted he hrest hrows
  obtain ⟨hcontinues', -, hconstraints⟩ :=
    Preserves.continues preserves_congruence hcontinues.toAccounted hnulls
  -- Tuples are introduced only by what is below.
  have hquiet : Introduces B 0 e (rows.map Prod.snd ++ nulls) e₂ := by
    refine (hcontinues.trans hcontinues').introduces (List.forall_mem_append.mpr ⟨?_, hconstraints⟩)
    exact List.forall_mem_map.mpr fun r hr => (hsourced r hr).2
  have hinner := hnext below e₂ stars e' hquiet.accounted
    (fun p hp => (hbelow p hp).mono hquiet.reported_le) hstars
  rw [outlines_below hmatched hrows] at hinner
  have hall := hquiet.append hinner
  rw [zero_add] at hall
  refine ⟨hall.next_le, hall.tuples, hall.accounted, List.forall_mem_singleton.mpr ?_⟩
  rw [Sourced, Formula.over_star, List.forall_mem_map, List.forall_mem_map, Formula.over_and,
    List.forall_mem_append]
  exact ⟨⟨fun mem hmem => (hms mem hmem).mono hall.reported_le,
    fun r hr => (hsourced r hr).1.mono hall.reported_le⟩, hall.sourced,
    hall.accounted.distinctness⟩

theorem introduces_groupTuple {schema : Option Schema} (table : Option String)
    (he : e.Accounted (e.reported B)) (hschema : ∀ S ∈ schema, S.Within B) :
    Introduces B 0 e [] (groupTuple schema table e).2 := by
  have hschemas := fun x => schemas_groupTuple schema table e (x := x)
  rw [groupTuple_eq] at hschemas ⊢
  refine ⟨Nat.le_succ _, ⟨[_], [e.next], rfl, rfl, List.nodup_singleton _, ?_⟩, ?_, by simp⟩
  · exact List.forall_mem_singleton.mpr ⟨le_refl _, Nat.lt_succ_self _⟩
  · refine { he.mono (reported_of_append rfl) with columns := fun x S hS => ?_ }
    cases schema with
    | none => exact he.columns x S hS
    | some T =>
        rw [hschemas x (.inr rfl)] at hS
        split at hS
        · exact hschema S hS
        · exact he.columns x S hS

theorem introduces_localTuples (s : OpenSum) (he : e.Accounted (e.reported B)) :
    Introduces B (s.vars.toList.map Var.tuple : List String) e [] (localTuples s e) := by
  refine ⟨le_refl _, ⟨_, [], rfl, ?_, List.nodup_nil, by simp⟩, ?_, by simp⟩
  · rw [List.map_map]
    rfl
  · exact { he.mono (reported_of_append rfl) with }

/-- A station introduces its common tuple or the variables of its summation, and what is left of its
members is about these and the tuples before. -/
theorem introduces_enter {st : Station} {schemas : SchemaMap}
    (he : e.Accounted (e.reported B)) (hst : st.Proper schemas)
    (hcolumns : ∀ x S, schemas.get? x = some S → S.Within B)
    (hmatched : ∀ mem ∈ st.members, mem.matched = m.matchedIn? depth mem.sum) :
    Introduces B (st.members.map fun mem =>
      mem.sum.outline.looseNames (m.matchedAmong? depth)).sum e [] (st.enter e).2 ∧
    ∀ mem ∈ st.members, mem.sum.term.Within (e.reported B) →
      (mem.sum.rest mem.matched (st.enter e).1).Within ((st.enter e).2.reported B) := by
  cases st with
  | common schema ms =>
      have hschema : ∀ S ∈ schema, S.Within B := by
        intro S hS
        obtain ⟨mem, hmem⟩ := List.exists_mem_of_ne_nil _ hst.nonempty
        obtain ⟨v, -, hv⟩ := hst.matched mem hmem
        exact hcolumns v.tuple S (hv.trans hS)
      have hloose : (ms.map fun mem =>
          mem.sum.outline.looseNames (m.matchedAmong? depth)).sum = 0 := by
        refine List.sum_eq_zero (List.forall_mem_map.mpr fun mem hmem => ?_)
        obtain ⟨v, hv, -⟩ := hst.matched mem hmem
        have hv : m.matchedAmong? depth mem.sum.vars = some v := (hmatched mem hmem).symm.trans hv
        rw [OpenSum.outline, Outline.looseNames, hv]
        rfl
      have hintroduces := introduces_groupTuple (groupTable? ms) he hschema
      refine ⟨hloose ▸ hintroduces, fun mem hmem hterm => ?_⟩
      refine OpenSum.within_rest (hterm.mono hintroduces.reported_le) (fun v _ => ?_) ?_
      · rw [Station.enter, groupTuple_eq]
        exact .inr (List.mem_map.mpr ⟨_, List.mem_append_right _ (List.mem_singleton.mpr rfl), rfl⟩)
      · obtain ⟨v, hv, -⟩ := hst.matched mem hmem
        simp [hv]
  | single mem =>
      have hv : m.matchedAmong? depth mem.sum.vars = none :=
        (hmatched mem (List.mem_singleton.mpr rfl)).symm.trans hst
      have hloose : ([mem].map fun mem =>
          mem.sum.outline.looseNames (m.matchedAmong? depth)).sum =
            (mem.sum.vars.toList.map Var.tuple : List String) := by
        rw [List.map_singleton, List.sum_singleton, OpenSum.outline, Outline.looseNames, hv]
        rfl
      have hintroduces := introduces_localTuples mem.sum he
      refine ⟨hloose ▸ hintroduces, List.forall_mem_singleton.mpr fun hterm => ?_⟩
      refine OpenSum.within_rest (hterm.mono hintroduces.reported_le) ?_ fun _ v hv => ?_
      · simp [show mem.matched = none from hst]
      · refine .inr (List.mem_map.mpr ⟨_, List.mem_append_right _ (List.mem_map_of_mem hv), rfl⟩)

theorem introduces_resolve {st : Station} {schemas : SchemaMap} {f : Formula}
    (hnext : IntroducesLeft B m fuel (depth + 1) next) (he : e.Accounted (e.reported B))
    (hst : st.Proper schemas) (hcolumns : ∀ x S, schemas.get? x = some S → S.Within B)
    (hmatched : ∀ mem ∈ st.members, mem.matched = m.matchedIn? depth mem.sum)
    (hscope : ∀ mem ∈ st.members, CountedWithin (e.reported B) mem.counted)
    (h : Returns (resolve next st) e f e') :
    Introduces B ((st.members.map fun mem => mem.sum.outline).map
      (m.leftNames (fuel + 1) depth)).sum e [f] e' := by
  obtain ⟨tuple, e₁, henter, h₁⟩ := returns_bind.mp h
  obtain ⟨hintroduces, hrest⟩ := introduces_enter he hst hcolumns hmatched
  rw [returns_step.mp henter] at hintroduces hrest
  have hstar := introduces_star hnext hintroduces.accounted
    (fun mem hmem => (hscope mem hmem).symbol.mono hintroduces.reported_le)
    (fun mem hmem => hrest mem hmem (hscope mem hmem).sum) hmatched h₁
  rw [Matching.sum_leftNames_succ, List.map_map, List.flatMap_map]
  exact hintroduces.append hstar

/-- Layers introduce common tuples and the variables that are left over. -/
theorem introduces_rule (B : Lexicon) (m : Matching) : LayerRule m
    (fun _ _ e₀ e scope => e₀.Accounted (e₀.reported B) ∧ e.Accounted (e.reported B) ∧
      ∀ p ∈ scope, CountedWithin (e.reported B) p)
    (fun fuel depth scope e fs e' => Introduces B
      (((scope.map Prod.snd).map OpenSum.outline).map (m.leftNames fuel depth)).sum e fs e') where
  zero {depth _ _ scope} h := by
    have hzero : (((scope.map Prod.snd).map OpenSum.outline).map (m.leftNames 0 depth)).sum = 0 :=
      List.sum_eq_zero (List.forall_mem_map.mpr fun _ _ => rfl)
    exact hzero ▸ introduces_nil h.2.1
  nil h := introduces_nil h.2.1
  cons _ h h' := by
    rw [List.map_append, List.map_append, List.map_append, List.sum_append]
    exact h.append h'
  perm hperm h := by rwa [← (((hperm.map _).map _).map _).sum_eq]
  mono hsub h := ⟨h.1, h.2.1, fun p hp => h.2.2 p (hsub.subset hp)⟩
  keep h hscope := ⟨hscope.1, h.accounted, fun p hp => (hscope.2.2 p hp).mono h.reported_le⟩
  resolve := by
    intro fuel depth e₀ e st f e' next hnext hmatched hst ⟨h₀, he, hscope⟩ h
    have houtlines : ((st.members.map Member.counted).map Prod.snd).map OpenSum.outline =
        st.members.map fun mem => mem.sum.outline := by
      rw [List.map_map, List.map_map]
      rfl
    rw [houtlines]
    exact introduces_resolve (fun _ _ _ _ he hscope => hnext _ _ _ _ ⟨he, he, hscope⟩) he hst
      h₀.columns hmatched (fun mem hmem => hscope _ (List.mem_map_of_mem hmem)) h

end Encoder

end BagEquiv
