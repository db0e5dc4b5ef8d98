/-
**Terms and databases as bags.**

A summation adds up over the rows of the first table that its body says a variable is in.  Which
table this is depends on the order of the factors, and the rows come in the order in which the table
lists them.  None of it can be seen in the result: a row that is missing from one of the tables
makes the body zero, whatever the other factors are.  So only the multiplicities of rows matter, and
terms with equal keys mean the same.

Main definition:

* `Term.BindsTuples` — the summations of a term are over tuples, not over columns.

Main result:

* `Term.meaning_eq_of_key_eq` — **terms with equal keys mean the same in worlds with the
  same bags**.
-/

import Mathlib.Algebra.BigOperators.Group.Finset.Basic
import Mathlib.Data.List.Zip
import BagEquiv.Proofs.Keys
import BagEquiv.Proofs.EncodingSoundness

set_option autoImplicit false

namespace BagEquiv

/-! ### Totals over different rows -/

open Classical in
/-- Sums over different elements agree if only the common ones count. -/
theorem sum_map_of_zero_outside {α : Type} {as bs : List α} (has : as.Nodup) (hbs : bs.Nodup)
    {f : α → WithTop ℚ} (hzero : ∀ a, a ∉ as ∨ a ∉ bs → f a = 0) :
    (as.map f).sum = (bs.map f).sum := by
  have hunion : ∀ {cs : List α}, cs.Nodup → cs.toFinset ⊆ as.toFinset ∪ bs.toFinset →
      (∀ a, a ∉ cs → f a = 0) → (cs.map f).sum = ∑ a ∈ as.toFinset ∪ bs.toFinset, f a := by
    intro cs hcs hsub hcs0
    rw [← List.sum_toFinset f hcs]
    exact Finset.sum_subset hsub fun a _ ha => hcs0 a (by simpa using ha)
  rw [hunion has Finset.subset_union_left fun a ha => hzero a (.inl ha),
    hunion hbs Finset.subset_union_right fun a ha => hzero a (.inr ha)]

namespace World

/-- Totals over different rows agree if a world in which a tuple has a row that is not common to
both counts for nothing. -/
theorem total_of_zero_outside {Q : World → World → Prop} {f g : World → WithTop ℚ}
    {ranges : List (String × List ExactRow × List ExactRow)}
    (hnames : (ranges.map Prod.fst).Nodup)
    (hrows : ∀ range ∈ ranges, range.2.1.Nodup ∧ range.2.2.Nodup)
    (hbind : ∀ x r w w', Q w w' → Q (w.bind x r) (w'.bind x r))
    (hf : ∀ w w', Q w w' → f w = g w')
    (hzero : ∀ w w', Q w w' → ∀ range ∈ ranges, ∀ r, w.tuples range.1 = some r →
      r ∉ range.2.1 ∨ r ∉ range.2.2 → f w = 0)
    {w w' : World} (h : Q w w') :
    w.total f (ranges.map fun range => (range.1, range.2.1)) =
      w'.total g (ranges.map fun range => (range.1, range.2.2)) := by
  induction ranges generalizing w w' with
  | nil => exact hf w w' h
  | cons range ranges ih =>
      obtain ⟨x, rs, rs'⟩ := range
      rw [List.map_cons, List.nodup_cons] at hnames
      rw [List.forall_mem_cons] at hrows
      have hrest : ∀ r, (w.bind x r).total f (ranges.map fun range => (range.1, range.2.1)) =
          (w'.bind x r).total g (ranges.map fun range => (range.1, range.2.2)) := fun r =>
        ih hnames.2 hrows.2
          (fun w w' hw range hrange => hzero w w' hw range (List.mem_cons_of_mem _ hrange))
          (hbind x r w w' h)
      simp only [List.map_cons, total, ← hrest]
      refine sum_map_of_zero_outside hrows.1.1 hrows.1.2 fun r hr => ?_
      -- The other tuples have other names, so the tuple keeps the row.
      refine total_eq_zero (P := fun w => w.tuples x = some r ∧ ∃ w', Q w w') ?_ ?_
        ⟨tuples_bind_self w x r, _, hbind x r w w' h⟩
      · rintro range hrange q w ⟨hx, w', hw⟩
        obtain ⟨range', hrange', rfl⟩ := List.mem_map.mp hrange
        have hne : x ≠ range'.1 := fun heq =>
          hnames.1 (List.mem_map.mpr ⟨range', hrange', heq.symm⟩)
        exact ⟨(tuples_bind_of_ne w hne q).trans hx, _, hbind _ q w w' hw⟩
      · rintro w ⟨hx, w', hw⟩
        exact hzero w w' hw _ List.mem_cons_self r hx hr

/-! ### Worlds with the same bags -/

/-- The worlds have the same tuples, and rows occur equally often in their tables.  Each lists the
rows of a table once, but they may list them differently. -/
structure SameBags (w w' : World) : Prop where
  listed : w.Listed
  listed' : w'.Listed
  count : w'.count = w.count
  schemas : w'.schemas = w.schemas
  tuples : w'.tuples = w.tuples
  placeholders : w'.placeholders = w.placeholders

namespace SameBags

variable {w w' : World}

theorem bind (h : SameBags w w') (x : String) (r : ExactRow) :
    SameBags (w.bind x r) (w'.bind x r) where
  listed := ⟨h.listed.nodup, h.listed.count⟩
  listed' := ⟨h.listed'.nodup, h.listed'.count⟩
  count := h.count
  schemas := h.schemas
  tuples := by rw [World.bind, World.bind, h.tuples]
  placeholders := h.placeholders

theorem cell?_eq (h : SameBags w w') : w'.cell? = w.cell? := by
  funext x attr
  rw [cell?, cell?, h.tuples]

theorem compareTuples?_eq (h : SameBags w w') : w'.compareTuples? = w.compareTuples? := by
  funext kind x y
  simp only [compareTuples?, same?, h.tuples, h.schemas]

theorem named?_eq (h : SameBags w w') : w'.named? = w.named? := by
  funext t
  rw [named?, named?, h.placeholders]

end SameBags

end World

/-! ### Comparisons in the other direction -/

theorem Scalar.order?_swap (a b : Scalar ℚ) : b.order? a = (a.order? b).map Ordering.swap := by
  cases a <;> cases b <;> try rfl
  · next m n =>
      rcases lt_trichotomy m n with h | rfl | h
      · simp [order?, h, h.not_gt, h.ne']
      · simp [order?]
      · simp [order?, h, h.not_gt, h.ne']
  · next s t =>
      rcases lt_trichotomy s t with h | rfl | h
      · simp [order?, h, h.not_gt, h.ne']
      · simp [order?]
      · simp [order?, h, h.not_gt, h.ne']

namespace World

theorem same?_comm (w : World) (x y : String) : w.same? x y = w.same? y x := by
  unfold same?
  cases w.tuples x <;> cases w.tuples y <;> cases w.schemas x <;> cases w.schemas y <;> try rfl
  next a b sx sy =>
    have hagree : ∀ p : Column × Column, b.agree a p.swap = a.agree b p := by
      intro p
      rw [Bool.eq_iff_iff]
      simp only [ExactRow.agree, Prod.fst_swap, Prod.snd_swap, Bool.and_eq_true, decide_eq_true_iff]
      constructor <;> rintro ⟨hsome, heq⟩ <;> exact ⟨heq ▸ hsome, heq.symm⟩
    have hall : (sy.columns.zip sx.columns).all (b.agree a) =
        (sx.columns.zip sy.columns).all (a.agree b) := by
      rw [← List.zip_swap, List.all_map]
      exact congrArg _ (funext hagree)
    simp only [hall, ne_comm (a := sy.columns.length)]

theorem compareTuples?_comm (w : World) (kind : Pred) (x y : String) :
    w.compareTuples? kind x y = w.compareTuples? kind y x := by
  unfold compareTuples?
  rw [same?_comm]

theorem compare?_comm {kind : Pred} (hkind : kind.isSymmetric = true) (a b : Option (Scalar ℚ)) :
    compare? kind a b = compare? kind b a := by
  have hholds : ∀ o : Ordering, kind.holds? o.swap = kind.holds? o := by
    cases kind with
    | eq | ne => decide
    | lt | le | gt | ge | isNull | named => cases hkind
  unfold compare?
  cases a <;> cases b <;> try rfl
  next x y =>
    simp only [Option.bind_some, x.order?_swap y, Option.bind_map, Function.comp_def, hholds]

theorem pair?_comm (w : World) (t u : Term) : w.pair? [t, u] = (w.pair? [u, t]).map Prod.swap := by
  simp only [pair?]
  cases w.named? t <;> cases w.named? u <;> rfl

/-- Equality and its negation do not depend on the order of the arguments. -/
theorem judge_comm (w : World) {kind : Pred} (hkind : kind.isSymmetric = true) (t u : Term)
    (a b : Option (Scalar ℚ)) : w.judge kind [t, u] [a, b] = w.judge kind [u, t] [b, a] := by
  have hcompare : w.compareAll? kind [t, u] [a, b] = w.compareAll? kind [u, t] [b, a] := by
    unfold compareAll?
    rw [pair?_comm]
    cases w.pair? [u, t] with
    | none => exact compare?_comm hkind a b
    | some p => exact w.compareTuples?_comm kind p.2 p.1
  cases kind with
  | eq | ne => exact hcompare
  | lt | le | gt | ge | isNull | named => cases hkind

/-- Only two arguments are compared. -/
theorem judge_of_length_ne (w : World) {kind : Pred} (hkind : kind.isSymmetric = true)
    {ts : List Term} (h : ts.length ≠ 2) {values : List (Option (Scalar ℚ))}
    (hvalues : values.length = ts.length) : w.judge kind ts values = none := by
  have hcompare : w.compareAll? kind ts values = none := by
    match ts, values with
    | [], [] | [_], [_] | _ :: _ :: _ :: _, _ :: _ :: _ :: _ => rfl
    | [_, _], _ => exact absurd rfl h
  cases kind with
  | eq | ne => exact hcompare
  | lt | le | gt | ge | isNull | named => cases hkind

end World

namespace Term

/-- Equality and its negation do not depend on the order of the arguments. -/
theorem judge_perm (w : World) {kind : Pred} (hkind : kind.isSymmetric = true) {ts us : List Term}
    (h : ts.Perm us) :
    w.judge kind ts (meanings ts w) = w.judge kind us (meanings us w) := by
  by_cases hlength : ts.length = 2
  · obtain ⟨t, t', rfl⟩ := List.length_eq_two.mp hlength
    obtain ⟨u, u', rfl⟩ := List.length_eq_two.mp (h.length_eq ▸ hlength)
    have hmem : u ∈ [t, t'] := h.mem_iff.mpr List.mem_cons_self
    rcases List.mem_pair.mp hmem with rfl | rfl
    · obtain rfl := List.singleton_perm_singleton.mp (List.perm_cons u |>.mp h)
      rfl
    · have hswap := (List.Perm.swap t u []).trans h
      obtain rfl := List.singleton_perm_singleton.mp (List.perm_cons u |>.mp hswap)
      exact w.judge_comm hkind _ _ _ _
  · rw [w.judge_of_length_ne hkind hlength (by simp [meanings_eq_map]),
      w.judge_of_length_ne hkind (h.length_eq ▸ hlength) (by simp [meanings_eq_map])]

/-! ### Terms with equal keys -/

theorem tuple?_eq_of_key_eq {t u : Term} (h : t.key = u.key) : t.tuple? = u.tuple? := by
  cases sameNode_of_key_eq h <;> rfl

theorem column?_eq_of_key_eq {t u : Term} (h : t.key = u.key) : t.column? = u.column? := by
  cases sameNode_of_key_eq h <;> rfl

/-- What can be seen from the keys is the same for terms that have equal keys one by one. -/
theorem KeysEqual.map_eq {α : Type} {f g : Term → α} {ts us : List Term} (h : KeysEqual ts us)
    (hfg : ∀ t ∈ ts, ∀ u : Term, t.key = u.key → f t = g u) : ts.map f = us.map g := by
  induction h with
  | nil => rfl
  | cons hkey _ ih =>
      rw [List.forall_mem_cons] at hfg
      rw [List.map_cons, List.map_cons, hfg.1 _ hkey, ih hfg.2]

theorem isSome_tableOfAny? (x : String) (ts : List Term) :
    (tableOfAny? x ts).isSome = ts.any fun t => (t.tableOf? x).isSome := by
  induction ts with
  | nil => rfl
  | cons t ts ih => rw [tableOfAny?, Option.isSome_or, ih, List.any_cons]

/-- Whether a term says of a tuple that it is in a table can be seen from the key. -/
theorem isSome_tableOf?_of_key_eq {t u : Term} (h : t.key = u.key) (x : String) :
    (t.tableOf? x).isSome = (u.tableOf? x).isSome := by
  induction t using Term.induct generalizing u with
  | mul ts ih =>
      cases sameNode_of_key_eq h with
      | @mul _ us vs hkeys hperm =>
          have hany : (ts.any fun t => (t.tableOf? x).isSome) =
              vs.any fun t => (t.tableOf? x).isSome := by
            have := congrArg (List.any · id) (hkeys.map_eq fun t ht u hkey => ih t ht hkey)
            simpa [Function.comp_def] using this
          rw [tableOf?, tableOf?, isSome_tableOfAny?, isSome_tableOfAny?, hany, hperm.any_eq]
  | sum | add | neg | squash | pred | var | const | table | func | str =>
      cases sameNode_of_key_eq h <;> rfl

/-- Whether a term asks for the value of a whole tuple can be seen from the key. -/
theorem evaluable_eq_of_key_eq {t u : Term} (h : t.key = u.key) : t.evaluable = u.evaluable := by
  have members : ∀ {ts us : List Term}, KeysEqual ts us →
      (∀ t ∈ ts, ∀ {u : Term}, t.key = u.key → t.evaluable = u.evaluable) →
      evaluableAll ts = evaluableAll us := fun hkeys ih =>
    evaluableAll_congr (hkeys.map_eq fun t ht u hkey => ih t ht hkey)
  have arguments : ∀ (kind : Pred) {ts us : List Term}, KeysEqual ts us →
      kind.evaluates ts = kind.evaluates us := fun kind _ _ hkeys =>
    kind.evaluates_congr (hkeys.map_eq fun t _ u hkey => by rw [tuple?_eq_of_key_eq hkey])
  induction t using Term.induct generalizing u with
  | sum _ _ ih =>
      cases sameNode_of_key_eq h with
      | @sum _ _ _ hbody => rw [evaluable, evaluable, ih hbody]
  | add ts ih =>
      cases sameNode_of_key_eq h with
      | add hkeys hperm =>
          rw [evaluable, evaluable, members hkeys ih, evaluableAll_eq, evaluableAll_eq,
            hperm.all_eq]
  | mul ts ih =>
      cases sameNode_of_key_eq h with
      | mul hkeys hperm =>
          rw [evaluable, evaluable, members hkeys ih, evaluableAll_eq, evaluableAll_eq,
            hperm.all_eq]
  | neg _ ih =>
      cases sameNode_of_key_eq h with
      | neg hterm => rw [evaluable, evaluable, ih hterm]
  | squash _ ih =>
      cases sameNode_of_key_eq h with
      | squash hterm => rw [evaluable, evaluable, ih hterm]
  | pred kind ts ih =>
      cases sameNode_of_key_eq h with
      | symmetric _ hkeys hperm =>
          rw [evaluable, evaluable, arguments kind hkeys, members hkeys ih, evaluableAll_eq,
            evaluableAll_eq, hperm.all_eq, Pred.evaluates, Pred.evaluates, hperm.length_eq,
            hperm.any_eq]
      | pred _ hkeys => rw [evaluable, evaluable, arguments kind hkeys, members hkeys ih]
  | func name ts ih =>
      cases sameNode_of_key_eq h with
      | func _ hkeys => rw [evaluable, evaluable, members hkeys ih]
  | var | const | table | str =>
      cases sameNode_of_key_eq h
      rfl

/-- Arguments with equal keys name the same tuples and columns. -/
theorem judge_eq_of_keysEqual {w w' : World} (hw : w.SameBags w') (kind : Pred)
    {ts us : List Term} (h : KeysEqual ts us) (values : List (Option (Scalar ℚ))) :
    w'.judge kind us values = w.judge kind ts values := by
  have hnamed : ∀ {t u : Term}, t.key = u.key → w'.named? u = w.named? t := by
    intro t u hkey
    rw [hw.named?_eq, World.named?, World.named?, tuple?_eq_of_key_eq hkey]
  have hpair : w'.pair? us = w.pair? ts := by
    rcases h with _ | ⟨h₁, _ | ⟨h₂, _ | _⟩⟩
    case cons.cons.nil => simp only [World.pair?, hnamed h₁, hnamed h₂]
    all_goals rfl
  have hcompare : w'.compareAll? kind us values = w.compareAll? kind ts values := by
    unfold World.compareAll?
    rw [hpair, hw.compareTuples?_eq]
  cases kind with
  | isNull =>
      rcases h with _ | ⟨hkey, _ | _⟩
      case cons.nil => simp only [World.judge, column?_eq_of_key_eq hkey, hw.cell?_eq]
      all_goals rfl
  | named name => rfl
  | eq | ne | lt | le | gt | ge => exact hcompare

/-! ### The meaning of terms with equal keys -/

/-- The summations are over tuples, not over columns of them. -/
def BindsTuples (t : Term) : Prop := ∀ b ∈ t.boundVars, b.var = .base b.var.tuple

instance (t : Term) : Decidable t.BindsTuples := by
  unfold BindsTuples
  infer_instance

theorem BindsTuples.of_mem {ts : List Term}
    (h : ∀ b ∈ ts.flatMap boundVars, b.var = .base b.var.tuple) {t : Term} (ht : t ∈ ts) :
    t.BindsTuples := fun b hb => h b (List.mem_flatMap.mpr ⟨t, ht, hb⟩)

/-- Summations over different rows agree if their bodies do.  A row that one of them leaves out
makes its body zero, and so the other body, too. -/
theorem summation_eq_of_key_eq {vars : VarSet} {a b : Term} (hkey : a.key = b.key)
    (hvars : ∀ v ∈ vars.toList, v = .base v.tuple)
    (hbody : ∀ {w w' : World}, w.SameBags w' → a.number w = b.number w')
    {w w' : World} (hw : w.SameBags w') :
    w.summation vars a a.number = w'.summation vars b b.number := by
  have hall : (∀ v ∈ vars.toList, (a.tableOf? v.tuple).isSome) ↔
      ∀ v ∈ vars.toList, (b.tableOf? v.tuple).isSome :=
    forall₂_congr fun v _ => by rw [isSome_tableOf?_of_key_eq hkey]
  unfold World.summation
  by_cases ha : ∀ v ∈ vars.toList, (a.tableOf? v.tuple).isSome
  · have hb := hall.mp ha
    let ranges := vars.toList.map fun v =>
      (v.tuple, (a.tableOf? v.tuple).elim [] w.rows, (b.tableOf? v.tuple).elim [] w'.rows)
    have hleft : w.ranges vars a = ranges.map fun range => (range.1, range.2.1) := by
      simp [ranges, World.ranges, Function.comp_def]
    have hright : w'.ranges vars b = ranges.map fun range => (range.1, range.2.2) := by
      simp [ranges, World.ranges, Function.comp_def]
    rw [if_pos ha, if_pos hb, hleft, hright]
    refine World.total_of_zero_outside
      (Q := fun u u' => u.SameBags u' ∧ u.rows = w.rows ∧ u'.rows = w'.rows) ?_ ?_
      (fun x r u u' hu => ⟨hu.1.bind x r, hu.2⟩) (fun u u' hu => hbody hu.1) ?_ ⟨hw, rfl, rfl⟩
    · rw [List.map_map]
      refine List.Nodup.map_on (fun v hv v' hv' heq => ?_) vars.nodup
      rw [hvars v hv, hvars v' hv']
      exact congrArg Var.base heq
    · intro range hrange
      obtain ⟨v, hv, rfl⟩ := List.mem_map.mp hrange
      obtain ⟨name, hname⟩ := Option.isSome_iff_exists.mp (ha v hv)
      obtain ⟨name', hname'⟩ := Option.isSome_iff_exists.mp (hb v hv)
      rw [hname, hname']
      exact ⟨hw.listed.nodup name, hw.listed'.nodup name'⟩
    · rintro u u' ⟨hu, hrows, hrows'⟩ range hrange r hr hout
      obtain ⟨v, hv, rfl⟩ := List.mem_map.mp hrange
      obtain ⟨name, hname⟩ := Option.isSome_iff_exists.mp (ha v hv)
      obtain ⟨name', hname'⟩ := Option.isSome_iff_exists.mp (hb v hv)
      rw [hname, hname', ← hrows, ← hrows'] at hout
      rcases hout with hout | hout
      · exact number_of_count_eq_zero hname hr (hu.listed.count name r hout)
      · rw [hbody hu]
        exact number_of_count_eq_zero hname' (hu.tuples ▸ hr) (hu.listed'.count name' r hout)
  · rw [if_neg ha, if_neg (mt hall.mpr ha)]

/-- Terms with equal keys mean the same in worlds with the same bags. -/
theorem meaning_eq_of_key_eq {a b : Term} (hkey : a.key = b.key) (ha : a.BindsTuples)
    {w w' : World} (hw : w.SameBags w') : a.meaning w = b.meaning w' := by
  have members : ∀ {ts us : List Term} {w w' : World}, KeysEqual ts us →
      (∀ b ∈ ts.flatMap boundVars, b.var = .base b.var.tuple) → w.SameBags w' →
      (∀ t ∈ ts, ∀ {u : Term}, t.key = u.key → t.BindsTuples → ∀ {w w' : World}, w.SameBags w' →
        t.meaning w = u.meaning w') → meanings ts w = meanings us w' := by
    intro ts us w w' hkeys hts hw ih
    rw [meanings_eq_map, meanings_eq_map]
    exact hkeys.map_eq fun t ht u hkey => ih t ht hkey (.of_mem hts ht) hw
  have numbers : ∀ {ts us : List Term} (w : World), ts.Perm us →
      ((meanings ts w).map Scalar.toNumber).Perm ((meanings us w).map Scalar.toNumber) := by
    intro ts us w hperm
    rw [meanings_eq_map, meanings_eq_map]
    exact (hperm.map _).map _
  induction a using Term.induct generalizing b w w' with
  | sum vars body ih =>
      cases sameNode_of_key_eq hkey with
      | @sum _ _ body' hbody =>
          rw [BindsTuples, boundVars_sum, List.forall_mem_append] at ha
          have hvars : ∀ v ∈ vars.toList, v = .base v.tuple := fun v hv =>
            ha.1 _ (OpenSum.mem_ofBinder_self hv)
          rw [meaning, meaning]
          exact congrArg Scalar.ofNumber (summation_eq_of_key_eq hbody hvars
            (fun hw => congrArg Scalar.toNumber (ih hbody ha.2 hw)) hw)
  | add ts ih =>
      cases sameNode_of_key_eq hkey with
      | add hkeys hperm =>
          rw [BindsTuples, boundVars_add] at ha
          rw [meaning, meaning, members hkeys ha hw ih, (numbers w' hperm).sum_eq]
  | mul ts ih =>
      cases sameNode_of_key_eq hkey with
      | mul hkeys hperm =>
          rw [BindsTuples, boundVars_mul] at ha
          rw [meaning, meaning, members hkeys ha hw ih, (numbers w' hperm).prod_eq]
  | neg t ih =>
      cases sameNode_of_key_eq hkey with
      | neg hterm => rw [meaning, meaning, ih hterm ha hw]
  | squash t ih =>
      cases sameNode_of_key_eq hkey with
      | squash hterm => rw [meaning, meaning, ih hterm ha hw]
  | pred kind ts ih =>
      rw [BindsTuples, boundVars_pred] at ha
      cases sameNode_of_key_eq hkey with
      | symmetric hkind hkeys hperm =>
          rw [meaning, meaning, members hkeys ha hw ih, ← judge_eq_of_keysEqual hw kind hkeys,
            judge_perm w' hkind hperm]
      | pred _ hkeys =>
          rw [meaning, meaning, members hkeys ha hw ih, ← judge_eq_of_keysEqual hw kind hkeys]
  | var v =>
      cases sameNode_of_key_eq hkey with
      | var =>
          cases v with
          | base x => rw [meaning, meaning, hw.placeholders]
          | proj attr x => rw [meaning, meaning, hw.cell?_eq]
  | const q =>
      cases sameNode_of_key_eq hkey with
      | const hvalue => rw [meaning, meaning, hvalue]
  | table name v =>
      cases sameNode_of_key_eq hkey with
      | table =>
          cases v with
          | base x => rw [meaning, meaning, hw.tuples, hw.count]
          | proj attr x => rfl
  | func name ts ih =>
      cases sameNode_of_key_eq hkey with
      | func _ hkeys =>
          rw [BindsTuples, boundVars_func] at ha
          rw [meaning, meaning, members hkeys ha hw ih]
  | str s =>
      cases sameNode_of_key_eq hkey with
      | str => rfl

end Term

/-! ### Values over databases -/

namespace Database

/-- The tables list different rows. -/
def Distinct (db : Database) : Prop :=
  ∀ entry ∈ db.tables.entries, (Table.rows entry.2).Pairwise fun a b => a.same b = false

instance (db : Database) : Decidable db.Distinct := by
  unfold Distinct
  infer_instance

variable {db db' : Database}

theorem Distinct.rows (h : db.Distinct) (table : String) :
    (db.rows table).Pairwise fun a b => a.same b = false := by
  rw [Database.rows, Database.table]
  cases hget : db.tables.get? table with
  | none => exact .nil
  | some t => exact h _ (NameMap.mem_of_get? hget)

theorem Distinct.listed (h : db.Distinct) (schemas : SchemaMap) (output : String) :
    (Environment.ofDatabase db schemas output).world.Listed where
  nodup table := by
    refine List.pairwise_map.mpr ((h.rows table).imp fun {a b} hab heq => ?_)
    rw [(Row.same_iff_exact a b).mpr heq] at hab
    cases hab
  count table r hr := Table.count_of_notMem hr

/-- Rows occur equally often in both databases. -/
def SameMultiplicities (db db' : Database) : Prop :=
  ∀ table r, db.multiplicity table r = db'.multiplicity table r

theorem SameMultiplicities.count_eq (h : SameMultiplicities db db') (table : String)
    (e : ExactRow) : (db'.table table).count e = (db.table table).count e := by
  by_cases he : ∃ r : Row, r.exact = e
  · obtain ⟨r, rfl⟩ := he
    rw [← Table.toNat_multiplicity, ← Table.toNat_multiplicity]
    exact congrArg UInt64.toNat (h table r).symm
  · -- No table lists an exact row that is not that of a row.
    have hnone : ∀ t : Table, t.count e = 0 := fun t =>
      Table.count_of_notMem fun hmem => he (by
        obtain ⟨r, _, hr⟩ := List.mem_map.mp hmem
        exact ⟨r, hr⟩)
    rw [hnone, hnone]

/-- Databases with the same multiplicities and the same output row have the same bags. -/
theorem SameMultiplicities.sameBags (h : SameMultiplicities db db') (hdb : db.Distinct)
    (hdb' : db'.Distinct) (houtput : db.output.same db'.output = true) (schemas : SchemaMap)
    (output : String) :
    (Environment.ofDatabase db schemas output).world.SameBags
      (Environment.ofDatabase db' schemas output).world where
  listed := hdb.listed schemas output
  listed' := hdb'.listed schemas output
  count := by
    funext table e
    exact h.count_eq table e
  schemas := rfl
  tuples := by
    funext x
    simp only [Environment.world, Environment.ofDatabase]
    split
    · exact congrArg some ((Row.same_iff_exact _ _).mp houtput).symm
    · rfl
  placeholders := rfl

end Database

/-- Terms with the same key have the same value over every database that lists different rows, or
both have none, except that reading one of them, or both, may never end if they ask for the value
of a whole tuple. -/
theorem Term.valueOver_eq_of_same_key {a b : Term} (hkey : a.key = b.key) (ha : a.BindsTuples)
    {db : Database} (hdb : db.Distinct) (schemas : SchemaMap) (output : String) :
    ∃ v : Option ℚ, Yields a.evaluable (a.valueOver db schemas output) v ∧
      Yields a.evaluable (b.valueOver db schemas output) v := by
  have hbags := Database.SameMultiplicities.sameBags (fun _ _ => rfl) hdb hdb
    (Row.same_refl db.output) schemas output
  refine ⟨_, a.yields_valueOver db schemas output, ?_⟩
  rw [number, meaning_eq_of_key_eq hkey ha hbags, evaluable_eq_of_key_eq hkey]
  exact b.yields_valueOver db schemas output

/-- The rows that two tables have in common, each as often as the multiplicities say when they are
multiplied. -/
def Term.commonRows (table table' : String) : Term :=
  .sumOver ["x"] (.mul [.table table (.base "x"), .table table' (.base "x")])

/-- Two tables with one common row. -/
def Database.overlapping : Database :=
  ⟨.ofList [("r", [(.single 0, 1), (.single 1, 2)]), ("s", [(.single 1, 3), (.single 2, 5)])],
    .single 0⟩

/-- The order of the factors decides which table is gone through, but not what is found. -/
theorem Term.valueOver_commonRows :
    (commonRows "r" "s").key = (commonRows "s" "r").key ∧ (commonRows "r" "s").BindsTuples ∧
      Database.overlapping.Distinct ∧ (commonRows "r" "s").evaluable = true ∧
      (commonRows "r" "s").boundVars = [⟨.base "x", some "r"⟩] ∧
      (commonRows "s" "r").boundVars = [⟨.base "x", some "s"⟩] ∧
      (commonRows "r" "s").valueOver .overlapping .uniform "out" = .ok (some (6 : ℚ)) ∧
      (commonRows "s" "r").valueOver .overlapping .uniform "out" = .ok (some (6 : ℚ)) := by
  have hkey : (commonRows "r" "s").key = (commonRows "s" "r").key := by
    simp only [commonRows, sumOver, key, keyList, Key.ofBag_perm (.swap _ _ [])]
  have hbinds : (commonRows "r" "s").BindsTuples := by decide +kernel
  have hdb : Database.overlapping.Distinct := by decide +kernel
  have hends : (commonRows "r" "s").evaluable = true := by decide +kernel
  have hleft : (commonRows "r" "s").valueOver .overlapping .uniform "out" = .ok (some (6 : ℚ)) := by
    decide +kernel
  obtain ⟨v, hv, hright⟩ := valueOver_eq_of_same_key hkey hbinds hdb .uniform "out"
  obtain rfl := hv.eq_of_ok hleft
  exact ⟨hkey, hbinds, hdb, hends, by decide +kernel, by decide +kernel, hleft, hright.ok hends⟩

/-- A factor of zero decides a product at once, but not if a whole tuple comes before it.  And the
words of a fraction are compared, so one that is negative may be taken for the greater one. -/
theorem Term.valueOver_ne_of_same_key :
    let zero : Term := .const .zero
    let tuple : Term := .var (.base "out")
    let below : Term := .pred .lt [.const ⟨-1, 2, by decide⟩, .const .half]
    ((Term.mul [zero, tuple]).key = (Term.mul [tuple, zero]).key ∧
      (Term.mul [zero, tuple]).BindsTuples ∧ Database.overlapping.Distinct ∧
      (Term.mul [zero, tuple]).valueOver .overlapping .uniform "out" = .ok (some (0 : ℚ)) ∧
      (Term.mul [tuple, zero]).valueOver .overlapping .uniform "out" =
        (.error .endless : Except Fault (Option ℚ))) ∧
    minusHalfBelowHalf.key = below.key ∧ minusHalfBelowHalf.BindsTuples ∧
      minusHalfBelowHalf.valueOver .overlapping .uniform "out" = .ok (some Fraction.zero) ∧
      below.valueOver .overlapping .uniform "out" = .ok (some Fraction.one) := by
  refine ⟨⟨?_, ?_, ?_, ?_, ?_⟩, ?_, ?_, ?_, ?_⟩
  · simp only [key, keyList, Key.ofBag_perm (.swap _ _ [])]
  all_goals decide +kernel

/-- A term has the same value over all databases with the same bags and the same output row, or it
has none over any of them, except that reading it may never end over some of them if it asks for
the value of a whole tuple. -/
theorem Term.valueOver_eq_of_same_bags {t : Term} (ht : t.BindsTuples) {db db' : Database}
    (hdb : db.Distinct) (hdb' : db'.Distinct) (houtput : db.output.same db'.output = true)
    (hsame : db.SameMultiplicities db') (schemas : SchemaMap) (output : String) :
    ∃ v : Option ℚ, Yields t.evaluable (t.valueOver db schemas output) v ∧
      Yields t.evaluable (t.valueOver db' schemas output) v := by
  have hbags := hsame.sameBags hdb hdb' houtput schemas output
  refine ⟨_, t.yields_valueOver db schemas output, ?_⟩
  rw [number, meaning_eq_of_key_eq rfl ht hbags]
  exact t.yields_valueOver db' schemas output

/-- The table with three rows, listed backwards behind a row that does not occur, and an empty
table. -/
def Database.threeRowsBackwards : Database :=
  ⟨.ofList [("r", [(.single 2, 0), (.single 1, 2), (.single 0, 1)]), ("s", [])], .single 0⟩

theorem Database.sameMultiplicities_threeRows :
    SameMultiplicities .threeRows .threeRowsBackwards := by
  intro table r
  have hfirst : Database.threeRows.tables.get? table =
      if table = "r" then some [(.single 0, 1), (.single 1, 2)] else none :=
    NameMap.get?_insert .empty "r" _ table
  have hsecond : Database.threeRowsBackwards.tables.get? table =
      if table = "s" then some [] else if table = "r" then
        some [(.single 2, 0), (.single 1, 2), (.single 0, 1)] else none := by
    have hr : (NameMap.insert .empty "r"
        [(Row.single 2, 0), (.single 1, 2), (.single 0, 1)] : NameMap Table).get? table =
        if table = "r" then some [(.single 2, 0), (.single 1, 2), (.single 0, 1)] else none :=
      NameMap.get?_insert .empty "r" _ table
    rw [← hr]
    exact NameMap.get?_insert _ "s" _ table
  rw [multiplicity, multiplicity, Database.table, Database.table, hfirst, hsecond]
  by_cases hr : table = "r"
  · have hapart : ∀ {p q : Row}, p.same q = false → ¬(p.same r = true ∧ q.same r = true) := by
      rintro p q hpq ⟨hp, hq⟩
      rw [Row.same_trans hp (Row.same_symm hq)] at hpq
      cases hpq
    have h₀₁ := hapart (p := .single 0) (q := .single 1) (by decide +kernel)
    have h₀₂ := hapart (p := .single 0) (q := .single 2) (by decide +kernel)
    have h₁₂ := hapart (p := .single 1) (q := .single 2) (by decide +kernel)
    rw [if_pos hr, if_neg (by simp [hr]), if_pos hr]
    simp only [Option.getD_some, Table.multiplicity]
    grind
  · simp only [hr, if_false]
    split <;> rfl

/-- A row that does not occur and the order of the rows make no difference. -/
theorem Term.valueOver_threeRowsBackwards :
    (twoRows "x#0" "y#1" (.ofWord 1)).BindsTuples ∧
      (twoRows "x#0" "y#1" (.ofWord 1)).evaluable = true ∧ Database.threeRows.Distinct ∧
      Database.threeRowsBackwards.Distinct ∧
      Database.threeRows.output.same Database.threeRowsBackwards.output = true ∧
      Database.threeRows.SameMultiplicities .threeRowsBackwards ∧
      (twoRows "x#0" "y#1" (.ofWord 1)).valueOver .threeRows .uniform "out" =
        .ok (some (3 : ℚ)) ∧
      (twoRows "x#0" "y#1" (.ofWord 1)).valueOver .threeRowsBackwards .uniform "out" =
        .ok (some (3 : ℚ)) := by
  have hbinds : (twoRows "x#0" "y#1" (.ofWord 1)).BindsTuples := by decide +kernel
  have hdb : Database.threeRows.Distinct := by decide +kernel
  have hdb' : Database.threeRowsBackwards.Distinct := by decide +kernel
  have houtput : Database.threeRows.output.same Database.threeRowsBackwards.output = true := by
    decide +kernel
  have hsame := Database.sameMultiplicities_threeRows
  have hvalue : (twoRows "x#0" "y#1" (.ofWord 1)).valueOver .threeRows .uniform "out" =
      .ok (some (3 : ℚ)) := by
    decide +kernel
  have hends : (twoRows "x#0" "y#1" (.ofWord 1)).evaluable = true := by decide +kernel
  obtain ⟨v, hv, hbackwards⟩ :=
    valueOver_eq_of_same_bags hbinds hdb hdb' houtput hsame .uniform "out"
  obtain rfl := hv.eq_of_ok hvalue
  exact ⟨hbinds, hends, hdb, hdb', houtput, hsame, hvalue, hbackwards.ok hends⟩

/-- Whole tuples as factors, each before how often its row occurs. -/
def Term.tuplesOfRows : Term :=
  .sumOver ["x"] (.mul [.var (.base "x"), .table "r" (.base "x")])

/-- The rows whose column is less than one half. -/
def Term.belowHalf : Term :=
  .sumOver ["x"] (.mul [.table "r" (.base "x"),
    .pred .lt [.var (.proj "a" "x"), .const .half]])

/-- A table that lists one row. -/
def Database.oneRow (cell : Datum) (n : UInt64) : Database :=
  ⟨.ofList [("r", [(.ofList [("a", .ofDatum cell)], n)])], .single 0⟩

theorem Database.multiplicity_oneRow (cell : Datum) (n : UInt64) (table : String) (r : Row) :
    (oneRow cell n).multiplicity table r =
      if table = "r" ∧ Row.same (.ofList [("a", .ofDatum cell)]) r = true then n else 0 := by
  have hlisted : (oneRow cell n).tables.get? table =
      if table = "r" then some [(.ofList [("a", .ofDatum cell)], n)] else none :=
    NameMap.get?_insert .empty "r" _ table
  rw [multiplicity, Database.table, hlisted]
  by_cases htable : table = "r"
  · simp [htable, Table.multiplicity]
  · simp [htable, Table.multiplicity]

/-- Nothing is asked for where there is no row, but a row that does not occur is gone through.  And
rows that are equal may compare differently with others, since the words of their fractions are
compared. -/
theorem Term.valueOver_ne_of_same_bags :
    let none : Database := ⟨.empty, .single 0⟩
    let listed : Database := .oneRow (.int 0) 0
    let above : Database := .oneRow (.real .minusHalf) 1
    let below : Database := .oneRow (.real ⟨-1, 2, by decide⟩) 1
    (tuplesOfRows.BindsTuples ∧ none.Distinct ∧ listed.Distinct ∧ none.SameMultiplicities listed ∧
      tuplesOfRows.valueOver none .uniform "out" = .ok (some (0 : ℚ)) ∧
      tuplesOfRows.valueOver listed .uniform "out" =
        (.error .endless : Except Fault (Option ℚ))) ∧
    belowHalf.BindsTuples ∧ above.Distinct ∧ below.Distinct ∧ above.SameMultiplicities below ∧
      belowHalf.valueOver above .uniform "out" = .ok (some Fraction.zero) ∧
      belowHalf.valueOver below .uniform "out" = .ok (some Fraction.one) := by
  intro none listed above below
  have hlisted : none.SameMultiplicities listed := by
    intro table r
    rw [Database.multiplicity_oneRow, ite_self]
    rfl
  have hbelow : above.SameMultiplicities below := by
    intro table r
    rw [Database.multiplicity_oneRow, Database.multiplicity_oneRow, Row.same_congr]
    decide +kernel
  refine ⟨⟨?_, ?_, ?_, hlisted, ?_, ?_⟩, ?_, ?_, ?_, hbelow, ?_, ?_⟩ <;> decide +kernel

end BagEquiv
