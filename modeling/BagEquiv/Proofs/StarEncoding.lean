/-
**Stars and the numbers of summations.**

A star stands for one level of some summations: its members are added up over a list of rows, each
row a world of its own.  In each of these worlds the symbols of new tuples are painted anew, the
summations inside the members get their numbers from the stars below, and the counts of the members
are the values of their formulas.  What is in scope outside the star belongs to other tuples and to
marks with smaller numbers, so the summands share it.  Hence the placeholders of the members can
have the sums of the counts.

Main definition:

* `Encoder.Layered` — **what is known of the stars of some summations**.

Main result:

* `Encoder.star_ok` — **a star holds of the numbers that its members add up to**.
-/

import BagEquiv.Proofs.StarRows

set_option autoImplicit false

namespace BagEquiv

variable {L : Legend} {X : Set String}

/-! ### Names in terms -/

/-- The tuple is mentioned in one of the terms, and not only bound there. -/
def Mentioned (ts : List Term) (x : String) : Prop := ∃ t ∈ ts, t.mentions x = true

/-- The tuples that are bound in some terms. -/
def boundNames (ts : List Term) : List String :=
  (ts.flatMap Term.boundVars).map fun b => b.var.tuple

/-- The terms bind every tuple once, and not one that they mention otherwise; the names are settled
and the terms regular. -/
structure Ready (n : ℕ) (ts : List Term) : Prop where
  nodup : (boundNames ts).Nodup
  bound : ∀ x ∈ boundNames ts, Settled 0 x
  free : ∀ x, Mentioned ts x → Settled n x
  apart : ∀ x, Mentioned ts x → x ∉ boundNames ts
  regular : ∀ t ∈ ts, t.Regular

theorem Ready.mono {m n : ℕ} {ts : List Term} (h : Ready m ts) (hmn : m ≤ n) : Ready n ts :=
  { h with free := fun x hx => (h.free x hx).mono hmn }

namespace OpenSum

/-- The summation as a term. -/
def term (s : OpenSum) : Term := .sum s.vars s.body

theorem boundVars_term (s : OpenSum) : s.term.boundVars = s.boundVars := Term.boundVars_sum _ _

theorem mem_ofTerm {t : Term} {side : Side} {s : OpenSum} :
    s ∈ ofTerm t side → (s.vars, s.body) ∈ t.summations := by
  intro hs
  obtain ⟨p, hp, rfl⟩ := List.mem_map.mp hs
  exact hp

end OpenSum

/-- The outermost summations of terms bind what the terms bind. -/
theorem flatMap_boundVars_summations {α : Type} (f : α → Term) (side : α → Side) (as : List α) :
    (((as.flatMap fun a => OpenSum.ofTerm (f a) (side a)).map OpenSum.term).flatMap
      Term.boundVars) = (as.map f).flatMap Term.boundVars := by
  induction as with
  | nil => rfl
  | cons a as ih =>
      rw [List.flatMap_cons, List.map_append, List.flatMap_append, ih, List.map_cons,
        List.flatMap_cons, List.flatMap_map]
      simp only [OpenSum.boundVars_term]
      rw [OpenSum.flatMap_boundVars_ofTerm]

/-- The outermost summations of terms are ready if the terms are. -/
theorem Ready.summations {n : ℕ} {α : Type} {f : α → Term} {side : α → Side} {as : List α}
    (h : Ready n (as.map f)) :
    Ready n ((as.flatMap fun a => OpenSum.ofTerm (f a) (side a)).map OpenSum.term) := by
  have hnames : boundNames ((as.flatMap fun a => OpenSum.ofTerm (f a) (side a)).map OpenSum.term) =
      boundNames (as.map f) :=
    congrArg (List.map _) (flatMap_boundVars_summations f side as)
  have hmem : ∀ {t}, t ∈ (as.flatMap fun a => OpenSum.ofTerm (f a) (side a)).map OpenSum.term →
      ∃ s : OpenSum, t = s.term ∧ ∃ a ∈ as, (s.vars, s.body) ∈ (f a).summations := by
    intro t ht
    obtain ⟨s, hs, rfl⟩ := List.mem_map.mp ht
    obtain ⟨a, ha, hs⟩ := List.mem_flatMap.mp hs
    exact ⟨s, rfl, a, ha, OpenSum.mem_ofTerm hs⟩
  have hmentioned : ∀ x,
      Mentioned ((as.flatMap fun a => OpenSum.ofTerm (f a) (side a)).map OpenSum.term) x →
      Mentioned (as.map f) x := by
    rintro x ⟨t, ht, hx⟩
    obtain ⟨s, rfl, a, ha, hs⟩ := hmem ht
    exact ⟨f a, List.mem_map_of_mem ha, Term.mentions_of_mem_summations hs hx⟩
  refine ⟨hnames ▸ h.nodup, hnames ▸ h.bound, fun x hx => h.free x (hmentioned x hx),
    fun x hx => hnames ▸ h.apart x (hmentioned x hx), fun t ht => ?_⟩
  obtain ⟨s, rfl, a, ha, hs⟩ := hmem ht
  exact (h.regular (f a) (List.mem_map_of_mem ha)).of_mem_summations hs

/-! ### Rows to add up over -/

/-- The tables list distinct rows, and a row that is not listed does not occur. -/
structure World.Listed (w : World) : Prop where
  nodup : ∀ table, (w.rows table).Nodup
  count : ∀ table r, r ∉ w.rows table → w.count table r = 0

/-- The second world differs from the first one in the given tuples only. -/
structure World.Differs (X : Set String) (w w' : World) : Prop where
  rows : w'.rows = w.rows
  count : w'.count = w.count
  placeholders : w'.placeholders = w.placeholders
  other : ∀ x, x ∉ X → w'.tuples x = w.tuples x ∧ w'.schemas x = w.schemas x

theorem World.Listed.of_differs {w w' : World} (h : w.Listed) (hw : w.Differs X w') :
    w'.Listed where
  nodup table := by
    rw [hw.rows]
    exact h.nodup table
  count table r hr := by
    rw [hw.rows] at hr
    rw [hw.count]
    exact h.count table r hr

/-- Every variable that is bound in the terms has a schema, and the rows of its table fit it. -/
def World.Stocked (L : Legend) (w : World) (ts : List Term) : Prop :=
  ∀ b ∈ ts.flatMap Term.boundVars, ∃ S, w.schemas b.var.tuple = some S ∧
    ∀ table ∈ b.table, ∀ r ∈ w.rows table, r.Fits L S

/-! ### Symbols in scope -/

/-- The symbols belong to none of the given tuples, to no common tuple from the number `n` on and
to no mark from that number on. -/
def Clear (n : ℕ) (X : Set String) (K : Set Symbol) : Prop :=
  ∀ s ∈ K, (∀ x, s.owner? = some x → x ∉ X ∧ ∀ k : ℕ, x = "#ct" ++ toString k → k < n) ∧
    ∀ k, s.IsMark k → k < n

theorem Clear.mono {m n : ℕ} {X Y : Set String} {K : Set Symbol} (h : Clear m X K) (hmn : m ≤ n)
    (hYX : ∀ x ∈ Y, x ∈ X) : Clear n Y K := fun s hs =>
  ⟨fun x hx => ⟨fun hY => ((h s hs).1 x hx).1 (hYX x hY),
    fun k hk => lt_of_lt_of_le (((h s hs).1 x hx).2 k hk) hmn⟩,
    fun k hk => lt_of_lt_of_le ((h s hs).2 k hk) hmn⟩

theorem Symbol.IsMark.clear {n k : ℕ} {s : Symbol} (h : s.IsMark k) (hk : k < n) :
    (∀ x, s.owner? = some x → x ∉ X ∧ ∀ k : ℕ, x = "#ct" ++ toString k → k < n) ∧
      ∀ k, s.IsMark k → k < n := by
  refine ⟨fun x hx => ?_, fun j hj => hj.unique h ▸ hk⟩
  cases h.owner?.symm.trans hx

theorem Clear.union {n : ℕ} {K K' : Set Symbol} (h : Clear n X K) (h' : Clear n X K') :
    Clear n X (K ∪ K') := fun s hs => hs.elim (h s) (h' s)

namespace Encoder

/-! ### Later states -/

/-- What encoding whole layers changes: literals are added, and schemas of new common tuples. -/
structure Later (e e' : Encoder) : Prop where
  next : e.next ≤ e'.next
  literals : ∀ s v, e.literals.get? s = some v → e'.literals.get? s = some v
  tidy : e.Tidy → e'.Tidy
  schemas : ∀ x, (∀ k : ℕ, x = "#ct" ++ toString k → k < e.next) →
    e'.schemas.get? x = e.schemas.get? x

theorem Later.refl (e : Encoder) : Later e e := ⟨le_refl _, fun _ _ h => h, id, fun _ _ => rfl⟩

theorem Later.trans {e e' e'' : Encoder} (h : Later e e') (h' : Later e' e'') : Later e e'' where
  next := le_trans h.next h'.next
  literals s v hs := h'.literals s v (h.literals s v hs)
  tidy ht := h'.tidy (h.tidy ht)
  schemas x hx := by
    rw [h'.schemas x fun k hk => lt_of_lt_of_le (hx k hk) h.next, h.schemas x hx]

theorem Growth.later {M : String → Prop} {e e' : Encoder} (h : Growth M e e') : Later e e' :=
  ⟨h.next, h.literals, h.tidy, fun x _ => by rw [h.schemas]⟩

theorem Spells.of_later {e e' : Encoder} {ρ : Interpretation} (h : e'.Spells L ρ)
    (he : Later e e') : e.Spells L ρ :=
  fun s v hs => h s v (he.literals s v hs)

theorem Scene.later {e e' : Encoder} {w : World} {ρ : Interpretation} {M N : String → Prop}
    (h : e.Scene M L w ρ) (he : Later e e') (hMN : ∀ x, N x → M x)
    (hsettled : ∀ x, N x → Settled e.next x) : e'.Scene N L w ρ where
  depicted := h.depicted
  furnished := h.furnished
  plain := h.plain
  schemas x hx := by
    rw [he.schemas x, h.schemas x (hx.imp_left (hMN x))]
    rcases hx with hx | hx
    · exact (hsettled x hx).common
    · exact fun k hk => absurd hk (hx k)

/-! ### Symbols of terms and placeholders -/

/-- The tuples of some terms, and placeholders. -/
def Involved (ts : List Term) (found : List Counted) (x : String) : Prop :=
  Mentioned ts x ∨ ∃ p ∈ found, p.1.name = x

section Involved

variable {m n : ℕ} {ts : List Term} {found : List Counted} {s : Symbol}

theorem Involved.clean (hready : Ready m ts)
    (hfound : ∀ p ∈ found, ∃ k < n, p.1 = ⟨"#u" ++ toString k, .int⟩) {x : String}
    (hx : Involved ts found x) : Clean x := by
  rcases hx with hx | ⟨p, hp, rfl⟩
  · exact (hready.free x hx).clean
  · obtain ⟨k, _, hk⟩ := hfound p hp
    have hmark : p.1.IsMark k := .inl (congrArg Symbol.name hk)
    exact hmark.clean

/-- A symbol is no mark, or it is one of the placeholders. -/
theorem unmarked_or_placeholder (hready : Ready m ts)
    (hfound : ∀ p ∈ found, ∃ k < n, p.1 = ⟨"#u" ++ toString k, .int⟩)
    (hs : s ∈ visible (Involved ts found)) :
    (∀ k, ¬s.IsMark k) ∨ ∃ p ∈ found, p.1 = s := by
  rcases hs with hs | ⟨x, hx, hs | rfl⟩
  · exact .inl hs.unmarked
  · exact .inl fun k hk => by cases hk.owner?.symm.trans hs
  · rcases hx with hx | ⟨p, hp, rfl⟩
    · have hsettled := hready.free x hx
      exact .inl fun k hk => hk.elim (hsettled.unmarked k).1 (hsettled.unmarked k).2
    · obtain ⟨k, _, hk⟩ := hfound p hp
      exact .inr ⟨p, hp, by rw [hk]⟩

/-- Symbols of terms and of placeholders belong to no tuple that the terms bind. -/
theorem clear_visible (hready : Ready m ts)
    (hfound : ∀ p ∈ found, ∃ k < n, p.1 = ⟨"#u" ++ toString k, .int⟩) {n' : ℕ} (hm : m ≤ n')
    (hn : n ≤ n') : Clear n' {x | x ∈ boundNames ts} (visible (Involved ts found)) := by
  intro s hs
  rcases unmarked_or_placeholder hready hfound hs with hmark | ⟨p, hp, rfl⟩
  · refine ⟨fun x hx => ?_, fun k hk => absurd hk (hmark k)⟩
    rcases hs with hs | ⟨y, hy, hs | rfl⟩
    · cases (Symbol.owner?_of_clean hs.clean).symm.trans hx
    · cases hs.symm.trans hx
      rcases hy with hy | ⟨p, hp, rfl⟩
      · exact ⟨hready.apart x hy, fun k hk =>
          lt_of_lt_of_le ((hready.free x hy).common k hk) hm⟩
      · obtain ⟨k, _, hk⟩ := hfound p hp
        have hname : p.1.name = "#u" ++ toString k := congrArg Symbol.name hk
        refine ⟨fun hbound => ((hready.bound _ hbound).unmarked k).1 hname, fun j hj => ?_⟩
        rw [hname] at hj
        exact absurd (Symbol.unnumbered_u.append_inj unnumbered_common hj).1 (by decide)
    · cases (Symbol.owner?_of_clean (hy.clean hready hfound)).symm.trans hx
  · obtain ⟨k, hk, heq⟩ := hfound p hp
    have hmark : p.1.IsMark k := .inl (congrArg Symbol.name heq)
    exact hmark.clear (lt_of_lt_of_le hk hn)

end Involved

/-! ### Stars of summations -/

/-- The summations as terms. -/
def terms (scope : List Counted) : List Term := scope.map fun p => p.2.term

/-- The symbols of the placeholders are numbered below `n`, each once. -/
structure Placed (n : ℕ) (scope : List Counted) : Prop where
  symbols : ∀ p ∈ scope, ∃ k < n, p.1 = ⟨"#u" ++ toString k, .int⟩
  nodup : (scope.map Prod.fst).Nodup

/-- The formula holds wherever the symbols in scope are clear, symbols that are no marks have the
values that `ρ₀` gives them, and the given symbols those that `g` gives them. -/
def Solves (R : Reading) (n : ℕ) (X : Set String) (ρ₀ g : Interpretation) (U : Set Symbol)
    (f : Formula) : Prop :=
  ∀ {K : Set Symbol} {ρ : Interpretation}, Clear n X K → R.Admits ρ →
    (∀ s : Symbol, (∀ k, ¬s.IsMark k) → ρ s = ρ₀ s) → (∀ s ∈ U, ρ s = g s) → f.Holds R K ρ

/-- What is known of the stars of some summations: the placeholders can have the numbers of the
summations. -/
structure Layered (scope : List Counted) (e : Encoder) (fs : List Formula) (e' : Encoder) :
    Prop where
  later : Later e e'
  equations : e'.equations = []
  built : ∀ f ∈ fs, f.Built {s | ∃ p ∈ scope, p.1 = s} true .truth
  conjunctive : ∀ f ∈ fs, f.Conjunctive
  sound : ∀ (apply overZero) {L : Legend} {w ρ₀}, e.Scene (Mentioned (terms scope)) L w ρ₀ →
    e'.Spells L ρ₀ → (∀ s, ρ₀ s ∈ L.admits s.type) → w.Listed → w.Stocked L (terms scope) →
    ∃ g : Interpretation, (∀ p ∈ scope, LessDefined (p.2.number w) (g p.1)) ∧
      ∀ f ∈ fs, Solves (.lexical L.admits apply overZero) e.next {x | x ∈ boundNames (terms scope)}
        ρ₀ g {s | ∃ p ∈ scope, p.1 = s} f

theorem mem_boundNames {ts : List Term} {x : String} :
    x ∈ boundNames ts ↔ ∃ t ∈ ts, ∃ b ∈ t.boundVars, b.var.tuple = x := by
  simp only [boundNames, List.mem_map, List.mem_flatMap]
  constructor
  · rintro ⟨b, ⟨t, ht, hb⟩, rfl⟩
    exact ⟨t, ht, b, hb, rfl⟩
  · rintro ⟨t, ht, b, hb, rfl⟩
    exact ⟨b, ⟨t, ht, hb⟩, rfl⟩

theorem Layered.nil {e : Encoder} (h : e.equations = []) : Layered [] e [] e :=
  ⟨.refl e, h, by simp, by simp, fun _ _ _ _ _ _ _ _ _ _ => ⟨fun _ => 0, by simp, by simp⟩⟩

/-- Stars are about the summations of a scope, in whatever order. -/
theorem Layered.congr {scope scope' : List Counted} {e e' : Encoder} {fs : List Formula}
    (h : Layered scope e fs e') (hscope : ∀ p, p ∈ scope ↔ p ∈ scope') :
    Layered scope' e fs e' := by
  have hset : {s | ∃ p ∈ scope, p.1 = s} = {s : Symbol | ∃ p ∈ scope', p.1 = s} := by
    simp only [hscope]
  have hmem : ∀ t, t ∈ terms scope ↔ t ∈ terms scope' := fun t => by
    simp only [terms, List.mem_map, hscope]
  have hmentioned : Mentioned (terms scope) = Mentioned (terms scope') := by
    funext x
    simp only [Mentioned, hmem]
  have hnames : {x | x ∈ boundNames (terms scope)} = {x | x ∈ boundNames (terms scope')} := by
    ext x
    simp only [Set.mem_ofPred_eq, mem_boundNames, hmem]
  refine ⟨h.later, h.equations, hset ▸ h.built, h.conjunctive, ?_⟩
  intro apply overZero L w ρ₀ hw hspells hadmits hlisted hstocked
  have hstocked' : w.Stocked L (terms scope) := fun b hb => hstocked b <| by
    simpa only [List.mem_flatMap, hmem] using hb
  obtain ⟨g, hg, hsolves⟩ := h.sound apply overZero (hmentioned ▸ hw)
    hspells hadmits hlisted hstocked'
  exact ⟨g, fun p hp => hg p ((hscope p).mpr hp), hset ▸ hnames ▸ hsolves⟩

/-- Stars of different summations together. -/
theorem Layered.append {scope scope' : List Counted} {e e₁ e₂ : Encoder} {fs gs : List Formula}
    (h : Layered scope e fs e₁) (h' : Layered scope' e₁ gs e₂)
    (hsettled : ∀ x, Mentioned (terms scope') x → Settled e.next x)
    (hdisjoint : ∀ p ∈ scope, ∀ q ∈ scope', p.1 ≠ q.1) :
    Layered (scope ++ scope') e (fs ++ gs) e₂ := by
  have hleft : ∀ p ∈ scope, p ∈ scope ++ scope' := fun p => List.mem_append_left _
  have hright : ∀ p ∈ scope', p ∈ scope ++ scope' := fun p => List.mem_append_right _
  have hterms : terms (scope ++ scope') = terms scope ++ terms scope' := List.map_append
  have hnames : boundNames (terms (scope ++ scope')) =
      boundNames (terms scope) ++ boundNames (terms scope') := by
    rw [hterms, boundNames, List.flatMap_append, List.map_append]
    rfl
  have hmentioned : ∀ x, Mentioned (terms scope') x → Mentioned (terms (scope ++ scope')) x := by
    rintro x ⟨t, ht, hx⟩
    exact ⟨t, hterms ▸ List.mem_append_right _ ht, hx⟩
  refine ⟨h.later.trans h'.later, h'.equations, List.forall_mem_append.mpr ⟨?_, ?_⟩,
    List.forall_mem_append.mpr ⟨h.conjunctive, h'.conjunctive⟩, ?_⟩
  · exact fun f hf => (h.built f hf).mono (fun s ⟨p, hp, hs⟩ => ⟨p, hleft p hp, hs⟩) id
  · exact fun f hf => (h'.built f hf).mono (fun s ⟨p, hp, hs⟩ => ⟨p, hright p hp, hs⟩) id
  intro apply overZero L w ρ₀ hw hspells hadmits hlisted hstocked
  rw [World.Stocked, hterms, List.flatMap_append, List.forall_mem_append] at hstocked
  have hw₁ : e.Scene (Mentioned (terms scope)) L w ρ₀ :=
    ⟨hw.depicted, hw.furnished, hw.plain, fun x hx => hw.schemas x <| hx.imp_left
      fun ⟨t, ht, hx⟩ => ⟨t, hterms ▸ List.mem_append_left _ ht, hx⟩⟩
  obtain ⟨g, hg, hsolves⟩ := h.sound apply overZero hw₁
    (hspells.of_later h'.later) hadmits hlisted hstocked.1
  obtain ⟨g', hg', hsolves'⟩ := h'.sound apply overZero
    (hw.later h.later hmentioned hsettled) hspells hadmits hlisted hstocked.2
  classical
  -- The two lots of summations have different placeholders.
  let joined : Interpretation := fun s => if ∃ p ∈ scope, p.1 = s then g s else g' s
  have hjoined : ∀ s, (∃ p ∈ scope, p.1 = s) → joined s = g s := fun s hs => if_pos hs
  have hjoined' : ∀ s, (∃ p ∈ scope', p.1 = s) → joined s = g' s := by
    rintro s ⟨q, hq, rfl⟩
    exact if_neg fun ⟨p, hp, heq⟩ => hdisjoint p hp q hq heq
  refine ⟨joined, List.forall_mem_append.mpr ⟨fun p hp => ?_, fun p hp => ?_⟩,
    List.forall_mem_append.mpr ⟨fun f hf => ?_, fun f hf => ?_⟩⟩
  · rw [hjoined _ ⟨p, hp, rfl⟩]
    exact hg p hp
  · rw [hjoined' _ ⟨p, hp, rfl⟩]
    exact hg' p hp
  · intro K ρ hK hρ hagree hvalues
    refine hsolves f hf (hK.mono (le_refl _) fun x hx => hnames ▸ List.mem_append_left _ hx) hρ
      hagree fun s hs => ?_
    obtain ⟨p, hp, rfl⟩ := hs
    rw [hvalues p.1 ⟨p, hleft p hp, rfl⟩, hjoined _ ⟨p, hp, rfl⟩]
  · intro K ρ hK hρ hagree hvalues
    refine hsolves' f hf (hK.mono h.later.next fun x hx => hnames ▸ List.mem_append_right _ hx) hρ
      hagree fun s hs => ?_
    obtain ⟨p, hp, rfl⟩ := hs
    rw [hvalues p.1 ⟨p, hright p hp, rfl⟩, hjoined' _ ⟨p, hp, rfl⟩]

/-! ### The values of a summand -/

variable {tuple : String} {lanes : List Lane} {e e₁ e₂ e₃ : Encoder}

open Classical in
/-- Values for the placeholders inside the members, for the counts of the members, for the other
marks and for all other symbols. -/
noncomputable def summand (lanes : List Lane) (g : Interpretation) (c : Lane → ℚ)
    (ρ ρ' : Interpretation) : Interpretation := fun s =>
  if ∃ p ∈ lanes.flatMap Lane.inner, p.1 = s then g s
  else match lanes.find? fun l => decide (l.count = s) with
    | some l => c l
    | none => if ∃ k, s.IsMark k then ρ s else ρ' s

variable {g : Interpretation} {c : Lane → ℚ} {ρ ρ' : Interpretation} {s : Symbol}

theorem summand_inner {p : Counted} (hp : p ∈ lanes.flatMap Lane.inner) :
    summand lanes g c ρ ρ' p.1 = g p.1 := if_pos ⟨p, hp, rfl⟩

theorem Laid.isMark_inner (h : Laid tuple lanes e e₁) {p : Counted}
    (hp : p ∈ lanes.flatMap Lane.inner) : ∃ k, e.next ≤ k ∧ k < e₁.next ∧ p.1.IsMark k := by
  obtain ⟨k, hk, hk', heq⟩ := h.symbols p hp
  exact ⟨k, hk, hk', .inl (congrArg Symbol.name heq)⟩

theorem Laid.isMark_count (h : Laid tuple lanes e e₁) {l : Lane} (hl : l ∈ lanes) :
    ∃ k, e.next ≤ k ∧ k < e₁.next ∧ l.count.IsMark k := by
  obtain ⟨k, hk, hk', heq⟩ := h.counts l hl
  exact ⟨k, hk, hk', .inr (congrArg Symbol.name heq)⟩

theorem summand_count (h : Laid tuple lanes e e₁) {l : Lane} (hl : l ∈ lanes) :
    summand lanes g c ρ ρ' l.count = c l := by
  have hinner : ¬∃ p ∈ lanes.flatMap Lane.inner, p.1 = l.count := by
    rintro ⟨p, hp, heq⟩
    obtain ⟨j, _, _, hj⟩ := h.symbols p hp
    obtain ⟨k, _, _, hk⟩ := h.counts l hl
    rw [hj, hk] at heq
    have := (Symbol.unnumbered_u.append_inj Symbol.unnumbered_v (congrArg Symbol.name heq)).1
    exact absurd this (by decide)
  rw [summand, if_neg hinner, find?_of_nodup h.counts_nodup hl]

/-- Symbols that are not marked for the star keep their values. -/
theorem summand_of_lt (h : Laid tuple lanes e e₁) (hs : ∀ k, s.IsMark k → k < e.next) :
    ((∃ k, s.IsMark k) → summand lanes g c ρ ρ' s = ρ s) ∧
      ((∀ k, ¬s.IsMark k) → summand lanes g c ρ ρ' s = ρ' s) := by
  have hinner : ¬∃ p ∈ lanes.flatMap Lane.inner, p.1 = s := by
    rintro ⟨p, hp, rfl⟩
    obtain ⟨k, hk, _, hmark⟩ := h.isMark_inner hp
    exact absurd (hs k hmark) (not_lt.mpr hk)
  have hcount : (lanes.find? fun l => decide (l.count = s)) = none := by
    rw [List.find?_eq_none]
    intro l hl heq
    obtain ⟨k, hk, _, hmark⟩ := h.isMark_count hl
    rw [of_decide_eq_true heq] at hmark
    exact absurd (hs k hmark) (not_lt.mpr hk)
  rw [summand, if_neg hinner, hcount]
  exact ⟨fun hmark => if_pos hmark, fun hmark => if_neg fun ⟨k, hk⟩ => hmark k hk⟩

theorem summand_unmarked (h : Laid tuple lanes e e₁) (hs : ∀ k, ¬s.IsMark k) :
    summand lanes g c ρ ρ' s = ρ' s :=
  (summand_of_lt h fun k hk => absurd hk (hs k)).2 hs

theorem depicted_summand (h : Laid tuple lanes e e₁) {w : World} (hw : w.Depicted L ρ') :
    w.Depicted L (summand lanes g c ρ ρ') := by
  intro x hx s q hshows
  rw [summand_unmarked h, hw x hx s q hshows]
  intro k hk
  cases hk.owner?.symm.trans (hshows.owner? hx)

theorem spells_summand (h : Laid tuple lanes e e₁) {e' : Encoder} (ht : e'.Tidy)
    (hρ : e'.Spells L ρ') : e'.Spells L (summand lanes g c ρ ρ') := fun t v hv => by
  rw [summand_unmarked h (ht.global_of_literal hv).unmarked, hρ t v hv]

theorem admits_summand (h : Laid tuple lanes e e₁) (hρ : ∀ s, ρ s ∈ L.admits s.type)
    (hρ' : ∀ s, ρ' s ∈ L.admits s.type) (s : Symbol) :
    summand lanes g c ρ ρ' s ∈ L.admits s.type := by
  unfold summand
  split
  · next hinner =>
      obtain ⟨p, hp, rfl⟩ := hinner
      obtain ⟨k, _, _, hk⟩ := h.symbols p hp
      rw [hk]
      exact Set.mem_univ _
  split
  · next l hl =>
      obtain rfl : l.count = s := by simpa using List.find?_some hl
      obtain ⟨k, _, _, hk⟩ := h.counts l (List.mem_of_find?_eq_some hl)
      rw [hk]
      exact Set.mem_univ _
  · split
    · exact hρ s
    · exact hρ' s

/-! ### Summands of a star -/

/-- What the formulas of a star come from. -/
structure Stage (tuple : String) (lanes : List Lane) (nulls stars : List Formula)
    (e e₁ e₂ e₃ : Encoder) : Prop where
  tidy : e.Tidy
  ready : Ready e.next (lanes.map fun l => l.member.rest tuple)
  laid : Laid tuple lanes e e₁
  related : Related (starNames tuple lanes) { e₁ with equations := [] } nulls e₂
  layered : Layered (lanes.flatMap Lane.inner) e₂ stars e₃

/-- The body of a star. -/
def starBody (lanes : List Lane) (nulls stars literals : List Formula) : Formula :=
  .and (lanes.map (fun l => l.row.2) ++ nulls ++ stars ++ literals)

/-- The symbols of the body of a star. -/
def starSymbols (tuple : String) (lanes : List Lane) : Set Symbol :=
  {s | (∃ l ∈ lanes, l.count = s) ∨ s ∈ visible (starNames tuple lanes) ∨
    ∃ p ∈ lanes.flatMap Lane.inner, p.1 = s}

theorem Laid.terms_eq (h : Laid tuple lanes e e₁) :
    terms (lanes.flatMap Lane.inner) =
      (lanes.flatMap fun l => OpenSum.ofTerm (l.member.rest tuple) l.member.sum.side).map
        OpenSum.term := by
  rw [terms, List.map_flatMap, List.map_flatMap]
  refine List.flatMap_congr fun l hl => ?_
  rw [← h.sums l hl, List.map_map]
  rfl

theorem Laid.flatMap_boundVars (h : Laid tuple lanes e e₁) :
    (terms (lanes.flatMap Lane.inner)).flatMap Term.boundVars =
      (lanes.map fun l => l.member.rest tuple).flatMap Term.boundVars := by
  rw [h.terms_eq, flatMap_boundVars_summations]

theorem Laid.boundNames_eq (h : Laid tuple lanes e e₁) :
    boundNames (terms (lanes.flatMap Lane.inner)) =
      boundNames (lanes.map fun l => l.member.rest tuple) :=
  congrArg (List.map _) h.flatMap_boundVars

theorem Laid.ready {n : ℕ} (h : Laid tuple lanes e e₁)
    (hready : Ready n (lanes.map fun l => l.member.rest tuple)) :
    Ready n (terms (lanes.flatMap Lane.inner)) := by
  rw [h.terms_eq]
  exact hready.summations

/-- The tuples and placeholders that a star is about. -/
theorem starNames_eq (tuple : String) (lanes : List Lane) :
    starNames tuple lanes =
      Involved (lanes.map fun l => l.member.rest tuple) (lanes.flatMap Lane.inner) := by
  funext x
  refine propext ⟨?_, ?_⟩
  · rintro ⟨l, hl, hx | ⟨p, hp, rfl⟩⟩
    · exact .inl ⟨_, List.mem_map_of_mem hl, hx⟩
    · exact .inr ⟨p, List.mem_flatMap.mpr ⟨l, hl, hp⟩, rfl⟩
  · rintro (⟨t, ht, hx⟩ | ⟨p, hp, rfl⟩)
    · obtain ⟨l, hl, rfl⟩ := List.mem_map.mp ht
      exact ⟨l, hl, .inl hx⟩
    · obtain ⟨l, hl, hp⟩ := List.mem_flatMap.mp hp
      exact ⟨l, hl, .inr ⟨p, hp, rfl⟩⟩

theorem Laid.symbols_lt (h : Laid tuple lanes e e₁) :
    ∀ p ∈ lanes.flatMap Lane.inner, ∃ k < e₁.next, p.1 = ⟨"#u" ++ toString k, .int⟩ := by
  intro p hp
  obtain ⟨k, _, hk, heq⟩ := h.symbols p hp
  exact ⟨k, hk, heq⟩

theorem later_equations (e : Encoder) (qs : List TupleEquation) :
    Later e { e with equations := qs } :=
  ⟨le_refl _, fun _ _ h => h, fun h => ⟨h.literals, h.injective, h.counted, h.counts, h.columns⟩,
    fun _ _ => rfl⟩

namespace Stage

variable {nulls stars : List Formula}

theorem later (h : Stage tuple lanes nulls stars e e₁ e₂ e₃) : Later e e₂ :=
  h.laid.growth.later.trans ((later_equations e₁ []).trans h.related.effect.toGrowth.later)

/-- A symbol that the members are about is no mark, or it is a placeholder in them. -/
theorem unmarked_or_inner (h : Stage tuple lanes nulls stars e e₁ e₂ e₃)
    (hs : s ∈ visible (starNames tuple lanes)) :
    (∀ k, ¬s.IsMark k) ∨ ∃ p ∈ lanes.flatMap Lane.inner, p.1 = s :=
  unmarked_or_placeholder h.ready h.laid.symbols_lt (starNames_eq tuple lanes ▸ hs)

/-- What is in scope in the body belongs to no tuple that is bound below. -/
theorem clear (h : Stage tuple lanes nulls stars e e₁ e₂ e₃) :
    Clear e₂.next {x | x ∈ boundNames (terms (lanes.flatMap Lane.inner))}
      (starSymbols tuple lanes) := by
  have hnext : e.next ≤ e₁.next := h.laid.growth.next
  have hnext₁ : e₁.next ≤ e₂.next := h.related.effect.next
  rw [h.laid.boundNames_eq, starSymbols, starNames_eq]
  rintro s (⟨l, hl, rfl⟩ | hs | ⟨p, hp, rfl⟩)
  · obtain ⟨k, _, hk, hs⟩ := h.laid.isMark_count hl
    exact hs.clear (lt_of_lt_of_le hk hnext₁)
  · exact clear_visible h.ready h.laid.symbols_lt (le_trans hnext hnext₁) hnext₁ s hs
  · obtain ⟨k, _, hk, hs⟩ := h.laid.isMark_inner hp
    exact hs.clear (lt_of_lt_of_le hk hnext₁)

theorem tidy₁ (h : Stage tuple lanes nulls stars e e₁ e₂ e₃) :
    ({ e₁ with equations := [] } : Encoder).Tidy :=
  (later_equations e₁ []).tidy (h.laid.growth.tidy h.tidy)

theorem tidy₃ (h : Stage tuple lanes nulls stars e e₁ e₂ e₃) : e₃.Tidy :=
  h.layered.later.tidy (h.later.tidy h.tidy)

/-- The body of a star is about the symbols of its members. -/
theorem built (h : Stage tuple lanes nulls stars e e₁ e₂ e₃) :
    (starBody lanes nulls stars e₃.distinctness).Built (starSymbols tuple lanes) true .truth := by
  have hvisible : visible (starNames tuple lanes) ⊆ starSymbols tuple lanes :=
    fun s hs => .inr (.inl hs)
  simp only [starBody, Formula.Built, Formula.allBuilt_iff, List.forall_mem_append,
    List.forall_mem_map, true_and]
  refine ⟨⟨⟨fun l hl => ?_, fun f hf => ?_⟩, fun f hf => ?_⟩, fun f hf => ?_⟩
  · have hnames : visible (l.Names tuple) ⊆ visible (starNames tuple lanes) :=
      visible_mono fun x hx => ⟨l, hl, hx⟩
    exact ⟨rfl, ⟨rfl, .inl ⟨l, hl, rfl⟩⟩,
      (h.laid.built l hl).mono (hnames.trans hvisible) fun hfalse => by cases hfalse⟩
  · exact (h.related.built h.tidy₁ f hf).mono hvisible fun hfalse => by cases hfalse
  · exact (h.layered.built f hf).mono (fun s hs => .inr (.inr hs)) id
  · exact ((distinctness_ok hf).1 h.tidy₃).mono hvisible fun hfalse => by cases hfalse

theorem conjunctive (h : Stage tuple lanes nulls stars e e₁ e₂ e₃) :
    (starBody lanes nulls stars e₃.distinctness).Conjunctive := by
  refine .and ?_
  simp only [List.forall_mem_append, List.forall_mem_map]
  refine ⟨⟨⟨fun l hl => ?_, fun f hf => ?_⟩, h.layered.conjunctive⟩, fun f hf => ?_⟩
  · have hfree := (h.laid.built l hl).hasStar_eq
    exact .starFree (by simp [Lane.row, Formula.hasStar, hfree])
  · exact .starFree (h.related.built h.tidy₁ f hf).hasStar_eq
  · exact .starFree ((distinctness_ok (M := starNames tuple lanes) hf).1 h.tidy₃).hasStar_eq

/-- What is mentioned by the summations inside the members is mentioned by the members. -/
theorem mentioned (h : Stage tuple lanes nulls stars e e₁ e₂ e₃) {x : String}
    (hx : Mentioned (terms (lanes.flatMap Lane.inner)) x) :
    Mentioned (lanes.map fun l => l.member.rest tuple) x := by
  obtain ⟨t, ht, hx⟩ := hx
  rw [h.laid.terms_eq] at ht
  obtain ⟨s, hs, rfl⟩ := List.mem_map.mp ht
  obtain ⟨l, hl, hs⟩ := List.mem_flatMap.mp hs
  exact ⟨_, List.mem_map_of_mem hl, Term.mentions_of_mem_summations (OpenSum.mem_ofTerm hs) hx⟩

/-- A world in which the members are read gives a summand of the star.  The counts of the members
do not depend on the place where the star stands. -/
theorem summand (h : Stage tuple lanes nulls stars e e₁ e₂ e₃) (apply overZero) {w : World}
    (hw : e.Scene (Mentioned (lanes.map fun l => l.member.rest tuple)) L w ρ')
    (hspells : e₃.Spells L ρ') (hadmits : ∀ s, ρ' s ∈ L.admits s.type) (hlisted : w.Listed)
    (hstocked : w.Stocked L (terms (lanes.flatMap Lane.inner))) :
    ∃ c : Lane → ℚ, (∀ l ∈ lanes, LessDefined ((l.member.rest tuple).number w) (c l)) ∧
      ∀ {K : Set Symbol} {ρ : Interpretation},
        Clear e.next {x | x ∈ boundNames (terms (lanes.flatMap Lane.inner))} K →
        (∀ s, ρ s ∈ L.admits s.type) → (∀ s ∈ K, (∀ k, ¬s.IsMark k) → ρ' s = ρ s) →
        ∃ σ : Interpretation, (∀ s, σ s ∈ L.admits s.type) ∧ (∀ s ∈ K, σ s = ρ s) ∧
          (∀ l ∈ lanes, σ l.count = c l) ∧
          (starBody lanes nulls stars e₃.distinctness).Holds (.lexical L.admits apply overZero)
            (K ∪ {s | s ∈ (starBody lanes nulls stars e₃.distinctness).surface}) σ := by
  have hscene : e₂.Scene (Mentioned (terms (lanes.flatMap Lane.inner))) L w ρ' :=
    hw.later h.later (fun x hx => h.mentioned hx) fun x hx => h.ready.free x (h.mentioned hx)
  obtain ⟨g, hg, hsolves⟩ := h.layered.sound apply overZero hscene hspells hadmits hlisted hstocked
  set R : Reading := .lexical L.admits apply overZero
  -- The formulas of the members do not see the counts and the marks outside.
  have hvalue : ∀ {c : Lane → ℚ} {ρ : Interpretation} {K : Set Symbol}, ∀ l ∈ lanes,
      l.formula.value R K (Encoder.summand lanes g c ρ ρ') =
        l.formula.value R ∅ (Encoder.summand lanes g 0 ρ' ρ') := by
    intro c ρ K l hl
    refine (h.laid.built l hl).value_congr fun s hs => ?_
    have hs : s ∈ visible (starNames tuple lanes) := visible_mono (fun x hx => ⟨l, hl, hx⟩) hs
    rcases h.unmarked_or_inner hs with hs | ⟨p, hp, rfl⟩
    · rw [summand_unmarked h.laid hs, summand_unmarked h.laid hs]
    · rw [summand_inner hp, summand_inner hp]
  have hspells₁ : e₁.Spells L ρ' :=
    ((hspells.of_later h.layered.later).of_later h.related.effect.toGrowth.later).of_later
      (later_equations e₁ [])
  refine ⟨fun l => l.formula.value R ∅ (Encoder.summand lanes g 0 ρ' ρ'), fun l hl => ?_,
    fun {K ρ} hK hρ hshare => ?_⟩
  · have hlane : e.Scene (fun x => (l.member.rest tuple).mentions x = true) L w
        (Encoder.summand lanes g 0 ρ' ρ') :=
      ⟨depicted_summand h.laid hw.depicted, hw.furnished, hw.plain, fun x hx =>
        hw.schemas x (hx.imp_left fun hx => ⟨_, List.mem_map_of_mem hl, hx⟩)⟩
    refine h.laid.value l hl hlane
      (spells_summand h.laid (h.laid.growth.tidy h.tidy) hspells₁) fun p hp => ?_
    have hp : p ∈ lanes.flatMap Lane.inner := List.mem_flatMap.mpr ⟨l, hl, hp⟩
    rw [summand_inner hp]
    exact hg p hp
  set c : Lane → ℚ := fun l => l.formula.value R ∅ (Encoder.summand lanes g 0 ρ' ρ')
  set σ := Encoder.summand lanes g c ρ ρ'
  have hσ : ∀ s, σ s ∈ L.admits s.type := admits_summand h.laid hρ hadmits
  refine ⟨σ, hσ, fun s hs => ?_, fun l hl => summand_count h.laid hl, ?_⟩
  · by_cases hs' : ∃ k, s.IsMark k
    · exact (summand_of_lt h.laid (hK s hs).2).1 hs'
    · rw [not_exists] at hs'
      exact (summand_unmarked h.laid hs').trans (hshare s hs hs')
  have hdepicted : w.Depicted L σ := depicted_summand h.laid hw.depicted
  have hσspells : e₃.Spells L σ := spells_summand h.laid h.tidy₃ hspells
  simp only [starBody, Formula.holds_and, List.forall_mem_append, List.forall_mem_map]
  refine ⟨⟨⟨fun l hl => ?_, fun f hf => ?_⟩, fun f hf => ?_⟩, fun f hf => ?_⟩
  · rw [Lane.row, Formula.holds_eq, Formula.value]
    exact (summand_count h.laid hl).trans (hvalue l hl).symm
  · refine h.related.holds ⟨hdepicted, fun _ _ _ hS => hw.furnished.row hS, fun x hx => ?_⟩ f hf
    change e₁.schemas.get? x = w.schemas x
    rw [h.laid.growth.schemas]
    refine hw.schemas x ?_
    rw [starNames_eq] at hx
    refine hx.imp_right ?_
    rintro ⟨p, hp, rfl⟩ j hj
    obtain ⟨k, _, hk⟩ := h.laid.symbols_lt p hp
    rw [hk] at hj
    exact absurd (Symbol.unnumbered_u.append_inj unnumbered_common hj).1 (by decide)
  · have hsurface := (Formula.built_iff_surface.mp h.built).2
    refine hsolves f hf ((hK.mono h.later.next fun x hx => hx).union fun s hs => ?_) hσ
      (fun s hs => summand_unmarked h.laid hs) ?_
    · exact h.clear s (hsurface s hs)
    · rintro s ⟨p, hp, rfl⟩
      exact summand_inner hp
  · exact (distinctness_ok (M := starNames tuple lanes) hf).2 hσspells

end Stage

/-! ### Stars over lists of worlds -/

theorem spells_paint {e : Encoder} {w : World} (ht : e.Tidy) (h : e.Spells L ρ) (X : Set String) :
    e.Spells L (w.paint L X ρ) := fun t v hv => by
  rw [World.paint_of_owner?, h t v hv]
  intro x _ howner
  cases (Symbol.owner?_of_clean (ht.global_of_literal hv).clean).symm.trans howner

/-- What is known of the members of a star and of the worlds that they are added up over: the
worlds differ in the tuples `X`, which are new or bound by the members. -/
structure Spread (scope : List Counted) (tuple : String) (lanes : List Lane) (X : Set String)
    (e e' : Encoder) : Prop where
  later : Later e e'
  members : scope = lanes.map fun l => (l.member.symbol, l.member.sum)
  symbols : (scope.map Prod.fst).Nodup
  fresh : ∀ x ∈ X, x ∈ boundNames (terms scope) ∨ ∃ k, e.next ≤ k ∧ x = "#ct" ++ toString k
  below : ∀ b ∈ (lanes.map fun l => l.member.rest tuple).flatMap Term.boundVars,
    b ∈ (terms scope).flatMap Term.boundVars ∧ b.var.tuple ∉ X
  worlds : ∀ {L w ρ}, e.Scene (Mentioned (terms scope)) L w ρ → w.Listed →
    w.Stocked L (terms scope) →
    ∃ ws : List World,
      (∀ w' ∈ ws, w.Differs X w' ∧ w'.Furnished L ∧
        ∀ x, (Mentioned (lanes.map fun l => l.member.rest tuple) x ∨
          ∀ k : ℕ, x ≠ "#ct" ++ toString k) → e'.schemas.get? x = w'.schemas x) ∧
      ∀ l ∈ lanes, LessDefined (l.member.sum.number w)
        (ws.map fun w' => (l.member.rest tuple).number w').sum

/-- A star holds of the numbers that its members add up to. -/
theorem star_ok {nulls stars : List Formula} {scope : List Counted} {e₀ : Encoder}
    (h : Stage tuple lanes nulls stars e e₁ e₂ e₃) (hspread : Spread scope tuple lanes X e₀ e)
    {sides : List Side} :
    Layered scope e₀ [.star (lanes.map fun l => l.member.symbol) (lanes.map Lane.count) sides
      (starBody lanes nulls stars e₃.distinctness)] e₃ := by
  have hlater := hspread.later.trans (h.later.trans h.layered.later)
  have hlanes : ∀ l ∈ lanes, (l.member.symbol, l.member.sum) ∈ scope := fun l hl => by
    rw [hspread.members]
    exact List.mem_map_of_mem hl
  refine ⟨hlater, h.layered.equations, ?_, ?_, ?_⟩
  · rw [List.forall_mem_singleton]
    refine ⟨rfl, rfl, fun s hs => ?_, h.built.mono (Set.subset_univ _) id⟩
    obtain ⟨l, hl, rfl⟩ := List.mem_map.mp hs
    exact ⟨_, hlanes l hl, rfl⟩
  · rw [List.forall_mem_singleton]
    exact .star h.conjunctive
  intro apply overZero L w ρ₀ hw hspells hadmits hlisted hstocked
  obtain ⟨ws, hws, hsums⟩ := hspread.worlds hw hlisted hstocked
  -- Each of the worlds gives a summand, wherever the star stands.
  have hsummand : ∀ w' ∈ ws, ∃ c : Lane → ℚ,
      (∀ l ∈ lanes, LessDefined ((l.member.rest tuple).number w') (c l)) ∧
      ∀ {K : Set Symbol} {ρ : Interpretation},
        Clear e.next {x | x ∈ boundNames (terms (lanes.flatMap Lane.inner))} K →
        (∀ s, ρ s ∈ L.admits s.type) →
        (∀ s ∈ K, (∀ k, ¬s.IsMark k) → w'.paint L X ρ₀ s = ρ s) →
        ∃ σ : Interpretation, (∀ s, σ s ∈ L.admits s.type) ∧ (∀ s ∈ K, σ s = ρ s) ∧
          (∀ l ∈ lanes, σ l.count = c l) ∧
          (starBody lanes nulls stars e₃.distinctness).Holds (.lexical L.admits apply overZero)
            (K ∪ {s | s ∈ (starBody lanes nulls stars e₃.distinctness).surface}) σ := by
    intro w' hw'
    obtain ⟨hdiffers, hfurnished, hschemas⟩ := hws w' hw'
    refine h.summand apply overZero
      ⟨hw.depicted.paint hdiffers.count hdiffers.other, hfurnished, fun x => ?_, hschemas⟩
      (spells_paint h.tidy₃ hspells X) (World.admits_paint hfurnished hadmits)
      (hlisted.of_differs hdiffers) ?_
    · rw [hdiffers.placeholders, hw.plain x]
    · rw [World.Stocked, h.laid.flatMap_boundVars]
      intro b hb
      obtain ⟨hb, hX⟩ := hspread.below b hb
      rw [(hdiffers.other _ hX).2, hdiffers.rows]
      exact hstocked b hb
  choose! c hc hsummand using hsummand
  let g : Interpretation := fun s =>
    ((lanes.find? fun l => decide (l.member.symbol = s)).map fun l =>
      (ws.map fun w' => c w' l).sum).getD 0
  have hsymbols : (lanes.map fun l => l.member.symbol).Nodup := by
    have := hspread.symbols
    rwa [hspread.members, List.map_map] at this
  have hg : ∀ l ∈ lanes, g l.member.symbol = (ws.map fun w' => c w' l).sum := fun l hl => by
    simp only [g, find?_of_nodup hsymbols hl, Option.map_some, Option.getD_some]
  refine ⟨g, ?_, ?_⟩
  · rw [hspread.members, List.forall_mem_map]
    intro l hl
    refine (hsums l hl).trans ?_
    rw [hg l hl, ← WithTop.coe_addHom, map_list_sum, List.map_map]
    refine LessDefined.sum ?_
    rw [List.forall₂_map_left_iff, List.forall₂_map_right_iff, List.forall₂_same]
    exact fun w' hw' => hc w' hw' l hl
  rw [List.forall_mem_singleton]
  intro K ρ hK hρ hagree hvalues
  have hinner : Clear e.next {x | x ∈ boundNames (terms (lanes.flatMap Lane.inner))} K := by
    refine hK.mono hspread.later.next fun x hx => ?_
    rw [Set.mem_ofPred_eq, h.laid.boundNames_eq] at hx
    obtain ⟨b, hb, rfl⟩ := List.mem_map.mp hx
    exact List.mem_map.mpr ⟨b, (hspread.below b hb).1, rfl⟩
  -- What is in scope belongs to no tuple in which the worlds differ.
  have hshare : ∀ w' ∈ ws, ∀ s ∈ K, (∀ k, ¬s.IsMark k) → w'.paint L X ρ₀ s = ρ s := by
    intro w' _ s hs hmark
    rw [World.paint_of_owner?, hagree s hmark]
    intro x hx howner
    obtain ⟨hbound, hcommon⟩ := (hK s hs).1 x howner
    rcases hspread.fresh x hx with hx | ⟨k, hk, rfl⟩
    · exact hbound hx
    · exact absurd (hcommon k rfl) (not_lt.mpr hk)
  have hσ := fun w' hw' => hsummand w' hw' hinner hρ (hshare w' hw')
  choose! σ hσadmits hσshared hσcounts hσbody using hσ
  rw [Formula.holds_star]
  refine ⟨ws.map σ, ?_, ?_⟩
  · rw [List.forall_mem_map]
    exact fun w' hw' => ⟨hσadmits w' hw', hσshared w' hw', hσbody w' hw'⟩
  · intro p hp
    rw [List.zip_map'] at hp
    obtain ⟨l, hl, rfl⟩ := List.mem_map.mp hp
    rw [hvalues l.member.symbol ⟨_, hlanes l hl, rfl⟩, hg l hl, List.map_map]
    exact congrArg List.sum (List.map_congr_left fun w' hw' => (hσcounts w' hw' l hl).symm)

end Encoder

end BagEquiv
