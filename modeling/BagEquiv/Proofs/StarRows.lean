/-
**The rows of a star.**

For each of its members a star has an equation for the count of the member in a row: what is left
of the member, with placeholders for the summations inside it.  The placeholders and the counts are
numbered as they are drawn, so they differ from each other and from all that was there before.  In
a world that the symbols show, and in which the placeholders stand for the numbers of their
summations, the equation gives the number of what is left of the member.

Main definition:

* `Encoder.Opened` — what is known of a term whose summations were taken out.

Main result:

* `Encoder.Opened.encode_ok` — **the formula of a term whose summations were taken out**.
-/

import BagEquiv.Encoder.Layers
import BagEquiv.Proofs.TermEncoding

set_option autoImplicit false

namespace BagEquiv

/-- Placeholders are not shown. -/
theorem World.Depicted.fill {L : Legend} {w : World} {ρ : Interpretation} (h : w.Depicted L ρ)
    (φ : String → Option (WithTop ℚ)) : (w.fill φ).Depicted L ρ := by
  intro x hx s q hshows
  refine h x hx s q ?_
  cases hshows with
  | column hr hc hattr => exact .column hr hc hattr
  | null hr hc hattr => exact .null hr hc hattr
  | count hr table => exact .count (w := w) hr table

namespace Encoder

/-! ### Drawing placeholders -/

/-- The names are the next placeholders. -/
structure Draws (e : Encoder) (names : List String) (e' : Encoder) : Prop where
  numbered : names = (List.range' e.next names.length).map fun k => "#u" ++ toString k
  state : e' = { e with next := e.next + names.length, counts := names.reverse ++ e.counts }

theorem Draws.nil (e : Encoder) : Draws e [] e := ⟨rfl, rfl⟩

theorem Draws.one (e : Encoder) : Draws e [(freshCount e).1] (freshCount e).2 := ⟨rfl, rfl⟩

theorem Draws.append {e e' e'' : Encoder} {xs ys : List String} (h : Draws e xs e')
    (h' : Draws e' ys e'') : Draws e (xs ++ ys) e'' where
  numbered := by
    have hnext : e'.next = e.next + xs.length := by rw [h.state]
    rw [List.length_append, ← List.range'_append_1, List.map_append, ← h.numbered, ← hnext,
      ← h'.numbered]
  state := by
    rw [h'.state, h.state, List.length_append, List.reverse_append, List.append_assoc,
      Nat.add_assoc]

theorem Draws.of_drawn {e e' : Encoder} {names : List String}
    (h : Term.Drawn freshCount e names e') : Draws e names e' := by
  induction h with
  | nil e => exact .nil e
  | cons _ ih => exact (Draws.one _).append ih

theorem Draws.nodup {e e' : Encoder} {names : List String} (h : Draws e names e') :
    names.Nodup := by
  rw [h.numbered]
  refine (List.nodup_range' ..).map fun j k hjk => ?_
  exact (Symbol.unnumbered_u.append_inj Symbol.unnumbered_u hjk).2

theorem Draws.exists_number {e e' : Encoder} {names : List String} (h : Draws e names e')
    {x : String} (hx : x ∈ names) : ∃ k, e.next ≤ k ∧ k < e'.next ∧ x = "#u" ++ toString k := by
  rw [h.numbered] at hx
  obtain ⟨k, hk, rfl⟩ := List.mem_map.mp hx
  rw [List.mem_range'_1] at hk
  exact ⟨k, hk.1, by rw [h.state]; exact hk.2, rfl⟩

theorem Draws.growth {M : String → Prop} {e e' : Encoder} {names : List String}
    (h : Draws e names e') : Growth M e e' := by
  have hnumber := fun x hx => h.exists_number (x := x) hx
  obtain rfl := h.state
  refine growth_of_equations rfl (Nat.le_add_right _ _) (fun _ _ hs => hs) (fun ht => ?_) rfl
  refine ⟨fun s v hs => ?_, ht.injective, ht.counted, fun x hx => ?_, ht.columns⟩
  · obtain ⟨k, hk, hv⟩ := ht.literals s v hs
    exact ⟨k, Nat.lt_add_right _ hk, hv⟩
  · rcases List.mem_append.mp hx with hx | hx
    · obtain ⟨k, _, _, hk⟩ := hnumber x (List.mem_reverse.mp hx)
      exact ⟨k, hk⟩
    · exact ht.counts x hx

/-- The placeholders of a term are numbered from left to right. -/
theorem draws_strip (t : Term) (e : Encoder) :
    Draws e ((t.strip freshCount e).2.1.map Term.Stripped.name) (t.strip freshCount e).2.2 :=
  .of_drawn (Term.drawn_strip freshCount t e)

/-! ### Terms whose summations were taken out -/

/-- What is known of a term whose summations were taken out, and of the summations. -/
structure Opened (t : Term) (side : Side) (t' : Term) (found : List Counted) (e e' : Encoder) :
    Prop where
  growth : Growth (fun _ => False) e e'
  sums : found.map Prod.snd = OpenSum.ofTerm t side
  symbols : ∀ p ∈ found, ∃ k, e.next ≤ k ∧ k < e'.next ∧ p.1 = ⟨"#u" ++ toString k, .int⟩
  nodup : (found.map Prod.fst).Nodup
  counts : ∀ p ∈ found, p.1.name ∈ e'.counts
  kept : ∀ x ∈ e.counts, x ∈ e'.counts
  meaning : ∀ {w : World} {φ : String → Option (WithTop ℚ)},
    (∀ p ∈ found, φ p.1.name = some (p.2.number w)) →
    (∀ x, t.mentions x = true → φ x = w.placeholders x) → t'.meaning (w.fill φ) = t.meaning w
  mentions : ∀ x, t'.mentions x = true → t.mentions x = true ∨ ∃ p ∈ found, p.1.name = x
  regular : t.Regular → t'.Regular

theorem stripTerm_ok {t t' : Term} {side : Side} {found : List Counted} {e e' : Encoder}
    (h : Returns (stripTerm t side) e (t', found) e') : Opened t side t' found e e' := by
  have h := returns_step.mp h
  obtain ⟨h₁, rfl⟩ := Prod.mk.inj h
  obtain ⟨rfl, rfl⟩ := Prod.mk.inj h₁
  have hdraws := draws_strip t e
  constructor
  · exact hdraws.growth
  · rw [OpenSum.ofTerm, ← Term.strip_found freshCount t e, List.map_map, List.map_map]
    rfl
  · intro p hp
    obtain ⟨st, hst, rfl⟩ := List.mem_map.mp hp
    obtain ⟨k, hk, hk', hname⟩ := hdraws.exists_number (List.mem_map_of_mem hst)
    exact ⟨k, hk, hk', congrArg (Symbol.mk · .int) hname⟩
  · have := hdraws.nodup.map (f := fun x => (⟨x, .int⟩ : Symbol)) fun x y h =>
      congrArg Symbol.name h
    rwa [List.map_map] at this ⊢
  · intro p hp
    obtain ⟨st, hst, rfl⟩ := List.mem_map.mp hp
    rw [hdraws.state]
    exact List.mem_append_left _ (List.mem_reverse.mpr (List.mem_map_of_mem hst))
  · intro x hx
    rw [hdraws.state]
    exact List.mem_append_right _ hx
  · intro w φ hfound hfree
    exact Term.meaning_strip t e (fun st hst => hfound _ (List.mem_map_of_mem hst)) hfree
  · intro x hx
    refine (Term.mentions_strip t e hx).imp_right ?_
    rintro ⟨st, hst, rfl⟩
    exact ⟨_, List.mem_map_of_mem hst, rfl⟩
  · exact fun hregular => hregular.strip e

/-! ### Formulas of terms whose summations were taken out -/

/-- The symbols of some tuples mean what the tuples are in a world without placeholders. -/
structure Scene (M : String → Prop) (L : Legend) (e : Encoder) (w : World) (ρ : Interpretation) :
    Prop where
  depicted : w.Depicted L ρ
  furnished : w.Furnished L
  plain : ∀ x, w.placeholders x = none
  schemas : ∀ x, (M x ∨ ∀ k : ℕ, x ≠ "#ct" ++ toString k) → e.schemas.get? x = w.schemas x

/-- The tuples of a term, and the placeholders for the summations that were taken out of it. -/
def Names (t : Term) (found : List Counted) (x : String) : Prop :=
  t.mentions x = true ∨ ∃ p ∈ found, p.1.name = x

theorem find?_of_nodup {α β : Type} [DecidableEq β] {f : α → β} {xs : List α}
    (h : (xs.map f).Nodup) {a : α} (ha : a ∈ xs) :
    xs.find? (fun x => decide (f x = f a)) = some a := by
  rw [List.find?_eq_some_iff_append]
  obtain ⟨as, bs, rfl⟩ := List.append_of_mem ha
  refine ⟨decide_eq_true rfl, as, bs, rfl, fun x hx => ?_⟩
  rw [List.map_append, List.map_cons, List.nodup_append] at h
  simpa using h.2.2 (f x) (List.mem_map_of_mem hx) (f a) List.mem_cons_self

/-- The numbers of the summations that were taken out, by their placeholders. -/
def numbers (w : World) (found : List Counted) (x : String) : Option (WithTop ℚ) :=
  (found.find? fun p => decide (p.1.name = x)).map fun p => p.2.number w

theorem numbers_eq_some {w : World} {found : List Counted} {x : String} {n : WithTop ℚ}
    (h : numbers w found x = some n) : ∃ p ∈ found, p.1.name = x ∧ n = p.2.number w := by
  obtain ⟨p, hp, rfl⟩ := Option.map_eq_some_iff.mp h
  exact ⟨p, List.mem_of_find?_eq_some hp, by simpa using List.find?_some hp, rfl⟩

variable {t t' : Term} {side : Side} {found : List Counted} {e e' e₁ e₂ : Encoder} {n : ℕ}

theorem Opened.clean (h : Opened t side t' found e e')
    (hsettled : ∀ x, t.mentions x = true → Settled n x) : ∀ x, Names t found x → Clean x := by
  rintro x (hx | ⟨p, hp, rfl⟩)
  · exact (hsettled x hx).clean
  · obtain ⟨k, _, _, hk⟩ := h.symbols p hp
    have hmark : p.1.IsMark k := .inl (by rw [hk])
    exact hmark.clean

theorem Opened.nodup_names (h : Opened t side t' found e e') :
    (found.map fun p => p.1.name).Nodup := by
  have hsymbols : ∀ p ∈ found, p.1.type = .int := fun p hp => by
    obtain ⟨k, _, _, hk⟩ := h.symbols p hp
    rw [hk]
  have hnodup := List.pairwise_map.mp h.nodup
  refine List.pairwise_map.mpr (hnodup.imp_of_mem fun {p q} hp hq hne heq => hne ?_)
  change (⟨p.1.name, p.1.type⟩ : Symbol) = ⟨q.1.name, q.1.type⟩
  rw [heq, hsymbols p hp, hsymbols q hq]

/-- The symbols show the world in which the placeholders stand for the numbers of their
summations. -/
theorem Opened.reads (h : Opened t side t' found e e') (ht : e₁.Tidy)
    (hcounts : ∀ p ∈ found, p.1.name ∈ e₁.counts)
    (hsettled : ∀ x, t.mentions x = true → Settled n x) {L : Legend} {w : World}
    {ρ : Interpretation} (hw : e₁.Scene (fun x => t.mentions x = true) L w ρ)
    (hfound : ∀ p ∈ found, LessDefined (p.2.number w) (ρ p.1)) :
    e₁.Reads (Names t found) L (w.fill (numbers w found)) ρ where
  depicted := hw.depicted.fill _
  fits _ _ _ hS := hw.furnished.row hS
  schemas x hx := by
    rcases hx with hx | ⟨p, hp, rfl⟩
    · exact hw.schemas x (.inl hx)
    · obtain ⟨k, _, _, hk⟩ := h.symbols p hp
      refine hw.schemas _ (.inr fun j hj => ?_)
      rw [hk] at hj
      exact absurd (Symbol.unnumbered_u.append_inj unnumbered_common hj).1 (by decide)
  counts x hx := by
    rw [isCount, decide_eq_true_eq]
    rcases hx with hx | ⟨p, hp, rfl⟩
    · -- A tuple of the term is no placeholder.
      constructor
      · intro hmem
        obtain ⟨k, hk⟩ := ht.counts x hmem
        exact absurd hk ((hsettled x hx).unmarked k).1
      · intro hsome
        obtain ⟨m, hm⟩ := Option.isSome_iff_exists.mp hsome
        obtain ⟨p, hp, rfl, _⟩ := numbers_eq_some hm
        exact hcounts p hp
    · refine iff_of_true (hcounts p hp) ?_
      exact Option.isSome_iff_exists.mpr
        ⟨_, congrArg (Option.map _) (find?_of_nodup h.nodup_names hp)⟩
  marks x m hm := by
    obtain ⟨p, hp, rfl, hnumber⟩ := numbers_eq_some hm
    obtain ⟨k, _, _, hk⟩ := h.symbols p hp
    have hρ := (hfound p hp).eq_of_coe hnumber.symm
    rw [hk] at hρ ⊢
    exact WithTop.coe_inj.mp hρ

/-- The formula of a term whose summations were taken out has the number of the term. -/
theorem Opened.encode_ok (h : Opened t side t' found e e') (ht : e₁.Tidy)
    (hcounts : ∀ p ∈ found, p.1.name ∈ e₁.counts)
    (hsettled : ∀ x, t.mentions x = true → Settled n x) (hregular : t.Regular) {f : Formula}
    (hf : Returns (encode t') e₁ f e₂) :
    Effect (Names t found) e₁ e₂ ∧ f.Built (visible (Names t found)) false .value ∧
      ∀ {L R K w ρ}, e₁.Scene (fun x => t.mentions x = true) L w ρ → e₂.Spells L ρ →
        (∀ p ∈ found, LessDefined (p.2.number w) (ρ p.1)) →
        LessDefined (t.number w) (f.value R K ρ) := by
  have hencoded := Encoder.encode_ok (h.clean hsettled) (fun x hx => h.mentions x hx)
    (h.regular hregular) hf
  refine ⟨hencoded.effect, hencoded.built ht, fun {L R K w ρ} hw hspells hfound => ?_⟩
  have hmeaning : t'.meaning (w.fill (numbers w found)) = t.meaning w := by
    refine h.meaning (fun p hp => ?_) fun x hx => ?_
    · exact congrArg (Option.map _) (find?_of_nodup h.nodup_names hp)
    · rw [hw.plain x, Option.eq_none_iff_forall_ne_some]
      intro m hm
      obtain ⟨p, hp, rfl, _⟩ := numbers_eq_some hm
      obtain ⟨k, _, _, hk⟩ := h.symbols p hp
      exact ((hsettled _ hx).unmarked k).1 (congrArg Symbol.name hk)
  have hagrees := hencoded.value (R := R) (K := K) (h.reads ht hcounts hsettled hw hfound) hspells
  rw [hmeaning] at hagrees
  exact hagrees.toNumber

/-! ### The members of a star -/

/-- What is left of a member below a layer whose tuple is `tuple`. -/
def Member.rest (m : Member) (tuple : String) : Term := m.sum.rest m.matched tuple

/-- A member of a star, its count in a row, the formula of the count, and the summations inside. -/
structure Lane where
  member : Member
  count : Symbol
  formula : Formula
  inner : List Counted

namespace Lane

/-- The row of a star for the member. -/
def row (l : Lane) : Symbol × Formula := (l.count, .eq (.sym l.count) l.formula)

/-- The tuples of what is left of the member, and the placeholders in it. -/
def Names (tuple : String) (l : Lane) : String → Prop :=
  Encoder.Names (l.member.rest tuple) l.inner

end Lane

/-- The tuples of what is left of the members of a star, and the placeholders in it. -/
def starNames (tuple : String) (lanes : List Lane) (x : String) : Prop :=
  ∃ l ∈ lanes, l.Names tuple x

/-- What is known of the lanes of a star. -/
structure Laid (tuple : String) (lanes : List Lane) (e e' : Encoder) : Prop where
  growth : Growth (starNames tuple lanes) e e'
  counts : ∀ l ∈ lanes, ∃ k, e.next ≤ k ∧ k < e'.next ∧ l.count = ⟨"#v" ++ toString k, .int⟩
  counts_nodup : (lanes.map Lane.count).Nodup
  symbols : ∀ p ∈ lanes.flatMap Lane.inner,
    ∃ k, e.next ≤ k ∧ k < e'.next ∧ p.1 = ⟨"#u" ++ toString k, .int⟩
  symbols_nodup : ((lanes.flatMap Lane.inner).map Prod.fst).Nodup
  sums : ∀ l ∈ lanes,
    l.inner.map Prod.snd = OpenSum.ofTerm (l.member.rest tuple) l.member.sum.side
  built : ∀ l ∈ lanes, l.formula.Built (visible (l.Names tuple)) false .value
  value : ∀ {L R K w ρ}, ∀ l ∈ lanes,
    e.Scene (fun x => (l.member.rest tuple).mentions x = true) L w ρ → e'.Spells L ρ →
    (∀ p ∈ l.inner, LessDefined (p.2.number w) (ρ p.1)) →
    LessDefined ((l.member.rest tuple).number w) (l.formula.value R K ρ)

theorem Laid.nil (tuple : String) (e : Encoder) : Laid tuple [] e e := by
  constructor <;> simp [Growth.refl]

theorem Scene.of_schemas {M : String → Prop} {L : Legend} {w : World} {ρ : Interpretation}
    (h : e.Scene M L w ρ) (he : e'.schemas = e.schemas) : e'.Scene M L w ρ :=
  ⟨h.depicted, h.furnished, h.plain, fun x hx => by rw [he, h.schemas x hx]⟩

theorem growth_fresh {M : String → Prop} (start : String) (e : Encoder) :
    Growth M e (e.fresh start).2 := by
  refine growth_of_equations rfl (Nat.le_succ _) (fun _ _ hs => hs) (fun ht => ?_) rfl
  refine ⟨fun s v hs => ?_, ht.injective, ht.counted, ht.counts, ht.columns⟩
  obtain ⟨k, hk, hv⟩ := ht.literals s v hs
  exact ⟨k, Nat.lt_succ_of_lt hk, hv⟩

/-- Symbols with different numbers differ. -/
theorem ne_of_number_lt {p : String} (hp : Unnumbered p) {j k : ℕ} (h : j < k) :
    (⟨p ++ toString j, .int⟩ : Symbol) ≠ ⟨p ++ toString k, .int⟩ := fun heq =>
  absurd (hp.append_inj hp (congrArg Symbol.name heq)).2 (ne_of_lt h)

/-- The lane of one more member. -/
theorem Laid.cons {tuple : String} {m : Member} {t' : Term} {found : List Counted} {f : Formula}
    {lanes : List Lane} {e₃ : Encoder} (ht : e.Tidy)
    (hopened : Opened (m.rest tuple) m.sum.side t' found e e₁)
    (hf : Returns (encode t') (e₁.fresh "#v").2 f e₂) (hlanes : Laid tuple lanes e₂ e₃)
    (hsettled : ∀ x, (m.rest tuple).mentions x = true → Settled n x)
    (hregular : (m.rest tuple).Regular) :
    Laid tuple (⟨m, ⟨(e₁.fresh "#v").1, .int⟩, f, found⟩ :: lanes) e e₃ := by
  have hfresh := growth_fresh (M := fun _ => False) "#v" e₁
  have ht₁ : (e₁.fresh "#v").2.Tidy :=
    hfresh.tidy (hopened.growth.tidy ht)
  obtain ⟨heffect, hbuilt, hvalue⟩ := hopened.encode_ok ht₁ hopened.counts hsettled hregular hf
  have hschemas : e₂.schemas = e.schemas := by
    rw [heffect.schemas]
    exact hopened.growth.schemas
  have hnext : e.next ≤ e₁.next := hopened.growth.next
  have hnext₁ : e₁.next < e₂.next := heffect.next
  have hnext₂ : e₂.next ≤ e₃.next := hlanes.growth.next
  constructor
  · refine ((hopened.growth.trans hfresh).mono fun x hx => hx.elim).trans
      ((heffect.toGrowth.mono fun x hx => ?_).trans (hlanes.growth.mono fun x hx => ?_))
    · exact ⟨_, List.mem_cons_self, hx⟩
    · obtain ⟨l, hl, hx⟩ := hx
      exact ⟨l, List.mem_cons_of_mem _ hl, hx⟩
  · rw [List.forall_mem_cons]
    refine ⟨⟨e₁.next, hnext, by omega, rfl⟩, fun l hl => ?_⟩
    obtain ⟨k, hk, hk', hcount⟩ := hlanes.counts l hl
    exact ⟨k, by omega, hk', hcount⟩
  · rw [List.map_cons, List.nodup_cons]
    refine ⟨fun hmem => ?_, hlanes.counts_nodup⟩
    obtain ⟨l, hl, heq⟩ := List.mem_map.mp hmem
    obtain ⟨k, hk, _, hcount⟩ := hlanes.counts l hl
    exact ne_of_number_lt Symbol.unnumbered_v (by omega) (heq.symm.trans hcount)
  · rw [List.flatMap_cons, List.forall_mem_append]
    refine ⟨fun p hp => ?_, fun p hp => ?_⟩
    · obtain ⟨k, hk, hk', hp⟩ := hopened.symbols p hp
      exact ⟨k, hk, by omega, hp⟩
    · obtain ⟨k, hk, hk', hp⟩ := hlanes.symbols p hp
      exact ⟨k, by omega, hk', hp⟩
  · rw [List.flatMap_cons, List.map_append, List.nodup_append]
    refine ⟨hopened.nodup, hlanes.symbols_nodup, fun s hs u hu => ?_⟩
    obtain ⟨p, hp, rfl⟩ := List.mem_map.mp hs
    obtain ⟨q, hq, rfl⟩ := List.mem_map.mp hu
    obtain ⟨j, _, hj, hp⟩ := hopened.symbols p hp
    obtain ⟨k, hk, _, hq⟩ := hlanes.symbols q hq
    rw [hp, hq]
    exact ne_of_number_lt Symbol.unnumbered_u (by omega)
  · rw [List.forall_mem_cons]
    exact ⟨hopened.sums, hlanes.sums⟩
  · rw [List.forall_mem_cons]
    exact ⟨hbuilt, hlanes.built⟩
  · intro L R K w ρ
    rw [List.forall_mem_cons]
    refine ⟨fun hw hspells hfound => ?_, fun l hl hw hspells hfound => ?_⟩
    · exact hvalue (hw.of_schemas hopened.growth.schemas)
        (hspells.of_growth hlanes.growth) hfound
    · exact hlanes.value l hl (hw.of_schemas hschemas) hspells hfound

/-- The rows of a star are made one member after the other. -/
inductive RowRun (tuple : String) : List Member → Encoder → List (Symbol × Formula) →
    List Counted → Encoder → Prop
  | nil (e : Encoder) : RowRun tuple [] e [] [] e
  | cons {m : Member} {ms : List Member} {t : Term} {found below : List Counted} {f : Formula}
      {rows : List (Symbol × Formula)} {e e₁ e₂ e' : Encoder}
      (strip : Returns (stripTerm (m.sum.rest m.matched tuple) m.sum.side) e (t, found) e₁)
      (encode : Returns (encode t) { e₁ with next := e₁.next + 1 } f e₂)
      (rest : RowRun tuple ms e₂ rows below e') :
      RowRun tuple (m :: ms) e ((⟨"#v" ++ toString e₁.next, .int⟩,
        .eq (.sym ⟨"#v" ++ toString e₁.next, .int⟩) f) :: rows) (found ++ below) e'

theorem rowRun_of_starRows {tuple : String} {ms : List Member} {rows : List (Symbol × Formula)}
    {below : List Counted} (h : Returns (starRows tuple ms) e (rows, below) e') :
    RowRun tuple ms e rows below e' := by
  induction ms generalizing e rows below with
  | nil =>
      obtain ⟨hresult, rfl⟩ := returns_pure.mp h
      cases hresult
      exact .nil _
  | cons m ms ih =>
      obtain ⟨⟨t, found⟩, e₁, hstrip, h₁⟩ := returns_bind.mp h
      obtain ⟨v, e₂, hv, h₂⟩ := returns_bind.mp h₁
      obtain ⟨rfl, rfl⟩ := Prod.mk.inj (returns_step.mp hv)
      obtain ⟨f, e₃, hf, h₃⟩ := returns_bind.mp h₂
      obtain ⟨⟨rows', more⟩, e₄, hrows, h₄⟩ := returns_bind.mp h₃
      obtain ⟨hresult, rfl⟩ := returns_pure.mp h₄
      cases hresult
      exact .cons hstrip hf (ih hrows)

/-- The rows of a star. -/
theorem starRows_ok {tuple : String} {ms : List Member} {rows : List (Symbol × Formula)}
    {below : List Counted} (ht : e.Tidy)
    (hms : ∀ m ∈ ms, (∀ x, (m.rest tuple).mentions x = true → Settled n x) ∧
      (m.rest tuple).Regular)
    (h : Returns (starRows tuple ms) e (rows, below) e') :
    ∃ lanes : List Lane, lanes.map Lane.member = ms ∧ rows = lanes.map Lane.row ∧
      below = lanes.flatMap Lane.inner ∧ Laid tuple lanes e e' := by
  replace h := rowRun_of_starRows h
  induction h with
  | nil e => exact ⟨[], rfl, rfl, rfl, .nil tuple e⟩
  | @cons _ _ _ _ _ _ _ _ e₁ _ _ hstrip hf _ ih =>
      rw [List.forall_mem_cons] at hms
      obtain ⟨⟨hsettled, hregular⟩, hms⟩ := hms
      have hopened := stripTerm_ok hstrip
      have ht₁ := (growth_fresh (M := fun _ => False) "#v" e₁).tidy
        (hopened.growth.tidy ht)
      have ht₂ := (hopened.encode_ok ht₁ hopened.counts hsettled hregular hf).1.tidy ht₁
      obtain ⟨lanes, rfl, rfl, rfl, hlanes⟩ := ih ht₂ hms
      exact ⟨_ :: lanes, rfl, rfl, rfl, .cons ht hopened hf hlanes hsettled hregular⟩

end Encoder

end BagEquiv
