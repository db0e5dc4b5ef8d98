/-
**Fresh names are different.**

Freshening draws the numbers of its names from a counter that only goes up, so the tuples that a
freshened term binds are numbered differently, and those of two terms that are freshened one after
the other are too.

Main definition:

* `Numbered` — bound tuples with different numbers in some range.

Main result:

* `Term.wellNamed_of_freshen` — **two terms freshened in turn bind every tuple once**.
-/

import BagEquiv.Proofs.SeedMatching
import BagEquiv.Proofs.SymbolNames

set_option autoImplicit false

namespace BagEquiv

/-! ### Numbered tuples -/

/-- Every tuple is bound once, with a name whose number is in the given range. -/
structure Numbered (first last : Nat) (bs : List BoundVar) : Prop where
  nodup : (bs.map fun b => b.var.tuple).Nodup
  range : ∀ b ∈ bs, ∃ base n, b.var.tuple = base ++ "#" ++ toString n ∧ first ≤ n ∧ n < last

namespace Numbered

variable {first middle last : Nat} {bs cs : List BoundVar}

theorem nil : Numbered first last [] := ⟨List.nodup_nil, by simp⟩

/-- Tuples with numbers in one range and then in the next. -/
theorem append (hb : Numbered first middle bs) (hc : Numbered middle last cs)
    (hfirst : first ≤ middle) (hlast : middle ≤ last) : Numbered first last (bs ++ cs) := by
  constructor
  · rw [List.map_append, List.nodup_append]
    refine ⟨hb.nodup, hc.nodup, ?_⟩
    rintro _ hx _ hy heq
    obtain ⟨b, hbm, rfl⟩ := List.mem_map.mp hx
    obtain ⟨c, hcm, rfl⟩ := List.mem_map.mp hy
    obtain ⟨x, m, hm, _, hlt⟩ := hb.range b hbm
    obtain ⟨y, n, hn, hle, _⟩ := hc.range c hcm
    rw [hm, hn] at heq
    have hnum := (unnumbered_append unnumbered_sign).append_inj
      (unnumbered_append unnumbered_sign) heq
    omega
  · intro b hmem
    rcases List.mem_append.mp hmem with hmem | hmem
    · obtain ⟨x, n, hn, hle, hlt⟩ := hb.range b hmem
      exact ⟨x, n, hn, hle, by omega⟩
    · obtain ⟨x, n, hn, hle, hlt⟩ := hc.range b hmem
      exact ⟨x, n, hn, by omega, hlt⟩

theorem wellNamed (h : Numbered first last bs) : WellNamed bs := by
  refine ⟨h.nodup, fun b hb depth => ?_⟩
  obtain ⟨base, n, hn, _⟩ := h.range b hb
  rw [hn]
  exact numbered_ne_placeholder base n depth

end Numbered

namespace Term

/-! ### Fresh names -/

/-- A fresh name has the number of the supply, which goes up by one. -/
theorem Supply.fresh_ok {s t : Supply} {base name : String} (h : s.fresh base = .ok (name, t)) :
    name = base ++ "#" ++ toString s.next.toNat ∧ t.next.toNat = s.next.toNat + 1 := by
  unfold fresh at h
  simp only at h
  split at h
  · next hlt =>
    cases h
    refine ⟨rfl, ?_⟩
    rw [UInt64.toNat_add]
    exact Nat.mod_eq_of_lt hlt
  · cases h

theorem freshNames_ok {vs : List Var} {s t : Supply} {names : List (String × String)}
    (h : freshNames vs s = .ok (names, t)) :
    s.next.toNat ≤ t.next.toNat ∧ ∀ r ∈ names, ∃ base n, r.2 = base ++ "#" ++ toString n ∧
      s.next.toNat ≤ n ∧ n < t.next.toNat := by
  induction vs generalizing s names with
  | nil =>
      cases h
      exact ⟨Nat.le_refl _, by simp⟩
  | cons v vs ih =>
      obtain ⟨⟨name, s₁⟩, hname, h⟩ := Fault.ok_of_bind h
      obtain ⟨⟨names', s₂⟩, hnames, h⟩ := Fault.ok_of_bind h
      cases h
      obtain ⟨hform, hnext⟩ := Supply.fresh_ok hname
      obtain ⟨hle, hrange⟩ := ih hnames
      refine ⟨by omega, List.forall_mem_cons.mpr ⟨?_, fun r hr => ?_⟩⟩
      · exact ⟨v.tuple, s.next.toNat, hform, Nat.le_refl _, by omega⟩
      · obtain ⟨base, n, hn, hlo, hhi⟩ := hrange r hr
        exact ⟨base, n, hn, by omega, hhi⟩

/-- The variables of a summation over fresh names. -/
theorem numbered_ofBinder {names : List (String × String)} {first last : Nat}
    (h : ∀ r ∈ names, ∃ base n, r.2 = base ++ "#" ++ toString n ∧ first ≤ n ∧ n < last)
    (body : Term) :
    Numbered first last (BoundVar.ofBinder (.ofList (names.map fun r => .base r.2)) body) := by
  have isBase : ∀ v ∈ (VarSet.ofList (names.map fun r => .base r.2)).toList,
      ∃ r ∈ names, v = .base r.2 := by
    intro v hv
    obtain ⟨r, hr, rfl⟩ := List.mem_map.mp (VarSet.mem_ofList.mp hv)
    exact ⟨r, hr, rfl⟩
  constructor
  · rw [BoundVar.ofBinder, List.map_map]
    refine List.Nodup.map_on ?_ (VarSet.nodup _)
    intro v hv w hw heq
    obtain ⟨r, _, rfl⟩ := isBase v hv
    obtain ⟨q, _, rfl⟩ := isBase w hw
    exact congrArg Var.base heq
  · intro b hb
    obtain ⟨v, hv, rfl⟩ := List.mem_map.mp hb
    obtain ⟨r, hr, rfl⟩ := isBase v hv
    exact h r hr

/-! ### Freshened terms -/

/-- What freshening does to a term, with the numbers before and after. -/
structure Freshened (s t : Supply) (bs : List BoundVar) : Prop where
  next_le : s.next.toNat ≤ t.next.toNat
  numbered : Numbered s.next.toNat t.next.toNat bs

theorem Freshened.append {s t u : Supply} {bs cs : List BoundVar} (hb : Freshened s t bs)
    (hc : Freshened t u cs) : Freshened s u (bs ++ cs) :=
  ⟨Nat.le_trans hb.next_le hc.next_le, hb.numbered.append hc.numbered hb.next_le hc.next_le⟩

/-- The tuples bound in a freshened term have numbers of their own, and its constants are those of
the term. -/
theorem freshenWith_ok (t : Term) {ρ : Renaming} {t' : Term} {s u : Supply}
    (h : freshenWith ρ t s = .ok (t', u)) :
    Freshened s u t'.boundVars ∧ t'.hasKey = t.hasKey := by
  have member : ∀ {ts ts' : List Term} {ρ : Renaming} {s u : Supply},
      (∀ t ∈ ts, ∀ {ρ : Renaming} {t' : Term} {s u : Supply}, freshenWith ρ t s = .ok (t', u) →
        Freshened s u t'.boundVars ∧ t'.hasKey = t.hasKey) →
      freshenList ρ ts s = .ok (ts', u) →
      Freshened s u (ts'.flatMap boundVars) ∧ allKeyed ts' = allKeyed ts := by
    intro ts ts' ρ s u ih h
    induction ts generalizing ts' s with
    | nil =>
        cases h
        exact ⟨⟨Nat.le_refl _, .nil⟩, rfl⟩
    | cons t ts ihs =>
        rw [List.forall_mem_cons] at ih
        obtain ⟨⟨t', s₁⟩, ht, ⟨ts'', s₂⟩, hts, h⟩ := Fault.ok_of_bind₂ h
        cases h
        obtain ⟨hhead, hkey⟩ := ih.1 ht
        obtain ⟨htail, hkeys⟩ := ihs ih.2 hts
        exact ⟨hhead.append htail, by rw [allKeyed, allKeyed, hkey, hkeys]⟩
  induction t using Term.induct generalizing ρ t' s u with
  | sum vars body ih =>
      obtain ⟨⟨names, s₁⟩, hnames, ⟨body', s₂⟩, hbody, h⟩ := Fault.ok_of_bind₂ h
      cases h
      obtain ⟨hle, hrange⟩ := freshNames_ok hnames
      obtain ⟨hbelow, hkey⟩ := ih hbody
      rw [boundVars_sum]
      exact ⟨.append ⟨hle, numbered_ofBinder hrange body'⟩ hbelow, hkey⟩
  | add ts ih | mul ts ih | pred _ ts ih | func _ ts ih =>
      obtain ⟨⟨ts', s₁⟩, hts, h⟩ := Fault.ok_of_bind h
      cases h
      rw [boundVars, forest, flatten_nodes_forestAll]
      exact member ih hts
  | neg t ih | squash t ih =>
      obtain ⟨⟨t₁, s₁⟩, ht, h⟩ := Fault.ok_of_bind h
      cases h
      obtain ⟨hfresh, hkey⟩ := ih ht
      exact ⟨hfresh, hkey⟩
  | var | const | table | str =>
      cases h
      exact ⟨⟨Nat.le_refl _, .nil⟩, rfl⟩

/-- Two terms freshened in turn bind every tuple once. -/
theorem wellNamed_of_freshen {left right l r : Term} {s t u : Supply}
    (hl : left.freshen s = .ok (l, t)) (hr : right.freshen t = .ok (r, u)) :
    WellNamed (l.boundVars ++ r.boundVars) :=
  ((freshenWith_ok left hl).1.append (freshenWith_ok right hr).1).numbered.wellNamed

end Term

/-- **The first matching of two terms that were freshened** in turn is valid, resolves all
summations, and has in every layer variables over one table, at most one of every summation.  It can
only be missing if the key of a constant cannot be computed. -/
theorem Matching.seed_of_freshen {left right l r : Term} {s t u : Term.Supply}
    (hl : left.freshen s = .ok (l, t)) (hr : right.freshen t = .ok (r, u)) (output : String)
    {budget : Budget} (hb : budget.expired = false) :
    (∃ m, seed l r output budget = .ok m ∧ Seeded l r m) ∨
      (seed l r output budget = .error (.fault .overflow) ∧
        ¬(left.hasKey = true ∧ right.hasKey = true)) := by
  have hkeys := (Term.freshenWith_ok left hl).2
  have hkeys' := (Term.freshenWith_ok right hr).2
  rw [← hkeys, ← hkeys']
  exact seed_ends (Term.wellNamed_of_freshen hl hr) output hb

/-- Two terms that bind the same tuples have a first matching after freshening. -/
theorem Matching.seed_of_freshen_twoRows :
    (Term.twoRows "x" "y" .zero).freshen ⟨.empty, 0⟩ =
        .ok (Term.twoRows "x#0" "y#1" .zero, ⟨.empty, 2⟩) ∧
      (Term.twoRows "x" "y" .zero).freshen ⟨.empty, 2⟩ =
        .ok (Term.twoRows "x#2" "y#3" .zero, ⟨.empty, 4⟩) ∧
      Budget.unlimited.expired = false ∧
      ∃ m, seed (Term.twoRows "x#0" "y#1" .zero) (Term.twoRows "x#2" "y#3" .zero) "out"
          .unlimited = .ok m ∧
        Seeded (Term.twoRows "x#0" "y#1" .zero) (Term.twoRows "x#2" "y#3" .zero) m := by
  have hl : (Term.twoRows "x" "y" .zero).freshen ⟨.empty, 0⟩ =
      .ok (Term.twoRows "x#0" "y#1" .zero, ⟨.empty, 2⟩) := rfl
  have hr : (Term.twoRows "x" "y" .zero).freshen ⟨.empty, 2⟩ =
      .ok (Term.twoRows "x#2" "y#3" .zero, ⟨.empty, 4⟩) := rfl
  refine ⟨hl, hr, rfl, (seed_of_freshen hl hr "out" rfl).resolve_right fun h => h.2 ?_⟩
  decide

/-- There is no first matching where the key of a constant is needed and cannot be computed. -/
theorem Matching.seed_of_tooDeep :
    (Term.twoRows "x" "y" .tooDeep).freshen ⟨.empty, 0⟩ =
        .ok (Term.twoRows "x#0" "y#1" .tooDeep, ⟨.empty, 2⟩) ∧
      (Term.twoRows "z" "w" .tooDeep).freshen ⟨.empty, 2⟩ =
        .ok (Term.twoRows "z#3" "w#2" .tooDeep, ⟨.empty, 4⟩) ∧
      seed (Term.twoRows "x#0" "y#1" .tooDeep) (Term.twoRows "z#3" "w#2" .tooDeep) "out"
        .unlimited = .error (.fault .overflow) :=
  ⟨rfl, rfl, rfl⟩

end BagEquiv
