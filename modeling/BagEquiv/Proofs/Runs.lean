/-
**Runs of computations.**

Encoding a pair of terms and asking a decision procedure are computations that change a state and
may fail.  What such a computation does is said by the states it leads to and the results it
returns; the lemmas here take a run apart, one step at a time.  For computations without a state
that can only fail in one way, a statement about all their endings is carried through their steps.

Main definition:

* `Returns`, `Fails` — a computation returns a result, with the states before and
  after, or it fails.

Main results:

* `returns_bind` — a run of two steps is a run of the first and then one of the second;
* `Ends.bind`, `ends_foldlM` — endings of steps in turn, and of a loop.
-/

import BagEquiv.Encoder.Terms
import BagEquiv.Procedure

set_option autoImplicit false

namespace BagEquiv

variable {ε σ α β : Type}

/-- Started in the state `s`, the computation returns `a` and ends in the state `t`. -/
def Returns (x : ExceptT ε (StateM σ) α) (s : σ) (a : α) (t : σ) : Prop :=
  x.run.run s = (.ok a, t)

theorem returns_pure {a b : α} {s t : σ} :
    Returns (pure a : ExceptT ε (StateM σ) α) s b t ↔ b = a ∧ t = s := by
  constructor
  · rintro ⟨⟩
    exact ⟨rfl, rfl⟩
  · rintro ⟨rfl, rfl⟩
    rfl

/-- A run of two steps goes on with the second if the first returns. -/
theorem run_bind (x : ExceptT ε (StateM σ) α) (f : α → ExceptT ε (StateM σ) β) (s : σ) :
    (x >>= f).run.run s =
      match x.run.run s with
      | (.ok a, t) => (f a).run.run t
      | (.error e, t) => (.error e, t) := by
  rw [ExceptT.run_bind, StateT.run_bind]
  rcases x.run.run s with ⟨e | a, t⟩ <;> rfl

theorem returns_bind {x : ExceptT ε (StateM σ) α} {f : α → ExceptT ε (StateM σ) β} {s u : σ}
    {b : β} : Returns (x >>= f) s b u ↔ ∃ a t, Returns x s a t ∧ Returns (f a) t b u := by
  unfold Returns
  rw [run_bind]
  rcases hx : x.run.run s with ⟨e | a, t⟩
  · constructor
    · rintro ⟨⟩
    · rintro ⟨a, t', h, _⟩
      cases h
  · constructor
    · intro h
      exact ⟨a, t, rfl, h⟩
    · rintro ⟨a', t', h, h'⟩
      cases h
      exact h'

theorem returns_throw {e : ε} {a : α} {s t : σ} :
    ¬Returns (throw e : ExceptT ε (StateM σ) α) s a t := by
  rintro ⟨⟩

theorem returns_get {a s t : σ} :
    Returns (get : ExceptT ε (StateM σ) σ) s a t ↔ a = s ∧ t = s := by
  constructor
  · rintro ⟨⟩
    exact ⟨rfl, rfl⟩
  · rintro ⟨rfl, rfl⟩
    rfl

theorem returns_set {r s t : σ} {a : PUnit} :
    Returns (set r : ExceptT ε (StateM σ) PUnit) s a t ↔ t = r := by
  constructor
  · rintro ⟨⟩
    rfl
  · rintro rfl
    rfl

theorem returns_modifyGet {f : σ → α × σ} {s t : σ} {a : α} :
    Returns (modifyGet f : ExceptT ε (StateM σ) α) s a t ↔ f s = (a, t) := by
  constructor
  · intro h
    obtain ⟨⟩ := h
    rfl
  · intro h
    unfold Returns
    exact congrArg (fun p : α × σ => (Except.ok p.1, p.2)) h

/-- Started in the state `s`, the computation fails with `e`. -/
def Fails (x : ExceptT ε (StateM σ) α) (s : σ) (e : ε) : Prop := (x.run.run s).1 = .error e

theorem fails_bind {x : ExceptT ε (StateM σ) α} {f : α → ExceptT ε (StateM σ) β} {s : σ} {e : ε} :
    Fails (x >>= f) s e ↔ Fails x s e ∨ ∃ a t, Returns x s a t ∧ Fails (f a) t e := by
  unfold Fails Returns
  rw [run_bind]
  rcases x.run.run s with ⟨e' | a, t⟩
  · constructor
    · rintro ⟨⟩
      exact .inl rfl
    · rintro (h | ⟨a, t', h, _⟩)
      · cases h
        rfl
      · cases h
  · constructor
    · intro h
      exact .inr ⟨a, t, rfl, h⟩
    · rintro (h | ⟨a', t', h, h'⟩)
      · cases h
      · cases h
        exact h'

/-! ### Endings without a state -/

/-- The computation returns a result with the property `P`, or it fails with `e` and then `E`. -/
def Ends (x : Except ε α) (e : ε) (E : Prop) (P : α → Prop) : Prop :=
  (∃ a, x = .ok a ∧ P a) ∨ (x = .error e ∧ E)

theorem ends_ok {e : ε} {E : Prop} {P : α → Prop} {a : α} (h : P a) :
    Ends (.ok a : Except ε α) e E P :=
  .inl ⟨a, rfl, h⟩

theorem Ends.bind {x : Except ε α} {f : α → Except ε β} {e : ε} {E : Prop} {P : α → Prop}
    {Q : β → Prop} (hx : Ends x e E P) (hf : ∀ a, P a → Ends (f a) e E Q) :
    Ends (x >>= f) e E Q := by
  rcases hx with ⟨a, rfl, ha⟩ | ⟨rfl, hE⟩
  · exact hf a ha
  · exact .inr ⟨rfl, hE⟩

theorem Ends.mono {x : Except ε α} {e : ε} {E F : Prop} {P Q : α → Prop} (h : Ends x e E P)
    (hE : E → F) (hP : ∀ a, P a → Q a) : Ends x e F Q := by
  rcases h with ⟨a, rfl, ha⟩ | ⟨rfl, h⟩
  · exact .inl ⟨a, rfl, hP a ha⟩
  · exact .inr ⟨rfl, hE h⟩

theorem exists_of_isOk {x : Except ε α} (h : x.isOk = true) : ∃ a, x = .ok a := by
  cases x with
  | ok a => exact ⟨a, rfl⟩
  | error e => cases h

theorem exists_of_decide {x : Except ε α} {P : α → Prop} [DecidablePred P]
    (h : (match x with
      | .ok a => decide (P a)
      | .error _ => false) = true) : ∃ a, x = .ok a ∧ P a := by
  cases x with
  | ok a => exact ⟨a, rfl, of_decide_eq_true h⟩
  | error e => cases h

/-- A run that is seen to return a result with a property. -/
theorem exists_returns {x : ExceptT ε (StateM σ) α} {s : σ} {P : α → Prop} [DecidablePred P]
    (h : (match x.run.run s with
      | (.ok a, _) => decide (P a)
      | (.error _, _) => false) = true) : ∃ a t, Returns x s a t ∧ P a := by
  split at h
  · next a t hrun => exact ⟨a, t, hrun, of_decide_eq_true h⟩
  · cases h

/-- A loop keeps what each of its steps keeps. -/
theorem ends_foldlM {f : β → α → Except ε β} {e : ε} {E : Prop} {I : β → Prop} {as : List α}
    (hf : ∀ a ∈ as, ∀ b, I b → Ends (f b a) e E I) {b : β} (hb : I b) :
    Ends (as.foldlM f b) e E I := by
  induction as generalizing b with
  | nil => exact ends_ok hb
  | cons a as ih =>
      rw [List.forall_mem_cons] at hf
      rw [List.foldlM_cons]
      exact (hf.1 b hb).bind fun b hb => ih hf.2 hb

end BagEquiv
