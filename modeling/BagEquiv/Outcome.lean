/-
**Ways a computation can end without a value.**

A request is refused with an `Error`, which has a text for the user, or it leaves the range of
64-bit words or of a vector, sorts by an order that is none, or asks for what takes forever, which
is a `Fault`: nothing behind it is computed.  `Failure` is either of the two.

Main definitions:

* `Error`, `Error.message` — the causes of a refusal and their texts;
* `Fault` — overflow, access out of range, a contradictory order, and a computation without end;
* `Failure` — an error or a fault.
-/

set_option autoImplicit false

namespace BagEquiv

/-- Why a pair of terms, or a part of one, cannot be handled. -/
inductive Error where
  /-- The shapes of two things that must fit together differ. -/
  | structuralMismatch (detail : String)
  /-- The fragment has no counterpart among formulas. -/
  | unsupported (detail : String)
  /-- The budget is used up, or the run was interrupted. -/
  | timeout
  /-- The decision procedure gave up with an error of its own. -/
  | decisionProcedure (detail : String)
deriving DecidableEq, Repr

namespace Error

/-- The text shown for an error. -/
def message : Error → String
  | .structuralMismatch detail => "structural mismatch: " ++ detail
  | .unsupported detail => "cannot translate: " ++ detail
  | .timeout => "timed out"
  | .decisionProcedure detail => "decision procedure failed: " ++ detail

/-- Whether the error says that the budget is used up. -/
def isTimeout : Error → Bool
  | .timeout => true
  | _ => false

end Error

/-- A step that has no result. -/
inductive Fault where
  /-- A number left the range of 64-bit words. -/
  | overflow
  /-- A vector was read past its end. -/
  | outOfRange
  /-- A sort met an order that contradicts itself. -/
  | disorder
  /-- A value was asked for that is computed from itself, so the computation never ends. -/
  | endless
deriving DecidableEq, Repr

namespace Fault

/-- A first step that succeeds hands its result on. -/
theorem ok_bind {α β : Type} (a : α) (f : α → Except Fault β) : (Except.ok a >>= f) = f a := rfl

/-- A computation in two steps that succeeds has a first step that does. -/
theorem ok_of_bind {α β : Type} {a : Except Fault α} {f : α → Except Fault β} {r : β}
    (h : (do f (← a)) = .ok r) : ∃ x, a = .ok x ∧ f x = .ok r := by
  cases a with
  | error e => simp [bind, Except.bind] at h
  | ok x => exact ⟨x, rfl, h⟩

theorem ok_of_bind₂ {α β γ : Type} {a : Except Fault α} {b : α → Except Fault β}
    {f : α → β → Except Fault γ} {r : γ} (h : (do let x ← a; f x (← b x)) = .ok r) :
    ∃ x, a = .ok x ∧ ∃ y, b x = .ok y ∧ f x y = .ok r :=
  (ok_of_bind h).imp fun _ h => h.imp_right ok_of_bind

theorem ok_of_bind₃ {α β γ δ : Type} {a : Except Fault α} {b : α → Except Fault β}
    {c : α → β → Except Fault γ} {f : α → β → γ → Except Fault δ} {r : δ}
    (h : (do let x ← a; let y ← b x; f x y (← c x y)) = .ok r) :
    ∃ x, a = .ok x ∧ ∃ y, b x = .ok y ∧ ∃ z, c x y = .ok z ∧ f x y z = .ok r :=
  (ok_of_bind h).imp fun _ h => h.imp_right ok_of_bind₂

/-- A computation that faults does so in its first step or in the second. -/
theorem error_of_bind {α β : Type} {a : Except Fault α} {f : α → Except Fault β} {e : Fault}
    (h : (do f (← a)) = .error e) : a = .error e ∨ ∃ x, a = .ok x ∧ f x = .error e := by
  cases a with
  | error e' =>
      cases h
      exact .inl rfl
  | ok x => exact .inr ⟨x, rfl, h⟩

/-- A test that is only made under a condition decides the conjunction. -/
theorem and_of_ok {c : Prop} [Decidable c] {x : Except Fault Bool} {s r : Bool}
    (h : (if c then x else .ok false) = .ok r) (hx : x = .ok r → s = r) :
    (decide c && s) = r := by
  by_cases hc : c
  · rw [if_pos hc] at h
    simpa [hc] using hx h
  · rw [if_neg hc] at h
    cases h
    simp [hc]

end Fault

/-- An error or a fault. -/
inductive Failure where
  | error (e : Error)
  | fault (f : Fault)
deriving DecidableEq, Repr

namespace Failure

/-- A computation that can only fault, among those that can fail either way. -/
def ofFault {α : Type} : Except Fault α → Except Failure α
  | .ok a => .ok a
  | .error f => .error (.fault f)

/-- A computation that can only be refused, among those that can fail either way. -/
def ofError {α : Type} : Except Error α → Except Failure α
  | .ok a => .ok a
  | .error e => .error (.error e)

end Failure

end BagEquiv
