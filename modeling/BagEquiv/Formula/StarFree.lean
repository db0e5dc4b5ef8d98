/-
**Replacing stars by invariants.**

A star says that its outer symbols are a finite sum of vectors of values of its inner symbols.  An
invariant that holds of the zero vector and is closed under addition, and that the body of the star
implies for every summand, holds of the sum.  Candidates are linear invariants of few components,
and a decision procedure tells which of them the body implies.

Main definitions:

* `Invariant` — candidates, and the formula of one over a vector of symbols;
* `Invariant.candidates` — the candidates for a star, in the order they are tried;
* `Formula.overApproximate` — **the formula with invariants in place of its stars**.
-/

import BagEquiv.Bag
import BagEquiv.Procedure

set_option autoImplicit false

namespace BagEquiv

/-- A linear invariant of the components of a vector. -/
inductive Invariant where
  | nonneg (i : Nat)
  | zero (i : Nat)
  | equal (i j : Nat)
  | atMost (i j : Nat)
  /-- The components of the left side have the same sum as those of the right side. -/
  | balanced
  /-- Two components are zero together.  It is closed under addition if neither is negative. -/
  | zeroTogether (i j : Nat)
deriving DecidableEq, Repr

namespace Invariant

/-- The symbol of a component. -/
def component (vector : List Symbol) (i : Nat) : Except Fault Formula :=
  match vector[i]? with
  | some s => .ok (.sym s)
  | none => .error .outOfRange

/-- The sum of the components of a side, of which the first is at index `i`. -/
def sideFrom (vector : List Symbol) (side : Side) : (i : Nat) → List Side →
    Except Fault (List Formula)
  | _, [] => .ok []
  | i, s :: rest =>
      if s = side then do return (← component vector i) :: (← sideFrom vector side (i + 1) rest)
      else sideFrom vector side (i + 1) rest

/-- The formula of an invariant over a vector of symbols. -/
def formula (vector : List Symbol) (sides : List Side) : Invariant → Except Fault Formula
  | .nonneg i => do return .le .zero (← component vector i)
  | .zero i => do return .eq (← component vector i) .zero
  | .equal i j => do return .eq (← component vector i) (← component vector j)
  | .atMost i j => do return .le (← component vector i) (← component vector j)
  | .balanced => do
      let left ← sideFrom vector .left 0 sides
      let right ← sideFrom vector .right 0 sides
      return .eq (.plus left) (.plus right)
  | .zeroTogether i j => do
      return .iff (.eq (← component vector i) .zero) (.eq (← component vector j) .zero)

/-- The candidates for a star with `n` components on the given sides. -/
def candidates (n : Nat) (sides : List Side) : List Invariant :=
  let indices := List.range n
  indices.map nonneg ++ indices.map zero ++
    (pairs indices).flatMap (fun (i, j) => [equal i j, atMost i j, atMost j i]) ++
    (if .left ∈ sides ∧ .right ∈ sides then [balanced] else []) ++
    (pairs indices).map fun (i, j) => zeroTogether i j

/-- Whether a candidate is worth a question, given the components known not to be negative. -/
def isClosed (nonneg : List Nat) : Invariant → Bool
  | .zeroTogether i j => i ∈ nonneg && j ∈ nonneg
  | _ => true

/-- The components known not to be negative, after an invariant was found to hold. -/
def noteNonneg (nonneg : List Nat) : Invariant → List Nat
  | .nonneg i => i :: nonneg
  | _ => nonneg

end Invariant

namespace Formula

variable {σ : Type}

/-- The candidates that the body implies for every summand, as formulas over the outer symbols. -/
def invariants (p : Procedure σ) (outer inner : List Symbol) (sides : List Side) (body : Formula) :
    (nonneg : List Nat) → List Invariant → ProcedureM σ (Except Error (List Formula))
  | _, [] => return .ok []
  | nonneg, c :: rest => do
      if c.isClosed nonneg then
        let claim : Claim := ⟨.implies body (← .ofExcept (c.formula inner sides)), [], []⟩
        match ← .ask (p.checkValid claim) with
        | .error e => return .error e
        | .ok .valid =>
            let kept ← .ofExcept (c.formula outer sides)
            let others ← invariants p outer inner sides body (c.noteNonneg nonneg) rest
            return others.map (kept :: ·)
        | .ok _ => invariants p outer inner sides body nonneg rest
      else invariants p outer inner sides body nonneg rest

/-- Two results put together; of two errors the first counts. -/
def both {α β γ : Type} (f : α → β → γ) : Except Error α → Except Error β → Except Error γ
  | .ok a, .ok b => .ok (f a b)
  | .error e, _ => .error e
  | .ok _, .error e => .error e

mutual

/-- The formula with invariants in place of its stars.  A star that fails does not keep those
beside it from being looked at. -/
def overApproximate (p : Procedure σ) : Formula → ProcedureM σ (Except Error Formula)
  | .const q => return .ok (.const q)
  | .bool b => return .ok (.bool b)
  | .sym s => return .ok (.sym s)
  | .plus terms => do return (← overApproximateAll p terms).map .plus
  | .minus a b => do return both .minus (← overApproximate p a) (← overApproximate p b)
  | .mul factors => do return (← overApproximateAll p factors).map .mul
  | .div a b => do return both .div (← overApproximate p a) (← overApproximate p b)
  | .ite c a b => do
      let c ← overApproximate p c
      let a ← overApproximate p a
      let b ← overApproximate p b
      return both (fun c (a, b) => .ite c a b) c (both Prod.mk a b)
  | .eq a b => do return both .eq (← overApproximate p a) (← overApproximate p b)
  | .le a b => do return both .le (← overApproximate p a) (← overApproximate p b)
  | .lt a b => do return both .lt (← overApproximate p a) (← overApproximate p b)
  | .not a => do return (← overApproximate p a).map .not
  | .and terms => do return (← overApproximateAll p terms).map .and
  | .or terms => do return (← overApproximateAll p terms).map .or
  | .func name args type => do
      return (← overApproximateAll p args).map fun args => .func name args type
  | .star outer inner sides body => do
      match ← overApproximate p body with
      | .error e => return .error e
      | .ok body =>
          let candidates := Invariant.candidates inner.length sides
          return (← invariants p outer inner sides body [] candidates).map .and

def overApproximateAll (p : Procedure σ) :
    List Formula → ProcedureM σ (Except Error (List Formula))
  | [] => return .ok []
  | t :: ts => do
      let t ← overApproximate p t
      let ts ← overApproximateAll p ts
      return both List.cons t ts

end

end Formula

end BagEquiv
