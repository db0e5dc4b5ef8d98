/-
**Byte streams of terms.**

The stream of a term lists its constructors and parts in order, but it does not say where a list
ends, so that terms which only group their operands differently can have the same stream.  A
number contributes the whole parts of its continued fraction, so that fractions of one value have
one stream.

Main definitions:

* `Fraction.wholeParts` — the continued fraction, with a zero at its end;
* `Term.stream` — the bytes of a term.
-/

import BagEquiv.Term.Order

set_option autoImplicit false

namespace BagEquiv

-- Powers are core's, not those of a monoid.
attribute [local instance (high)] instPowNat

namespace Fraction

theorem natAbs_fmod_lt (n : Int) {d : Int} (h : d ≠ 0) : (n.fmod d).natAbs < d.natAbs := by
  rcases Int.lt_or_lt_of_ne h with h | h
  · have h' : 0 < -d := by omega
    have h₁ := Int.fmod_nonneg_of_pos (-n) h'
    have h₂ := Int.fmod_lt_of_pos (-n) h'
    rw [Int.neg_fmod_neg] at h₁ h₂
    omega
  · have h₁ := Int.fmod_nonneg_of_pos n h
    have h₂ := Int.fmod_lt_of_pos n h
    omega

/-- The whole parts of the continued fraction of `n / d`, and a zero at the end. -/
def wholeParts (n d : Int) : List Int :=
  if _h : d = 0 then [0]
  else n.fdiv d :: wholeParts d (n.fmod d)
termination_by d.natAbs
decreasing_by exact natAbs_fmod_lt n ‹_›

end Fraction

namespace Stream

/-- The eight bytes of a word, the least significant one first. -/
def word (n : Int) : List UInt8 :=
  (List.range 8).map fun i => UInt8.ofNat ((n.emod (2 ^ (64 : Nat))).toNat / 256 ^ i)

/-- The bytes of a text, and a mark that is no byte of a text. -/
def string (s : String) : List UInt8 := s.toUTF8.toList ++ [255]

def var : Var → List UInt8
  | .base b => word 0 ++ string b
  | .proj a b => word 1 ++ string a ++ string b

def pred : Pred → List UInt8
  | .named name => word 7 ++ string name
  | k => word k.rank

end Stream

namespace Term

mutual

/-- The bytes of a term. -/
def stream : Term → List UInt8
  | .sum vars body => Stream.word 0 ++ vars.toList.flatMap Stream.var ++ stream body
  | .add terms => Stream.word 1 ++ streamList terms
  | .mul factors => Stream.word 2 ++ streamList factors
  | .neg term => Stream.word 3 ++ stream term
  | .squash term => Stream.word 4 ++ stream term
  | .pred kind args => Stream.word 5 ++ Stream.pred kind ++ streamList args
  | .var v => Stream.word 6 ++ Stream.var v
  | .const q => Stream.word 7 ++ (Fraction.wholeParts q.num.toInt q.den.toInt).flatMap Stream.word
  | .table name v => Stream.word 8 ++ Stream.string name ++ Stream.var v
  | .func name args => Stream.word 9 ++ Stream.string name ++ streamList args
  | .str s => Stream.word 10 ++ Stream.string s

def streamList : List Term → List UInt8
  | [] => []
  | t :: ts => stream t ++ streamList ts

end

end Term

end BagEquiv
