/-
**Checked arithmetic on 64-bit words.**

Each operation computes over the integers and narrows the result; a result that is no word is an
overflow.

Main definitions:

* `Word.narrow` — the word of an integer, or an overflow;
* `Word.add`, `sub`, `mul`, `div`, `abs`, `gcd`, `lcm` — the operations on signed words;
* `Word.addCount` — addition of unsigned words.

Main result:

* `Word.toInt_of_narrow` — narrowing keeps the integer.
-/

import BagEquiv.Outcome

set_option autoImplicit false

namespace BagEquiv.Word

-- Powers are core's, not those of a monoid.
attribute [local instance (high)] instPowNat

/-- Whether an integer is a signed word. -/
def Fits (n : Int) : Prop := -2 ^ (63 : Nat) ≤ n ∧ n < 2 ^ (63 : Nat)

instance (n : Int) : Decidable (Fits n) := inferInstanceAs (Decidable (_ ∧ _))

/-- The word of an integer in range. -/
def narrow (n : Int) : Except Fault Int64 :=
  if Fits n then .ok (Int64.ofInt n) else .error .overflow

theorem toInt_of_narrow {n : Int} {w : Int64} (h : narrow n = .ok w) : w.toInt = n := by
  unfold narrow at h
  split at h
  · rename_i hn
    cases h
    exact Int64.toInt_ofInt_of_le hn.1 hn.2
  · cases h

theorem narrow_of_fits {n : Int} (h : Fits n) : narrow n = .ok (Int64.ofInt n) := if_pos h

theorem fits_toInt (w : Int64) : Fits w.toInt := ⟨w.le_toInt, w.toInt_lt⟩

@[simp] theorem narrow_toInt (w : Int64) : narrow w.toInt = .ok w := by
  rw [narrow_of_fits (fits_toInt w), Int64.ofInt_toInt]

def add (a b : Int64) : Except Fault Int64 := narrow (a.toInt + b.toInt)

def sub (a b : Int64) : Except Fault Int64 := narrow (a.toInt - b.toInt)

def mul (a b : Int64) : Except Fault Int64 := narrow (a.toInt * b.toInt)

/-- Division with the quotient rounded toward zero. -/
def div (a b : Int64) : Except Fault Int64 := narrow (a.toInt.tdiv b.toInt)

def neg (a : Int64) : Except Fault Int64 := narrow (-a.toInt)

def abs (a : Int64) : Except Fault Int64 := narrow a.toInt.natAbs

/-- The greatest common divisor, which is no word only if it is `2 ^ 63`. -/
def gcd (a b : Int64) : Except Fault Int64 := narrow (Int.gcd a.toInt b.toInt)

/-- The least common multiple of two words of which one is not zero. -/
def lcm (a b : Int64) : Except Fault Int64 := do
  let g ← gcd a b
  let q ← div b g
  let p ← mul a q
  abs p

/-- The sum of two unsigned words. -/
def addCount (a b : UInt64) : Except Fault UInt64 :=
  if a.toNat + b.toNat < 2 ^ (64 : Nat) then .ok (a + b) else .error .overflow

theorem toNat_of_addCount {a b c : UInt64} (h : addCount a b = .ok c) :
    c.toNat = a.toNat + b.toNat := by
  unfold addCount at h
  split at h
  · rename_i hn
    cases h
    rw [UInt64.toNat_add, Nat.mod_eq_of_lt hn]
  · cases h

end BagEquiv.Word
