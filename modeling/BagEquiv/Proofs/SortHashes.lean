/-
**Hashes of terms.**

A term is hashed by way of a stream: the number of its kind, then its names, variables and numbers,
and of the terms one step below only their hashes, in order of size where the order of the terms
does not matter.  A stream does not say how many variables a summation has, it repeats the kind of a
leaf, and nothing keeps a hash from being a small number as well.  All the same it can be read back,
so that a hash function which tells all streams apart identifies exactly the commuted terms, as keys
do.

Main definition:

* `Hashing` — a hash function that tells all streams apart.

Main result:

* `Term.sameKey_iff_commuted` — **with words, terms have the same key, or the same hash,
  exactly if they are commuted and all their constants can be expanded**.
-/

import Mathlib.Data.Multiset.Sort
import Mathlib.Logic.Equiv.List
import BagEquiv.Proofs.Commutation

set_option autoImplicit false

namespace BagEquiv

/-! ### Streams -/

/-- A piece of a stream: a byte of a text, or a whole word. -/
inductive Piece (ω : Type) where
  | byte (b : UInt8)
  | word (w : ω)

/-- A hash function that tells all streams apart.  The words in the streams are numbers and hashes,
and a number may be the hash of a stream. -/
structure Hashing (ω : Type) where
  number : ℤ → ω
  digest : List (Piece ω) → ω
  number_injective : Function.Injective number
  digest_injective : Function.Injective digest

namespace Piece

def code : Piece ℕ → ℕ
  | .byte b => 2 * b.toNat
  | .word w => 2 * w + 1

theorem code_injective : Function.Injective code := by
  intro a b h
  match a, b with
  | .byte a, .byte b =>
      have : a.toNat = b.toNat := by simp only [code] at h; omega
      rw [UInt8.toNat_inj.mp this]
  | .word a, .word b =>
      have : a = b := by simp only [code] at h; omega
      rw [this]
  | .byte _, .word _ | .word _, .byte _ => simp only [code] at h; omega

end Piece

namespace Hashing

/-- Natural numbers can serve as hashes. -/
instance : Inhabited (Hashing ℕ) where
  default :=
    { number := Encodable.encode
      digest := fun s => Encodable.encode (s.map Piece.code)
      number_injective := Encodable.encode_injective
      digest_injective :=
        Encodable.encode_injective.comp (List.map_injective_iff.mpr Piece.code_injective) }

variable {ω : Type} (d : Hashing ω)

/-- A number as a word. -/
def num (n : ℤ) : Piece ω := .word (d.number n)

/-- The bytes of a text, and a mark that is no byte of a text. -/
def text (s : String) : List (Piece ω) :=
  (s.toList.flatMap String.utf8EncodeChar).map .byte ++ [.byte 255]

def var : Var → List (Piece ω)
  | .base b => d.num 0 :: text b
  | .proj a b => d.num 1 :: (text a ++ text b)

def pred : Pred → List (Piece ω)
  | .named name => d.num 7 :: text name
  | kind => [d.num kind.rank]

/-- Words after their number. -/
def list (ws : List ω) : List (Piece ω) := d.num ws.length :: ws.map .word

variable [LinearOrder ω]

/-- Words in order of size, after their number. -/
def bag (ws : List ω) : List (Piece ω) := d.list ((ws : Multiset ω).sort (· ≤ ·))

mutual

/-- The stream of a term, in which the terms one step below stand as their hashes. -/
def stream : Term → List (Piece ω)
  | .sum vars body => d.num 0 :: (vars.toList.flatMap d.var ++ [.word (d.digest (stream body))])
  | .add terms => d.num 1 :: d.bag (hashes terms)
  | .mul factors => d.num 2 :: d.bag (hashes factors)
  | .neg term => [d.num 3, .word (d.digest (stream term))]
  | .squash term => [d.num 4, .word (d.digest (stream term))]
  | .pred kind args =>
      d.num 5 :: (d.pred kind ++
        if kind.isSymmetric then d.bag (hashes args) else d.list (hashes args))
  | .var v => d.num 6 :: d.num 6 :: d.var v
  | .const q =>
      d.num 7 :: d.num 7 :: (Fraction.wholeParts q.num.toInt q.den.toInt).map d.num
  | .table name v => d.num 8 :: d.num 8 :: (text name ++ d.var v)
  | .func name args => d.num 9 :: (text name ++ d.list (hashes args))
  | .str s => d.num 10 :: d.num 10 :: text s

def hashes : List Term → List ω
  | [] => []
  | t :: ts => d.digest (stream t) :: hashes ts

end

/-- The hash of a term. -/
def hash (t : Term) : ω := d.digest (d.stream t)

theorem hashes_eq (ts : List Term) : d.hashes ts = ts.map d.hash := by
  induction ts with
  | nil => rw [hashes, List.map_nil]
  | cons t ts ih => rw [hashes, ih, List.map_cons, hash]

omit [LinearOrder ω] in
theorem num_inj {m n : ℤ} : d.num m = d.num n ↔ m = n := by
  rw [num, num, Piece.word.injEq, d.number_injective.eq_iff]

/-! ### Streams can be read back -/

theorem notMem_utf8EncodeChar (c : Char) : 255 ∉ String.utf8EncodeChar c := by
  fun_cases String.utf8EncodeChar c
  all_goals simp [← UInt8.toNat_inj]
  all_goals omega

omit [LinearOrder ω] in
/-- What stands before a mark and what stands behind it can be told. -/
theorem eq_of_append_mark {x : Piece ω} {as bs r s : List (Piece ω)} (ha : x ∉ as) (hb : x ∉ bs)
    (h : as ++ x :: r = bs ++ x :: s) : as = bs ∧ r = s := by
  induction as generalizing bs with
  | nil =>
      cases bs with
      | nil => exact ⟨rfl, (List.cons.inj h).2⟩
      | cons b bs => exact absurd ((List.cons.inj h).1 ▸ List.mem_cons_self) hb
  | cons a as ih =>
      cases bs with
      | nil => exact absurd ((List.cons.inj h).1 ▸ List.mem_cons_self) ha
      | cons b bs =>
          obtain ⟨rfl, htail⟩ := List.cons.inj h
          rw [List.mem_cons, not_or] at ha hb
          obtain ⟨rfl, rfl⟩ := ih ha.2 hb.2 htail
          exact ⟨rfl, rfl⟩

omit [LinearOrder ω] in
theorem text_append_inj {a b : String} {r s : List (Piece ω)} (h : text a ++ r = text b ++ s) :
    a = b ∧ r = s := by
  have hmark : ∀ t : String,
      .byte 255 ∉ (t.toList.flatMap String.utf8EncodeChar).map (.byte : UInt8 → Piece ω) := by
    intro t hmem
    obtain ⟨x, hx, heq⟩ := List.mem_map.mp hmem
    obtain ⟨c, _, hc⟩ := List.mem_flatMap.mp hx
    cases heq
    exact notMem_utf8EncodeChar c hc
  simp only [text, List.append_assoc, List.cons_append, List.nil_append] at h
  obtain ⟨hbytes, rfl⟩ := eq_of_append_mark (hmark a) (hmark b) h
  have hbytes := List.map_injective_iff.mpr (fun _ _ => Piece.byte.inj) hbytes
  -- The bytes are decoded again.
  have hdecoded : a.toList.utf8Encode.utf8Decode? = b.toList.utf8Encode.utf8Decode? := by
    rw [List.utf8Encode, List.utf8Encode, hbytes]
  rw [List.utf8Decode?_utf8Encode, List.utf8Decode?_utf8Encode] at hdecoded
  exact ⟨String.toList_inj.mp (by simpa using hdecoded), rfl⟩

omit [LinearOrder ω] in
theorem var_append_inj {v w : Var} {r s : List (Piece ω)} (h : d.var v ++ r = d.var w ++ s) :
    v = w ∧ r = s := by
  cases v <;> cases w <;>
    simp only [var, List.cons_append, List.append_assoc, List.cons.injEq, num_inj, true_and,
      zero_ne_one, one_ne_zero, false_and] at h
  case base.base a b =>
    obtain ⟨rfl, rfl⟩ := text_append_inj h
    exact ⟨rfl, rfl⟩
  case proj.proj a x b y =>
    obtain ⟨rfl, htuple⟩ := text_append_inj h
    obtain ⟨rfl, rfl⟩ := text_append_inj htuple
    exact ⟨rfl, rfl⟩

omit [LinearOrder ω] in
theorem pred_append_inj {k l : Pred} {r s : List (Piece ω)} (h : d.pred k ++ r = d.pred l ++ s) :
    k = l ∧ r = s := by
  cases k <;> cases l <;>
    simp only [pred, Pred.rank, List.cons_append, List.nil_append, List.cons.injEq, num_inj,
      Nat.cast_ofNat, Nat.cast_zero, Nat.cast_one] at h
  case named.named a b =>
    obtain ⟨rfl, rfl⟩ := text_append_inj h.2
    exact ⟨rfl, rfl⟩
  all_goals first
    | exact ⟨rfl, h.2⟩
    | exact absurd h.1 (by decide)

omit [LinearOrder ω] in
/-- The variables of a summation end before the last word: a variable is more than one piece. -/
theorem vars_append_inj {vs ws : List Var} {x y : Piece ω}
    (h : vs.flatMap d.var ++ [x] = ws.flatMap d.var ++ [y]) : vs = ws ∧ x = y := by
  have hlong : ∀ v : Var, 2 ≤ (d.var v).length := by
    intro v
    cases v <;> simp [var, text]
    omega
  have hlength := congrArg List.length h
  induction vs generalizing ws with
  | nil =>
      cases ws with
      | nil => exact ⟨rfl, (List.cons.inj h).1⟩
      | cons w ws =>
          have := hlong w
          simp only [List.flatMap_nil, List.flatMap_cons, List.length_append, List.length_nil,
            List.length_singleton] at hlength
          omega
  | cons v vs ih =>
      cases ws with
      | nil =>
          have := hlong v
          simp only [List.flatMap_nil, List.flatMap_cons, List.length_append, List.length_nil,
            List.length_singleton] at hlength
          omega
      | cons w ws =>
          simp only [List.flatMap_cons, List.append_assoc] at h
          obtain ⟨rfl, htail⟩ := d.var_append_inj h
          obtain ⟨rfl, rfl⟩ := ih htail (congrArg List.length htail)
          exact ⟨rfl, rfl⟩

omit [LinearOrder ω] in
theorem list_inj {ws xs : List ω} (h : d.list ws = d.list xs) : ws = xs :=
  List.map_injective_iff.mpr (fun _ _ => Piece.word.inj) (List.cons.inj h).2

theorem bag_eq_iff {ws xs : List ω} : d.bag ws = d.bag xs ↔ ws.Perm xs := by
  constructor
  · intro h
    have hsorted := d.list_inj h
    rw [← Multiset.coe_eq_coe, ← Multiset.sort_eq (ws : Multiset ω) (· ≤ ·), hsorted,
      Multiset.sort_eq]
  · intro h
    rw [bag, bag, Multiset.coe_eq_coe.mpr h]

theorem exists_agreeBy_of_bag {ts us : List Term} (h : d.bag (d.hashes ts) = d.bag (d.hashes us)) :
    ∃ vs, Term.AgreeBy d.hash ts vs ∧ vs.Perm us := by
  rw [hashes_eq, hashes_eq, bag_eq_iff] at h
  exact Term.exists_forall₂_of_map_perm h

theorem agreeBy_of_list {ts us : List Term} (h : d.list (d.hashes ts) = d.list (d.hashes us)) :
    Term.AgreeBy d.hash ts us := by
  have hhashes := d.list_inj h
  rw [hashes_eq, hashes_eq] at hhashes
  exact Term.forall₂_iff_map_eq.mpr hhashes

/-- Terms with the same hash are of one kind, and their parts have the same hashes. -/
theorem nodeBy_of_hash_eq {t u : Term} (h : d.hash t = d.hash u) : Term.NodeBy d.hash t u := by
  replace h := d.digest_injective h
  cases t <;> cases u <;>
    simp only [stream, List.cons.injEq, num_inj, true_and, false_and, Int.reduceEq] at h
  case sum.sum vars a vars' b =>
    obtain ⟨hvars, hword⟩ := d.vars_append_inj h
    obtain rfl := VarSet.ext hvars
    exact .sum vars (Piece.word.inj hword)
  case add.add ts us =>
    obtain ⟨vs, hhashes, hperm⟩ := d.exists_agreeBy_of_bag h
    exact .add hhashes hperm
  case mul.mul ts us =>
    obtain ⟨vs, hhashes, hperm⟩ := d.exists_agreeBy_of_bag h
    exact .mul hhashes hperm
  case neg.neg a b => exact .neg (Piece.word.inj h.1)
  case squash.squash a b => exact .squash (Piece.word.inj h.1)
  case pred.pred kind ts kind' us =>
    obtain ⟨rfl, hargs⟩ := d.pred_append_inj h
    split at hargs
    · next hkind =>
        obtain ⟨vs, hhashes, hperm⟩ := d.exists_agreeBy_of_bag hargs
        exact .symmetric hkind hhashes hperm
    · exact .pred kind (d.agreeBy_of_list hargs)
  case var.var v w =>
    obtain ⟨rfl, _⟩ := d.var_append_inj (congrArg (· ++ []) h)
    exact .var v
  case const.const p q =>
    have hparts := List.map_injective_iff.mpr (fun _ _ => d.num_inj.mp) h
    rw [Fraction.wholeParts_eq_iff p.toInt_den_ne_zero q.toInt_den_ne_zero] at hparts
    exact .const (by rw [Fraction.toRat_eq, Fraction.toRat_eq, hparts])
  case table.table name v name' w =>
    obtain ⟨rfl, hvar⟩ := text_append_inj h
    obtain ⟨rfl, _⟩ := d.var_append_inj (congrArg (· ++ []) hvar)
    exact .table name v
  case func.func name ts name' us =>
    obtain ⟨rfl, hargs⟩ := text_append_inj h
    exact .func name (d.agreeBy_of_list hargs)
  case str.str a b =>
    obtain ⟨rfl, _⟩ := text_append_inj (congrArg (· ++ []) h)
    exact .str a

theorem hash_eq_of_nodeBy {t u : Term} (h : Term.NodeBy d.hash t u) : d.hash t = d.hash u := by
  have hbags : ∀ {ts us vs : List Term}, Term.AgreeBy d.hash ts vs → vs.Perm us →
      d.bag (d.hashes ts) = d.bag (d.hashes us) := by
    intro ts us vs hhashes hperm
    rw [hashes_eq, hashes_eq, bag_eq_iff]
    exact hhashes.map_perm hperm
  refine congrArg d.digest ?_
  cases h with
  | sum vars h | neg h | squash h => rw [stream, stream, ← hash, ← hash, h]
  | add h hperm | mul h hperm => rw [stream, stream, hbags h hperm]
  | symmetric hkind h hperm => rw [stream, stream, if_pos hkind, if_pos hkind, hbags h hperm]
  | pred kind h | func kind h =>
      rw [stream, stream, hashes_eq, hashes_eq, Term.forall₂_iff_map_eq.mp h]
  | @const p q h =>
      rw [Fraction.toRat_eq, Fraction.toRat_eq,
        ← Fraction.wholeParts_eq_iff p.toInt_den_ne_zero q.toInt_den_ne_zero] at h
      rw [stream, stream, h]
  | var | table | str => rfl

/-- Terms have the same hash exactly if they are commuted. -/
theorem hash_eq_iff (t u : Term) : d.hash t = d.hash u ↔ t.Commuted u :=
  Term.eq_iff_commuted (fun _ _ => ⟨d.nodeBy_of_hash_eq, d.hash_eq_of_nodeBy⟩) t u

/-- The hash of a term, if it can be computed with words. -/
def Checked.hash (t : Term) : Except Fault ω := do
  Term.requireKeys [t]
  return d.hash t

end Hashing

namespace Term

/-- The key of a term, if it can be computed with words. -/
def Checked.key (t : Term) : Except Fault Key := do
  requireKeys [t]
  return t.key

theorem Checked.key_eq_ok_iff {t : Term} {k : Key} :
    Checked.key t = .ok k ↔ t.Expands ∧ t.key = k := by
  rw [Checked.key, requireKeys_ok_iff, List.forall_mem_singleton]

/-- What identifies the commuted terms gives them the same result, if all constants can be
expanded. -/
theorem sameResult_iff {α : Type} {f : Term → α} (hf : ∀ t u, f t = f u ↔ Commuted t u)
    (a b : Term) :
    (∃ x, (do requireKeys [a]; return f a) = Except.ok x ∧
        (do requireKeys [b]; return f b) = Except.ok x) ↔ Commuted a b ∧ a.Expands := by
  simp only [requireKeys_ok_iff, List.forall_mem_singleton]
  constructor
  · rintro ⟨_, ⟨ha, rfl⟩, -, heq⟩
    exact ⟨(hf a b).mp heq.symm, ha⟩
  · rintro ⟨h, ha⟩
    exact ⟨f a, ⟨ha, rfl⟩, h.expands_iff.mp ha, ((hf a b).mpr h).symm⟩

/-- Two terms have the same key, and the same hash under every hash function that tells all streams
apart, exactly if they are commuted, provided that all their constants can be expanded with words;
the computation overflows exactly if one cannot. -/
theorem sameKey_iff_commuted (a b : Term) :
    ((∃ k, Checked.key a = .ok k ∧ Checked.key b = .ok k) ↔ Commuted a b ∧ a.Expands) ∧
      (Checked.key a = .error .overflow ↔ ¬ a.Expands) ∧
      ∀ {ω : Type} [LinearOrder ω] (d : Hashing ω),
        ((∃ h, Hashing.Checked.hash d a = .ok h ∧ Hashing.Checked.hash d b = .ok h) ↔
          Commuted a b ∧ a.Expands) ∧
        (Hashing.Checked.hash d a = .error .overflow ↔ ¬ a.Expands) := by
  refine ⟨sameResult_iff key_eq_iff a b, ?_, fun d => ⟨sameResult_iff d.hash_eq_iff a b, ?_⟩⟩
  · simp only [Checked.key, requireKeys_error_iff, List.mem_singleton, exists_eq_left]
  · simp only [Hashing.Checked.hash, requireKeys_error_iff, List.mem_singleton, exists_eq_left]

/-- A term that holds a constant whose continued fraction leaves the range of words has no key, not
even one that agrees with itself. -/
theorem sameKey_of_tooDeep :
    Commuted (.const .tooDeep) (.const .tooDeep) ∧
      Checked.key (.const .tooDeep) = .error .overflow ∧
      ¬ ∃ k, Checked.key (.const .tooDeep) = .ok k ∧ Checked.key (.const .tooDeep) = .ok k := by
  have hoverflow : Checked.key (.const .tooDeep) = .error .overflow := by decide
  refine ⟨.refl _, hoverflow, ?_⟩
  rintro ⟨k, hk, -⟩
  rw [hoverflow] at hk
  cases hk

end Term

end BagEquiv
