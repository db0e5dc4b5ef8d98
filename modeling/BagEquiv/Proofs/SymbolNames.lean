/-
**The names of symbols.**

The symbols of a tuple are named by its name and a column, by a table and its name, or by a test,
its name and a column, with a point or an exclamation mark between the parts.  Names of tuples have
neither of them, so a symbol tells whose it is.  The other symbols are numbered marks, which stand
for counts, and symbols that mean the same everywhere.

A fresh name has a number behind some text.  As long as the text does not end in a digit, the name
can be read back, so names with different numbers or different texts are different.

Main definition:

* `Clean` — a name without points and exclamation marks.

Main results:

* `Unnumbered.append_inj` — **a numbered name determines its text and its number**;
* `Symbol.owner?_column`, `owner?_flag`, `owner?_count` — **whose the symbols are**.
-/

import Mathlib.Data.List.TakeWhile
import BagEquiv.Matching
import BagEquiv.Encoder.Terms

set_option autoImplicit false

namespace BagEquiv

/-- The text ends in a character that is no digit. -/
def Unnumbered (s : String) : Prop := ∃ cs c, s.toList = cs ++ [c] ∧ c.isDigit = false

theorem isDigit_of_mem_toString {n : Nat} {c : Char} (h : c ∈ (toString n).toList) :
    c.isDigit = true := by
  refine Nat.isDigit_of_mem_toDigits (by decide) (Nat.le_refl 10) (n := n) ?_
  simpa [Nat.repr] using h

/-- Digits behind a character that is none are the longest run of digits at the end. -/
theorem takeWhile_reverse {cs ds : List Char} {c : Char} (hc : c.isDigit = false)
    (hds : ∀ d ∈ ds, d.isDigit = true) :
    (cs ++ [c] ++ ds).reverse.takeWhile Char.isDigit = ds.reverse := by
  have hrev : ∀ d ∈ ds.reverse, d.isDigit = true := fun d hd => hds d (List.mem_reverse.mp hd)
  rw [List.reverse_append, List.takeWhile_append_of_pos hrev, List.reverse_append,
    List.reverse_singleton, List.singleton_append, List.takeWhile_cons_of_neg (by simp [hc]),
    List.append_nil]

/-- A numbered name determines its text and its number. -/
theorem Unnumbered.append_inj {s t : String} (hs : Unnumbered s) (ht : Unnumbered t) {m n : Nat}
    (h : s ++ toString m = t ++ toString n) : s = t ∧ m = n := by
  obtain ⟨cs, c, hcs, hc⟩ := hs
  obtain ⟨ds, d, hds, hd⟩ := ht
  have hlist : s.toList ++ (toString m).toList = t.toList ++ (toString n).toList := by
    rw [← String.toList_append, ← String.toList_append, h]
  have hdigits : (toString m).toList = (toString n).toList := by
    have := congrArg (fun l => l.reverse.takeWhile Char.isDigit) hlist
    rw [hcs, hds] at this
    rw [takeWhile_reverse hc fun _ => isDigit_of_mem_toString,
      takeWhile_reverse hd fun _ => isDigit_of_mem_toString] at this
    exact List.reverse_inj.mp this
  constructor
  · rw [hdigits] at hlist
    exact String.toList_inj.mp (List.append_cancel_right hlist)
  · have := congrArg (fun ds => Nat.ofDigitChars 10 ds 0) hdigits
    simpa [Nat.toString_eq_ofList_toDigits] using this

theorem unnumbered_append {s t : String} (ht : Unnumbered t) : Unnumbered (s ++ t) := by
  obtain ⟨cs, c, hcs, hc⟩ := ht
  exact ⟨s.toList ++ cs, c, by rw [String.toList_append, hcs, List.append_assoc], hc⟩

theorem unnumbered_sign : Unnumbered "#" := ⟨[], '#', rfl, rfl⟩

theorem unnumbered_layer : Unnumbered "#bv" := ⟨['#', 'b'], 'v', rfl, rfl⟩

theorem placeholder_injective {d e : Nat} (h : placeholder d = placeholder e) : d = e :=
  (unnumbered_layer.append_inj unnumbered_layer h).2

/-- Behind a number sign come digits only, so the text is no placeholder. -/
theorem numbered_ne_placeholder (base : String) (n depth : Nat) :
    base ++ "#" ++ toString n ≠ placeholder depth := by
  intro h
  obtain ⟨htext, _⟩ := (unnumbered_append unnumbered_sign).append_inj unnumbered_layer h
  have := congrArg String.toList htext
  rw [String.toList_append] at this
  have hlast := congrArg List.getLast? this
  simp at hlast

/-! ### Clean names -/

/-- The name has no point and no exclamation mark. -/
def Clean (x : String) : Prop := '.' ∉ x.toList ∧ '!' ∉ x.toList

instance (x : String) : Decidable (Clean x) := inferInstanceAs (Decidable (_ ∧ _))

theorem Clean.append {x y : String} (hx : Clean x) (hy : Clean y) : Clean (x ++ y) := by
  unfold Clean at *
  simp only [String.toList_append, List.mem_append, not_or]
  exact ⟨⟨hx.1, hy.1⟩, hx.2, hy.2⟩

theorem clean_toString (n : ℕ) : Clean (toString n) :=
  ⟨fun h => absurd (isDigit_of_mem_toString h) (by decide),
    fun h => absurd (isDigit_of_mem_toString h) (by decide)⟩

/-! ### Whose a symbol is -/

namespace Symbol

/-- The tuple that a symbol belongs to: what stands behind the last exclamation mark and before the
next point. -/
def owner? (s : Symbol) : Option String :=
  if Clean s.name then none
  else
    let last := (s.name.toList.reverse.takeWhile (· ≠ '!')).reverse
    some (String.ofList (last.takeWhile (· ≠ '.')))

theorem owner?_of_clean {s : Symbol} (h : Clean s.name) : s.owner? = none := if_pos h

/-- Behind an exclamation mark the last part begins, if there is no other one. -/
theorem takeWhile_reverse_append {cs ds : List Char} (h : '!' ∉ ds) :
    (cs ++ '!' :: ds).reverse.takeWhile (· ≠ '!') = ds.reverse := by
  have hds : ∀ d ∈ ds.reverse, decide (d ≠ '!') = true := fun d hd => by
    simpa using fun heq : d = '!' => h (heq ▸ List.mem_reverse.mp hd)
  rw [List.reverse_append, List.reverse_cons, List.append_assoc,
    List.takeWhile_append_of_pos hds]
  simp

theorem takeWhile_append_point {cs ds : List Char} (h : '.' ∉ cs) :
    (cs ++ '.' :: ds).takeWhile (· ≠ '.') = cs := by
  have hcs : ∀ c ∈ cs, decide (c ≠ '.') = true := fun c hc => by
    simpa using fun heq : c = '.' => h (heq ▸ hc)
  rw [List.takeWhile_append_of_pos hcs]
  simp

theorem toList_columnName (x a : String) :
    (columnName x a).toList = x.toList ++ '.' :: a.toList := by
  simp [columnName]

theorem owner?_column {x a : String} (hx : Clean x) (ha : '!' ∉ a.toList) (type : SymbolType) :
    (⟨columnName x a, type⟩ : Symbol).owner? = some x := by
  have hlist := toList_columnName x a
  have hclean : ¬Clean (columnName x a) := fun h => h.1 (by simp [hlist])
  have hall : ∀ c ∈ (columnName x a).toList.reverse, decide (c ≠ '!') = true := by
    rw [hlist]
    intro c hc
    rw [List.mem_reverse, List.mem_append, List.mem_cons] at hc
    refine decide_eq_true ?_
    rintro rfl
    rcases hc with hc | hc | hc
    · exact hx.2 hc
    · exact absurd hc (by decide)
    · exact ha hc
  rw [owner?, if_neg hclean]
  dsimp only
  rw [List.takeWhile_eq_self_iff.mpr hall, List.reverse_reverse, hlist,
    takeWhile_append_point hx.1, String.ofList_toList]

/-- A test of a column belongs to the tuple of the column. -/
theorem owner?_flag {x a : String} (hx : Clean x) (ha : '!' ∉ a.toList) (p : String)
    (type : SymbolType) : (⟨p ++ "!" ++ columnName x a, type⟩ : Symbol).owner? = some x := by
  have hlist : (p ++ "!" ++ columnName x a).toList =
      p.toList ++ '!' :: (x.toList ++ '.' :: a.toList) := by
    simp [toList_columnName]
  have hclean : ¬Clean (p ++ "!" ++ columnName x a) := fun h => h.2 (by simp [hlist])
  have hmark : '!' ∉ x.toList ++ '.' :: a.toList := by
    rw [List.mem_append, List.mem_cons]
    rintro (h | h | h)
    · exact hx.2 h
    · exact absurd h (by decide)
    · exact ha h
  rw [owner?, if_neg hclean]
  dsimp only
  rw [hlist, takeWhile_reverse_append hmark, List.reverse_reverse, takeWhile_append_point hx.1,
    String.ofList_toList]

theorem owner?_null {x a : String} (hx : Clean x) (ha : '!' ∉ a.toList) (type : SymbolType) :
    (⟨nullName x a, type⟩ : Symbol).owner? = some x := by
  have hname : nullName x a = "isnull" ++ "!" ++ columnName x a := by
    simp [nullName, columnName, ← String.toList_inj]
  rw [hname]
  exact owner?_flag hx ha "isnull" type

theorem owner?_count {x : String} (hx : Clean x) (table : String) (type : SymbolType) :
    (⟨countName table x, type⟩ : Symbol).owner? = some x := by
  have hlist : (countName table x).toList = table.toList ++ '!' :: x.toList := by
    simp [countName]
  have hclean : ¬Clean (countName table x) := fun h => h.2 (by simp [hlist])
  have hall : ∀ c ∈ x.toList, decide (c ≠ '.') = true := fun c hc => by
    simpa using fun heq : c = '.' => hx.1 (heq ▸ hc)
  rw [owner?, if_neg hclean]
  dsimp only
  rw [hlist, takeWhile_reverse_append hx.2, List.reverse_reverse,
    List.takeWhile_eq_self_iff.mpr hall, String.ofList_toList]

/-! ### Marks and common symbols -/

/-- The symbol is the mark of that number: a placeholder of a summation, or its count in a row. -/
def IsMark (k : ℕ) (s : Symbol) : Prop :=
  s.name = "#u" ++ toString k ∨ s.name = "#v" ++ toString k

theorem unnumbered_u : Unnumbered "#u" := ⟨['#'], 'u', rfl, rfl⟩

theorem unnumbered_v : Unnumbered "#v" := ⟨['#'], 'v', rfl, rfl⟩

/-- A mark has one number. -/
theorem IsMark.unique {s : Symbol} {j k : ℕ} (hj : s.IsMark j) (hk : s.IsMark k) : j = k := by
  have number : ∀ {p q : String}, Unnumbered p → Unnumbered q →
      s.name = p ++ toString j → s.name = q ++ toString k → j = k := by
    intro p q hp hq hj hk
    exact (hp.append_inj hq (hj.symm.trans hk)).2
  rcases hj with hj | hj <;> rcases hk with hk | hk
  · exact number unnumbered_u unnumbered_u hj hk
  · exact number unnumbered_u unnumbered_v hj hk
  · exact number unnumbered_v unnumbered_u hj hk
  · exact number unnumbered_v unnumbered_v hj hk

theorem IsMark.clean {s : Symbol} {k : ℕ} (h : s.IsMark k) : Clean s.name := by
  rcases h with h | h <;> rw [h]
  · exact Clean.append (by decide) (clean_toString k)
  · exact Clean.append (by decide) (clean_toString k)

/-- A mark belongs to no tuple. -/
theorem IsMark.owner? {s : Symbol} {k : ℕ} (h : s.IsMark k) : s.owner? = none :=
  owner?_of_clean h.clean

/-- The symbol belongs to no tuple and is no mark. -/
structure Global (s : Symbol) : Prop where
  clean : Clean s.name
  unmarked : ∀ k, ¬s.IsMark k

/-- A numbered symbol whose text is not that of a mark. -/
theorem global_numbered {p : String} (hp : Unnumbered p) (hclean : Clean p) (hu : p ≠ "#u")
    (hv : p ≠ "#v") (n : ℕ) (type : SymbolType) : (⟨p ++ toString n, type⟩ : Symbol).Global where
  clean := hclean.append (clean_toString n)
  unmarked k h := by
    rcases h with h | h
    · exact hu (hp.append_inj unnumbered_u h).1
    · exact hv (hp.append_inj unnumbered_v h).1

theorem global_literal (n : ℕ) (type : SymbolType) :
    (⟨"#s" ++ toString n, type⟩ : Symbol).Global :=
  global_numbered ⟨['#'], 's', rfl, rfl⟩ (by decide) (by decide) (by decide) n type

theorem global_counting {name : String} (h : isCounting name = true) (n : ℕ)
    (type : SymbolType) : (⟨name ++ "#" ++ toString n, type⟩ : Symbol).Global := by
  have hmem : name ∈ ["count", "count_distinct", "length", "char_length", "abs"] :=
    of_decide_eq_true h
  have hclean : Clean name ∧ name ++ "#" ≠ "#u" ∧ name ++ "#" ≠ "#v" := by
    simp only [List.mem_cons, List.not_mem_nil, or_false] at hmem
    rcases hmem with rfl | rfl | rfl | rfl | rfl <;> decide
  exact global_numbered (unnumbered_append unnumbered_sign) (hclean.1.append (by decide))
    hclean.2.1 hclean.2.2 n type

end Symbol

/-! ### Names of tuples -/

/-- A name for a tuple.  It is no mark, and if it is one of the names of common tuples it is one of
the first `n`. -/
structure Settled (n : ℕ) (x : String) : Prop where
  clean : Clean x
  unmarked : ∀ k : ℕ, x ≠ "#u" ++ toString k ∧ x ≠ "#v" ++ toString k
  common : ∀ k : ℕ, x = "#ct" ++ toString k → k < n

theorem Settled.mono {m n : ℕ} {x : String} (h : Settled m x) (hmn : m ≤ n) : Settled n x :=
  ⟨h.clean, h.unmarked, fun k hk => lt_of_lt_of_le (h.common k hk) hmn⟩

theorem unnumbered_common : Unnumbered "#ct" := ⟨['#', 'c'], 't', rfl, rfl⟩

theorem settled_common {k n : ℕ} (h : k < n) : Settled n ("#ct" ++ toString k) where
  clean := Clean.append (by decide) (clean_toString k)
  unmarked j := by
    constructor
    · intro heq
      exact absurd (unnumbered_common.append_inj Symbol.unnumbered_u heq).1 (by decide)
    · intro heq
      exact absurd (unnumbered_common.append_inj Symbol.unnumbered_v heq).1 (by decide)
  common j hj := (unnumbered_common.append_inj unnumbered_common hj).2 ▸ h

/-- A name as it is given, or with a number sign and a number behind it; a given name has no point,
no exclamation mark and no number sign. -/
def TupleName (x : String) : Prop :=
  ∃ base : String, Clean base ∧ '#' ∉ base.toList ∧
    (x = base ∨ ∃ n : ℕ, x = base ++ "#" ++ toString n)

theorem TupleName.settled {x : String} (h : TupleName x) : Settled 0 x := by
  obtain ⟨base, hclean, hsign, rfl | ⟨n, rfl⟩⟩ := h
  · have hne : ∀ (p : String) (k : ℕ), '#' ∈ p.toList → x ≠ p ++ toString k := by
      rintro p k hp rfl
      exact hsign (by simp [hp])
    exact ⟨hclean, fun k => ⟨hne _ k (by decide), hne _ k (by decide)⟩,
      fun k hk => absurd hk (hne _ k (by decide))⟩
  · -- Behind a number sign come digits only.
    have hne : ∀ {p : String} (k : ℕ), Unnumbered p → p.toList.getLast? ≠ some '#' →
        base ++ "#" ++ toString n ≠ p ++ toString k := by
      intro p k hp hlast heq
      obtain ⟨rfl, _⟩ := (unnumbered_append unnumbered_sign).append_inj hp heq
      exact hlast (by simp)
    exact ⟨(hclean.append (by decide)).append (clean_toString n),
      fun k => ⟨hne k Symbol.unnumbered_u (by decide), hne k Symbol.unnumbered_v (by decide)⟩,
      fun k hk => absurd hk (hne k unnumbered_common (by decide))⟩

end BagEquiv
