/-
**Written data is read back.**

What the library writes as structured data it also reads, and reading gives back the value that
was written: fractions with the parts they had, sets of variables as the sets they were, maps with
all their entries.  A value can be spelled in other ways than the one it is written in, but
reading forgets the spelling, so what was read is written in a form that is read as the same.

On one line the data is written without spaces, and the reader finds where each part of it ends: a
string at the first quotation mark that is not escaped, a number at the comma or bracket behind it.
Two things are needed for a text to be read as what was written: integers must be words, since
others are read as floating-point numbers, and brackets must not be nested too deeply.

Main definition:

* `Json.ReadBack` — a reader gives back whatever a writer was given.

Main results:

* `Json.Fits.parse?_compact` — **the text of a value is read as the value**;
* `readBack_of_accepted` — **terms, inputs and databases are read back**, whether they were built or
  read from any accepted spelling.
-/

import BagEquiv.Check.Json
import BagEquiv.Proofs.Subterms
import BagEquiv.Json.Printer
import BagEquiv.Json.Reader

set_option autoImplicit false

namespace BagEquiv

namespace NameMap

variable {α : Type}

theorem place_of_forall_lt {name : String} (v : α) {es : List (String × α)}
    (h : ∀ e ∈ es, e.1 < name) : place name v es = es ++ [(name, v)] := by
  induction es with
  | nil => rfl
  | cons e es ih =>
      have he : e.1 < name := h e List.mem_cons_self
      rw [place, if_neg (String.lt_asymm he), if_neg (String.ne_of_lt he).symm,
        ih fun e' he' => h e' (List.mem_cons_of_mem _ he'), List.cons_append]

/-- Entries written in order are put behind the ones that are there already. -/
theorem entries_foldl_insert (es : List (String × α)) (m : NameMap α)
    (h : (m.entries ++ es).Pairwise fun a b => a.1 < b.1) :
    (es.foldl (fun m e => m.insert e.1 e.2) m).entries = m.entries ++ es := by
  induction es generalizing m with
  | nil => exact (List.append_nil _).symm
  | cons e es ih =>
      -- All names in the map are smaller, so the new entry is the last.
      have hinsert : (m.insert e.1 e.2).entries = m.entries ++ [e] :=
        place_of_forall_lt e.2 fun e' he' =>
          (List.pairwise_append.mp h).2.2 e' he' e List.mem_cons_self
      rw [List.append_cons, ← hinsert] at h
      rw [List.foldl_cons, ih _ h, hinsert, List.append_assoc, List.singleton_append]

theorem ofList_entries (m : NameMap α) : ofList m.entries = m :=
  NameMap.ext (entries_foldl_insert m.entries empty m.sorted)

end NameMap

namespace Json

/-- Whatever is written is read as what it was. -/
def ReadBack {α : Type} (write : α → Json) (read : Json → Option α) : Prop :=
  ∀ a, read (write a) = some a

namespace ReadBack

variable {α : Type} {write : α → Json} {read : Json → Option α}

/-- What was read, from whatever spelling, is written in a form that is read as the same. -/
theorem of_read (h : ReadBack write read) {j : Json} {a : α} (hj : read j = some a) :
    read (write a) = read j := (h a).trans hj.symm

theorem mapM (h : ReadBack write read) (as : List α) : (as.map write).mapM read = some as := by
  induction as with
  | nil => rfl
  | cons a as ih => rw [List.map_cons, List.mapM_cons, h a, ih]; rfl

theorem list (h : ReadBack write read) : ReadBack (ofList write) (list? read) := h.mapM

theorem nameMap (h : ReadBack write read) :
    ReadBack (NameMap.toJson write) (NameMap.ofJson? read) := by
  intro m
  have entries (es : List (String × α)) :
      ((es.map fun e => (e.1, write e.2)).mapM fun e => do return (e.1, ← read e.2)) =
        some es := by
    induction es with
    | nil => rfl
    | cons e es ih => rw [List.map_cons, List.mapM_cons, ih, h e.2]; rfl
  rw [NameMap.toJson, NameMap.ofJson?, entries]
  exact congrArg some m.ofList_entries

theorem word : ReadBack ofWord word? := by
  intro n
  have hrange : -2 ^ 63 ≤ n.toInt ∧ n.toInt < 2 ^ 63 := ⟨n.le_toInt, n.toInt_lt⟩
  rw [ofWord, word?, if_pos hrange, Int64.ofInt_toInt]

theorem count : ReadBack ofCount count? := by
  intro n
  have hrange : 0 ≤ (n.toNat : Int) ∧ (n.toNat : Int) < (2 ^ 64 : Nat) :=
    ⟨by omega, by exact_mod_cast n.toNat_lt⟩
  rw [ofCount, count?, below?, if_pos hrange]
  exact congrArg some (UInt64.ofNat_toNat)

end ReadBack

end Json

open Json (ReadBack)

/-! ### Terms -/

theorem Fraction.readBack : ReadBack Fraction.toJson Fraction.ofJson? := by
  intro q
  rw [Fraction.toJson, Fraction.ofJson?, ReadBack.word, ReadBack.word]
  exact dif_pos q.den_ne_zero

theorem Var.readBack : ReadBack Var.toJson Var.ofJson?
  | .base _ => rfl
  | .proj _ _ => rfl

theorem VarSet.readBack : ReadBack VarSet.toJson VarSet.ofJson? := by
  intro s
  -- Reading puts the variables in a set again: only which ones there are counts.
  rw [VarSet.toJson, VarSet.ofJson?, Var.readBack.list s.toList]
  exact congrArg some (VarSet.eq_of_mem_iff fun _ => VarSet.mem_ofList)

theorem Pred.readBack : ReadBack Pred.toJson Pred.ofJson? := by
  intro kind
  cases kind <;> rfl

namespace Term

mutual

/-- Terms are read back. -/
theorem readBack : ReadBack toJson ofJson?
  | .sum vars body => by rw [toJson, ofJson?, VarSet.readBack vars, readBack body]; rfl
  | .add ts => by rw [toJson, ofJson?, readBackList ts]; rfl
  | .mul ts => by rw [toJson, ofJson?, readBackList ts]; rfl
  | .neg t => by rw [toJson, ofJson?, readBack t]; rfl
  | .squash t => by rw [toJson, ofJson?, readBack t]; rfl
  | .pred kind ts => by rw [toJson, ofJson?, Pred.readBack kind, readBackList ts]; rfl
  | .var v => by rw [toJson, ofJson?, Var.readBack v]; rfl
  | .const q => by rw [toJson, ofJson?, Fraction.readBack q]; rfl
  | .table _ v => by rw [toJson, ofJson?, Var.readBack v]; rfl
  | .func _ ts => by rw [toJson, ofJson?, readBackList ts]; rfl
  | .str _ => rfl

theorem readBackList : ∀ ts : List Term, ofJsonList? (toJsonList ts) = some ts
  | [] => rfl
  | t :: ts => by rw [toJsonList, ofJsonList?, readBack t, readBackList ts]; rfl

end

end Term

/-! ### Inputs -/

theorem DataType.readBack : ReadBack DataType.toJson DataType.ofJson? := by
  intro type
  cases type <;> rfl

theorem Column.readBack : ReadBack Column.toJson Column.ofJson? := by
  intro c
  have hfields : c.toJson.fields? ["name", "ty"] = some [some (.str c.name), some c.type.toJson] :=
    rfl
  rw [Column.ofJson?, hfields]
  dsimp only
  rw [DataType.readBack c.type]
  rfl

theorem Schema.readBack : ReadBack Schema.toJson Schema.ofJson? := by
  intro s
  rw [Schema.toJson, Schema.ofJson?, Column.readBack.list s.columns]
  rfl

theorem Input.readBack : ReadBack Input.toJson Input.ofJson? := by
  intro i
  have hfields : i.toJson.fields? ["schemas", "output", "queries"] =
      some [some i.schemas.toJson, some (.str i.output),
        some (.arr [i.left.toJson, i.right.toJson])] := rfl
  have hqueries : Input.queriesOfJson? (.arr [i.left.toJson, i.right.toJson]) =
      some (i.left, i.right) := by
    rw [Input.queriesOfJson?, Term.readBack, Term.readBack]
    rfl
  rw [Input.ofJson?, hfields]
  dsimp only
  rw [SchemaMap.ofJson?, SchemaMap.toJson, Schema.readBack.nameMap i.schemas, hqueries]
  rfl

/-! ### Databases -/

theorem Datum.readBack : ReadBack Datum.toJson Datum.ofJson?
  | .int n => congrArg (Option.map Datum.int) (ReadBack.word n)
  | .real q => congrArg (Option.map Datum.real) (Fraction.readBack q)
  | .str _ => rfl

theorem Cell.readBack : ReadBack Cell.toJson Cell.ofJson? := by
  intro c
  have hfields : c.toJson.fields? ["value", "null"] =
      some [some c.value.toJson, some (.bool c.null)] := rfl
  rw [Cell.ofJson?, hfields]
  dsimp only
  rw [Datum.readBack c.value]
  rfl

theorem Row.readBack : ReadBack Row.toJson Row.ofJson? := Cell.readBack.nameMap

theorem Table.readBack : ReadBack Table.toJson Table.ofJson? := by
  refine ReadBack.list fun (row, n) => ?_
  rw [Table.entryOfJson?, Row.readBack row, ReadBack.count n]
  rfl

theorem Database.readBack : ReadBack Database.toJson Database.ofJson? := by
  intro db
  have hfields : db.toJson.fields? ["tables", "output"] =
      some [some (NameMap.toJson Table.toJson db.tables), some db.output.toJson] := rfl
  rw [Database.ofJson?, hfields]
  dsimp only
  rw [Table.readBack.nameMap db.tables, Row.readBack db.output]
  rfl

/-- Terms, inputs and databases are read back.  What any accepted data is read as is written in a
form that is read as the same. -/
theorem readBack_of_accepted :
    (ReadBack Term.toJson Term.ofJson? ∧
      ∀ j t, Term.ofJson? j = some t → Term.ofJson? t.toJson = Term.ofJson? j) ∧
    (ReadBack Input.toJson Input.ofJson? ∧
      ∀ j i, Input.ofJson? j = some i → Input.ofJson? i.toJson = Input.ofJson? j) ∧
    (ReadBack Database.toJson Database.ofJson? ∧
      ∀ j db, Database.ofJson? j = some db → Database.ofJson? db.toJson = Database.ofJson? j) :=
  ⟨⟨Term.readBack, fun _ _ => Term.readBack.of_read⟩,
    ⟨Input.readBack, fun _ _ => Input.readBack.of_read⟩,
    ⟨Database.readBack, fun _ _ => Database.readBack.of_read⟩⟩

/-! ### Text -/

namespace Json

/-- The values that a text can hold inside `depth` more brackets. -/
inductive Fits : (depth : ℕ) → Json → Prop
  | null {depth : ℕ} : Fits depth .null
  | bool {depth : ℕ} (b : Bool) : Fits depth (.bool b)
  | int {depth : ℕ} {n : ℤ} (h : -2 ^ 63 ≤ n ∧ n < 2 ^ 64) : Fits depth (.int n)
  | str {depth : ℕ} (s : String) : Fits depth (.str s)
  | arr {depth : ℕ} {items : List Json} (h : ∀ j ∈ items, Fits depth j) :
      Fits (depth + 1) (.arr items)
  | obj {depth : ℕ} {members : List (String × Json)} (h : ∀ m ∈ members, Fits depth m.2) :
      Fits (depth + 1) (.obj members)

namespace Reader

/-! ### Strings -/

/-- A character is read as it was before it was escaped. -/
theorem units_char (before : List ℕ) (c : Char) (cs : List Char) :
    units before (Printer.char c ++ cs) = units (c.toNat :: before) cs := by
  have hcode : ∀ n < 32, hex4? '0' '0' (Printer.hexDigit (n / 16)) (Printer.hexDigit (n % 16)) =
      some n := by
    decide
  unfold Printer.char
  split
  iterate 5 rfl
  next hquote hslash _ _ _ =>
    split
    · next h => rw [← Char.ofNat_toNat c, h]; rfl
    split
    · next h => rw [← Char.ofNat_toNat c, h]; rfl
    split
    · next h => simp [units, hcode _ h]
    · next h =>
        rw [List.singleton_append, units.eq_5 _ _ _ hquote (fun _ _ _ _ _ h _ => hslash h)
          fun _ _ h _ => hslash h, if_neg h]

theorem units_chars (before : List ℕ) (cs rest : List Char) :
    units before (cs.flatMap Printer.char ++ '"' :: rest) =
      some (before.reverse ++ cs.map Char.toNat, rest) := by
  induction cs generalizing before with
  | nil => simp [units]
  | cons c cs ih => simp [List.append_assoc, units_char, ih]

/-- Characters are no halves of surrogate pairs. -/
theorem joined_map_toNat (before cs : List Char) :
    joined before (cs.map Char.toNat) = some (before.reverse ++ cs) := by
  induction cs generalizing before with
  | nil => simp [joined]
  | cons c cs ih =>
      have hvalid : c.toNat < 0xD800 ∨ 0xDFFF < c.toNat ∧ c.toNat < 0x110000 := c.valid
      rw [List.map_cons, joined.eq_def]
      simp only
      rw [if_neg (by omega), if_neg (by omega), ih, Char.ofNat_toNat]
      simp

/-- A string is read as it was before it was written. -/
theorem string?_chars (s : String) (rest : List Char) :
    string? (s.toList.flatMap Printer.char ++ '"' :: rest) = some (some s, rest) := by
  simp [string?, units_chars, joined_map_toNat]

theorem toList_string (s : String) :
    (Printer.string s).toList = '"' :: (s.toList.flatMap Printer.char ++ ['"']) := by
  simp [Printer.string]

/-! ### Numbers -/

/-- A value ends here: there is nothing more, or the comma or bracket behind it. -/
def Stops (rest : List Char) : Prop :=
  rest = [] ∨ ∃ cs, rest = ',' :: cs ∨ rest = ']' :: cs ∨ rest = '}' :: cs

/-- The digits of a number start with a zero only if it is zero. -/
theorem exists_digits (n : ℕ) : ∃ d ds, Nat.toDigits 10 n = d :: ds ∧ d.isDigit = true ∧
    (d = '0' → ds = []) := by
  induction n using Nat.strongRecOn with
  | ind n ih =>
      by_cases hn : n < 10
      · have hdigit : ∀ n < 10, n.digitChar.isDigit = true := by decide
        exact ⟨_, [], Nat.toDigits_of_lt_base hn, hdigit n hn, fun _ => rfl⟩
      · obtain ⟨d, ds, hds, hd, hzero⟩ := ih (n / 10) (by omega)
        refine ⟨d, _, by rw [Nat.toDigits_of_base_le (by decide) (by omega), hds]; rfl, hd, ?_⟩
        rintro rfl
        rw [hzero rfl] at hds
        have := congrArg (Nat.ofDigitChars 10 · 0) hds
        rw [Nat.ofDigitChars_ten_toDigits] at this
        exact absurd this (by simp [Nat.ofDigitChars_cons]; omega)

/-- The digits of a number are read up to the end of the value. -/
theorem unsigned?_toDigits (negative : Bool) (n : ℕ) {rest : List Char} (h : Stops rest) :
    Numeral.unsigned? negative (Nat.toDigits 10 n ++ rest) =
      some (⟨negative, Nat.toDigits 10 n, [], none⟩, rest) := by
  have hall : ∀ d ∈ Nat.toDigits 10 n, d.isDigit = true := fun _ =>
    Nat.isDigit_of_mem_toDigits (by decide) (by decide)
  have hdigits : Numeral.digits (Nat.toDigits 10 n ++ rest) = (Nat.toDigits 10 n, rest) := by
    rw [Numeral.digits, List.takeWhile_append_of_pos hall, List.dropWhile_append_of_pos hall]
    rcases h with rfl | ⟨cs, rfl | rfl | rfl⟩ <;> simp
  have hwhole : Numeral.whole? (Nat.toDigits 10 n ++ rest) = some (Nat.toDigits 10 n, rest) := by
    obtain ⟨d, ds, hds, -, hzero⟩ := exists_digits n
    rw [Numeral.whole?, hdigits, hds]
    split
    · next heq => cases heq
    · next heq =>
        cases heq
        cases hzero rfl
    · rfl
  rw [Numeral.unsigned?, hwhole]
  rcases h with rfl | ⟨cs, rfl | rfl | rfl⟩ <;> rfl

/-! ### Values without brackets -/

/-- The text starts a value, and is read as `j` where it stops. -/
structure Reads (item : List Char → Option (Json × List Char)) (text : List Char) (j : Json) :
    Prop where
  head : ∃ c cs, text = c :: cs ∧ isSpace c = false ∧ c ≠ ']'
  item_eq : ∀ rest, Stops rest → item (text ++ rest) = some (j, rest)

variable {size depth : ℕ}

theorem reads_of_scalar? {c : Char} {cs : List Char} {j : Json}
    (hc : isSpace c = false ∧ c ≠ ']' ∧ c ≠ '[' ∧ c ≠ '{')
    (h : ∀ rest, Stops rest → scalar? (c :: (cs ++ rest)) = some (j, rest)) :
    Reads (value size depth) (c :: cs) j := by
  refine ⟨⟨c, cs, rfl, hc.1, hc.2.1⟩, fun rest hrest => ?_⟩
  have hskip : skipSpace (c :: (cs ++ rest)) = c :: (cs ++ rest) := by simp [skipSpace, hc.1]
  rw [List.cons_append, ← h rest hrest]
  cases depth <;> rw [value, hskip] <;> split <;> simp_all

/-- A text that starts with a digit or a sign is read as a number. -/
theorem reads_of_read? {c : Char} {cs : List Char} {j : Json} (hc : c.isDigit = true ∨ c = '-')
    (h : ∀ rest, Stops rest → ∃ m : Numeral, m.toJson = j ∧
      Numeral.read? (c :: (cs ++ rest)) = some (m, rest)) :
    Reads (value size depth) (c :: cs) j := by
  have hne : ∀ d : Char, d.isDigit = false → d ≠ '-' → c ≠ d := by
    rintro _ hd hminus rfl
    simp [hd, hminus] at hc
  have hword : ∀ {d : Char} {ds ds' : List Char}, d.isDigit = false → d ≠ '-' →
      c :: ds = d :: ds' → False := fun hd hminus heq => hne _ hd hminus (List.cons.inj heq).1
  refine reads_of_scalar? ⟨by simp [isSpace, hne], hne _ rfl (by decide), hne _ rfl (by decide),
    hne _ rfl (by decide)⟩ fun rest hrest => ?_
  obtain ⟨m, rfl, hread⟩ := h rest hrest
  rw [scalar?.eq_5 _ (fun _ => hword rfl (by decide)) (fun _ => hword rfl (by decide))
    (fun _ => hword rfl (by decide)) fun _ => hword rfl (by decide), hread]
  rfl

/-- Integers that are words are read as they were. -/
theorem reads_int {n : ℤ} (hn : -2 ^ 63 ≤ n ∧ n < 2 ^ 64) :
    Reads (value size depth) (toString n).toList (.int n) := by
  have hvalue : ∀ m : ℕ, Numeral.ofDigits (Nat.toDigits 10 m) = m := fun m =>
    Nat.ofDigitChars_eq_foldl.symm.trans Nat.ofDigitChars_ten_toDigits
  rw [Int.toString_eq_repr, Int.repr_eq_if]
  split
  · next hnonneg =>
      obtain ⟨d, ds, hds, hd, -⟩ := exists_digits n.toNat
      rw [Nat.repr_eq_ofList_toDigits, String.toList_ofList, hds]
      refine reads_of_read? (.inl hd) fun rest hrest =>
        ⟨⟨false, Nat.toDigits 10 n.toNat, [], none⟩, ?_, ?_⟩
      · rw [Numeral.toJson, hvalue, if_pos ⟨rfl, rfl, rfl, by omega⟩, Int.toNat_of_nonneg hnonneg]
      · rw [Numeral.read?.eq_2 _ fun _ h => ?_, ← List.cons_append, ← hds]
        · exact unsigned?_toDigits false _ hrest
        · rw [(List.cons.inj h).1] at hd
          cases hd
  · next hneg =>
      have htext : ("-" ++ (-n).toNat.repr).toList = '-' :: Nat.toDigits 10 (-n).toNat := by
        simp [Nat.repr_eq_ofList_toDigits]
      rw [htext]
      refine reads_of_read? (.inr rfl) fun rest hrest => ⟨_, ?_, unsigned?_toDigits true _ hrest⟩
      rw [Numeral.toJson, hvalue, if_neg (by simp), if_pos ⟨rfl, rfl, rfl, by omega, by omega⟩,
        Int.toNat_of_nonneg (by omega), neg_neg]

/-! ### Lists and objects -/

variable {item : List Char → Option (Json × List Char)}

/-- The text of an item of a list. -/
def itemText (j : Json) : List Char := j.compact.toList

/-- The text of a member of an object. -/
def memberText (m : String × Json) : List Char :=
  (Printer.string m.1).toList ++ ':' :: m.2.compact.toList

theorem toList_compact_arr (js : List Json) : (Json.arr js).compact.toList =
    '[' :: ([','].intercalate (js.map itemText) ++ [']']) := by
  have hitems : compactItems js = js.map compact := by
    induction js with
    | nil => rfl
    | cons j js ih => rw [compactItems, ih, List.map_cons]
  simp [compact, hitems, String.toList_intercalate, Function.comp_def]
  rfl

theorem toList_compact_obj (ms : List (String × Json)) : (Json.obj ms).compact.toList =
    '{' :: ([','].intercalate (ms.map memberText) ++ ['}']) := by
  have hmembers : compactMembers ms = ms.map fun m => Printer.string m.1 ++ ":" ++ m.2.compact := by
    induction ms with
    | nil => rfl
    | cons m ms ih => rw [compactMembers, ih, List.map_cons]
  simp [compact, hmembers, String.toList_intercalate, Function.comp_def]
  rfl

theorem exists_tail_intercalate (t : List Char) (texts : List (List Char)) :
    ∃ tail, [','].intercalate (t :: texts) = t ++ tail := by
  cases texts with
  | nil => exact ⟨[], by simp⟩
  | cons u texts => exact ⟨_, by rw [List.intercalate_cons_cons, List.append_assoc]⟩

/-- Between two brackets there is room for every part, and for a comma behind each but the last. -/
theorem parts_le {opening closing : Char} {texts : List (List Char)}
    (h : (opening :: ([','].intercalate texts ++ [closing])).length ≤ size) :
    (∀ t ∈ texts, t.length ≤ size) ∧ texts.length ≤ size := by
  have hparts : (∀ t ∈ texts, t.length ≤ ([','].intercalate texts).length) ∧
      texts.length ≤ ([','].intercalate texts).length + 1 := by
    clear h
    induction texts with
    | nil => simp
    | cons t texts ih =>
        cases texts with
        | nil => simp
        | cons u texts =>
            rw [List.intercalate_cons_cons, List.forall_mem_cons]
            simp only [List.length_append, List.length_cons, List.length_nil] at ih ⊢
            exact ⟨⟨by omega, fun v hv => (ih.1 v hv).trans (by omega)⟩, by omega⟩
  rw [List.length_cons, List.length_append, List.length_singleton] at h
  exact ⟨fun t ht => (hparts.1 t ht).trans (by omega), by omega⟩

/-- The items of a list are read back. -/
theorem items_compact {js : List Json} (h : ∀ j ∈ js, Reads item (itemText j) j) (hne : js ≠ [])
    {fuel : ℕ} (hfuel : js.length ≤ fuel) (before : List Json) (rest : List Char) :
    items item fuel before ([','].intercalate (js.map itemText) ++ ']' :: rest) =
      some (before.reverse ++ js, rest) := by
  induction js generalizing fuel before with
  | nil => exact absurd rfl hne
  | cons j js ih =>
      obtain ⟨fuel, rfl⟩ := Nat.exists_eq_add_of_le' (Nat.le_of_add_left_le hfuel)
      rw [List.length_cons, Nat.add_le_add_iff_right] at hfuel
      rw [List.forall_mem_cons] at h
      cases js with
      | nil =>
          rw [List.map_singleton, List.intercalate_singleton, items,
            h.1.item_eq _ (by simp [Stops])]
          simp [skipSpace, isSpace]
      | cons i js =>
          rw [List.map_cons, List.map_cons, List.intercalate_cons_cons, List.append_assoc,
            List.append_assoc, items, h.1.item_eq _ (by simp [Stops])]
          simpa [skipSpace, isSpace] using ih h.2 (by simp) hfuel (j :: before)

theorem members_compact {ms : List (String × Json)} (h : ∀ m ∈ ms, Reads item (itemText m.2) m.2)
    (hne : ms ≠ []) {fuel : ℕ} (hfuel : ms.length ≤ fuel) (before : List (String × Json))
    (rest : List Char) :
    members item fuel (some before) ([','].intercalate (ms.map memberText) ++ '}' :: rest) =
      some (some (before.reverse ++ ms), rest) := by
  have hname : ∀ (m : String × Json) cs,
      name? (memberText m ++ cs) = some (some m.1, itemText m.2 ++ cs) := by
    intro m cs
    rw [memberText, toList_string, name?]
    simp [skipSpace, isSpace, string?_chars, itemText]
  induction ms generalizing fuel before with
  | nil => exact absurd rfl hne
  | cons m ms ih =>
      obtain ⟨fuel, rfl⟩ := Nat.exists_eq_add_of_le' (Nat.le_of_add_left_le hfuel)
      rw [List.length_cons, Nat.add_le_add_iff_right] at hfuel
      rw [List.forall_mem_cons] at h
      cases ms with
      | nil =>
          rw [List.map_singleton, List.intercalate_singleton, members, hname]
          dsimp only
          rw [h.1.item_eq _ (by simp [Stops])]
          simp [skipSpace, isSpace]
      | cons i ms =>
          rw [List.map_cons, List.map_cons, List.intercalate_cons_cons, List.append_assoc,
            List.append_assoc, members, hname]
          dsimp only
          rw [h.1.item_eq _ (by simp [Stops])]
          simpa [skipSpace, isSpace] using ih h.2 (by simp) hfuel (m :: before)

/-- A list or an object that is not empty, after its opening bracket. -/
theorem value_bracket {c : Char} (hspace : isSpace c = false) (cs : List Char) :
    (c ≠ ']' → value size (depth + 1) ('[' :: c :: cs) =
      (items (value size depth) size [] (c :: cs)).map fun p => (.arr p.1, p.2)) ∧
    (c ≠ '}' → value size (depth + 1) ('{' :: c :: cs) =
      (members (value size depth) size (some []) (c :: cs)).map fun p =>
        (p.1.elim .unreadable .obj, p.2)) := by
  have hskip : skipSpace (c :: cs) = c :: cs := by simp [skipSpace, hspace]
  constructor <;> intro hc <;>
    rw [value, skipSpace, List.dropWhile_cons_of_neg (by decide)] <;> simp only [hskip] <;>
    split <;> simp_all

/-- The text of a value is read as the value, by a reader of texts that are no shorter. -/
theorem reads_compact {j : Json} (h : j.Fits depth) (hsize : (itemText j).length ≤ size) :
    Reads (value size depth) (itemText j) j := by
  induction h with
  | null => exact reads_of_scalar? (by decide) fun rest _ => rfl
  | bool b => cases b <;> exact reads_of_scalar? (by decide) fun rest _ => rfl
  | int hn => exact reads_int hn
  | str s =>
      rw [itemText, compact, toList_string]
      refine reads_of_scalar? (by decide) fun rest _ => ?_
      simp [scalar?, string?_chars]
  | @arr depth js h ih =>
      rw [itemText, toList_compact_arr] at hsize ⊢
      refine ⟨⟨_, _, rfl, rfl, by decide⟩, fun rest _ => ?_⟩
      cases js with
      | nil => simp [value, skipSpace, isSpace]
      | cons j js =>
          obtain ⟨hle, hcount⟩ := parts_le hsize
          rw [List.forall_mem_map] at hle
          rw [List.length_map] at hcount
          have hreads := fun i hi => ih i hi (hle i hi)
          have hitems := items_compact hreads (by simp) hcount [] rest
          obtain ⟨c, cs, hcs, hspace, hc⟩ := (hreads j List.mem_cons_self).head
          obtain ⟨tail, htail⟩ := exists_tail_intercalate (itemText j) (js.map itemText)
          rw [List.map_cons, htail, hcs] at hitems ⊢
          simp only [List.cons_append, List.append_assoc, List.nil_append] at hitems ⊢
          rw [(value_bracket hspace _).1 hc, hitems]
          rfl
  | @obj depth ms h ih =>
      rw [itemText, toList_compact_obj] at hsize ⊢
      refine ⟨⟨_, _, rfl, rfl, by decide⟩, fun rest _ => ?_⟩
      cases ms with
      | nil => simp [value, skipSpace, isSpace]
      | cons m ms =>
          obtain ⟨hle, hcount⟩ := parts_le hsize
          rw [List.forall_mem_map] at hle
          rw [List.length_map] at hcount
          simp only [memberText, List.length_append, List.length_cons] at hle
          have hreads := fun i hi => ih i hi (by have := hle i hi; rw [itemText]; omega)
          have hmembers := members_compact hreads (by simp) hcount [] rest
          obtain ⟨tail, htail⟩ := exists_tail_intercalate (memberText m) (ms.map memberText)
          rw [List.map_cons, htail, memberText, toList_string] at hmembers ⊢
          simp only [List.cons_append, List.append_assoc, List.nil_append] at hmembers ⊢
          rw [(value_bracket rfl _).2 (by decide), hmembers]
          rfl

end Reader

/-- The text of a value is read as the value. -/
theorem Fits.parse?_compact {j : Json} (h : j.Fits 127) : parse? j.compact = some j := by
  have hread := (Reader.reads_compact h le_rfl).item_eq [] (.inl rfl)
  rw [List.append_nil, Reader.itemText] at hread
  simp [parse?, hread, Reader.skipSpace]

/-- What a reader gives back from values it gives back from their texts. -/
theorem ReadBack.text {α : Type} {write : α → Json} {read : Json → Option α}
    (h : ReadBack write read) {a : α} (ha : (write a).Fits 127) :
    (parse? (write a).compact).bind read = some a := by
  rw [ha.parse?_compact]
  exact h a

end Json

end BagEquiv
