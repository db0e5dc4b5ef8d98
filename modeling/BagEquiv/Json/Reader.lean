/-
**Reading structured data from text.**

The reader follows the grammar of JSON: no trailing commas, no leading zeros, no bare control
characters in strings.  Three things follow the grammar and have no value: a string with half of
a surrogate pair, a number that is too large, and what stands inside more than 127 brackets.  The
last is passed over with a list of the open brackets instead of a recursion, so that its depth
has no bound.

Main definitions:

* `Json.Reader.string?`, `scalar?`, `skip`, `value` — the parts of the grammar;
* `Json.parse?` — the value a text consists of, of which parts may be unreadable;
* `Json.parseAll?` — the same when every part has a value.
-/

import BagEquiv.Json.Numeral

set_option autoImplicit false

namespace BagEquiv.Json.Reader

/-! ### Characters -/

def isSpace (c : Char) : Bool := c = ' ' || c = '\t' || c = '\n' || c = '\r'

def skipSpace (cs : List Char) : List Char := cs.dropWhile isSpace

/-- The value of a hexadecimal digit. -/
def hexDigit? (c : Char) : Option Nat :=
  if '0' ≤ c ∧ c ≤ '9' then some (c.toNat - '0'.toNat)
  else if 'a' ≤ c ∧ c ≤ 'f' then some (c.toNat - 'a'.toNat + 10)
  else if 'A' ≤ c ∧ c ≤ 'F' then some (c.toNat - 'A'.toNat + 10)
  else none

/-- The number of four hexadecimal digits. -/
def hex4? (a b c d : Char) : Option Nat := do
  let a ← hexDigit? a
  let b ← hexDigit? b
  let c ← hexDigit? c
  let d ← hexDigit? d
  return ((a * 16 + b) * 16 + c) * 16 + d

/-- The character that a letter after a backslash stands for. -/
def escape? : Char → Option Char
  | '"' => some '"'
  | '\\' => some '\\'
  | '/' => some '/'
  | 'b' => some '\x08'
  | 'f' => some '\x0c'
  | 'n' => some '\n'
  | 'r' => some '\r'
  | 't' => some '\t'
  | _ => none

/-- The numbers of the characters up to the closing quote, behind those `before` in reverse, and
what follows the quote.  An escape may give half of a surrogate pair. -/
def units (before : List Nat) : List Char → Option (List Nat × List Char)
  | [] => none
  | '"' :: rest => some (before.reverse, rest)
  | '\\' :: 'u' :: a :: b :: c :: d :: rest =>
      match hex4? a b c d with
      | none => none
      | some n => units (n :: before) rest
  | '\\' :: e :: rest =>
      match escape? e with
      | none => none
      | some c => units (c.toNat :: before) rest
  | c :: rest => if c.toNat < 0x20 then none else units (c.toNat :: before) rest

/-- The characters of their numbers, behind those `before` in reverse.  The two halves of a
surrogate pair are one character, and one half alone is none. -/
def joined (before : List Char) : List Nat → Option (List Char)
  | [] => some before.reverse
  | n :: rest =>
      if 0xD800 ≤ n ∧ n < 0xDC00 then
        match rest with
        | [] => none
        | m :: rest =>
            if 0xDC00 ≤ m ∧ m < 0xE000 then
              joined (Char.ofNat (0x10000 + (n - 0xD800) * 0x400 + (m - 0xDC00)) :: before) rest
            else none
      else if 0xDC00 ≤ n ∧ n < 0xE000 then none
      else joined (Char.ofNat n :: before) rest

/-- A string after its opening quote: it has no value if half of a surrogate pair is in it. -/
def string? (cs : List Char) : Option (Option String × List Char) :=
  (units [] cs).map fun (ns, after) => ((joined [] ns).map String.ofList, after)

/-! ### Values without brackets -/

/-- A value that starts with no bracket. -/
def scalar? : List Char → Option (Json × List Char)
  | 'n' :: 'u' :: 'l' :: 'l' :: rest => some (.null, rest)
  | 't' :: 'r' :: 'u' :: 'e' :: rest => some (.bool true, rest)
  | 'f' :: 'a' :: 'l' :: 's' :: 'e' :: rest => some (.bool false, rest)
  | '"' :: rest => (string? rest).map fun (text, after) => (text.elim .unreadable .str, after)
  | cs => (Numeral.read? cs).map fun (n, after) => (n.toJson, after)

/-- The name of a member and its colon. -/
def name? (cs : List Char) : Option (Option String × List Char) :=
  match skipSpace cs with
  | '"' :: rest =>
      match string? rest with
      | none => none
      | some (name, cs) =>
          match skipSpace cs with
          | ':' :: after => some (name, after)
          | _ => none
  | _ => none

/-! ### Passing over values -/

/-- A bracket that is open. -/
inductive Bracket where
  | square
  | curly

/-- From the end of a value to the start of the next one inside the brackets `outer`, the innermost
first: past those that close here, and a comma.  No bracket is left when all have closed. -/
def next? : List Bracket → List Char → Option (List Bracket × List Char)
  | [], cs => some ([], cs)
  | .square :: outer, cs =>
      match skipSpace cs with
      | ']' :: rest => next? outer rest
      | ',' :: rest => some (.square :: outer, rest)
      | _ => none
  | .curly :: outer, cs =>
      match skipSpace cs with
      | '}' :: rest => next? outer rest
      | ',' :: rest => (name? rest).map fun (_, rest) => (.curly :: outer, rest)
      | _ => none

/-- From the start of a value to the start of the next one. -/
def step? (outer : List Bracket) (cs : List Char) : Option (List Bracket × List Char) :=
  match skipSpace cs with
  | '[' :: rest =>
      match skipSpace rest with
      | ']' :: after => next? outer after
      | rest => some (.square :: outer, rest)
  | '{' :: rest =>
      match skipSpace rest with
      | '}' :: after => next? outer after
      | rest => (name? rest).map fun (_, rest) => (.curly :: outer, rest)
  | cs => (scalar? cs).bind fun (_, rest) => next? outer rest

/-- What follows the brackets `outer`, from the start of a value inside them.  Every value takes at
least one character, so `fuel` need not exceed the number of characters. -/
def skip : (fuel : Nat) → (outer : List Bracket) → List Char → Option (List Char)
  | 0, _, _ => none
  | fuel + 1, outer, cs =>
      match step? outer cs with
      | none => none
      | some ([], rest) => some rest
      | some (outer, rest) => skip fuel outer rest

/-! ### Values -/

/-- The items of a list and its closing bracket, each read by `item`, behind those `before` in
reverse. -/
def items (item : List Char → Option (Json × List Char)) :
    (fuel : Nat) → (before : List Json) → List Char → Option (List Json × List Char)
  | 0, _, _ => none
  | fuel + 1, before, cs =>
      match item cs with
      | none => none
      | some (j, cs) =>
          match skipSpace cs with
          | ',' :: rest => items item fuel (j :: before) rest
          | ']' :: rest => some ((j :: before).reverse, rest)
          | _ => none

/-- The members of an object and its closing brace, behind those `before` in reverse.  They are
lost when a name cannot be read. -/
def members (item : List Char → Option (Json × List Char)) :
    (fuel : Nat) → (before : Option (List (String × Json))) → List Char →
      Option (Option (List (String × Json)) × List Char)
  | 0, _, _ => none
  | fuel + 1, before, cs =>
      match name? cs with
      | none => none
      | some (name, cs) =>
          match item cs with
          | none => none
          | some (j, cs) =>
              let found := before.bind fun ms => name.map fun name => (name, j) :: ms
              match skipSpace cs with
              | ',' :: rest => members item fuel found rest
              | '}' :: rest => some (found.map List.reverse, rest)
              | _ => none

/-- A value in a text of at most `size` characters.  Inside `depth` brackets it is read, and
deeper ones are passed over. -/
def value (size : Nat) : (depth : Nat) → List Char → Option (Json × List Char)
  | 0, cs =>
      match skipSpace cs with
      | '[' :: rest => (skip size [] ('[' :: rest)).map fun after => (.unreadable, after)
      | '{' :: rest => (skip size [] ('{' :: rest)).map fun after => (.unreadable, after)
      | cs => scalar? cs
  | depth + 1, cs =>
      match skipSpace cs with
      | '[' :: rest =>
          match skipSpace rest with
          | ']' :: after => some (.arr [], after)
          | rest => (items (value size depth) size [] rest).map fun (js, after) => (.arr js, after)
      | '{' :: rest =>
          match skipSpace rest with
          | '}' :: after => some (.obj [], after)
          | rest => (members (value size depth) size (some []) rest).map fun (ms, after) =>
              (ms.elim .unreadable .obj, after)
      | cs => scalar? cs

end Reader

/-- The value a text consists of, with white space around it. -/
def parse? (text : String) : Option Json :=
  let cs := text.toList
  match Reader.value cs.length 127 cs with
  | some (j, rest) => if (Reader.skipSpace rest).isEmpty then some j else none
  | none => none

/-- The value a text consists of, when every part of it has a value. -/
def parseAll? (text : String) : Option Json := (parse? text).filter isReadable

end BagEquiv.Json
