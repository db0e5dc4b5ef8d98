/-
**Writing structured data as text.**

Main definitions:

* `Json.compact` — on one line without spaces, parts without a value as `null`;
* `Json.pretty` — one item or member on a line, indented by two spaces.
-/

import BagEquiv.Json

set_option autoImplicit false

namespace BagEquiv.Json

namespace Printer

def hexDigit (n : Nat) : Char :=
  if n < 10 then Char.ofNat ('0'.toNat + n) else Char.ofNat ('a'.toNat + (n - 10))

/-- A character as it stands in a string. -/
def char : Char → List Char
  | '"' => ['\\', '"']
  | '\\' => ['\\', '\\']
  | '\n' => ['\\', 'n']
  | '\r' => ['\\', 'r']
  | '\t' => ['\\', 't']
  | c =>
      if c.toNat = 8 then ['\\', 'b']
      else if c.toNat = 12 then ['\\', 'f']
      else if c.toNat < 0x20 then
        ['\\', 'u', '0', '0', hexDigit (c.toNat / 16), hexDigit (c.toNat % 16)]
      else [c]

def string (s : String) : String := "\"" ++ String.ofList (s.toList.flatMap char) ++ "\""

end Printer

mutual

/-- The value on one line. -/
def compact : Json → String
  | .null => "null"
  | .bool true => "true"
  | .bool false => "false"
  | .int n => toString n
  | .float digits => digits
  | .str s => Printer.string s
  | .arr items => "[" ++ ",".intercalate (compactItems items) ++ "]"
  | .obj members => "\x7b" ++ ",".intercalate (compactMembers members) ++ "\x7d"
  | .unreadable => "null"

def compactItems : List Json → List String
  | [] => []
  | j :: rest => compact j :: compactItems rest

def compactMembers : List (String × Json) → List String
  | [] => []
  | (k, j) :: rest => (Printer.string k ++ ":" ++ compact j) :: compactMembers rest

end

namespace Printer

/-- Lines between two brackets, each indented to `depth + 1` and separated by commas. -/
def block (opening closing : String) (depth : Nat) : List String → String
  | [] => opening ++ closing
  | lines =>
      let indent := String.ofList (List.replicate (2 * (depth + 1)) ' ')
      let outer := String.ofList (List.replicate (2 * depth) ' ')
      opening ++ "\n" ++ ",\n".intercalate (lines.map (indent ++ ·)) ++ "\n" ++ outer ++ closing

mutual

def indented (depth : Nat) : Json → String
  | .arr items => block "[" "]" depth (indentedItems depth items)
  | .obj members => block "\x7b" "\x7d" depth (indentedMembers depth members)
  | j => compact j

def indentedItems (depth : Nat) : List Json → List String
  | [] => []
  | j :: rest => indented (depth + 1) j :: indentedItems depth rest

def indentedMembers (depth : Nat) : List (String × Json) → List String
  | [] => []
  | (k, j) :: rest => (string k ++ ": " ++ indented (depth + 1) j) :: indentedMembers depth rest

end

end Printer

/-- The value on several lines. -/
def pretty (j : Json) : String := Printer.indented 0 j

end BagEquiv.Json
