import Shorthand.Number.Numeral
import Shorthand.Text.Hex

/-!
JSON values and their texts: on one line, over indented lines, and with the keys in order.
-/

namespace Shorthand

open Text

/-- A JSON value. The fields of an object keep the order in which they are written. -/
inductive Json where
  | null
  | bool (value : Bool)
  | number (value : Numeral)
  | string (value : String)
  | array (items : List Json)
  | object (fields : List (String × Json))

namespace Json

def int (i : Int) : Json := .number (Numeral.ofInt i)

def nat (n : Nat) : Json := int n

/-- A character inside a string: the quote, the backslash and the control characters below the space
are escaped, with their short names where they have one; every other character is written as it
is. -/
def escapeChar (c : Char) : List Char :=
  if c = '"' then ['\\', '"']
  else if c = '\\' then ['\\', '\\']
  else if c = '\x08' then ['\\', 'b']
  else if c = '\t' then ['\\', 't']
  else if c = '\n' then ['\\', 'n']
  else if c = '\x0c' then ['\\', 'f']
  else if c = '\r' then ['\\', 'r']
  else if c.toNat < 0x20 then '\\' :: 'u' :: hexDigits c.toNat
  else [c]

def quoted (s : String) : List Char := '"' :: (s.toList.flatMap escapeChar ++ ['"'])

mutual

def compact : Json → List Char
  | .null => ['n', 'u', 'l', 'l']
  | .bool true => ['t', 'r', 'u', 'e']
  | .bool false => ['f', 'a', 'l', 's', 'e']
  | .number n => n.toChars
  | .string s => quoted s
  | .array items => '[' :: compactItems items
  | .object fields => '\x7b' :: compactFields fields

def compactItems : List Json → List Char
  | [] => [']']
  | [v] => compact v ++ [']']
  | v :: w :: rest => compact v ++ ',' :: compactItems (w :: rest)

def compactFields : List (String × Json) → List Char
  | [] => ['\x7d']
  | [(key, v)] => quoted key ++ ':' :: compact v ++ ['\x7d']
  | (key, v) :: w :: rest => quoted key ++ ':' :: compact v ++ ',' :: compactFields (w :: rest)

end

def newLine (level : Nat) : List Char := '\n' :: List.replicate (2 * level) ' '

mutual

/-- The value over several lines: each item and each field stands on its own line, two blanks deeper
than what encloses it, and an empty array or object on one line. -/
def indented (level : Nat) : Json → List Char
  | .null => ['n', 'u', 'l', 'l']
  | .bool true => ['t', 'r', 'u', 'e']
  | .bool false => ['f', 'a', 'l', 's', 'e']
  | .number n => n.toChars
  | .string s => quoted s
  | .array [] => ['[', ']']
  | .array (v :: rest) => '[' :: indentedItems level (v :: rest)
  | .object [] => ['\x7b', '\x7d']
  | .object (field :: rest) => '\x7b' :: indentedFields level (field :: rest)

def indentedItems (level : Nat) : List Json → List Char
  | [] => newLine level ++ [']']
  | [v] => newLine (level + 1) ++ indented (level + 1) v ++ newLine level ++ [']']
  | v :: w :: rest =>
    newLine (level + 1) ++ indented (level + 1) v ++ ',' :: indentedItems level (w :: rest)

def indentedFields (level : Nat) : List (String × Json) → List Char
  | [] => newLine level ++ ['\x7d']
  | [(key, v)] =>
    newLine (level + 1) ++ quoted key ++ ':' :: ' ' :: indented (level + 1) v ++
      newLine level ++ ['\x7d']
  | (key, v) :: w :: rest =>
    newLine (level + 1) ++ quoted key ++ ':' :: ' ' :: indented (level + 1) v ++
      ',' :: indentedFields level (w :: rest)

end

def insertField (field : String × Json) : List (String × Json) → List (String × Json)
  | [] => [field]
  | other :: rest =>
    if field.1 < other.1 then field :: other :: rest else other :: insertField field rest

mutual

def sorted : Json → Json
  | .array items => .array (sortedItems items)
  | .object fields => .object (sortedFields fields)
  | .null => .null
  | .bool b => .bool b
  | .number n => .number n
  | .string s => .string s

def sortedItems : List Json → List Json
  | [] => []
  | v :: rest => sorted v :: sortedItems rest

def sortedFields : List (String × Json) → List (String × Json)
  | [] => []
  | (key, v) :: rest => insertField (key, sorted v) (sortedFields rest)

end

def toLine (v : Json) : String := String.ofList (compact v)

def toLines (v : Json) : String := String.ofList (indented 0 v)

end Json

end Shorthand
