import Shorthand.Json.Basic

/-!
Reading JSON texts. Blanks between the parts of a value are skipped, every escape of a string is
understood, and nothing may follow the value.
-/

namespace Shorthand

open Text

namespace Json

def isSpace (c : Char) : Bool := c = ' ' || c = '\n' || c = '\r' || c = '\t'

def skip (cs : List Char) : List Char := cs.dropWhile isSpace

def hexNumber? (a b c d : Char) : Option Nat := do
  return (((← hexValue? a) * 16 + (← hexValue? b)) * 16 + (← hexValue? c)) * 16 + (← hexValue? d)

def escaped? : Char → Option Char
  | '"' => some '"'
  | '\\' => some '\\'
  | '/' => some '/'
  | 'b' => some '\x08'
  | 'f' => some '\x0c'
  | 'n' => some '\n'
  | 'r' => some '\r'
  | 't' => some '\t'
  | _ => none

/-- A string behind its opening quote, and what follows its closing quote. Two escaped surrogates
are one character. -/
def readString? : List Char → Option (List Char × List Char)
  | [] => none
  | '"' :: rest => some ([], rest)
  | '\\' :: 'u' :: a :: b :: c :: d :: rest => do
    let n ← hexNumber? a b c d
    if 0xD800 ≤ n ∧ n < 0xDC00 then
      match rest with
      | '\\' :: 'u' :: a :: b :: c :: d :: rest =>
        let low ← hexNumber? a b c d
        if 0xDC00 ≤ low ∧ low < 0xE000 then
          let x ← char? (0x10000 + (n - 0xD800) * 0x400 + (low - 0xDC00))
          let (s, rest) ← readString? rest
          some (x :: s, rest)
        else none
      | _ => none
    else
      let x ← char? n
      let (s, rest) ← readString? rest
      some (x :: s, rest)
  | '\\' :: c :: rest => do
    let x ← escaped? c
    let (s, rest) ← readString? rest
    some (x :: s, rest)
  | '\\' :: [] => none
  | c :: rest => do
    if c.toNat < 0x20 then none
    let (s, rest) ← readString? rest
    some (c :: s, rest)

def readExponent? (cs : List Char) : Option (Int × List Char) :=
  let (negative, cs) := match cs with
    | '-' :: rest => (true, rest)
    | '+' :: rest => (false, rest)
    | _ => (false, cs)
  match readNat? (cs.takeWhile Char.isDigit) with
  | none => none
  | some n => some (if negative then -n else n, cs.dropWhile Char.isDigit)

def readFraction? : List Char → Option (List Char × List Char)
  | '.' :: rest =>
    if rest.takeWhile Char.isDigit = [] then none
    else some (rest.takeWhile Char.isDigit, rest.dropWhile Char.isDigit)
  | cs => some ([], cs)

/-- A number without its sign, and what follows it. Only zero starts with a zero. -/
def readUnsigned? (negative : Bool) (cs : List Char) : Option (Numeral × List Char) := do
  let whole := cs.takeWhile Char.isDigit
  if whole = [] ∨ whole.head? = some '0' ∧ 1 < whole.length then none
  let (fraction, rest) ← readFraction? (cs.dropWhile Char.isDigit)
  match rest with
  | e :: after =>
    if e = 'e' ∨ e = 'E' then
      let (exponent, rest) ← readExponent? after
      some ({ negative, whole, fraction, exponent := some exponent }, rest)
    else some ({ negative, whole, fraction }, rest)
  | [] => some ({ negative, whole, fraction }, [])

def readNumber? : List Char → Option (Numeral × List Char)
  | '-' :: rest => readUnsigned? true rest
  | cs => readUnsigned? false cs

mutual

/-- A value at the front of a text, and what follows it. The fuel bounds how deep values are nested
and how many stand side by side. -/
def readValue? : Nat → List Char → Option (Json × List Char)
  | 0, _ => none
  | fuel + 1, cs =>
    match skip cs with
    | 'n' :: 'u' :: 'l' :: 'l' :: rest => some (.null, rest)
    | 't' :: 'r' :: 'u' :: 'e' :: rest => some (.bool true, rest)
    | 'f' :: 'a' :: 'l' :: 's' :: 'e' :: rest => some (.bool false, rest)
    | '"' :: rest => do
      let (s, rest) ← readString? rest
      some (.string (String.ofList s), rest)
    | '[' :: rest =>
      match skip rest with
      | ']' :: rest => some (.array [], rest)
      | rest => do
        let (items, rest) ← readItems? fuel rest
        some (.array items, rest)
    | '\x7b' :: rest =>
      match skip rest with
      | '\x7d' :: rest => some (.object [], rest)
      | rest => do
        let (fields, rest) ← readFields? fuel rest
        some (.object fields, rest)
    | rest => do
      let (n, rest) ← readNumber? rest
      some (.number n, rest)

def readItems? : Nat → List Char → Option (List Json × List Char)
  | 0, _ => none
  | fuel + 1, cs => do
    let (v, rest) ← readValue? fuel cs
    match skip rest with
    | ']' :: rest => some ([v], rest)
    | ',' :: rest =>
      let (items, rest) ← readItems? fuel rest
      some (v :: items, rest)
    | _ => none

def readFields? : Nat → List Char → Option (List (String × Json) × List Char)
  | 0, _ => none
  | fuel + 1, cs =>
    match skip cs with
    | '"' :: rest => do
      let (key, rest) ← readString? rest
      match skip rest with
      | ':' :: rest =>
        let (v, rest) ← readValue? fuel rest
        match skip rest with
        | '\x7d' :: rest => some ([(String.ofList key, v)], rest)
        | ',' :: rest =>
          let (fields, rest) ← readFields? fuel rest
          some ((String.ofList key, v) :: fields, rest)
        | _ => none
      | _ => none
    | _ => none

end

/-- The value that a text holds between blanks; every value spends less fuel than it has
characters. -/
def read? (text : String) : Option Json := do
  let cs := text.toList
  let (v, rest) ← readValue? (2 * cs.length + 2) cs
  if skip rest = [] then some v else none

/-- The first field with this key. -/
def get? (key : String) : Json → Option Json
  | .object fields => fields.lookup key
  | _ => none

def string? : Json → Option String
  | .string s => some s
  | _ => none

def bool? : Json → Option Bool
  | .bool b => some b
  | _ => none

def int? : Json → Option Int
  | .number n => n.toInt?
  | _ => none

def nat? (v : Json) : Option Nat := do
  match ← v.int? with
  | .ofNat n => some n
  | .negSucc _ => none

def items? : Json → Option (List Json)
  | .array items => some items
  | _ => none

end Json

end Shorthand
