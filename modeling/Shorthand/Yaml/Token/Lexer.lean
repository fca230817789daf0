import Shorthand.Yaml.Fault
import Shorthand.Yaml.Token

/-!
What is known while the tokens of a text are read: the block collections around, and whether a key
may start or may have started. A scalar, or anything else that may be a key, is known to be one only
when a colon follows on the same line; the token in front of it, and the start of the mapping around
it, are put in then.
-/

namespace Shorthand.Yaml

/-- A place that turns out to be a key's if a colon follows. -/
structure PossibleKey where
  position : Nat
  place : Cursor
  /-- Nothing but a key may stand here. -/
  required : Bool
deriving Repr

def maxKeyBytes : Nat := 1024

def PossibleKey.isStale (k : PossibleKey) (c : Cursor) : Bool :=
  k.place.line < c.line || k.place.index + maxKeyBytes < c.index

structure Lexer where
  place : Cursor
  /-- The tokens so far, the last first. -/
  tokens : List Token := []
  /-- The columns of the block collections around, the innermost first. -/
  blocks : List Nat := []
  /-- The possible key of the innermost flow collection, or outside of all. -/
  possibleKey : Option PossibleKey := none
  /-- The possible keys in which the flow collections around start, the innermost first. -/
  outerKeys : List (Option PossibleKey) := []
  /-- A key of a block mapping, or an item of a block sequence, may start here. -/
  keyAllowed : Bool := true
  anchors : List (String × Nat) := []
  versioned : Bool := false
  handles : Handles := []
deriving Repr

namespace Lexer

def inFlow (s : Lexer) : Bool := !s.outerKeys.isEmpty

/-- The first column to the right of all block collections around. -/
def floor (s : Lexer) : Nat :=
  match s.blocks with
  | [] => 0
  | column :: _ => column + 1

def allowKey (allowed : Bool) (s : Lexer) : Lexer := { s with keyAllowed := allowed }

def take (length : Nat) (t : Token) (s : Lexer) : Lexer :=
  { s with place := s.place.forward length, tokens := t :: s.tokens }

def closeBlocks (bound : Nat) (s : Lexer) : Lexer :=
  if s.inFlow then s
  else
    let closed := s.blocks.takeWhile (bound ≤ ·)
    { s with
      tokens := List.replicate closed.length .blockEnd ++ s.tokens
      blocks := s.blocks.drop closed.length }

/-- Starts a block collection in column `column`, in front of the last `count` tokens, unless the
innermost one is in that column or further right. -/
def openBlock (kind : Collection) (column count : Nat) (s : Lexer) : Lexer :=
  if s.inFlow || column < s.floor then s
  else
    { s with
      tokens := s.tokens.insertIdx count (.blockStart kind)
      blocks := column :: s.blocks }

def openBlockHere (kind : Collection) (misplaced : Fault) (s : Lexer) : Except Fault Lexer :=
  if s.inFlow then .ok s
  else if s.keyAllowed then .ok (s.openBlock kind s.place.column 0)
  else .error misplaced

/-- Gives up the possible key, unless nothing but a key may stand there. -/
def dropKey (s : Lexer) : Except Fault Lexer :=
  if s.possibleKey.any (·.required) then .error .missingColon
  else .ok { s with possibleKey := none }

/-- Notes that a key may start here, if one is allowed to. In the column of the keys around nothing
else may. -/
def noteKey (s : Lexer) : Except Fault Lexer := do
  if !s.keyAllowed then return s
  let s ← s.dropKey
  let required := !s.inFlow && s.blocks.head? == some s.place.column
  return { s with possibleKey := some ⟨s.tokens.length, s.place, required⟩ }

/-- Goes on to the next token: a possible key that is too long or was on an earlier line is given
up, and block collections to the right of the place end. -/
def toToken (s : Lexer) : Except Fault Lexer := do
  let (place, keyAllowed) := s.place.skip s.inFlow s.keyAllowed
  let s := { s with place, keyAllowed }
  let s ← if s.possibleKey.any (·.isStale place) then s.dropKey else .ok s
  return s.closeBlocks (place.column + 1)

end Lexer

end Shorthand.Yaml
