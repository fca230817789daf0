import Shorthand.Yaml.Fault
import Shorthand.Yaml.Node

/-!
Nodes from tokens. Nothing need be written of a node where the tokens around it leave no doubt: then
it is the empty one.
-/

namespace Shorthand.Yaml.Node

/-- What a node stands in, as far as it says what the node may be. -/
inductive Surroundings where
  | block
  /-- A block mapping, in which a sequence need not be indented. -/
  | blockMapping
  /-- A flow collection, in which there are no block collections. -/
  | flow
deriving DecidableEq, Repr

def entryEnds : List Token := [.key, .value, .blockEnd]

def flowItemEnds : List Token := [.comma, .flowEnd .sequence]

def flowEntryEnds : List Token := [.comma, .flowEnd .mapping]

def readProperties : List Token → Properties × List Token
  | .anchor n :: .tag t :: rest => ({ anchor := some n, tag := some t }, rest)
  | .tag t :: .anchor n :: rest => ({ anchor := some n, tag := some t }, rest)
  | .anchor n :: rest => ({ anchor := some n }, rest)
  | .tag t :: rest => ({ tag := some t }, rest)
  | tokens => ({}, tokens)

def bare (p : Properties) (tokens : List Token) : Except Fault (Node × List Token) :=
  if p = {} then .error .missingNode else .ok (empty p, tokens)

def orEmpty (ends : List Token) (read : List Token → Except Fault (Node × List Token))
    (tokens : List Token) : Except Fault (Node × List Token) :=
  if tokens.head?.any (ends.contains ·) then .ok (empty {}, tokens) else read tokens

def valueOrEmpty (ends : List Token) (read : List Token → Except Fault (Node × List Token)) :
    List Token → Except Fault (Node × List Token)
  | .value :: rest => orEmpty ends read rest
  | tokens => .ok (empty {}, tokens)

def endItem (last : Token) : List Token → Except Fault (List Token)
  | .comma :: rest => .ok rest
  | t :: rest => if t = last then .ok (t :: rest) else .error .missingComma
  | [] => .error .missingComma

mutual

/-- Reads a node; `fuel` bounds the depth of the reading. -/
def read (around : Surroundings) : Nat → List Token → Except Fault (Node × List Token)
  | 0, _ => .error .tooManySteps
  | _ + 1, .alias n :: rest => .ok (.alias n, rest)
  | fuel + 1, tokens =>
    let (p, tokens) := readProperties tokens
    match tokens with
    | .scalar style text :: rest => .ok (.scalar p style text, rest)
    | .flowStart .sequence :: rest => do
      let (items, rest) ← readFlowItems fuel rest
      return (.sequence p items, rest)
    | .flowStart .mapping :: rest => do
      let (entries, rest) ← readFlowEntries fuel rest
      return (.mapping p entries, rest)
    | .blockStart .sequence :: rest =>
      if around = .flow then bare p tokens
      else do
        let (items, rest) ← readItems fuel rest
        return (.sequence p items, rest)
    | .blockStart .mapping :: rest =>
      if around = .flow then bare p tokens
      else do
        let (entries, rest) ← readEntries fuel rest
        return (.mapping p entries, rest)
    | .item :: _ =>
      if around = .blockMapping then do
        let (items, rest) ← readBareItems fuel tokens
        return (.sequence p items, rest)
      else bare p tokens
    | _ => bare p tokens
termination_by structural fuel => fuel

def readItems : Nat → List Token → Except Fault (List Node × List Token)
  | 0, _ => .error .tooManySteps
  | _ + 1, .blockEnd :: rest => .ok ([], rest)
  | fuel + 1, .item :: rest => do
    let (item, rest) ← orEmpty [.item, .blockEnd] (read .block fuel) rest
    let (items, rest) ← readItems fuel rest
    return (item :: items, rest)
  | _ + 1, _ => .error .missingItem
termination_by structural fuel => fuel

/-- Reads the items of a sequence that is not indented. The next token of the mapping around ends
it. -/
def readBareItems : Nat → List Token → Except Fault (List Node × List Token)
  | 0, _ => .error .tooManySteps
  | fuel + 1, .item :: rest => do
    let (item, rest) ← orEmpty (.item :: entryEnds) (read .block fuel) rest
    let (items, rest) ← readBareItems fuel rest
    return (item :: items, rest)
  | _ + 1, tokens => .ok ([], tokens)
termination_by structural fuel => fuel

def readEntries : Nat → List Token → Except Fault (List (Node × Node) × List Token)
  | 0, _ => .error .tooManySteps
  | _ + 1, .blockEnd :: rest => .ok ([], rest)
  | fuel + 1, .key :: rest => do
    let (key, rest) ← orEmpty entryEnds (read .blockMapping fuel) rest
    let (value, rest) ← valueOrEmpty entryEnds (read .blockMapping fuel) rest
    let (entries, rest) ← readEntries fuel rest
    return ((key, value) :: entries, rest)
  | _ + 1, _ => .error .missingKey
termination_by structural fuel => fuel

def readFlowItems : Nat → List Token → Except Fault (List Node × List Token)
  | 0, _ => .error .tooManySteps
  | _ + 1, .flowEnd .sequence :: rest => .ok ([], rest)
  | fuel + 1, tokens => do
    let (item, rest) ← match tokens with
      | .key :: rest => readPair fuel rest
      | _ => read .flow fuel tokens
    let rest ← endItem (.flowEnd .sequence) rest
    let (items, rest) ← readFlowItems fuel rest
    return (item :: items, rest)
termination_by structural fuel => fuel

/-- Reads a key and its value that are an item of a flow sequence: a mapping with one entry. Where
no key is written, the token behind the question mark is passed over. -/
def readPair : Nat → List Token → Except Fault (Node × List Token)
  | 0, _ => .error .tooManySteps
  | fuel + 1, tokens => do
    let (key, rest) ←
      if tokens.head?.any ((.value :: flowItemEnds).contains ·) then .ok (empty {}, tokens.drop 1)
      else read .flow fuel tokens
    let (value, rest) ← valueOrEmpty flowItemEnds (read .flow fuel) rest
    return (.mapping {} [(key, value)], rest)
termination_by structural fuel => fuel

/-- Reads the entries of a flow mapping up to its end. A key without a question mark and a colon has
the empty value. -/
def readFlowEntries : Nat → List Token → Except Fault (List (Node × Node) × List Token)
  | 0, _ => .error .tooManySteps
  | _ + 1, .flowEnd .mapping :: rest => .ok ([], rest)
  | fuel + 1, tokens => do
    let (entry, rest) ← match tokens with
      | .key :: rest => do
        let (key, rest) ← orEmpty (.value :: flowEntryEnds) (read .flow fuel) rest
        let (value, rest) ← valueOrEmpty flowEntryEnds (read .flow fuel) rest
        pure ((key, value), rest)
      | _ => do
        let (key, rest) ← read .flow fuel tokens
        pure ((key, empty {}), rest)
    let rest ← endItem (.flowEnd .mapping) rest
    let (entries, rest) ← readFlowEntries fuel rest
    return (entry :: entries, rest)
termination_by structural fuel => fuel

end

end Shorthand.Yaml.Node
