/-!
What may be wrong with a YAML text.
-/

namespace Shorthand.Yaml

inductive Fault where
  | controlCharacter
  /-- A character that starts nothing. -/
  | unexpectedCharacter
  | tabInIndentation
  | unclosedQuote
  | invalidEscape
  | invalidBlockHeader
  | invalidAnchor
  | unknownAnchor
  | invalidTag
  | unknownHandle
  | invalidDirective
  | repeatedDirective
  /-- What stands in the column of a mapping's keys is no key. -/
  | missingColon
  | misplacedKey
  | misplacedValue
  | misplacedItem
  | missingNode
  | missingKey
  | missingItem
  | missingComma
  | missingDocumentStart
  | severalDocuments
  /-- Reading takes more steps than the length of the text allows for; no text comes to that. -/
  | tooManySteps
deriving DecidableEq, Repr

end Shorthand.Yaml
