import Shorthand.Proofs.Task.Spelling
import Shorthand.Proofs.Text.LetterCase

/-!
Tasks in small letters. `Task.read?_asciiLower` says that a token notes the same task in small
letters, with its name in small letters.
-/

namespace Shorthand.Task

open Text

def lowered (t : Task) : Task := { t with name := t.name.toLower }

theorem nameOf_asciiLower (cs : List Char) :
    nameOf (asciiLower cs) = asciiLower (nameOf cs) := by
  have hspace : ∀ c : Char,
      (if c.toLower = '-' then ' ' else c.toLower) = (if c = '-' then ' ' else c).toLower := by
    intro c
    by_cases hc : c = '-'
    · rw [if_pos hc, if_pos ((isMark_hyphen c).2 hc)]
      rfl
    · rw [if_neg hc, if_neg (mt (isMark_hyphen c).1 hc)]
  have hmap : (asciiLower cs).map (fun c => if c = '-' then ' ' else c) =
      asciiLower (cs.map fun c => if c = '-' then ' ' else c) := by
    rw [asciiLower, List.map_map, asciiLower, List.map_map]
    exact List.map_congr_left fun c _ => hspace c
  rw [nameOf, hmap, words_asciiLower, joinWith_asciiLower rfl, nameOf]

/-- The case of letters shows in the name of a task only. -/
theorem ofParts?_asciiLower (name minutes : List Char) :
    ofParts? (asciiLower name) (asciiLower minutes) =
      (ofParts? name minutes).map lowered := by
  show (readNatUpTo? maxNat32 (asciiLower minutes)).bind _ = _
  rw [readNatUpTo?_asciiLower, nameOf_asciiLower, ← toLower_ofList]
  simp only [asciiLower_eq_nil_iff]
  show _ = ((readNatUpTo? maxNat32 minutes).bind _).map lowered
  cases readNatUpTo? maxNat32 minutes with
  | none => rfl
  | some n =>
    show (if n = 0 ∨ nameOf name = [] then none else _) =
      Option.map lowered (if n = 0 ∨ nameOf name = [] then none else _)
    by_cases hnone : n = 0 ∨ nameOf name = []
    · rw [if_pos hnone, if_pos hnone]
      rfl
    · rw [if_neg hnone, if_neg hnone]
      rfl

theorem isDigits_asciiLower (cs : List Char) : isDigits (asciiLower cs) = isDigits cs := by
  rw [isDigits, isEmpty_asciiLower, all_asciiLower isDecimal_toLower, isDigits]

theorem isName_asciiLower (cs : List Char) : isName (asciiLower cs) = isName cs := by
  rw [Bool.eq_iff_iff]
  simp only [isName_iff, ne_eq, asciiLower_eq_nil_iff, mem_asciiLower_iff isMark_newline]

def lowerBoth (parts : List Char × List Char) : List Char × List Char :=
  (asciiLower parts.1, asciiLower parts.2)

theorem nameAndMinutes?_asciiLower (cs : List Char) :
    nameAndMinutes? (asciiLower cs) = (nameAndMinutes? cs).map lowerBoth := by
  show (cutAtLast? '-' (asciiLower cs)).bind _ = ((cutAtLast? '-' cs).bind _).map lowerBoth
  rw [cutAtLast?_asciiLower isMark_hyphen]
  cases cutAtLast? '-' cs with
  | none => rfl
  | some parts =>
    show (if isName (asciiLower parts.1) && isDigits (asciiLower parts.2) then _ else _) =
      Option.map lowerBoth (if isName parts.1 && isDigits parts.2 then some (parts.1, parts.2)
        else none)
    rw [isName_asciiLower, isDigits_asciiLower]
    by_cases hparts : (isName parts.1 && isDigits parts.2) = true
    · rw [if_pos hparts, if_pos hparts]
      rfl
    · rw [if_neg hparts, if_neg hparts]
      rfl

theorem orderAndName?_asciiLower (cs : List Char) :
    orderAndName? (asciiLower cs) = (orderAndName? cs).map lowerBoth := by
  show (cutAtFirst? '-' (asciiLower cs)).bind _ = ((cutAtFirst? '-' cs).bind _).map lowerBoth
  rw [cutAtFirst?_asciiLower isMark_hyphen]
  cases cutAtFirst? '-' cs with
  | none => rfl
  | some parts =>
    show (if isDigits (asciiLower parts.1) && isName (asciiLower parts.2) then _ else _) =
      Option.map lowerBoth (if isDigits parts.1 && isName parts.2 then some (parts.1, parts.2)
        else none)
    rw [isName_asciiLower, isDigits_asciiLower]
    by_cases hparts : (isDigits parts.1 && isName parts.2) = true
    · rw [if_pos hparts, if_pos hparts]
      rfl
    · rw [if_neg hparts, if_neg hparts]
      rfl

theorem order?_asciiLower (name : List Char) :
    order? (asciiLower name) = (order? name).map fun p => (p.1, asciiLower p.2) := by
  show (orderAndName? (asciiLower name)).bind _ = ((orderAndName? name).bind _).map _
  rw [orderAndName?_asciiLower]
  cases orderAndName? name with
  | none => rfl
  | some parts =>
    show (readNatUpTo? maxNat32 (asciiLower parts.1)).bind _ =
      ((readNatUpTo? maxNat32 parts.1).bind _).map _
    rw [readNatUpTo?_asciiLower]
    cases readNatUpTo? maxNat32 parts.1 <;> rfl

def ofOrdered? (name minutes : List Char) : Option Task :=
  match order? name with
  | some (order, rest) => (ofParts? rest minutes).map fun t => { t with order := some order }
  | none => ofParts? name minutes

/-- A task is read in two steps: its parts are cut apart, and then they are read. -/
theorem readTrimmed?_eq_bind (token : List Char) :
    readTrimmed? token = (nameAndMinutes? token).bind fun p => ofOrdered? p.1 p.2 :=
  rfl

/-- Letter case counts only in the name of a task. -/
theorem read?_asciiLower (token : List Char) :
    read? (asciiLower token) = (read? token).map lowered := by
  rw [read?, trim_asciiLower, readTrimmed?_eq_bind, nameAndMinutes?_asciiLower, read?,
    readTrimmed?_eq_bind]
  cases nameAndMinutes? (trim token) with
  | none => rfl
  | some parts =>
    obtain ⟨name, minutes⟩ := parts
    show ofOrdered? (asciiLower name) (asciiLower minutes) = (ofOrdered? name minutes).map lowered
    rw [ofOrdered?, order?_asciiLower, ofOrdered?]
    cases order? name with
    | none => exact ofParts?_asciiLower name minutes
    | some ordered =>
      show Option.map _ (ofParts? (asciiLower ordered.2) (asciiLower minutes)) = _
      rw [ofParts?_asciiLower, Option.map_map, Option.map_map]
      rfl

end Shorthand.Task
