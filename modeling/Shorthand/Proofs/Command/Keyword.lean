import Shorthand.Command.Head
import Shorthand.Proofs.Chain
import Shorthand.Proofs.Text.Words

/-!
What the first two words of a line decide. `Head.reads_of_read` says once and for all how the head
of a line is found; every other statement about heads follows from it.
-/

namespace Shorthand

open Text

/-! ## Words that are times -/

def Resolves (now : ClockReading) (word : List Char) : Prop :=
  ∃ slot, Slot.read now word = .ok slot ∧ slot.isEmpty = false

section Resolves

variable {now : ClockReading} {word : List Char}

theorem resolves_eq_ok_true_iff : resolves now word = .ok true ↔ Resolves now word := by
  rw [resolves, map_eq_ok_iff]
  refine exists_congr fun slot => and_congr_right fun _ => ?_
  cases slot.isEmpty <;> decide

theorem resolves_eq_ok_false_iff : resolves now word = .ok false ↔ Slot.read now word = .ok {} := by
  rw [resolves, map_eq_ok_iff]
  constructor
  · rintro ⟨slot, hread, hslot⟩
    obtain rfl : slot = {} := Slot.isEmpty_iff.1 (by simpa using hslot)
    exact hread
  · intro hread
    exact ⟨{}, hread, rfl⟩

theorem resolves_eq_error_iff {fault : ReadFault} :
    resolves now word = .error fault ↔ Slot.read now word = .error fault := by
  rw [resolves, map_eq_error_iff]

theorem Resolves.not_read_empty (h : Resolves now word) : Slot.read now word ≠ .ok {} := by
  obtain ⟨slot, hread, hslot⟩ := h
  intro hempty
  obtain rfl : slot = {} := Except.ok.inj (hread.symm.trans hempty)
  cases hslot

end Resolves

/-- A word of everyday language is a keyword in front of nothing, of a name or of a time. -/
def StandsAlone (now : ClockReading) : Option (List Char) → Prop
  | none => True
  | some next => next.head? = some '@' ∨ Resolves now next

/-! ## Keywords -/

namespace Keyword

def names : Keyword → List String
  | .block => ["blk", "block"]
  | .blockWord .deepWork => ["deep"]
  | .blockWord .admin => ["admin"]
  | .blockWord .pause => ["break"]
  | .blockWord .exercise => ["exercise"]
  | .blockWord .personal => ["personal"]
  | .event => ["evt", "event"]
  | .eventWord .meeting => ["meeting"]
  | .eventWord .standup => ["standup"]
  | .eventWord .call => ["call"]
  | .eventWord .review => ["review"]
  | .routine => ["rtn", "routine"]
  | .task => ["tsk", "task"]
  | .batch => ["batch"]
  | .template => ["tmpl", "template"]
  | .assistant => ["ai"]
  | .quick .now => ["now"]
  | .quick .next => ["next"]
  | .quick .clear => ["clear"]
  | .quick .undo => ["undo"]

/-- A keyword is known by any of its names. -/
theorem ofName?_eq_some_iff {name : String} {k : Keyword} :
    ofName? name = some k ↔ name ∈ k.names := by
  have hnames : ∀ name ∈ k.names, ofName? name = some k := by
    cases k with
    | blockWord kind => cases kind <;> decide
    | eventWord kind => cases kind <;> decide
    | quick action => cases action <;> decide
    | _ => decide
  constructor
  · intro h
    unfold ofName? at h
    split at h <;> cases h <;> decide
  · exact hnames name

/-- No keyword is written with a plus sign behind `now`, and none with a slash in front. -/
theorem not_prefix_of_ofName? {word : List Char} {k : Keyword}
    (h : ofName? (String.ofList word) = some k) :
    ¬ ['n', 'o', 'w', '+'] <+: word ∧ word.head? ≠ some '/' := by
  have hnames : ∀ name ∈ k.names,
      ¬ ['n', 'o', 'w', '+'] <+: name.toList ∧ name.toList.head? ≠ some '/' := by
    cases k with
    | blockWord kind => cases kind <;> decide
    | eventWord kind => cases kind <;> decide
    | quick action => cases action <;> decide
    | _ => decide
  have hword := hnames _ (ofName?_eq_some_iff.1 h)
  rwa [String.toList_ofList] at hword

/-! The keywords that come in families, by all their words at once. -/

theorem exists_blockWord_iff {name : String} :
    (∃ kind, ofName? name = some (.blockWord kind)) ↔
      name ∈ ["deep", "admin", "break", "exercise", "personal"] := by
  constructor
  · rintro ⟨kind, hk⟩
    have hname := ofName?_eq_some_iff.1 hk
    cases kind <;> simp [List.mem_singleton.1 hname]
  · intro h
    simp only [List.mem_cons, List.not_mem_nil, or_false] at h
    rcases h with rfl | rfl | rfl | rfl | rfl
    · exact ⟨.deepWork, rfl⟩
    · exact ⟨.admin, rfl⟩
    · exact ⟨.pause, rfl⟩
    · exact ⟨.exercise, rfl⟩
    · exact ⟨.personal, rfl⟩

theorem exists_eventWord_iff {name : String} :
    (∃ kind, ofName? name = some (.eventWord kind)) ↔
      name ∈ ["meeting", "standup", "call", "review"] := by
  constructor
  · rintro ⟨kind, hk⟩
    have hname := ofName?_eq_some_iff.1 hk
    cases kind <;> simp [List.mem_singleton.1 hname]
  · intro h
    simp only [List.mem_cons, List.not_mem_nil, or_false] at h
    rcases h with rfl | rfl | rfl | rfl
    · exact ⟨.meeting, rfl⟩
    · exact ⟨.standup, rfl⟩
    · exact ⟨.call, rfl⟩
    · exact ⟨.review, rfl⟩

theorem exists_quick_iff {name : String} :
    (∃ action, ofName? name = some (.quick action)) ↔
      name ∈ ["now", "next", "clear", "undo"] := by
  constructor
  · rintro ⟨action, hk⟩
    have hname := ofName?_eq_some_iff.1 hk
    cases action <;> simp [List.mem_singleton.1 hname]
  · intro h
    simp only [List.mem_cons, List.not_mem_nil, or_false] at h
    rcases h with rfl | rfl | rfl | rfl
    · exact ⟨.now, rfl⟩
    · exact ⟨.next, rfl⟩
    · exact ⟨.clear, rfl⟩
    · exact ⟨.undo, rfl⟩

/-- The everyday words are the nine that name a kind of block or of event. -/
theorem exists_everydayWord_iff {name : String} :
    (∃ k, ofName? name = some k ∧ k.isEverydayWord = true) ↔
      name ∈ ["deep", "admin", "break", "exercise", "personal",
        "meeting", "standup", "call", "review"] := by
  show _ ↔ name ∈ ["deep", "admin", "break", "exercise", "personal"] ++
    ["meeting", "standup", "call", "review"]
  rw [List.mem_append, ← exists_blockWord_iff, ← exists_eventWord_iff]
  constructor
  · rintro ⟨k, hk, heveryday⟩
    cases k with
    | blockWord kind => exact Or.inl ⟨kind, hk⟩
    | eventWord kind => exact Or.inr ⟨kind, hk⟩
    | _ => cases heveryday
  · rintro (⟨kind, hk⟩ | ⟨kind, hk⟩)
    · exact ⟨_, hk, rfl⟩
    · exact ⟨_, hk, rfl⟩

section Claims

variable {now : ClockReading} {k : Keyword} {rest : List (List Char)}

/-- A keyword claims its line, and an everyday word only where it stands alone. -/
theorem claims_eq_ok_true_iff :
    k.claims now rest = .ok true ↔ (k.isEverydayWord = true → StandsAlone now rest.head?) := by
  unfold claims
  cases k.isEverydayWord with
  | false => simp
  | true =>
    cases rest with
    | nil => simp [StandsAlone]
    | cons next rest =>
      show (if next.head? = some '@' then .ok true else resolves now next) = .ok true ↔
        (true = true → next.head? = some '@' ∨ Resolves now next)
      by_cases hat : next.head? = some '@'
      · simp [hat]
      · simp [hat, resolves_eq_ok_true_iff]

/-- Only the word behind an everyday word can keep it from claiming its line. -/
theorem claims_eq_iff {r : Except ReadFault Bool} (hr : r ≠ .ok true) :
    k.claims now rest = r ↔ k.isEverydayWord = true ∧
      ∃ next, rest.head? = some next ∧ next.head? ≠ some '@' ∧ resolves now next = r := by
  unfold claims
  cases k.isEverydayWord with
  | false => simp [hr.symm]
  | true =>
    cases rest with
    | nil => simp [hr.symm]
    | cons next rest =>
      show (if next.head? = some '@' then .ok true else resolves now next) = r ↔ _
      by_cases hat : next.head? = some '@'
      · simp [hat, hr.symm]
      · simp [hat]

end Claims

end Keyword

/-! ## The head of a line -/

def Head.left : Head → List (List Char)
  | .block _ rest => rest
  | .event _ rest => rest
  | .routine name => name
  | .task rest => rest
  | .template name => name
  | .quick _ time => time.toList
  | _ => []

/-- A keyword leaves no other words than those behind it. -/
theorem Keyword.left_head_subset (k : Keyword) (after : List Char) (rest : List (List Char)) :
    (k.head after rest).left ⊆ rest := by
  unfold Keyword.head
  cases k with
  | block =>
    cases rest with
    | nil => exact List.nil_subset _
    | cons second more =>
      dsimp only
      split
      · exact List.subset_cons_self _ _
      · exact List.Subset.refl _
  | event =>
    cases rest with
    | nil => exact List.nil_subset _
    | cons second more =>
      dsimp only
      split
      · exact List.subset_cons_self _ _
      · exact List.Subset.refl _
  | quick action =>
    cases action with
    | now => cases rest <;> simp [Head.left]
    | _ => exact List.nil_subset _
  | batch => exact List.nil_subset _
  | assistant => exact List.nil_subset _
  | _ => exact List.Subset.refl _

/-- Only a batch looks at the text behind its keyword; any other head is made of the words. -/
theorem Keyword.head_eq_head {k : Keyword} (hk : k ≠ .batch) (after after' : List Char)
    (rest : List (List Char)) : k.head after rest = k.head after' rest := by
  cases k with
  | batch => exact absurd rfl hk
  | quick action => cases action <;> rfl
  | _ => rfl

/-- A line that a keyword claims is no plain line. -/
theorem Keyword.head_ne_plain (k : Keyword) (after : List Char) (rest : List (List Char))
    (text : List Char) : k.head after rest ≠ .plain text := by
  unfold Keyword.head
  cases k with
  | block =>
    cases rest with
    | nil => nofun
    | cons second more =>
      dsimp only
      split <;> nofun
  | event =>
    cases rest with
    | nil => nofun
    | cons second more =>
      dsimp only
      split <;> nofun
  | quick action => cases action <;> nofun
  | _ => nofun

namespace Head

section Reads

variable (now : ClockReading) (text first : List Char) (rest : List (List Char))

/-- The head of a line that has a first word: what its first two words make of it. -/
inductive Reads : Head → Prop
  | nowFor (hplus : ['n', 'o', 'w', '+'] <+: lower first) (htime : Resolves now (lower first)) :
      Reads (.quick .now (some (lower first)))
  | slash (hslash : (lower first).head? = some '/') :
      Reads (.assistant (slashQuery text first rest))
  | keyword {k : Keyword} (hk : Keyword.ofName? (String.ofList (lower first)) = some k)
      (hclaims : k.isEverydayWord = true → StandsAlone now rest.head?) :
      Reads (k.head (text.drop first.length) rest)
  | plain (hplus : ['n', 'o', 'w', '+'] <+: lower first → ¬ Resolves now (lower first))
      (hslash : (lower first).head? ≠ some '/')
      (hk : ∀ k, Keyword.ofName? (String.ofList (lower first)) = some k →
        k.isEverydayWord = true ∧ ¬ StandsAlone now rest.head?) :
      Reads (.plain text)

end Reads

variable {now : ClockReading} {text first : List Char} {rest : List (List Char)} {head : Head}

theorem isSome_after?_iff {front cs : List Char} :
    (Shape.after? front cs).isSome = true ↔ front <+: cs := by
  rw [Shape.after?, ← List.isPrefixOf_iff_prefix]
  cases front.isPrefixOf cs <;> simp

theorem read_of_keyword {k : Keyword} (hwords : words text = first :: rest)
    (hk : Keyword.ofName? (String.ofList (lower first)) = some k) :
    Head.read now text = (k.claims now rest).map fun c =>
      if c then k.head (text.drop first.length) rest else .plain text := by
  obtain ⟨hplus, hslash⟩ := Keyword.not_prefix_of_ofName? hk
  simp only [Head.read, hwords, isSome_after?_iff, if_neg hplus, if_neg hslash, hk]

/-- The head of a line is what its first two words make of it, in one of four ways. -/
theorem reads_of_read (hwords : words text = first :: rest)
    (h : Head.read now text = .ok head) : Reads now text first rest head := by
  simp only [Head.read, hwords, isSome_after?_iff] at h
  -- A plain line comes out of three branches; in each of them the other two ways are closed.
  split at h
  · rename_i hplus
    obtain ⟨r, hr, rfl⟩ := map_eq_ok_iff.1 h
    cases r with
    | true => exact .nowFor hplus (resolves_eq_ok_true_iff.1 hr)
    | false =>
      refine .plain (fun _ htime => ?_) ?_ fun k hk =>
        absurd hplus (Keyword.not_prefix_of_ofName? hk).1
      · exact htime.not_read_empty (resolves_eq_ok_false_iff.1 hr)
      · obtain ⟨tail, htail⟩ := hplus
        rw [← htail]
        simp
  · rename_i hplus
    split at h
    · rename_i hslash
      cases h
      exact .slash hslash
    · rename_i hslash
      split at h
      · rename_i hk
        cases h
        exact .plain (fun h => absurd h hplus) hslash fun k hk' => by rw [hk] at hk'; cases hk'
      · rename_i k hk
        obtain ⟨c, hc, rfl⟩ := map_eq_ok_iff.1 h
        cases c with
        | true => exact .keyword hk (Keyword.claims_eq_ok_true_iff.1 hc)
        | false =>
          refine .plain (fun h => absurd h hplus) hslash fun k' hk' => ?_
          obtain rfl : k = k' := Option.some.inj (hk.symm.trans hk')
          obtain ⟨heveryday, next, hnext, hat, htime⟩ :=
            (Keyword.claims_eq_iff (by simp)).1 hc
          refine ⟨heveryday, ?_⟩
          rw [hnext]
          rintro (hat' | htime')
          · exact hat hat'
          · exact htime'.not_read_empty (resolves_eq_ok_false_iff.1 htime)

end Head

end Shorthand
