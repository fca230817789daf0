import Shorthand.Proofs.Completion.Event
import Shorthand.Proofs.Completion.HeldRange

/-!
What several rules offer for one line together. The rules make three groups: those that go on
behind the line, those that finish its last word, and those that offer another line in its place. Of
each group one rule at most has something to offer, and `Completion.continuing_or_replacing` says
that the first group and the last never do at once.
-/

namespace Shorthand

open Text

/-! ## What a line begins with -/

namespace Partial

variable {line : List Char} {text : String} {heads others : List String}

theorem prefix_of_isOnly (h : (ofLine line).isOnly text = true) :
    text.toList <+: (ofLine line).lowered := by
  rw [← beq_iff_eq.1 h]
  exact trimEnd_prefix_self _

theorem words_of_isOnly (h : (ofLine line).isOnly text = true) :
    (ofLine line).words = Text.words text.toList := by
  obtain ⟨blanks, hb, hlowered⟩ := exists_trimEnd_append_blanks (ofLine line).lowered
  show Text.words (ofLine line).lowered = _
  rw [hlowered, words_append_blanks hb, beq_iff_eq.1 h]

/-- A line that begins with a text begins with any shorter one that the text begins with. -/
theorem startsWithAny_of_shorter (h : (ofLine line).startsWithAny heads = true)
    (hshorter : ∀ head ∈ heads, ∃ other ∈ others, other.toList <+: head.toList) :
    (ofLine line).startsWithAny others = true := by
  obtain ⟨head, hmem, hhead⟩ := startsWithAny_iff.1 h
  obtain ⟨other, hother, hshort⟩ := hshorter head hmem
  exact startsWithAny_iff.2 ⟨other, hother, hshort.trans hhead⟩

/-- Neither of two texts begins with the other. -/
def Apart (head other : String) : Prop :=
  ¬ head.toList <+: other.toList ∧ ¬ other.toList <+: head.toList

instance (head other : String) : Decidable (Apart head other) :=
  inferInstanceAs (Decidable (_ ∧ _))

/-- A line does not begin with two texts that are apart. -/
theorem not_startsWithAny (h : (ofLine line).startsWithAny heads = true)
    (hapart : ∀ head ∈ heads, ∀ other ∈ others, Apart head other) :
    ¬ (ofLine line).startsWithAny others = true := by
  intro h'
  obtain ⟨head, hmem, hhead⟩ := startsWithAny_iff.1 h
  obtain ⟨other, hmem', hother⟩ := startsWithAny_iff.1 h'
  obtain ⟨hnot, hnot'⟩ := hapart head hmem other hmem'
  exact (List.prefix_or_prefix_of_prefix hhead hother).elim hnot hnot'

theorem startsWithAny_of_isOnly (h : (ofLine line).isOnly text = true) (hmem : text ∈ heads) :
    (ofLine line).startsWithAny heads = true :=
  startsWithAny_iff.2 ⟨text, hmem, prefix_of_isOnly h⟩

end Partial

namespace Completion

variable {line : List Char}

theorem startsWithAny_of_blockKinds (h : blockKinds (Partial.ofLine line) ≠ []) :
    (Partial.ofLine line).startsWithAny ["blk", "block"] = true := by
  rcases Bool.or_eq_true_iff.1 (ite_ne_right_iff.1 h).1 with honly | honly
  · exact Partial.startsWithAny_of_isOnly honly (by decide)
  · exact Partial.startsWithAny_of_isOnly honly (by decide)

theorem startsWithAny_of_blockTimesAndTasks (h : blockTimesAndTasks (Partial.ofLine line) ≠ []) :
    (Partial.ofLine line).startsWithAny ["blk", "block"] = true :=
  Partial.startsWithAny_of_shorter (Bool.and_eq_true_iff.1 (ite_ne_right_iff.1 h).1).1 (by decide)

theorem startsWithAny_of_eventDetails (h : eventDetails (Partial.ofLine line) ≠ []) :
    (Partial.ofLine line).startsWithAny eventFronts = true :=
  (ite_ne_right_iff.1 h).1

theorem startsWithAny_of_routines (h : routines (Partial.ofLine line) ≠ []) :
    (Partial.ofLine line).startsWithAny ["rtn", "routine"] = true :=
  (ite_ne_right_iff.1 h).1

theorem startsWithAny_of_fromNow (h : fromNow (Partial.ofLine line) ≠ []) :
    (Partial.ofLine line).startsWithAny ["now"] = true :=
  (ite_ne_right_iff.1 h).1

theorem startsWithAny_of_assistant (h : assistant (Partial.ofLine line) ≠ []) :
    (Partial.ofLine line).startsWithAny ["/", "ai"] = true := by
  rcases Bool.or_eq_true_iff.1 (ite_ne_right_iff.1 h).1 with honly | hstart
  · exact Partial.startsWithAny_of_isOnly honly (by decide)
  · exact Partial.startsWithAny_of_shorter hstart (by decide)

/-! ## One rule beside another -/

/-- Where two offers need beginnings that are apart, one of them is empty. -/
theorem eq_nil_or_of_apart {cs ds : List Completion} {heads others : List String}
    (hcs : cs ≠ [] → (Partial.ofLine line).startsWithAny heads = true)
    (hds : ds ≠ [] → (Partial.ofLine line).startsWithAny others = true)
    (hapart : ∀ head ∈ heads, ∀ other ∈ others, Partial.Apart head other) : cs = [] ∨ ds = [] := by
  by_contra hboth
  obtain ⟨hne, hne'⟩ := not_or.1 hboth
  exact Partial.not_startsWithAny (hcs hne) hapart (hds hne')

/-- The kinds of block are offered behind the keyword alone, times and tasks behind a kind. -/
theorem blockKinds_or_blockTimesAndTasks (line : List Char) :
    blockKinds (Partial.ofLine line) = [] ∨ blockTimesAndTasks (Partial.ofLine line) = [] := by
  by_contra hboth
  obtain ⟨hkinds, htimes⟩ := not_or.1 hboth
  obtain ⟨name, -, first, second, rest, hline, -⟩ := blockTimesAndTasks_cases htimes
  have hlength := congrArg List.length hline
  -- The keyword alone is one word, and a kind behind it would be the second.
  have hone : ∀ text ∈ ["blk", "block"], (words text.toList).length = 1 := by decide
  rcases Bool.or_eq_true_iff.1 (ite_ne_right_iff.1 hkinds).1 with honly | honly
  all_goals
    rw [← Partial.length_words_ofLine, Partial.words_of_isOnly honly, hone _ (by decide)] at hlength
    exact absurd hlength (by simp)

/-- The last word is not an hour and a task at once. -/
theorem rangeFromHour_or_taskMinutes (line : List Char) :
    rangeFromHour (Partial.ofLine line) = [] ∨ taskMinutes (Partial.ofLine line) = [] := by
  by_contra hboth
  obtain ⟨hrange, htask⟩ := not_or.1 hboth
  obtain ⟨-, last, hour, hends⟩ := endsInHour_of_rangeFromHour hrange
  obtain ⟨order, name, hlast, -⟩ := exists_of_taskMinutes htask
  obtain rfl := Option.some.inj (hends.getLast?.symm.trans hlast)
  -- A hyphen stands behind the number of a task, and an hour is digits only.
  have hhyphen := hends.numeral.isDecimal '-' (List.mem_append_right order List.mem_cons_self)
  exact absurd hhyphen (by decide)

/-! ## The groups -/

def offersOf (group : List (Partial → List Completion)) (p : Partial) : List Completion :=
  group.flatMap fun rule => rule p

def continuing : List (Partial → List Completion) := [blockKinds, blockTimesAndTasks, eventDetails]

def finishing : List (Partial → List Completion) := [rangeFromHour, taskMinutes]

def replacing : List (Partial → List Completion) := [routines, fromNow, assistant]

/-- The rules are those of the three groups, in this order. -/
theorem rules_eq : rules = continuing ++ finishing ++ replacing := rfl

theorem offersOf_rules (p : Partial) :
    offersOf rules p = offersOf continuing p ++ offersOf finishing p ++ offersOf replacing p := by
  rw [rules_eq, offersOf, List.flatMap_append, List.flatMap_append]
  rfl

theorem offersOf_eq_nil_iff {group : List (Partial → List Completion)} {p : Partial} :
    offersOf group p = [] ↔ ∀ rule ∈ group, rule p = [] :=
  List.flatMap_eq_nil_iff

theorem exists_of_offersOf {group : List (Partial → List Completion)} {p : Partial}
    (h : offersOf group p ≠ []) : ∃ rule ∈ group, rule p ≠ [] := by
  by_contra hnone
  push Not at hnone
  exact h (offersOf_eq_nil_iff.2 hnone)

/-- Of any two rules one has nothing to offer. -/
def Exclusive (group : List (Partial → List Completion)) (p : Partial) : Prop :=
  group.Pairwise fun rule other => rule p = [] ∨ other p = []

namespace Exclusive

variable {group : List (Partial → List Completion)} {p : Partial}

/-- A rule that has something to offer is alone with it. -/
theorem offersOf_eq (h : Exclusive group p) {rule : Partial → List Completion}
    (hrule : rule ∈ group) (hne : rule p ≠ []) : offersOf group p = rule p := by
  induction h with
  | nil => cases hrule
  | @cons first group hfirst _ ih =>
    rw [offersOf, List.flatMap_cons]
    rcases List.mem_cons.1 hrule with rfl | hrule
    · -- The first rule leaves nothing to those behind it.
      have hrest := offersOf_eq_nil_iff.2 fun other hother => (hfirst other hother).resolve_left hne
      rw [show group.flatMap _ = [] from hrest, List.append_nil]
    · -- A rule behind the first one leaves nothing to it.
      rw [(hfirst rule hrule).resolve_right hne, List.nil_append]
      exact ih hrule

theorem offersOf_cases (h : Exclusive group p) :
    offersOf group p = [] ∨ ∃ rule ∈ group, offersOf group p = rule p := by
  refine or_iff_not_imp_left.2 fun hne => ?_
  obtain ⟨rule, hrule, hne⟩ := exists_of_offersOf hne
  exact ⟨rule, hrule, h.offersOf_eq hrule hne⟩

theorem of_three {first second third : Partial → List Completion}
    (h : first p = [] ∨ second p = []) (h' : first p = [] ∨ third p = [])
    (h'' : second p = [] ∨ third p = []) : Exclusive [first, second, third] p := by
  simp [Exclusive, h, h', h'']

end Exclusive

/-- At most one rule goes on behind a line. -/
theorem exclusive_continuing (line : List Char) : Exclusive continuing (Partial.ofLine line) :=
  .of_three (blockKinds_or_blockTimesAndTasks line)
    (eq_nil_or_of_apart startsWithAny_of_blockKinds startsWithAny_of_eventDetails (by decide))
    (eq_nil_or_of_apart startsWithAny_of_blockTimesAndTasks startsWithAny_of_eventDetails
      (by decide))

/-- At most one rule finishes the last word of a line. -/
theorem exclusive_finishing (line : List Char) : Exclusive finishing (Partial.ofLine line) :=
  List.pairwise_pair.2 (rangeFromHour_or_taskMinutes line)

/-- At most one rule offers other lines in place of a line. -/
theorem exclusive_replacing (line : List Char) : Exclusive replacing (Partial.ofLine line) :=
  .of_three (eq_nil_or_of_apart startsWithAny_of_routines startsWithAny_of_fromNow (by decide))
    (eq_nil_or_of_apart startsWithAny_of_routines startsWithAny_of_assistant (by decide))
    (eq_nil_or_of_apart startsWithAny_of_fromNow startsWithAny_of_assistant (by decide))

theorem startsWithAny_of_continuing (h : offersOf continuing (Partial.ofLine line) ≠ []) :
    (Partial.ofLine line).startsWithAny ["blk", "block", "ev", "meet", "call"] = true := by
  obtain ⟨rule, hrule, hne⟩ := exists_of_offersOf h
  simp only [continuing, List.mem_cons, List.not_mem_nil, or_false] at hrule
  rcases hrule with rfl | rfl | rfl
  · exact Partial.startsWithAny_of_shorter (startsWithAny_of_blockKinds hne) (by decide)
  · exact Partial.startsWithAny_of_shorter (startsWithAny_of_blockTimesAndTasks hne) (by decide)
  · exact Partial.startsWithAny_of_shorter (startsWithAny_of_eventDetails hne) (by decide)

theorem startsWithAny_of_replacing (h : offersOf replacing (Partial.ofLine line) ≠ []) :
    (Partial.ofLine line).startsWithAny ["rtn", "routine", "now", "/", "ai"] = true := by
  obtain ⟨rule, hrule, hne⟩ := exists_of_offersOf h
  simp only [replacing, List.mem_cons, List.not_mem_nil, or_false] at hrule
  rcases hrule with rfl | rfl | rfl
  · exact Partial.startsWithAny_of_shorter (startsWithAny_of_routines hne) (by decide)
  · exact Partial.startsWithAny_of_shorter (startsWithAny_of_fromNow hne) (by decide)
  · exact Partial.startsWithAny_of_shorter (startsWithAny_of_assistant hne) (by decide)

/-- A line that is gone on with is not given up for another one. -/
theorem continuing_or_replacing (line : List Char) :
    offersOf continuing (Partial.ofLine line) = [] ∨
      offersOf replacing (Partial.ofLine line) = [] :=
  eq_nil_or_of_apart startsWithAny_of_continuing startsWithAny_of_replacing (by decide)

/-! ## The first of them -/

def offered (line : String) : List Completion :=
  if (trim line.toList).length ≤ 1 then starters
  else offersOf rules (Partial.ofLine line.toList)

theorem offer_eq_take (limit : Nat) (line : String) :
    offer limit line = (offered line).take (effectiveLimit limit) := rfl

end Completion

end Shorthand
