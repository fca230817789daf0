import Shorthand.Proofs.Completion.Together
import Shorthand.Proofs.Number.Order

/-!
How sure the completions of a line are, in the order in which they are offered. Each rule ranks its
own completions, but the rules have an order of their own: `Completion.ranked_offer_iff` says which
lines are offered a completion in front of a surer one.
-/

namespace Shorthand

open Text

namespace Completion

/-- No completion stands in front of one that is surer. -/
def Ranked (cs : List Completion) : Prop :=
  cs.Pairwise fun c d => d.confidence ≤ c.confidence

instance : DecidablePred Ranked := fun cs => inferInstanceAs (Decidable (cs.Pairwise _))

/-! ## Percentages -/

/-- The completions are as sure as these percentages, in this order. -/
def Shown (percents : List Nat) (cs : List Completion) : Prop :=
  cs.map (·.confidence) = percents.map Confidence.ofPercent

section Shown

variable {ps qs : List Nat} {cs ds : List Completion}

@[simp] theorem shown_nil : Shown [] [] := rfl

@[simp] theorem shown_cons {n : Nat} {c : Completion} :
    Shown (n :: ps) (c :: cs) ↔ c.confidence = .ofPercent n ∧ Shown ps cs := by
  simp [Shown]

theorem Shown.append (h : Shown ps cs) (h' : Shown qs ds) : Shown (ps ++ qs) (cs ++ ds) := by
  rw [Shown, List.map_append, List.map_append, h, h']

theorem Shown.take (h : Shown ps cs) (n : Nat) : Shown (ps.take n) (cs.take n) := by
  rw [Shown, List.map_take, List.map_take, h]

theorem Shown.eq_nil_iff (h : Shown ps cs) : ps = [] ↔ cs = [] := by
  rw [← List.map_eq_nil_iff (f := Confidence.ofPercent), ← h, List.map_eq_nil_iff]

/-- Completions are ranked where their percentages do not grow. -/
theorem Shown.ranked_iff (h : Shown ps cs) (hps : ∀ n ∈ ps, n ≤ 100) :
    Ranked cs ↔ ps.Pairwise (· ≥ ·) := by
  have hconfidence : Ranked cs ↔ (cs.map (·.confidence)).Pairwise fun x y => y ≤ x :=
    (List.pairwise_map (R := fun x y : Confidence => y ≤ x)).symm
  rw [hconfidence, h, List.pairwise_map]
  exact List.Pairwise.iff_of_mem fun hm hn => Confidence.ofPercent_le_iff (hps _ hn) (hps _ hm)

end Shown

variable {p : Partial}

/-- The line is about an event, and one more person is offered for it. -/
def AsksForPeople (p : Partial) : Prop :=
  eventDetails p ≠ [] ∧ ∃ w ∈ p.words, (EventKind.ofWord? w).isSome = true

theorem AsksForPeople.eventDetails_eq (h : AsksForPeople p) : 2 ≤ p.words.length ∧
    eventDetails p =
      [{ text := p.followedBy " @name", description := "Invite attendees with @name"
         confidence := .ofPercent 85, shownIn := some "evt meeting 2-3 @alex @sam" }] := by
  obtain ⟨hne, hkind⟩ := h
  rw [← List.any_eq_true] at hkind
  rw [eventDetails, if_pos hkind] at hne
  obtain ⟨hstart, hinner⟩ := ite_ne_right_iff.1 hne
  have hlength := (ite_ne_right_iff.1 hinner).1
  refine ⟨hlength, ?_⟩
  rw [eventDetails, if_pos hstart, if_pos hkind, if_pos hlength]

theorem AsksForPeople.shown (h : AsksForPeople p) : Shown [85] (eventDetails p) := by
  rw [h.eventDetails_eq.2]
  simp

def continuedPercents : List (List Nat) := [[], [100, 95, 90], [90], [85]]

def finishedPercents : List (List Nat) := [[], [90, 85], [85]]

def replacedPercents : List (List Nat) := [[], [95, 90], [90]]

def percents : List (List Nat) := continuedPercents ++ finishedPercents ++ replacedPercents

theorem bounds_of_mem_percents : ∀ ps ∈ percents, ∀ n ∈ ps, 85 ≤ n ∧ n ≤ 100 := by
  decide

theorem pairwise_of_mem_percents : ∀ ps ∈ percents, ps.Pairwise (· ≥ ·) := by
  decide

variable {rule : Partial → List Completion}

theorem shown_of_continuing (h : rule ∈ continuing) (p : Partial) :
    ∃ ps ∈ continuedPercents, Shown ps (rule p) ∧ (ps = [85] → AsksForPeople p) := by
  simp only [continuing, List.mem_cons, List.not_mem_nil, or_false] at h
  rcases h with rfl | rfl | rfl
  · unfold blockKinds
    split
    · exact ⟨[100, 95, 90], by decide, by simp, by simp⟩
    · exact ⟨[], by decide, shown_nil, by simp⟩
  · unfold blockTimesAndTasks
    split
    · split
      · exact ⟨[], by decide, shown_nil, by simp⟩
      · exact ⟨[], by decide, shown_nil, by simp⟩
      · exact ⟨[100, 95, 90], by decide, by simp, by simp⟩
      · exact ⟨[90], by decide, by simp, by simp⟩
    · exact ⟨[], by decide, shown_nil, by simp⟩
  · by_cases hasks : AsksForPeople p
    · exact ⟨[85], by decide, hasks.shown, fun _ => hasks⟩
    · by_cases hne : eventDetails p = []
      · exact ⟨[], by decide, hne ▸ shown_nil, by simp⟩
      · have hkind : ¬ (p.words.any fun w => (EventKind.ofWord? w).isSome) = true := by
          rw [List.any_eq_true]
          exact fun hkind => hasks ⟨hne, hkind⟩
        refine ⟨[90], by decide, ?_, by simp⟩
        rw [eventDetails, if_pos (ite_ne_right_iff.1 hne).1, if_neg hkind]
        simp

theorem shown_of_replacing (h : rule ∈ replacing) (p : Partial) :
    ∃ ps ∈ replacedPercents, Shown ps (rule p) := by
  simp only [replacing, List.mem_cons, List.not_mem_nil, or_false] at h
  rcases h with rfl | rfl | rfl
  · unfold routines
    split
    · exact ⟨[95, 90], by decide, by simp⟩
    · exact ⟨[], by decide, shown_nil⟩
  · unfold fromNow
    split
    · exact ⟨[95, 90], by decide, by simp⟩
    · exact ⟨[], by decide, shown_nil⟩
  · unfold assistant
    split
    · exact ⟨[90], by decide, by simp⟩
    · exact ⟨[], by decide, shown_nil⟩

variable {line : List Char}

theorem shown_rangeFromHour (h : rangeFromHour (Partial.ofLine line) ≠ []) :
    Shown [90, 85] (rangeFromHour (Partial.ofLine line)) := by
  obtain ⟨last, before, hour, -, hoffer, -⟩ := exists_of_rangeFromHour h
  rw [hoffer]
  simp [hourFrom]

theorem shown_taskMinutes (h : taskMinutes (Partial.ofLine line) ≠ []) :
    Shown [85] (taskMinutes (Partial.ofLine line)) := by
  obtain ⟨order, name, -, -, -, hoffer⟩ := exists_of_taskMinutes h
  rw [hoffer]
  simp

theorem shown_of_finishing (h : rule ∈ finishing) (line : List Char) :
    ∃ ps ∈ finishedPercents, Shown ps (rule (Partial.ofLine line)) := by
  by_cases hne : rule (Partial.ofLine line) = []
  · exact ⟨[], by decide, hne ▸ shown_nil⟩
  simp only [finishing, List.mem_cons, List.not_mem_nil, or_false] at h
  rcases h with rfl | rfl
  · exact ⟨[90, 85], by decide, shown_rangeFromHour hne⟩
  · exact ⟨[85], by decide, shown_taskMinutes hne⟩

/-- Every rule shows one of a few rows of percentages. -/
theorem shown_of_rule (h : rule ∈ rules) (line : List Char) :
    ∃ ps ∈ percents, Shown ps (rule (Partial.ofLine line)) := by
  rw [rules_eq, List.mem_append, List.mem_append] at h
  rcases h with (h | h) | h
  · obtain ⟨ps, hps, hshown, -⟩ := shown_of_continuing h (Partial.ofLine line)
    exact ⟨ps, List.mem_append_left _ (List.mem_append_left _ hps), hshown⟩
  · obtain ⟨ps, hps, hshown⟩ := shown_of_finishing h line
    exact ⟨ps, List.mem_append_left _ (List.mem_append_right _ hps), hshown⟩
  · obtain ⟨ps, hps, hshown⟩ := shown_of_replacing h (Partial.ofLine line)
    exact ⟨ps, List.mem_append_right _ hps, hshown⟩

/-- Each rule ranks what it offers. -/
theorem ranked_rule (h : rule ∈ rules) (line : List Char) :
    Ranked (rule (Partial.ofLine line)) := by
  obtain ⟨ps, hps, hshown⟩ := shown_of_rule h line
  exact (hshown.ranked_iff fun n hn => (bounds_of_mem_percents ps hps n hn).2).2
    (pairwise_of_mem_percents ps hps)

/-! ## The groups beside each other -/

/-- Of what goes on behind the line, only the person of an event is shown with the least percentage.
-/
theorem shown_continuing (line : List Char) : ∃ ps ∈ continuedPercents,
    Shown ps (offersOf continuing (Partial.ofLine line)) ∧
      (ps = [85] ↔ AsksForPeople (Partial.ofLine line)) := by
  by_cases hasks : AsksForPeople (Partial.ofLine line)
  · refine ⟨[85], by decide, ?_, fun _ => hasks, fun _ => rfl⟩
    rw [(exclusive_continuing line).offersOf_eq (by simp [continuing]) hasks.1]
    exact hasks.shown
  · rcases (exclusive_continuing line).offersOf_cases with hnil | ⟨rule, hrule, heq⟩
    · exact ⟨[], by decide, hnil ▸ shown_nil, by simp [hasks]⟩
    · obtain ⟨ps, hps, hshown, hpeople⟩ := shown_of_continuing hrule (Partial.ofLine line)
      exact ⟨ps, hps, heq ▸ hshown, hpeople, fun h => absurd h hasks⟩

theorem shown_finishing (line : List Char) : ∃ ps ∈ finishedPercents,
    Shown ps (offersOf finishing (Partial.ofLine line)) ∧
      (ps = [90, 85] ↔ rangeFromHour (Partial.ofLine line) ≠ []) ∧
      (ps = [85] ↔ taskMinutes (Partial.ofLine line) ≠ []) := by
  by_cases hrange : rangeFromHour (Partial.ofLine line) = []
  · rw [show offersOf finishing (Partial.ofLine line) = taskMinutes (Partial.ofLine line) by
      simp [offersOf, finishing, hrange]]
    by_cases htask : taskMinutes (Partial.ofLine line) = []
    · exact ⟨[], by decide, htask ▸ shown_nil, by simp [hrange], by simp [htask]⟩
    · exact ⟨[85], by decide, shown_taskMinutes htask, by simp [hrange], by simp [htask]⟩
  · have htask := (rangeFromHour_or_taskMinutes line).resolve_left hrange
    rw [(exclusive_finishing line).offersOf_eq (by simp [finishing]) hrange]
    exact ⟨[90, 85], by decide, shown_rangeFromHour hrange, by simp [hrange], by simp [htask]⟩

theorem shown_replacing (line : List Char) : ∃ ps ∈ replacedPercents,
    Shown ps (offersOf replacing (Partial.ofLine line)) := by
  rcases (exclusive_replacing line).offersOf_cases with hnil | ⟨rule, hrule, heq⟩
  · exact ⟨[], by decide, hnil ▸ shown_nil⟩
  · exact heq ▸ shown_of_replacing hrule (Partial.ofLine line)

/-- Among the first few completions one stands in front of a surer one: people are asked for in
front of an hour, or a task or an hour is finished in front of another line. -/
def OutOfRank (limit : Nat) (p : Partial) : Prop :=
  2 ≤ limit ∧ (AsksForPeople p ∧ rangeFromHour p ≠ [] ∨
    taskMinutes p ≠ [] ∧ offersOf replacing p ≠ []) ∨
  3 ≤ limit ∧ rangeFromHour p ≠ [] ∧ offersOf replacing p ≠ []

/-- Three rows of percentages one after another are in order exactly where nothing surer follows. -/
theorem pairwise_take_percents_iff : ∀ c ∈ continuedPercents, ∀ f ∈ finishedPercents,
    ∀ r ∈ replacedPercents, c = [] ∨ r = [] → ∀ k ∈ List.range 4,
      (((c ++ f ++ r).take k).Pairwise (· ≥ ·) ↔
        ¬ (2 ≤ k ∧ (c = [85] ∧ f = [90, 85] ∨ f = [85] ∧ r ≠ []) ∨
          3 ≤ k ∧ f = [90, 85] ∧ r ≠ [])) := by
  decide

/-- What is shown of a line is ranked exactly if it is not out of rank. -/
theorem ranked_take_iff (limit : Nat) (line : List Char) :
    Ranked ((offersOf rules (Partial.ofLine line)).take (effectiveLimit limit)) ↔
      ¬ OutOfRank limit (Partial.ofLine line) := by
  obtain ⟨c, hc, hcontinued, hpeople⟩ := shown_continuing line
  obtain ⟨f, hf, hfinished, hrange, htask⟩ := shown_finishing line
  obtain ⟨r, hr, hreplaced⟩ := shown_replacing line
  have hboth : c = [] ∨ r = [] := by
    rw [hcontinued.eq_nil_iff, hreplaced.eq_nil_iff]
    exact continuing_or_replacing line
  have hbound : ∀ n ∈ c ++ f ++ r, n ≤ 100 := by
    have hpercents : ∀ ps ∈ percents, ∀ n ∈ ps, n ≤ 100 := fun ps hps n hn =>
      (bounds_of_mem_percents ps hps n hn).2
    rw [List.forall_mem_append, List.forall_mem_append]
    exact ⟨⟨hpercents c (List.mem_append_left _ (List.mem_append_left _ hc)),
      hpercents f (List.mem_append_left _ (List.mem_append_right _ hf))⟩,
      hpercents r (List.mem_append_right _ hr)⟩
  have hlimit : effectiveLimit limit ∈ List.range 4 :=
    List.mem_range.2 (Nat.lt_succ_of_le (Nat.min_le_right limit mostOffered))
  have hother : r ≠ [] ↔ offersOf replacing (Partial.ofLine line) ≠ [] :=
    not_congr hreplaced.eq_nil_iff
  have htwo : 2 ≤ effectiveLimit limit ↔ 2 ≤ limit := by
    rw [effectiveLimit, mostOffered]
    omega
  have hthree : 3 ≤ effectiveLimit limit ↔ 3 ≤ limit := by
    rw [effectiveLimit, mostOffered]
    omega
  -- What is left is a limit of at most three and one row of each table.
  have hshown := ((hcontinued.append hfinished).append hreplaced).take (effectiveLimit limit)
  rw [offersOf_rules, hshown.ranked_iff fun n hn => hbound n (List.mem_of_mem_take hn),
    pairwise_take_percents_iff c hc f hf r hr hboth _ hlimit, OutOfRank, hpeople, hrange, htask,
    hother, htwo, hthree]

/-! ## Lines of one character -/

theorem AsksForPeople.two_le (h : AsksForPeople (Partial.ofLine line)) :
    2 ≤ (words line).length := by
  have hlength := h.eventDetails_eq.1
  rwa [Partial.length_words_ofLine] at hlength

/-- What is finished at the end of a line begins with a digit. -/
theorem exists_digit_of_finishing (h : offersOf finishing (Partial.ofLine line) ≠ []) :
    ∃ d back, (words line).getLast? = some (d :: back) ∧ isDecimal d = true := by
  obtain ⟨rule, hrule, hne⟩ := exists_of_offersOf h
  simp only [finishing, List.mem_cons, List.not_mem_nil, or_false] at hrule
  rcases hrule with rfl | rfl
  · obtain ⟨-, last, hour, hends⟩ := endsInHour_of_rangeFromHour hne
    obtain ⟨d, back, rfl⟩ := List.exists_cons_of_ne_nil hends.numeral.ne_nil
    exact ⟨d, back, hends.getLast?, hends.numeral.isDecimal d List.mem_cons_self⟩
  · obtain ⟨order, name, hlast, horder, -⟩ := exists_of_taskMinutes hne
    obtain ⟨hdigits, hdecimal⟩ := Task.isDigits_iff.1 horder
    obtain ⟨d, back, rfl⟩ := List.exists_cons_of_ne_nil hdigits
    exact ⟨d, _, hlast, hdecimal d List.mem_cons_self⟩

/-- A line with another one in its place begins with a letter or a slash, and one whose last word is
finished has a word that does not. -/
theorem two_le_of_finishing_replacing (h : offersOf finishing (Partial.ofLine line) ≠ [])
    (h' : offersOf replacing (Partial.ofLine line) ≠ []) : 2 ≤ (words line).length := by
  have hfronts : ∀ front ∈ ["rtn", "routine", "now", "/", "ai"], front.toList ≠ [] ∧
      front.toList.all (fun c => !isBlank c && !isDecimal c) = true := by decide
  obtain ⟨front, hfront, hprefix⟩ := Partial.startsWithAny_iff.1 (startsWithAny_of_replacing h')
  obtain ⟨hne, hall⟩ := hfronts front hfront
  have hclear : ∀ c ∈ front.toList, isBlank c = false ∧ isDecimal c = false := by
    simpa using hall
  obtain ⟨first, rest, hwords, hfirst⟩ :=
    Partial.exists_first_of_front hne (fun c hc => (hclear c hc).1) hprefix
  obtain ⟨d, back, hlast, hd⟩ := exists_digit_of_finishing h
  rw [hwords] at hlast ⊢
  cases rest with
  | nil =>
    -- A line of one word would begin with the digit.
    obtain rfl : first = d :: back := Option.some.inj hlast
    obtain ⟨c, cs, hcs⟩ := List.exists_cons_of_ne_nil hne
    have hfirst : c :: cs <+: d :: lower back := by
      rwa [hcs, lower, List.flatMap_cons, lowerChar_of_isDecimal hd] at hfirst
    obtain ⟨rfl, -⟩ := List.cons_prefix_cons.1 hfirst
    have hc := (hclear c (hcs ▸ List.mem_cons_self)).2
    rw [hd] at hc
    cases hc
  | cons second rest => simp

theorem OutOfRank.two_le {limit : Nat} (h : OutOfRank limit (Partial.ofLine line)) :
    2 ≤ (words line).length := by
  have hfinishing : ∀ {rule}, rule ∈ finishing → rule (Partial.ofLine line) ≠ [] →
      offersOf finishing (Partial.ofLine line) ≠ [] := by
    intro rule hrule hne
    rw [(exclusive_finishing line).offersOf_eq hrule hne]
    exact hne
  rcases h with ⟨-, ⟨hasks, -⟩ | ⟨htask, hother⟩⟩ | ⟨-, hrange, hother⟩
  · exact hasks.two_le
  · exact two_le_of_finishing_replacing (hfinishing (by simp [finishing]) htask) hother
  · exact two_le_of_finishing_replacing (hfinishing (by simp [finishing]) hrange) hother

/-- The completions of each rule are ranked. Those of a line are not where one more person is
offered in front of an hour, or a task or an hour is finished in front of another line, and the limit
lets both be seen; for every other line and limit they are. -/
theorem ranked_offer_iff (limit : Nat) (line : String) :
    (∀ rule ∈ rules, Ranked (rule (Partial.ofLine line.toList))) ∧
      (Ranked (offer limit line) ↔ ¬ OutOfRank limit (Partial.ofLine line.toList)) := by
  refine ⟨fun rule hrule => ranked_rule hrule line.toList, ?_⟩
  rw [offer_eq_take, offered]
  by_cases hshort : (trim line.toList).length ≤ 1
  · -- The starters are shown, and no two rules meet on a line of one word.
    have hnot : ¬ OutOfRank limit (Partial.ofLine line.toList) := by
      intro h
      have hwords := h.two_le
      have hone := length_words_le_one hshort
      omega
    have hstarters : Ranked starters := by decide +kernel
    rw [if_pos hshort]
    exact iff_of_true (hstarters.sublist (List.take_sublist _ _)) hnot
  · rw [if_neg hshort]
    exact ranked_take_iff limit line.toList

theorem ranked_offer_meeting :
    ¬ OutOfRank 1 (Partial.ofLine "evt meeting 9".toList) ∧ Ranked (offer 1 "evt meeting 9") := by
  have hnot : ¬ OutOfRank 1 (Partial.ofLine "evt meeting 9".toList) := by
    rintro (⟨hlimit, -⟩ | ⟨hlimit, -⟩) <;> omega
  exact ⟨hnot, (ranked_offer_iff 1 "evt meeting 9").2.2 hnot⟩

/-- A person is offered in front of an hour, which is the surer completion. -/
theorem not_ranked_offer_meeting :
    (offer 3 "evt meeting 9").map (fun c => (c.text, c.confidence)) =
      [("evt meeting 9 @name", .ofPercent 85), ("evt meeting 9-10", .ofPercent 90),
        ("evt meeting 9:30-10:30", .ofPercent 85)] ∧
    ¬ Ranked (offer 3 "evt meeting 9") := by
  decide +kernel

end Completion

end Shorthand
