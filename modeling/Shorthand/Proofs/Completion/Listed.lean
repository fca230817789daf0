import Mathlib.Data.List.Nodup
import Shorthand.Proofs.Completion.Ranked

/-!
The completions of a line as a list. `Completion.presentable_offer` says that they are few, that no
two of them are the same text, and that a larger limit shows more of them behind the ones already
shown. Texts of different groups differ in their number of words or in whether they end in a digit.
-/

namespace Shorthand

open Text

/-- Different texts behind a line make different lines. -/
theorem Partial.followedBy_injective (p : Partial) : Function.Injective p.followedBy := by
  intro more more' h
  exact String.toList_inj.1 (List.append_cancel_left (String.ofList_inj.1 h))

theorem SwapsLast.length_words {line old new text : List Char} (h : SwapsLast line old new text) :
    (words text).length = (words line).length := by
  obtain ⟨before, ws, ⟨-, hline⟩, -, htext⟩ := h
  rw [hline, htext, List.length_append, List.length_append]
  rfl

def endsInDigit (text : String) : Bool := text.toList.getLast?.any isDecimal

namespace Slot

variable {minute : String} {m : Fin 60}

/-- The range of an hour is a text with a digit at its end. -/
theorem exists_hourRange_eq (h : (minute, m) ∈ offeredMinutes) (hour : Nat) :
    ∃ front d, hourRange hour minute = front ++ [d] ∧ isDecimal d = true := by
  have hne : digits ((hour + 1) % 24) ≠ [] := (Task.Spelling.isNumeral_digits _).ne_nil
  simp only [offeredMinutes, List.mem_cons, List.not_mem_nil, or_false, Prod.mk.injEq] at h
  rcases h with ⟨rfl, -⟩ | ⟨rfl, -⟩
  · refine ⟨digits hour ++ '-' :: (digits ((hour + 1) % 24)).dropLast, _, ?_,
      (Task.Spelling.isNumeral_digits _).isDecimal _ (List.getLast_mem hne)⟩
    simp [hourRange, List.dropLast_append_getLast hne]
  · exact ⟨digits hour ++ ":30-".toList ++ digits ((hour + 1) % 24) ++ ":3".toList, '0',
      by simp [hourRange], by decide⟩

/-- Ranges from the full hour and from half past are two texts. -/
theorem hourRange_ne (hour : Nat) : hourRange hour "" ≠ hourRange hour ":30" := by
  intro h
  simp [hourRange] at h

end Slot

namespace Completion

variable {line : List Char} {rule : Partial → List Completion} {c : Completion}

/-! ## The texts of one rule -/

/-- No rule offers a text twice. -/
theorem nodup_of_rule (h : rule ∈ rules) (line : List Char) :
    ((rule (Partial.ofLine line)).map (·.text)).Nodup := by
  have hbehind : ∀ {more : List String}, more.Nodup →
      (more.map (Partial.ofLine line).followedBy).Nodup :=
    fun hmore => hmore.map (Partial.followedBy_injective _)
  -- A rule that offers nothing is set aside, so that each of the others shows all it can offer.
  by_cases hne : rule (Partial.ofLine line) = []
  · rw [hne]
    exact List.nodup_nil
  simp only [rules, List.mem_cons, List.not_mem_nil, or_false] at h
  rcases h with rfl | rfl | rfl | rfl | rfl | rfl | rfl | rfl
  · have hkinds : [" deep", " admin", " break"].Nodup := by decide
    rw [blockKinds, if_pos (ite_ne_right_iff.1 hne).1]
    exact hbehind hkinds
  · obtain ⟨-, -, -, -, -, -, -, ⟨-, -, htexts⟩ | ⟨-, htexts⟩⟩ := blockTimesAndTasks_cases hne
    · rw [htexts]
      exact hbehind (by decide)
    · rw [htexts]
      exact List.nodup_singleton _
  · unfold eventDetails
    split
    · split
      · split
        · exact List.nodup_singleton _
        · exact List.nodup_nil
      · exact List.nodup_singleton _
    · exact List.nodup_nil
  · obtain ⟨last, before, hour, -, hoffer, -⟩ := exists_of_rangeFromHour hne
    rw [hoffer]
    refine List.pairwise_pair.2 fun htext => Slot.hourRange_ne hour ?_
    have htoList := congrArg String.toList htext
    rw [toList_hourFrom, toList_hourFrom] at htoList
    exact List.append_cancel_left htoList
  · obtain ⟨order, name, -, -, -, hoffer⟩ := exists_of_taskMinutes hne
    rw [hoffer]
    exact List.nodup_singleton _
  · rw [routines, if_pos (ite_ne_right_iff.1 hne).1]
    simp only [List.map_cons, List.map_nil]
    decide
  · rw [fromNow, if_pos (ite_ne_right_iff.1 hne).1]
    simp only [List.map_cons, List.map_nil]
    decide
  · rw [assistant, if_pos (ite_ne_right_iff.1 hne).1]
    exact List.nodup_singleton _

/-! ## The texts of the groups -/

theorem lt_length_words_followedBy {more : String} (hblank : more.toList.head?.all isBlank = true)
    (hmore : 0 < (words more.toList).length) (line : List Char) :
    (words line).length < (words ((Partial.ofLine line).followedBy more).toList).length := by
  rw [Partial.words_followedBy hblank, List.length_append]
  omega

/-- A line that is gone on with has more words than before. -/
theorem lt_length_words_of_continuing (h : c ∈ offersOf continuing (Partial.ofLine line)) :
    (words line).length < (words c.text.toList).length := by
  obtain ⟨rule, hrule, h⟩ := List.mem_flatMap.1 h
  simp only [continuing, List.mem_cons, List.not_mem_nil, or_false] at hrule
  rcases hrule with rfl | rfl | rfl
  · have hkinds := (ite_ne_right_iff.1 (List.ne_nil_of_mem h)).1
    rw [blockKinds, if_pos hkinds] at h
    simp only [List.mem_cons, List.not_mem_nil, or_false] at h
    rcases h with rfl | rfl | rfl <;> exact lt_length_words_followedBy (by decide) (by decide) line
  · have htext : c.text ∈ (blockTimesAndTasks (Partial.ofLine line)).map (·.text) :=
      List.mem_map_of_mem h
    obtain ⟨-, -, -, -, -, -, -, ⟨-, -, htexts⟩ | ⟨-, htexts⟩⟩ :=
      blockTimesAndTasks_cases (List.ne_nil_of_mem h)
    · rw [htexts] at htext
      simp only [List.map_cons, List.map_nil, List.mem_cons, List.not_mem_nil, or_false] at htext
      rcases htext with htext | htext | htext <;>
        exact htext ▸ lt_length_words_followedBy (by decide) (by decide) line
    · rw [htexts, List.mem_singleton] at htext
      exact htext ▸ lt_length_words_followedBy (by decide) (by decide) line
  · obtain ⟨-, -, first, rest, hwords, -, ⟨-, htext⟩ | ⟨-, htext⟩⟩ := mem_eventDetails h
    · rcases eventBase_cases hwords with ⟨hbase, -⟩ | ⟨hbase, rfl⟩
      · have htext' : c.text = (Partial.ofLine line).followedBy " meeting 2-3" := by
          rw [htext, hbase]
          rfl
        exact htext' ▸ lt_length_words_followedBy (by decide) (by decide) line
      · -- The keyword takes the place of the only word.
        rw [hwords, List.length_singleton,
          show c.text = "evt meeting 2-3" by rw [htext, hbase]; rfl]
        decide
    · exact htext ▸ lt_length_words_followedBy (by decide) (by decide) line

/-- A line whose last word is finished has as many words as before, and ends in a digit. -/
theorem text_of_finishing (h : c ∈ offersOf finishing (Partial.ofLine line)) :
    (words c.text.toList).length = (words line).length ∧ endsInDigit c.text = true := by
  obtain ⟨rule, hrule, h⟩ := List.mem_flatMap.1 h
  simp only [finishing, List.mem_cons, List.not_mem_nil, or_false] at hrule
  rcases hrule with rfl | rfl
  · obtain ⟨last, before, hour, -, hoffer, hswap⟩ :=
      exists_of_rangeFromHour (List.ne_nil_of_mem h)
    obtain ⟨offer, hmem, htext⟩ : ∃ offer ∈ Slot.offeredMinutes,
        c.text.toList = before ++ Slot.hourRange hour offer.1 := by
      rw [hoffer] at h
      simp only [List.mem_cons, List.not_mem_nil, or_false] at h
      rcases h with rfl | rfl
      · exact ⟨_, List.mem_cons_self, toList_hourFrom ..⟩
      · exact ⟨_, List.mem_cons_of_mem _ List.mem_cons_self, toList_hourFrom ..⟩
    -- A range that is offered ends in a digit of its last time.
    obtain ⟨front, d, hnew, hd⟩ := Slot.exists_hourRange_eq hmem hour
    refine ⟨htext ▸ (hswap offer hmem).length_words, ?_⟩
    rw [endsInDigit, htext, hnew, ← List.append_assoc, List.getLast?_concat]
    exact hd
  · obtain ⟨order, name, t, -, hswap, -⟩ := read_taskMinutes h
    obtain ⟨-, -, -, -, -, hoffer⟩ := exists_of_taskMinutes (List.ne_nil_of_mem h)
    rw [hoffer] at h
    obtain rfl := List.mem_singleton.1 h
    refine ⟨hswap.length_words, ?_⟩
    rw [endsInDigit, Partial.followedBy, String.toList_ofList,
      List.getLast?_append_of_ne_nil _ (by decide)]
    decide

def replacements : List String :=
  ["rtn", "rtn morning", "now+1h", "now+30m", "ai plan my afternoon"]

/-- The lines that are offered in place of a line are a few fixed ones. -/
theorem mem_replacements {p : Partial} (h : c ∈ offersOf replacing p) : c.text ∈ replacements := by
  obtain ⟨rule, hrule, h⟩ := List.mem_flatMap.1 h
  simp only [replacing, List.mem_cons, List.not_mem_nil, or_false] at hrule
  rcases hrule with rfl | rfl | rfl
  · rw [routines, if_pos (ite_ne_right_iff.1 (List.ne_nil_of_mem h)).1] at h
    simp only [List.mem_cons, List.not_mem_nil, or_false] at h
    rcases h with rfl | rfl <;> decide
  · rw [fromNow, if_pos (ite_ne_right_iff.1 (List.ne_nil_of_mem h)).1] at h
    simp only [List.mem_cons, List.not_mem_nil, or_false] at h
    rcases h with rfl | rfl <;> decide
  · rw [assistant, if_pos (ite_ne_right_iff.1 (List.ne_nil_of_mem h)).1] at h
    obtain rfl := List.mem_singleton.1 h
    decide

theorem replacements_clear : ∀ text ∈ replacements, text ≠ "" ∧ endsInDigit text = false := by
  decide

theorem nodup_of_exclusive {group : List (Partial → List Completion)}
    (h : Exclusive group (Partial.ofLine line)) (hgroup : group ⊆ rules) :
    ((offersOf group (Partial.ofLine line)).map (·.text)).Nodup := by
  rcases h.offersOf_cases with hnil | ⟨rule, hrule, heq⟩
  · rw [hnil]
    exact List.nodup_nil
  · rw [heq]
    exact nodup_of_rule (hgroup hrule) line

/-- No two completions of a line have the same text. -/
theorem nodup_offersOf_rules (line : List Char) :
    ((offersOf rules (Partial.ofLine line)).map (·.text)).Nodup := by
  have hwords : ∀ text ∈ (offersOf continuing (Partial.ofLine line)).map (·.text),
      text ∉ (offersOf finishing (Partial.ofLine line)).map (·.text) := by
    intro text hmem hmem'
    obtain ⟨c, hc, rfl⟩ := List.mem_map.1 hmem
    obtain ⟨d, hd, heq⟩ := List.mem_map.1 hmem'
    have hmore := lt_length_words_of_continuing hc
    rw [← heq, (text_of_finishing hd).1] at hmore
    exact lt_irrefl _ hmore
  have hdigit : ∀ text ∈ (offersOf finishing (Partial.ofLine line)).map (·.text),
      text ∉ (offersOf replacing (Partial.ofLine line)).map (·.text) := by
    intro text hmem hmem'
    obtain ⟨c, hc, rfl⟩ := List.mem_map.1 hmem
    obtain ⟨d, hd, heq⟩ := List.mem_map.1 hmem'
    have hnot := (replacements_clear _ (mem_replacements hd)).2
    rw [heq, (text_of_finishing hc).2] at hnot
    cases hnot
  have hfinishing := nodup_of_exclusive (exclusive_finishing line) fun rule hrule =>
    List.mem_append_left replacing (List.mem_append_right continuing hrule)
  rw [offersOf_rules, List.map_append, List.map_append]
  -- One of the outer groups is empty, so that only neighbours are compared.
  rcases continuing_or_replacing line with hnil | hnil
  · have hreplacing := nodup_of_exclusive (exclusive_replacing line) fun rule hrule =>
      List.mem_append_right (continuing ++ finishing) hrule
    rw [hnil, List.map_nil, List.nil_append]
    exact hfinishing.append hreplacing hdigit
  · have hcontinuing := nodup_of_exclusive (exclusive_continuing line) fun rule hrule =>
      List.mem_append_left replacing (List.mem_append_left finishing hrule)
    rw [hnil, List.map_nil, List.append_nil]
    exact hcontinuing.append hfinishing hwords

theorem text_ne_empty_of_rules (h : c ∈ offersOf rules (Partial.ofLine line)) : c.text ≠ "" := by
  rw [offersOf_rules, List.mem_append, List.mem_append] at h
  intro hempty
  rcases h with (h | h) | h
  · have hwords := lt_length_words_of_continuing h
    rw [hempty] at hwords
    exact Nat.not_lt_zero _ hwords
  · have hdigit := (text_of_finishing h).2
    rw [hempty] at hdigit
    cases hdigit
  · exact (replacements_clear _ (mem_replacements h)).1 hempty

/-! ## The list that is offered -/

/-- Every completion is as sure as one of the percentages, and they all lie between these two. -/
theorem likely_of_rules (h : c ∈ offersOf rules (Partial.ofLine line)) :
    Confidence.ofPercent 85 ≤ c.confidence ∧ c.confidence ≤ .ofPercent 100 := by
  obtain ⟨rule, hrule, h⟩ := List.mem_flatMap.1 h
  obtain ⟨ps, hps, hshown⟩ := shown_of_rule hrule line
  have hmem : c.confidence ∈ ps.map Confidence.ofPercent := hshown ▸ List.mem_map_of_mem h
  obtain ⟨n, hn, hconfidence⟩ := List.mem_map.1 hmem
  obtain ⟨hlo, hhi⟩ := bounds_of_mem_percents ps hps n hn
  rw [← hconfidence, Confidence.ofPercent_le_iff (by decide) hhi,
    Confidence.ofPercent_le_iff hhi (by decide)]
  exact ⟨hlo, hhi⟩

/-- At most `limit` completions and at most three, no two of them the same text, none of them empty,
and all of them likely. -/
structure Presentable (limit : Nat) (cs : List Completion) : Prop where
  short : cs.length ≤ min limit 3
  distinct : (cs.map (·.text)).Nodup
  filled : ∀ c ∈ cs, c.text ≠ ""
  likely : ∀ c ∈ cs, Confidence.ofPercent 85 ≤ c.confidence ∧ c.confidence ≤ .ofPercent 100

theorem Presentable.take {cs : List Completion} (hdistinct : (cs.map (·.text)).Nodup)
    (hfilled : ∀ c ∈ cs, c.text ≠ "")
    (hlikely : ∀ c ∈ cs, Confidence.ofPercent 85 ≤ c.confidence ∧ c.confidence ≤ .ofPercent 100)
    (limit : Nat) : Presentable limit (cs.take (effectiveLimit limit)) where
  short := List.length_take_le _ _
  distinct := hdistinct.sublist ((List.take_sublist _ _).map _)
  filled c hc := hfilled c (List.mem_of_mem_take hc)
  likely c hc := hlikely c (List.mem_of_mem_take hc)

/-- What is offered for a line is presentable, and a larger limit shows it first. -/
theorem presentable_offer {limit more : Nat} (h : limit ≤ more) (line : String) :
    Presentable limit (offer limit line) ∧ offer limit line <+: offer more line := by
  constructor
  · rw [offer_eq_take, offered]
    split
    · have hstarters : (starters.map (·.text)).Nodup ∧ (∀ c ∈ starters, c.text ≠ "") ∧
          ∀ c ∈ starters, Confidence.ofPercent 85 ≤ c.confidence ∧
            c.confidence ≤ .ofPercent 100 := by decide +kernel
      exact .take hstarters.1 hstarters.2.1 hstarters.2.2 limit
    · exact .take (nodup_offersOf_rules line.toList) (fun _ => text_ne_empty_of_rules)
        (fun _ => likely_of_rules) limit
  · have hlimit : effectiveLimit limit ≤ effectiveLimit more := by
      unfold effectiveLimit
      omega
    rw [offer_eq_take, offer_eq_take]
    exact List.take_prefix_take_left hlimit

theorem presentable_offer_block :
    (Presentable 1 (offer 1 "blk deep 9") ∧ offer 1 "blk deep 9" <+: offer 3 "blk deep 9") ∧
    (offer 1 "blk deep 9").map (·.text) = ["blk deep 9 1-task-30"] ∧
    (offer 3 "blk deep 9").map (·.text) =
      ["blk deep 9 1-task-30", "blk deep 9-10", "blk deep 9:30-10:30"] := by
  have hless : 1 ≤ 3 := by decide
  exact ⟨presentable_offer hless "blk deep 9", by decide +kernel⟩

end Completion

end Shorthand
