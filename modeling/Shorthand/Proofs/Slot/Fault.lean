import Shorthand.Proofs.Chain
import Shorthand.Proofs.Slot.Group

/-!
Which texts cannot be read as time expressions at all. `Slot.read_eq_error_iff` says that only torn
compact ranges cannot be read, whatever the clock shows.
-/

namespace Shorthand

open Text

/-- A compact range with a group that is to be cut inside a character. -/
def IsTorn (cs : List Char) : Prop :=
  ∃ x y, cs = x ++ '-' :: y ∧ Shape.isCompactGroup x = true ∧ Shape.isCompactGroup y = true ∧
    (CutsInside x ∨ CutsInside y)

theorem IsTorn.isDecimal_head {cs : List Char} {c : Char} (h : IsTorn cs) (hc : c ∈ cs.head?) :
    isDecimal c = true := by
  obtain ⟨x, y, rfl, hx, -, -⟩ := h
  obtain ⟨hlen, hdec⟩ := Shape.isCompactGroup_iff.1 hx
  have hne : x ≠ [] := by
    rw [← List.length_pos_iff]
    omega
  rw [List.head?_append_of_ne_nil _ hne] at hc
  exact hdec c (List.mem_of_mem_head? hc)

/-- A torn range holds a digit that is none of ASCII. -/
theorem IsTorn.exists_not_isDigit {cs : List Char} (h : IsTorn cs) :
    ∃ c ∈ cs, isDecimal c = true ∧ c.isDigit = false := by
  have hgroup : ∀ group, Shape.isCompactGroup group = true → CutsInside group →
      ∃ c ∈ group, isDecimal c = true ∧ c.isDigit = false := by
    intro group hgroup hcut
    by_contra hnone
    -- Without such a digit the group is all of ASCII, and is cut between its characters.
    refine not_cutsInside_of_isDigit (fun c hc => ?_) hcut
    by_contra hdigit
    exact hnone ⟨c, hc, (Shape.isCompactGroup_iff.1 hgroup).2 c hc, by simpa using hdigit⟩
  obtain ⟨x, y, rfl, hx, hy, hcut | hcut⟩ := h
  · obtain ⟨c, hc, hdigit⟩ := hgroup x hx hcut
    exact ⟨c, List.mem_append_left _ hc, hdigit⟩
  · obtain ⟨c, hc, hdigit⟩ := hgroup y hy hcut
    exact ⟨c, List.mem_append_right _ (List.mem_cons_of_mem _ hc), hdigit⟩

namespace Slot

/-- Of all shapes only a compact range can fail to be read. -/
theorem ofShape_eq_error_iff {now : ClockTime} {shape : Shape} {fault : ReadFault} :
    ofShape now shape = .error fault ↔
      ∃ x y, shape = .compact x y ∧ (CutsInside x ∨ CutsInside y) := by
  cases shape with
  | compact x y =>
    have hbind : ofShape now (.compact x y) = readCompactTime x >>= fun t? =>
        readCompactTime y >>= fun u? => .ok (between? t? u?) := rfl
    simp only [hbind, bind_eq_error_iff, readCompactTime_eq_error_iff]
    constructor
    · rintro (hx | ⟨_, -, hy | ⟨_, -, ⟨⟩⟩⟩)
      · exact ⟨x, y, rfl, Or.inl hx⟩
      · exact ⟨x, y, rfl, Or.inr hy⟩
    · rintro ⟨_, _, ⟨⟩, hx | hy⟩
      · exact Or.inl hx
      · cases hread : readCompactTime x with
        | error e => exact Or.inl (readCompactTime_eq_error_iff.1 hread)
        | ok t? => exact Or.inr ⟨t?, rfl, Or.inl hy⟩
  | _ =>
    constructor
    · rintro ⟨⟩
    · rintro ⟨_, _, ⟨⟩, -⟩

theorem readChars_eq_error_iff {now : ClockTime} {cs : List Char} {fault : ReadFault} :
    readChars now cs = .error fault ↔ IsTorn cs := by
  unfold readChars
  constructor
  · intro h
    split at h
    · cases h
    · rename_i shape hshape
      obtain ⟨x, y, rfl, hcut⟩ := ofShape_eq_error_iff.1 (map_eq_error_iff.1 h)
      cases Shape.read?_eq_some_iff.1 hshape with
      | compact hx hy => exact ⟨x, y, rfl, hx, hy, hcut⟩
  · rintro ⟨x, y, rfl, hx, hy, hcut⟩
    rw [Shape.read?_eq_some_iff.2 (.compact hx hy)]
    exact map_eq_error_iff.2 (ofShape_eq_error_iff.2 ⟨x, y, rfl, hcut⟩)

/-- Reading a time expression fails exactly on a compact range that is torn. -/
theorem read_eq_error_iff {now : ClockReading} {expression : List Char} {fault : ReadFault} :
    Slot.read now expression = .error fault ↔ IsTorn (lower (trim expression)) :=
  readChars_eq_error_iff

end Slot

end Shorthand
