import Shorthand.Proofs.Text.Pieces

/-!
The bytes of a text. `fromUTF8?_eq_some_iff` says which bytes are a text, and `pieces_utf8` that the
lines of a text can be cut apart before its bytes are read.
-/

namespace Shorthand.Text

def utf8 (cs : List Char) : List UInt8 := cs.flatMap String.utf8EncodeChar

theorem utf8_append (a b : List Char) : utf8 (a ++ b) = utf8 a ++ utf8 b :=
  List.flatMap_append

theorem toByteArray_eq (text : String) : text.toByteArray = ⟨(utf8 text.toList).toArray⟩ := by
  rw [← String.utf8Encode_toList, List.utf8Encode]
  exact ByteArray.ext List.data_toByteArray

/-- Bytes are a text exactly if they are those of its characters. -/
theorem fromUTF8?_eq_some_iff {bytes : List UInt8} {text : String} :
    String.fromUTF8? ⟨bytes.toArray⟩ = some text ↔ bytes = utf8 text.toList := by
  unfold String.fromUTF8?
  constructor
  · intro h
    split at h
    · rename_i hvalid
      obtain rfl : String.fromUTF8 _ hvalid = text := Option.some.inj h
      have hbytes : (⟨bytes.toArray⟩ : ByteArray) = ⟨(utf8 _).toArray⟩ :=
        toByteArray_eq (String.fromUTF8 _ hvalid)
      simpa using hbytes
    · cases h
  · rintro rfl
    have hvalid : ByteArray.IsValidUTF8 ⟨(utf8 text.toList).toArray⟩ := by
      rw [← toByteArray_eq]
      exact text.isValidUTF8
    rw [dif_pos hvalid]
    exact congrArg some (String.toByteArray_inj.1 (toByteArray_eq text).symm)

/-- Every byte of a character past 127 is past 127 too. -/
theorem le_of_mem_utf8EncodeChar {c : Char} (hc : ¬ c.val.toNat ≤ 127) {b : UInt8}
    (hb : b ∈ String.utf8EncodeChar c) : 128 ≤ b.toNat := by
  have hbyte : ∀ n, 128 ≤ n → n < 256 → 128 ≤ (UInt8.ofNat n).toNat := by
    intro n hlo hhi
    show 128 ≤ n % 256
    omega
  rw [String.utf8EncodeChar.eq_1, if_neg hc] at hb
  split at hb
  · simp only [List.mem_cons, List.not_mem_nil, or_false] at hb
    rcases hb with rfl | rfl <;> exact hbyte _ (by omega) (by omega)
  · split at hb
    · simp only [List.mem_cons, List.not_mem_nil, or_false] at hb
      rcases hb with rfl | rfl | rfl <;> exact hbyte _ (by omega) (by omega)
    · simp only [List.mem_cons, List.not_mem_nil, or_false] at hb
      rcases hb with rfl | rfl | rfl | rfl <;> exact hbyte _ (by omega) (by omega)

/-- No other character is written with the byte of the line end. -/
theorem ne_ten_of_mem_utf8EncodeChar {c : Char} (hc : c ≠ '\n') {b : UInt8}
    (hb : b ∈ String.utf8EncodeChar c) : b ≠ 10 := by
  rintro rfl
  -- Up to 127 a character is its own byte.
  by_cases hle : c.val.toNat ≤ 127
  · rw [String.utf8EncodeChar.eq_1, if_pos hle] at hb
    have hn : 10 = c.val.toNat % 256 := congrArg UInt8.toNat (List.mem_singleton.1 hb)
    have hten : c.val.toNat = '\n'.val.toNat := by
      show c.val.toNat = 10
      omega
    exact hc (Char.ext (UInt32.toNat_inj.1 hten))
  · exact absurd (le_of_mem_utf8EncodeChar hle hb) (by decide)

/-- The lines of the bytes are the bytes of the lines. -/
theorem pieces_utf8 (cs : List Char) :
    pieces (· == 10) (utf8 cs) = (pieces (· == '\n') cs).map utf8 := by
  refine pieces_flatMap (fun c hc => ?_) (fun c hc b hb => ?_) cs
  · obtain rfl : c = '\n' := by simpa using hc
    exact ⟨10, by decide, by decide⟩
  · have hne : c ≠ '\n' := by simpa using hc
    simpa using ne_ten_of_mem_utf8EncodeChar hne hb

/-- Lines that are texts make a text when line ends are put between them. -/
theorem exists_utf8_intercalate {ls : List (List UInt8)} (h : ∀ l ∈ ls, ∃ cs, l = utf8 cs) :
    ∃ cs, [10].intercalate ls = utf8 cs := by
  induction ls with
  | nil => exact ⟨[], rfl⟩
  | cons l ls ih =>
    obtain ⟨⟨cs, hl⟩, hrest⟩ := List.forall_mem_cons.1 h
    cases ls with
    | nil => exact ⟨cs, by rw [List.intercalate_singleton, hl]⟩
    | cons l' ls =>
      obtain ⟨ds, hds⟩ := ih hrest
      have hend : utf8 ['\n'] = [10] := by decide
      exact ⟨cs ++ ['\n'] ++ ds, by rw [List.intercalate_cons_cons, hl, hds, utf8_append,
        utf8_append, hend]⟩

/-- Bytes are a text exactly when each of their lines is one. -/
theorem fromUTF8?_eq_none_iff {bytes : List UInt8} : String.fromUTF8? ⟨bytes.toArray⟩ = none ↔
    ∃ line ∈ pieces (· == 10) bytes, String.fromUTF8? ⟨line.toArray⟩ = none := by
  have hnone : ∀ {bs : List UInt8}, String.fromUTF8? ⟨bs.toArray⟩ = none ↔ ∀ cs, bs ≠ utf8 cs := by
    intro bs
    rw [Option.eq_none_iff_forall_ne_some]
    constructor
    · rintro h cs rfl
      exact h (String.ofList cs) (fromUTF8?_eq_some_iff.2 (by rw [String.toList_ofList]))
    · intro h text htext
      exact h _ (fromUTF8?_eq_some_iff.1 htext)
  rw [hnone]
  constructor
  · intro h
    -- Lines that are texts make a text when they are joined again.
    by_contra hlines
    have hall : ∀ line ∈ pieces (· == 10) bytes, ∃ cs, line = utf8 cs := by
      intro line hline
      by_contra hcs
      exact hlines ⟨line, hline, hnone.2 fun cs hcs' => hcs ⟨cs, hcs'⟩⟩
    obtain ⟨cs, hcs⟩ := exists_utf8_intercalate hall
    rw [intercalate_pieces] at hcs
    exact h cs hcs
  · rintro ⟨line, hline, hbad⟩ cs rfl
    rw [pieces_utf8] at hline
    obtain ⟨piece, -, rfl⟩ := List.mem_map.1 hline
    exact hnone.1 hbad piece rfl

end Shorthand.Text
