import LoxLexer.Text.Source
/-!
# Slices and characters

A scanner counts characters, while a slice is cut from bytes.  The bytes at which the positions of a text start lead
from the one count to the other: they rise with the positions (`Source.byteOffset_lt`), and they are the boundaries
between characters, no more and no less (`Source.isValid_iff_exists_position`).  So no slice cuts through a character,
whatever the characters before it take; a slice holds the characters between its two positions
(`Source.toList_slice`), and slices that meet make one slice (`Source.slice_append_slice`).

Main statement: `slice_characters`.
-/
namespace LoxLexer

/-- Every character has at least one byte. -/
theorem length_le_bytes (cs : List Char) : cs.length ≤ cs.utf8Encode.size := by
  induction cs with
  | nil => exact Nat.zero_le _
  | cons c cs ih =>
    have hc := c.utf8Size_pos
    rw [size_utf8Encode_cons, List.length_cons]
    omega

theorem length_le_utf8ByteSize (text : String) : text.toList.length ≤ text.utf8ByteSize := by
  have hlength := length_le_bytes text.toList
  rwa [String.utf8Encode_toList] at hlength

namespace Source

variable (source : Source) {i j k : Nat}

/-! ## Boundaries -/

theorem byteOffset_length : source.byteOffset source.chars.length = source.text.utf8ByteSize := by
  rw [byteOffset_eq, List.take_length, chars, String.utf8Encode_toList]
  rfl

theorem byteOffset_le (h : i ≤ j) : source.byteOffset i ≤ source.byteOffset j := by
  rw [source.byteOffset_add h]
  exact Nat.le_add_right _ _

theorem byteOffset_lt (h : i < j) (hj : j ≤ source.chars.length) : source.byteOffset i < source.byteOffset j := by
  have hbetween := length_le_bytes ((source.chars.take j).drop i)
  rw [List.length_drop, List.length_take_of_le hj] at hbetween
  rw [source.byteOffset_add (Nat.le_of_lt h)]
  omega

theorem isValid_byteOffset (i : Nat) : (⟨source.byteOffset i⟩ : String.Pos.Raw).IsValid source.text := by
  refine String.Pos.Raw.isValid_iff_exists_append.2
    ⟨String.ofList (source.chars.take i), String.ofList (source.chars.drop i), ?_, ?_⟩
  · rw [← String.ofList_append, List.take_append_drop, chars, String.ofList_toList]
  · rw [byteOffset_eq]
    rfl

/-- **The boundaries between characters are the bytes of the positions.** -/
theorem isValid_iff_exists_position (p : String.Pos.Raw) :
    p.IsValid source.text ↔ ∃ i, i ≤ source.chars.length ∧ source.byteOffset i = p.byteIdx := by
  constructor
  · intro h
    obtain ⟨front, behind, htext, rfl⟩ := String.Pos.Raw.isValid_iff_exists_append.1 h
    have hchars : source.chars = front.toList ++ behind.toList := by rw [chars, htext, String.toList_append]
    refine ⟨front.toList.length, ?_, ?_⟩
    · rw [hchars, List.length_append]
      exact Nat.le_add_right _ _
    · rw [byteOffset_eq, hchars, List.take_left, String.utf8Encode_toList]
      rfl
  · rintro ⟨i, -, hi⟩
    have hvalid := source.isValid_byteOffset i
    rwa [hi] at hvalid

/-! ## Slices -/

/-- **A slice is the characters between its positions.** -/
theorem toList_slice (h : i ≤ j) : (source.slice i j).toList = source.chars.extract i j := by
  rw [source.slice_eq h, String.toList_ofList, List.drop_take, List.extract_eq_take_drop]

/-- **Slices that meet make one slice.** -/
theorem slice_append_slice (hij : i ≤ j) (hjk : j ≤ k) :
    source.slice i j ++ source.slice j k = source.slice i k := by
  have hlength : k - i = (j - i) + (k - j) := by omega
  have hbehind : source.chars.drop j = (source.chars.drop i).drop (j - i) := by
    rw [List.drop_drop, Nat.add_sub_cancel' hij]
  apply String.toList_inj.1
  rw [String.toList_append, source.toList_slice hij, source.toList_slice hjk, source.toList_slice (Nat.le_trans hij hjk),
    List.extract_eq_take_drop, List.extract_eq_take_drop, List.extract_eq_take_drop, hlength, List.take_add, hbehind]

theorem slice_zero_length : source.slice 0 source.chars.length = source.text := by
  rw [source.slice_eq (Nat.zero_le _), List.take_length, List.drop_zero, chars, String.ofList_toList]

end Source

/-- **A slice of the bytes is the slice of the characters.**  The positions of a text lead to the boundaries between
its characters, in order and up to the end of its bytes.  Between two of them a slice succeeds and holds the characters
from the one to the other; slices that meet make one slice, and all of the text is one. -/
theorem slice_characters (text : String) :
    let source := Source.ofString text
    let size := text.toList.length
    (∀ p : String.Pos.Raw, p.IsValid text ↔ ∃ i, i ≤ size ∧ source.byteOffset i = p.byteIdx) ∧
    (∀ i j, i < j → j ≤ size → source.byteOffset i < source.byteOffset j) ∧
    source.byteOffset size = text.utf8ByteSize ∧
    (∀ i j, i ≤ j → j ≤ size → source.slice? i j = some (source.slice i j) ∧
      (source.slice i j).toList = text.toList.extract i j) ∧
    (∀ i j k, i ≤ j → j ≤ k → k ≤ size → source.slice i j ++ source.slice j k = source.slice i k) ∧
    source.slice 0 size = text := by
  intro source size
  refine ⟨source.isValid_iff_exists_position, fun i j hij hj => source.byteOffset_lt hij hj, source.byteOffset_length,
    fun i j hij _ => ⟨source.slice?_eq_some_slice hij, source.toList_slice hij⟩,
    fun i j k hij hjk _ => source.slice_append_slice hij hjk, source.slice_zero_length⟩

/-- Three characters, of two, three and four bytes. -/
theorem slice_characters_three_sizes :
    let source := Source.ofString "é€😀"
    1 ≤ 2 ∧ 2 < 3 ∧ 3 ≤ "é€😀".toList.length ∧ source.byteOffset 2 < source.byteOffset 3 ∧
      source.slice? 1 3 = some (source.slice 1 3) ∧ (source.slice 1 3).toList = ['€', '😀'] ∧
      source.slice 1 2 ++ source.slice 2 3 = source.slice 1 3 := by
  intro source
  have hsize : 3 ≤ "é€😀".toList.length := by decide +kernel
  obtain ⟨-, hlt, -, hslice, happend, -⟩ := slice_characters "é€😀"
  obtain ⟨hsome, hchars⟩ := hslice 1 3 (by decide) hsize
  exact ⟨by decide, by decide, hsize, hlt 2 3 (by decide) hsize, hsome, hchars.trans (by decide +kernel),
    happend 1 2 3 (by decide) (by decide) hsize⟩

end LoxLexer
