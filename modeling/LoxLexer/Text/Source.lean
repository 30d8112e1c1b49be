/-!
# A source text and its slices

The scanner counts characters, while a text is stored as UTF-8 bytes.  A `Source` keeps the byte at which every
character starts, so a slice between two character positions is one cut of the bytes, whatever lies before it.  The
end of the text is a position too, one past the last character; the text's byte length stands in for its start.

Main statement: `Source.slice?_eq_some`, a slice between positions in order and inside the text succeeds and holds
exactly the characters between them.
-/
namespace LoxLexer

/-- The byte at which each character starts, in one pass. -/
def startOffsets (cs : List Char) : Array Nat :=
  (cs.foldl (fun (acc : Array Nat × Nat) c => (acc.1.push acc.2, acc.2 + c.utf8Size)) (#[], 0)).1

theorem size_utf8Encode_cons (c : Char) (cs : List Char) :
    (c :: cs).utf8Encode.size = c.utf8Size + cs.utf8Encode.size := by
  rw [List.utf8Encode_cons, ByteArray.size_append, List.utf8Encode_singleton]
  simp

theorem foldl_startOffsets (cs : List Char) (starts : Array Nat) (start : Nat) :
    (cs.foldl (fun (acc : Array Nat × Nat) c => (acc.1.push acc.2, acc.2 + c.utf8Size)) (starts, start)).1.toList =
      starts.toList ++ (List.range cs.length).map (fun i => start + (cs.take i).utf8Encode.size) := by
  induction cs generalizing starts start with
  | nil => simp
  | cons c cs ih =>
    rw [List.foldl_cons, ih, List.length_cons, List.range_succ_eq_map, Array.toList_push, List.map_cons, List.map_map,
      List.append_assoc]
    congr 1
    simp only [List.take_zero, List.utf8Encode_nil, ByteArray.size_empty, Nat.add_zero, List.singleton_append,
      List.cons.injEq, true_and]
    refine List.map_congr_left fun i _ => ?_
    rw [Function.comp_apply, List.take_succ_cons, size_utf8Encode_cons, Nat.add_assoc]

theorem getElem?_startOffsets (cs : List Char) (i : Nat) :
    (startOffsets cs)[i]? = if i < cs.length then some (cs.take i).utf8Encode.size else none := by
  rw [← Array.getElem?_toList, startOffsets, foldl_startOffsets]
  by_cases h : i < cs.length <;> simp [h]

/-- A text together with its bytes and the byte at which each of its characters starts. -/
structure Source where
  text : String
  bytes : ByteArray
  starts : Array Nat
  bytes_eq : bytes = text.toByteArray
  starts_eq : starts = startOffsets text.toList

namespace Source

def ofString (text : String) : Source where
  text
  bytes := text.toUTF8
  starts := startOffsets text.toList
  bytes_eq := rfl
  starts_eq := rfl

/-- The characters of the text, in order: what the scanner reads. -/
def chars (s : Source) : List Char := s.text.toList

/-- The byte at which the character at position `i` starts; past the last character, the length of the text. -/
def byteOffset (s : Source) (i : Nat) : Nat := s.starts[i]?.getD s.bytes.size

/-- The text between two character positions, cut from the bytes; none if they are out of order or the cut falls
inside a character. -/
def slice? (s : Source) (i j : Nat) : Option String :=
  if s.byteOffset i ≤ s.byteOffset j then String.fromUTF8? (s.bytes.extract (s.byteOffset i) (s.byteOffset j))
  else none

/-- The text between two character positions; empty where nothing lies between them. -/
def slice (s : Source) (i j : Nat) : String := (s.slice? i j).getD ""

/-- A position's byte is the size of all the characters before it, the end of the text included. -/
theorem byteOffset_eq (s : Source) (i : Nat) : s.byteOffset i = (s.chars.take i).utf8Encode.size := by
  unfold byteOffset chars
  rw [s.starts_eq, getElem?_startOffsets]
  by_cases h : i < s.text.toList.length
  · simp [h]
  · simp only [h, if_false, Option.getD_none]
    rw [List.take_of_length_le (Nat.le_of_not_lt h), s.bytes_eq, String.utf8Encode_toList]

theorem take_append_between (s : Source) {i j : Nat} (h : i ≤ j) :
    s.chars.take i ++ (s.chars.take j).drop i = s.chars.take j := by
  have hsplit := List.take_append_drop i (s.chars.take j)
  rwa [List.take_take, Nat.min_eq_left h] at hsplit

/-- Two positions are as many bytes apart as the characters between them have. -/
theorem byteOffset_add (s : Source) {i j : Nat} (h : i ≤ j) :
    s.byteOffset j = s.byteOffset i + ((s.chars.take j).drop i).utf8Encode.size := by
  rw [byteOffset_eq, byteOffset_eq, ← ByteArray.size_append, ← List.utf8Encode_append, s.take_append_between h]

/-- **A slice between positions in order succeeds, and is the characters between them.** -/
theorem slice?_eq_some (s : Source) {i j : Nat} (h : i ≤ j) :
    s.slice? i j = some (String.ofList ((s.chars.take j).drop i)) := by
  have hbytes : s.bytes = (s.chars.take i).utf8Encode ++ (((s.chars.take j).drop i).utf8Encode ++
      (s.chars.drop j).utf8Encode) := by
    rw [← List.utf8Encode_append, ← List.utf8Encode_append, ← List.append_assoc, s.take_append_between h,
      List.take_append_drop, s.bytes_eq, chars, String.utf8Encode_toList]
  have hj := s.byteOffset_add h
  have hcut : s.bytes.extract (s.byteOffset i) (s.byteOffset j) = ((s.chars.take j).drop i).utf8Encode := by
    rw [hj, byteOffset_eq, hbytes, ByteArray.extract_append]
    simp only [Nat.sub_self, Nat.add_sub_cancel_left, ByteArray.extract_append_eq_left rfl]
    rw [ByteArray.extract_eq_empty_iff.2 (Nat.min_le_right _ _), ByteArray.empty_append]
  unfold slice?
  rw [if_pos (by rw [hj]; exact Nat.le_add_right _ _), hcut, String.fromUTF8?,
    dif_pos ByteArray.isValidUTF8_utf8Encode]
  rfl

theorem slice_eq (s : Source) {i j : Nat} (h : i ≤ j) : s.slice i j = String.ofList ((s.chars.take j).drop i) := by
  rw [slice, slice?_eq_some s h, Option.getD_some]

theorem slice?_eq_some_slice (s : Source) {i j : Nat} (h : i ≤ j) : s.slice? i j = some (s.slice i j) := by
  rw [slice_eq s h, slice?_eq_some s h]

end Source
end LoxLexer
