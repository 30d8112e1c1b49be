import LoxLexer.Text.Lines
/-!
# What the lines of some bytes are

The rule for lines, as a relation (`LineSplit`): up to a line feed and with it, and at the end what is left, unless
that is empty.  Main statement: `lineSplit_iff`, there is one way to split, and `linesOf` finds it.
-/
namespace LoxLexer

/-- Bytes and their lines: each ends with its only line feed, but the last, if it is not empty, may have none. -/
inductive LineSplit : ByteArray → List ByteArray → Prop
  | nil : LineSplit ByteArray.empty []
  | last {line : ByteArray} (hne : line ≠ ByteArray.empty) (h : lineFeed ∉ line.data.toList) : LineSplit line [line]
  | cons {line rest : ByteArray} {lines : List ByteArray} (h : lineFeed ∉ line.data.toList)
      (others : LineSplit rest lines) : LineSplit (line.push lineFeed ++ rest) (line.push lineFeed :: lines)

theorem toList_data_push (line : ByteArray) (b : UInt8) : (line.push b).data.toList = line.data.toList ++ [b] := by
  rw [ByteArray.data_push, Array.toList_push]

theorem eq_of_toList_data_eq {a b : ByteArray} (h : a.data.toList = b.data.toList) : a = b :=
  ByteArray.ext (Array.ext' h)

namespace LineCutter

/-- The lines already complete stand in front, whatever follows. -/
theorem finish_foldl_push : ∀ (bytes : List UInt8) (complete : Array ByteArray) (current : ByteArray),
    (bytes.foldl push ⟨complete, current⟩).finish = complete.toList ++ (bytes.foldl push ⟨#[], current⟩).finish
  | [], complete, current => by
    rw [List.foldl_nil, List.foldl_nil, finish, finish]
    by_cases he : current.isEmpty = true
    · rw [if_pos he, if_pos he, List.append_nil]
    · rw [if_neg he, if_neg he, Array.toList_push, Array.toList_push]
      rfl
  | b :: bytes, complete, current => by
    rw [List.foldl_cons, List.foldl_cons]
    by_cases hb : b = lineFeed
    · rw [push, push, if_pos hb, if_pos hb, finish_foldl_push bytes (complete.push _),
        finish_foldl_push bytes (#[].push _), Array.toList_push, Array.toList_push, List.append_assoc]
      rfl
    · rw [push, push, if_neg hb, if_neg hb]
      exact finish_foldl_push bytes complete _

theorem foldl_push_of_not_mem : ∀ {bytes : List UInt8} (l : LineCutter), lineFeed ∉ bytes →
    bytes.foldl push l = { l with current := ⟨l.current.data ++ bytes.toArray⟩ }
  | [], l, _ => by rw [List.foldl_nil, Array.append_empty]
  | b :: bytes, l, h => by
    have hb : b ≠ lineFeed := Ne.symm (List.ne_of_not_mem_cons h)
    have hbytes : lineFeed ∉ bytes := List.not_mem_of_not_mem_cons h
    have hcurrent : (l.current.push b).data ++ bytes.toArray = l.current.data ++ (b :: bytes).toArray := by
      apply Array.ext'
      simp only [ByteArray.data_push, Array.toList_append, Array.toList_push, List.append_assoc, List.singleton_append]
    rw [List.foldl_cons, push, if_neg hb, foldl_push_of_not_mem _ hbytes, hcurrent]

end LineCutter

theorem foldl_push_line {line : ByteArray} (h : lineFeed ∉ line.data.toList) :
    line.data.toList.foldl LineCutter.push LineCutter.empty = ⟨#[], line⟩ := by
  rw [LineCutter.foldl_push_of_not_mem _ h]
  simp [LineCutter.empty]

theorem linesOf_of_not_mem {line : ByteArray} (hne : line ≠ ByteArray.empty) (h : lineFeed ∉ line.data.toList) :
    linesOf line = [line] := by
  have hsize : line.size ≠ 0 := fun hs => hne (ByteArray.size_eq_zero_iff.1 hs)
  rw [linesOf, foldl_push_line h, LineCutter.finish, if_neg (by simpa [ByteArray.isEmpty] using hsize)]
  rfl

theorem linesOf_push_append {line : ByteArray} (h : lineFeed ∉ line.data.toList) (rest : ByteArray) :
    linesOf (line.push lineFeed ++ rest) = line.push lineFeed :: linesOf rest := by
  rw [linesOf, ByteArray.toList_data_append, toList_data_push, List.foldl_append, List.foldl_append,
    foldl_push_line h, List.foldl_cons, List.foldl_nil, LineCutter.push, if_pos rfl, LineCutter.finish_foldl_push]
  rfl

theorem LineSplit.eq_linesOf {bytes : ByteArray} {lines : List ByteArray} (h : LineSplit bytes lines) :
    lines = linesOf bytes := by
  induction h with
  | nil => rfl
  | last hne h => rw [linesOf_of_not_mem hne h]
  | cons h _ ih => rw [linesOf_push_append h, ih]

theorem lineSplit_linesOf (bytes : ByteArray) : LineSplit bytes (linesOf bytes) := by
  by_cases hmem : lineFeed ∈ bytes.data.toList
  · obtain ⟨front, rest, hbytes, hfront⟩ := List.eq_append_cons_of_mem hmem
    have hsplit : bytes = (⟨front.toArray⟩ : ByteArray).push lineFeed ++ ⟨rest.toArray⟩ := by
      apply eq_of_toList_data_eq
      rw [hbytes, ByteArray.toList_data_append, toList_data_push, List.append_assoc]
      rfl
    have hlt : rest.length < bytes.data.toList.length := by
      rw [hbytes, List.length_append, List.length_cons]; omega
    rw [hsplit, linesOf_push_append hfront]
    exact .cons hfront (lineSplit_linesOf ⟨rest.toArray⟩)
  · by_cases hne : bytes = ByteArray.empty
    · rw [hne]
      exact .nil
    · rw [linesOf_of_not_mem hne hmem]
      exact .last hne hmem
termination_by bytes.data.toList.length

/-- **The lines of some bytes are the one way to split them.** -/
theorem lineSplit_iff {bytes : ByteArray} {lines : List ByteArray} :
    LineSplit bytes lines ↔ lines = linesOf bytes := by
  constructor
  · exact LineSplit.eq_linesOf
  · rintro rfl
    exact lineSplit_linesOf bytes

end LoxLexer
