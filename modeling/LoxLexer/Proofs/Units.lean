import LoxLexer.Scan
import LoxLexer.Proofs.Grammar
/-!
# Lexical units

A piece knows where it stands, a **unit** what it holds: its shape, its characters and the line of the first one.
Units need no source to come to something, so two texts are compared unit by unit.

Main statements: `map_outcome_piecesFrom`, a piece of a source comes to what its unit comes to, and with it
`tokens_scan` and `diagnostics_scan`, a scan read off the units of its text.
-/
namespace LoxLexer

/-- What is cut off a text at once. -/
structure LexUnit where
  shape : Shape
  line : Nat
  chars : List Char
deriving DecidableEq

namespace LexUnit

def endLine (u : LexUnit) : Nat := u.line + u.chars.count '\n'

def lexeme (u : LexUnit) : String := String.ofList u.chars

def outcome (u : LexUnit) : Outcome :=
  match u.shape with
  | .blank => .nothing
  | .comment => .nothing
  | .operator op => .token ⟨.operator op, u.lexeme, none, u.line⟩
  | .word => .token ⟨.ofWord u.lexeme, u.lexeme, none, u.line⟩
  | .string => .token ⟨.string, u.lexeme, some (.string (String.ofList u.chars.tail.dropLast)), u.line⟩
  | .number =>
    let value := (Decimal.ofNumeral u.chars).toBinary64
    if value.isFinite then .token ⟨.number, u.lexeme, some (.number value), u.line⟩
    else .error u.endLine .malformedNumber
  | .openString => .error u.endLine .unterminatedString
  | .bad c => .error u.endLine (.unexpectedCharacter c)

theorem outcome_finite {cs : List Char} (h : (Decimal.ofNumeral cs).toBinary64.isFinite = true) (line : Nat) :
    outcome ⟨.number, line, cs⟩ =
      .token ⟨.number, String.ofList cs, some (.number (Decimal.ofNumeral cs).toBinary64), line⟩ := by
  simp only [outcome, lexeme, h, if_true]

theorem outcome_tooLarge {cs : List Char} (h : (Decimal.ofNumeral cs).toBinary64.isFinite = false) (line : Nat) :
    outcome ⟨.number, line, cs⟩ = .error (endLine ⟨.number, line, cs⟩) .malformedNumber := by
  simp only [outcome, h, Bool.false_eq_true, if_false]

/-- The characters of a unit have its shape, or the unit is a single character that is bad. -/
def Lawful (u : LexUnit) : Prop :=
  u.shape.Matches u.chars ∨ ∃ c, isBlank c = false ∧ u.shape = .bad c ∧ u.chars = [c]

theorem lawful_cut (line : Nat) (c : Char) (cs : List Char) :
    Lawful ⟨(Shape.cut c cs).1, line, c :: cs.take (Shape.cut c cs).2⟩ := by
  by_cases hbad : ∃ b, (Shape.cut c cs).1 = .bad b
  · obtain ⟨b, hb⟩ := hbad
    have hc := (Shape.cut_eq_bad hb).1
    refine .inr ⟨c, Bool.eq_false_iff.2 (fun hblank => ?_), by rw [hc], by rw [hc, List.take_zero]⟩
    rw [Shape.cut_blank hblank] at hb
    cases hb
  · exact .inl (Shape.matches_cut (fun b hb => hbad ⟨b, hb⟩))

/-- Of the errors only an open string goes past the end of a line. -/
theorem endLine_eq_line {u : LexUnit} (h : u.Lawful) (hshape : u.shape = .number ∨ ∃ c, u.shape = .bad c) :
    u.endLine = u.line := by
  have hcount : u.chars.count '\n' = 0 := by
    refine List.count_eq_zero.2 (fun hn => ?_)
    rcases h with h | ⟨c, hc, -, hchars⟩
    · rcases hshape with hs | ⟨c, hs⟩
      · exact Shape.newline_not_mem_of_matches_number (hs ▸ h) hn
      · rw [hs] at h; cases h
    · rw [hchars, List.mem_singleton] at hn
      subst hn
      cases hc
  rw [endLine, hcount, Nat.add_zero]

/-- Only characters that have a shape come to a token. -/
theorem Lawful.matches_of_token {u : LexUnit} {t : Token} (h : u.Lawful) (ht : u.outcome = .token t) :
    u.shape.Matches u.chars := by
  obtain hm | ⟨c, -, hs, -⟩ := h
  · exact hm
  · rw [outcome, hs] at ht
    cases ht

end LexUnit

/-- The units of `cs`, which starts on `line`. -/
def unitsFrom (line : Nat) : List Char → List LexUnit
  | [] => []
  | c :: cs =>
    let front := c :: cs.take (Shape.cut c cs).2
    ⟨(Shape.cut c cs).1, line, front⟩ :: unitsFrom (line + front.count '\n') (cs.drop (Shape.cut c cs).2)
termination_by cs => cs.length
decreasing_by simp only [List.length_drop, List.length_cons]; omega

/-- What `cs` comes to, unit by unit. -/
def outcomesFrom (line : Nat) (cs : List Char) : List Outcome := (unitsFrom line cs).map LexUnit.outcome

theorem unitsFrom_nil (line : Nat) : unitsFrom line [] = [] := by rw [unitsFrom]

theorem flatMap_chars_unitsFrom (line : Nat) (cs : List Char) : (unitsFrom line cs).flatMap LexUnit.chars = cs := by
  fun_induction unitsFrom line cs with
  | case1 line => rfl
  | case2 line c cs front ih =>
    rw [List.flatMap_cons, ih]
    exact front_append_drop c _ cs

theorem lawful_of_mem_unitsFrom {line : Nat} {cs : List Char} {u : LexUnit} (h : u ∈ unitsFrom line cs) :
    u.Lawful := by
  fun_induction unitsFrom line cs with
  | case1 line => cases h
  | case2 line c cs front ih =>
    rcases List.mem_cons.1 h with rfl | h
    · exact LexUnit.lawful_cut line c cs
    · exact ih h

theorem unitsFrom_cons (line : Nat) (c : Char) (cs : List Char) :
    unitsFrom line (c :: cs) = ⟨(Shape.cut c cs).1, line, c :: cs.take (Shape.cut c cs).2⟩ ::
      unitsFrom (line + (c :: cs.take (Shape.cut c cs).2).count '\n') (cs.drop (Shape.cut c cs).2) := by
  rw [unitsFrom]

theorem unitsFrom_blank {b : Char} (hb : isBlank b = true) (line : Nat) (cs : List Char) :
    unitsFrom line (b :: cs) = ⟨.blank, line, [b]⟩ :: unitsFrom (line + [b].count '\n') cs := by
  rw [unitsFrom_cons, Shape.cut_blank hb, List.take_zero, List.drop_zero]

/-- Characters that have a shape are one unit, where they stand alone. -/
theorem unitsFrom_of_matches {shape : Shape} {front : List Char} (h : shape.Matches front) (line : Nat) :
    unitsFrom line front = [⟨shape, line, front⟩] := by
  obtain ⟨c, cs, rfl⟩ := List.exists_cons_of_ne_nil h.ne_nil
  rw [unitsFrom_cons, Shape.cut_of_matches h, List.take_length, List.drop_length, unitsFrom_nil]

/-- What stands behind the first unit can be exchanged where the unit sees nothing new. -/
theorem unitsFrom_of_nothingNew {c : Char} {cs seen : List Char}
    (hseen : Shape.NothingNew 2 (cs.drop (Shape.cut c cs).2) seen)
    (hopen : (Shape.cut c cs).1 = .openString → seen = [])
    (hcomment : (Shape.cut c cs).1 = .comment → ∀ b, seen.head? = some b → b = '\n') (line : Nat) :
    unitsFrom line (c :: cs.take (Shape.cut c cs).2 ++ seen) =
      ⟨(Shape.cut c cs).1, line, c :: cs.take (Shape.cut c cs).2⟩ ::
        unitsFrom (line + (c :: cs.take (Shape.cut c cs).2).count '\n') seen := by
  have hlen : (cs.take (Shape.cut c cs).2).length = (Shape.cut c cs).2 :=
    List.length_take_of_le (Shape.cut_le c cs)
  rw [List.cons_append, unitsFrom_cons, Shape.cut_of_nothingNew hseen hopen hcomment, List.take_left' hlen,
    List.drop_left' hlen]

/-- **A blank ends a text as its end does**: it changes no unit before it, unless a quote is open or a comment goes
on. -/
theorem unitsFrom_append_blank {b : Char} (hb : isBlank b = true) (rest : List Char) {line : Nat} {cs : List Char}
    (h : ∀ u ∈ unitsFrom line cs, u.shape ≠ .openString ∧ (u.shape = .comment → b = '\n')) :
    unitsFrom line (cs ++ b :: rest) = unitsFrom line cs ++ unitsFrom (line + cs.count '\n') (b :: rest) := by
  -- the first unit is cut as before, and what is left of the longer text is what was left with the blank behind
  fun_induction unitsFrom line cs with
  | case1 line => rfl
  | case2 line c cs front ih =>
    obtain ⟨⟨hopen, hcomment⟩, h⟩ := List.forall_mem_cons.1 h
    have hle := Shape.cut_le c cs
    have hcount : (c :: cs).count '\n' = front.count '\n' + (cs.drop (Shape.cut c cs).2).count '\n' :=
      (count_front_add c _ cs).symm
    rw [List.cons_append, unitsFrom_cons, Shape.cut_append_blank hb hopen hcomment rest,
      List.take_append_of_le_length hle, List.drop_append_of_le_length hle, ih h, hcount, Nat.add_assoc]
    rfl

theorem outcomesFrom_nil (line : Nat) : outcomesFrom line [] = [] := by rw [outcomesFrom, unitsFrom_nil]; rfl

theorem outcomesFrom_blank {b : Char} (hb : isBlank b = true) (line : Nat) (cs : List Char) :
    outcomesFrom line (b :: cs) = .nothing :: outcomesFrom (line + [b].count '\n') cs := by
  rw [outcomesFrom, unitsFrom_blank hb]
  rfl

/-! ## Places and pieces -/

namespace Place

theorem advance_advance (p : Place) (as bs : List Char) : (p.advance as).advance bs = p.advance (as ++ bs) := by
  simp only [advance, List.length_append, List.count_append, Nat.add_assoc]

end Place

theorem Place.offset_advance_cut (place : Place) (c : Char) (cs : List Char) :
    (place.advance (c :: cs.take (Shape.cut c cs).2)).offset = place.offset + ((Shape.cut c cs).2 + 1) := by
  rw [advance, List.length_cons, List.length_take_of_le (Shape.cut_le c cs)]

theorem piecesFrom_cons (place : Place) (c : Char) (cs : List Char) :
    piecesFrom place (c :: cs) =
      ⟨(Shape.cut c cs).1, place, place.advance (c :: cs.take (Shape.cut c cs).2)⟩ ::
        piecesFrom (place.advance (c :: cs.take (Shape.cut c cs).2)) (cs.drop (Shape.cut c cs).2) := by
  rw [piecesFrom]

theorem endOfPieces_piecesFrom (place : Place) (cs : List Char) :
    endOfPieces place (piecesFrom place cs) = place.advance cs := by
  fun_induction piecesFrom place cs with
  | case1 place => rfl
  | case2 place c cs shape more hcut stop ih =>
    have hlast : endOfPieces place (⟨shape, place, stop⟩ :: piecesFrom stop (cs.drop more)) =
        endOfPieces stop (piecesFrom stop (cs.drop more)) := by
      unfold endOfPieces
      rw [List.getLast?_cons]
      cases (piecesFrom stop (cs.drop more)).getLast? <;> rfl
    rw [hlast, ih, Place.advance_advance, front_append_drop]

theorem Source.slice_append {source : Source} {before front after : List Char}
    (h : source.chars = before ++ (front ++ after)) :
    source.slice before.length (before.length + front.length) = String.ofList front := by
  rw [Source.slice_eq source (Nat.le_add_right _ _), h, ← List.append_assoc, ← List.length_append, List.take_left,
    List.drop_left]

/-- **A piece of a source comes to what its unit comes to.** -/
theorem outcome_piece {source : Source} {place : Place} {shape : Shape} {before front after : List Char}
    (hsource : source.chars = before ++ (front ++ after)) (hplace : place.offset = before.length)
    (hstring : shape = .string → Shape.Matches .string front) :
    Piece.outcome source ⟨shape, place, place.advance front⟩ = LexUnit.outcome ⟨shape, place.line, front⟩ := by
  have hlexeme : source.slice place.offset (place.advance front).offset = String.ofList front := by
    rw [Place.advance, hplace]
    exact Source.slice_append hsource
  unfold Piece.outcome LexUnit.outcome LexUnit.lexeme LexUnit.endLine
  simp only [hlexeme]
  cases shape with
  | string =>
    obtain ⟨contents, -, rfl⟩ := Shape.matches_string_iff.1 (hstring rfl)
    have hcontents : source.slice (place.offset + 1) (before.length + (contents.length + 1)) =
        String.ofList contents := by
      have hsource : source.chars = (before ++ ['"']) ++ (contents ++ ('"' :: after)) := by simpa using hsource
      have := Source.slice_append hsource
      rw [List.length_append, List.length_singleton, Nat.add_assoc, Nat.add_comm 1] at this
      rw [hplace]
      exact this
    have hoffset : (place.advance ('"' :: (contents ++ ['"']))).offset - 1 = before.length + (contents.length + 1) := by
      simp [Place.advance, hplace]
    simp only [hoffset, hcontents, List.tail_cons, List.dropLast_concat]
  | number => simp only [String.toList_ofList]; rfl
  | _ => rfl

/-- The piece that is cut off first. -/
theorem outcome_firstPiece {source : Source} {place : Place} {before : List Char} {c : Char} {cs : List Char}
    (hsource : source.chars = before ++ c :: cs) (hplace : place.offset = before.length) :
    Piece.outcome source ⟨(Shape.cut c cs).1, place, place.advance (c :: cs.take (Shape.cut c cs).2)⟩ =
      LexUnit.outcome ⟨(Shape.cut c cs).1, place.line, c :: cs.take (Shape.cut c cs).2⟩ := by
  have hfront : source.chars = before ++ (c :: cs.take (Shape.cut c cs).2 ++ cs.drop (Shape.cut c cs).2) := by
    rw [front_append_drop, hsource]
  refine outcome_piece hfront hplace (fun hs => ?_)
  have hmatches : (Shape.cut c cs).1.Matches (c :: cs.take (Shape.cut c cs).2) :=
    Shape.matches_cut (by rw [hs]; simp)
  rwa [hs] at hmatches

/-- Behind the first piece the source goes on at the place where the piece stops. -/
theorem split_behind {source : Source} {place : Place} {before : List Char} {c : Char} {cs : List Char}
    (hsource : source.chars = before ++ c :: cs) (hplace : place.offset = before.length) (n : Nat) :
    source.chars = before ++ c :: cs.take n ++ cs.drop n ∧
      (place.advance (c :: cs.take n)).offset = (before ++ c :: cs.take n).length := by
  constructor
  · rw [List.append_assoc, front_append_drop, hsource]
  · rw [List.length_append, ← hplace]; rfl

theorem map_outcome_piecesFrom (source : Source) (place : Place) (before cs : List Char)
    (hsource : source.chars = before ++ cs) (hplace : place.offset = before.length) :
    (piecesFrom place cs).map (Piece.outcome source) = outcomesFrom place.line cs := by
  fun_induction piecesFrom place cs generalizing before with
  | case1 place => rw [outcomesFrom, unitsFrom]; rfl
  | case2 place c cs shape more hcut stop ih =>
    have hfirst := outcome_firstPiece hsource hplace
    obtain ⟨hrest, hlength⟩ := split_behind hsource hplace more
    rw [hcut] at hfirst
    rw [outcomesFrom, unitsFrom, hcut, List.map_cons, List.map_cons, hfirst]
    congr 1
    exact ih (before ++ c :: cs.take more) hrest hlength

theorem map_outcome_piecesOf (text : String) :
    (piecesOf text.toList).map (Piece.outcome (Source.ofString text)) = outcomesFrom 1 text.toList := by
  rw [piecesOf_eq]
  exact map_outcome_piecesFrom (Source.ofString text) .first [] text.toList rfl rfl

theorem filterMap_outcome_piecesOf {α : Type} (view : Outcome → Option α) (text : String) :
    (piecesOf text.toList).filterMap (fun p => view (p.outcome (Source.ofString text))) =
      (outcomesFrom 1 text.toList).filterMap view := by
  rw [← map_outcome_piecesOf, List.filterMap_map]
  rfl

/-! ## A scan, read off its units -/

namespace Outcome

def token? : Outcome → Option Token
  | token t => some t
  | _ => none

def diagnostic? : Outcome → Option Diagnostic
  | error line e => some ⟨line, "", e⟩
  | _ => none

@[simp] theorem token?_nothing : nothing.token? = none := rfl
@[simp] theorem token?_token (t : Token) : (token t).token? = some t := rfl
@[simp] theorem token?_error (line : Nat) (e : LexError) : (error line e).token? = none := rfl
@[simp] theorem diagnostic?_nothing : nothing.diagnostic? = none := rfl
@[simp] theorem diagnostic?_token (t : Token) : (token t).diagnostic? = none := rfl
@[simp] theorem diagnostic?_error (line : Nat) (e : LexError) : (error line e).diagnostic? = some ⟨line, "", e⟩ := rfl

end Outcome

/-- Outcomes may be changed before they are shown or behind, where showing goes along with the change. -/
theorem filterMap_map_comm {α : Type} {view : Outcome → Option α} {g : Outcome → Outcome} {h : α → α}
    (hcomm : ∀ o, view (g o) = (view o).map h) (outcomes : List Outcome) :
    (outcomes.map g).filterMap view = (outcomes.filterMap view).map h := by
  rw [List.filterMap_map, List.map_filterMap]
  exact congrArg (List.filterMap · outcomes) (funext hcomm)

section

variable {σ : Type u} (report : Reporter σ)

theorem tokens_foldl_step : ∀ (outcomes : List Outcome) (p : Progress σ),
    (outcomes.foldl (Progress.step report) p).tokens.toList = p.tokens.toList ++ outcomes.filterMap Outcome.token?
  | [], p => by simp
  | o :: outcomes, p => by
    rw [List.foldl_cons, tokens_foldl_step outcomes]
    cases o with
    | nothing => rfl
    | token t => rw [Progress.step, Progress.accept, Array.toList_push, List.append_assoc]; rfl
    | error line e => rfl

theorem reported_foldl_step : ∀ (outcomes : List Outcome) (p : Progress σ),
    (outcomes.foldl (Progress.step report) p).reported =
      (outcomes.filterMap Outcome.diagnostic?).foldl report p.reported
  | [], p => rfl
  | o :: outcomes, p => by
    rw [List.foldl_cons, reported_foldl_step outcomes]
    cases o <;> rfl

theorem scanWith_eq (s : σ) (text : String) :
    scanWith report s text =
      ((outcomesFrom 1 text.toList).foldl (Progress.step report) ⟨#[], #[], s⟩).accept
        (endToken (1 + text.toList.count '\n')) := by
  have hchars : (Source.ofString text).chars = text.toList := rfl
  have hend : endOfPieces .first (piecesOf text.toList) = Place.first.advance text.toList := by
    rw [piecesOf_eq, endOfPieces_piecesFrom]
  unfold scanWith
  simp only
  rw [hchars, hend, ← map_outcome_piecesOf, List.foldl_map]
  rfl

end

theorem foldl_push_toList {α : Type} : ∀ (l : List α) (a : Array α), (l.foldl Array.push a).toList = a.toList ++ l
  | [], a => by simp
  | x :: l, a => by rw [List.foldl_cons, foldl_push_toList l, Array.toList_push, List.append_assoc]; rfl

/-- **The tokens of a scan** are what the units of its text come to, and one more that ends it. -/
theorem tokens_scan (text : String) :
    (scan text).tokens =
      (outcomesFrom 1 text.toList).filterMap Outcome.token? ++ [endToken (1 + text.toList.count '\n')] := by
  unfold scan
  simp only [scanWith_eq, Progress.accept, Array.toList_push, tokens_foldl_step]
  rfl

theorem diagnostics_scan (text : String) :
    (scan text).diagnostics = (outcomesFrom 1 text.toList).filterMap Outcome.diagnostic? := by
  unfold scan
  simp only [scanWith_eq, Progress.accept, reported_foldl_step]
  rw [foldl_push_toList]
  rfl

end LoxLexer
