import LoxLexer.Proofs.Cursor
import LoxLexer.Proofs.Slices
import LoxLexer.Proofs.Units
/-!
# What every step of a walk keeps

Between two steps a walk stands somewhere in its text (`Walk.Stands`): some pieces are behind it, of the next one it
holds what the loop of its stage has read (`Walk.Held`), and its counters say where that is.  With this invariant
nothing a step asks for can be missing, so a step succeeds, keeps the invariant and goes on in its unit, leaves it with
the piece that the cut takes there, or leaves the text (`Walk.Moves`).

Main statement: `Walk.Inv.step`, put together from one lemma for each stage.
-/
namespace LoxLexer

/-- What is asked of the source is there: a character of it, or the text between two positions in order, each at the
start of a character or at the end. -/
def Access.Within (source : Source) : Access → Prop
  | character i => i < source.chars.length
  | slice i j => i ≤ j ∧ j ≤ source.chars.length ∧ source.byteOffset i ≤ source.byteOffset j ∧
      (⟨source.byteOffset i⟩ : String.Pos.Raw).IsValid source.text ∧
      (⟨source.byteOffset j⟩ : String.Pos.Raw).IsValid source.text

theorem Access.within_slice {source : Source} {i j : Nat} (hij : i ≤ j) (hj : j ≤ source.chars.length) :
    (slice i j).Within source :=
  ⟨hij, hj, source.byteOffset_le hij, source.isValid_byteOffset i, source.isValid_byteOffset j⟩

namespace Walk

variable {σ : Type}

/-! ## What holds between two steps -/

section

variable (report : Reporter σ) (source : Source) (s : σ)

def progressOf (done : List Piece) : Progress σ :=
  done.foldl (fun p piece => p.step report (piece.outcome source)) ⟨#[], #[], s⟩

/-- A walk in its text: the pieces up to `before` are `done`, of the next one `held` is read, and `rest` is ahead. -/
structure Stands (w : Walk σ) (done : List Piece) (before held rest : List Char) : Prop where
  text_eq : source.chars = before ++ (held ++ rest)
  pieces_eq : piecesOf source.chars = done ++ piecesFrom (Place.first.advance before) (held ++ rest)
  start_le : w.start ≤ w.current
  current_eq : w.current = before.length + held.length
  line_eq : w.line = 1 + (before ++ held).count '\n'
  progress_eq : w.progress = progressOf report source s done
  asked_within : ∀ a ∈ w.asked, a.Within source

end

/-- What the loop of a stage has read of a unit that starts on `line`. -/
inductive Held : Stage → Nat → List Char → List Char → Prop
  | between {line : Nat} {rest : List Char} : Held .between line [] rest
  | comment {line : Nat} {xs rest : List Char} (hxs : '\n' ∉ xs) : Held .comment line ('/' :: '/' :: xs) rest
  | string {line : Nat} {xs rest : List Char} (hxs : '"' ∉ xs) : Held (.string line) line ('"' :: xs) rest
  | digits {line : Nat} {c : Char} {ds rest : List Char} (hc : c.isDigit = true)
      (hds : ∀ d ∈ ds, d.isDigit = true) : Held .digits line (c :: ds) rest
  | fraction {line : Nat} {c : Char} {ds fs rest : List Char} (hc : c.isDigit = true)
      (hds : ∀ d ∈ ds, d.isDigit = true) (hfs : ∀ d ∈ fs, d.isDigit = true)
      (hfirst : fs = [] → ∃ d, rest.head? = some d ∧ d.isDigit = true) :
      Held .fraction line (c :: (ds ++ '.' :: fs)) rest
  | word {line : Nat} {c : Char} {xs rest : List Char} (hc : isWordStart c = true)
      (hxs : ∀ x ∈ xs, isWordChar x = true) : Held .word line (c :: xs) rest

/-- Where the unit starts that the next step is about. -/
def unitStart (w : Walk σ) : Nat := if w.stage = .between then w.current else w.start

section

variable (report : Reporter σ) (source : Source) (s : σ)

/-- Every walk stands somewhere in its text, or has come to its end with the whole scan. -/
inductive Inv (w : Walk σ) : Prop
  | scanning {done : List Piece} {before held rest : List Char}
      (stands : Stands report source s w done before held rest)
      (held_eq : Held w.stage (1 + before.count '\n') held rest) (start_eq : w.unitStart = before.length)
  | ended (stage_eq : w.stage = .done) (start_le : w.start ≤ w.current) (current_eq : w.current = source.chars.length)
      (line_eq : w.line = lineAt source.chars w.current)
      (progress_eq : w.progress = (progressOf report source s (piecesOf source.chars)).accept (endToken w.line))
      (asked_within : ∀ a ∈ w.asked, a.Within source)

end

/-- What a step can do: go on in a unit, leave it with the piece and the outcome it has, or leave the text. -/
inductive Moves (report : Reporter σ) (source : Source) (w w' : Walk σ) : Prop
  | reads (inside : w'.stage.isInside = true) (start_eq : w'.start = w.unitStart) (lt : w.current < w'.current)
      (progress_eq : w'.progress = w.progress)
  | closes {p : Piece} (mem : p ∈ piecesOf source.chars) (stage_eq : w'.stage = .between)
      (start_eq : p.start.offset = w.unitStart) (stop_eq : p.stop = ⟨w'.current, w'.line⟩)
      (lt : w.unitStart < w'.current) (le : w.current ≤ w'.current)
      (progress_eq : w'.progress = w.progress.step report (p.outcome source))
  | leaves (before : w.stage = .between) (le : source.chars.length ≤ w.current) (after : w'.stage = .done)

variable {report : Reporter σ} {source : Source} {s : σ} {w w' w₁ : Walk σ} {done : List Piece}
  {before held rest : List Char}

namespace Stands

section

variable (h : Stands report source s w done before held rest)

include h

theorem peek_eq : w.peek source = rest.head? := by
  have hlen : w.current = (before ++ held).length := by rw [h.current_eq, List.length_append]
  rw [peek, h.text_eq, ← List.append_assoc, hlen, List.getElem?_append_right (Nat.le_refl _), Nat.sub_self,
    List.head?_eq_getElem?]

theorem peekNext_eq : source.chars[w.current + 1]? = rest[1]? := by
  have hlen : w.current = (before ++ held).length := by rw [h.current_eq, List.length_append]
  rw [h.text_eq, ← List.append_assoc, hlen, List.getElem?_append_right (Nat.le_add_right _ _), Nat.add_sub_cancel_left]

theorem length_eq : source.chars.length = w.current + rest.length := by
  rw [h.text_eq, h.current_eq, List.length_append, List.length_append, Nat.add_assoc]

theorem current_le : w.current ≤ source.chars.length := by
  rw [h.length_eq]; exact Nat.le_add_right _ _

theorem line_eq_lineAt : w.line = lineAt source.chars w.current := by
  rw [h.line_eq, lineAt, h.text_eq, ← List.append_assoc, h.current_eq, ← List.length_append, List.take_left]

/-- There are no more lines than there are characters. -/
theorem line_le : w.line ≤ source.chars.length + 1 := by
  have hcount := List.count_le_length (a := '\n') (l := before ++ held)
  have hcurrent := h.current_le
  rw [h.current_eq, ← List.length_append] at hcurrent
  rw [h.line_eq]
  omega

end

theorem take {a : Char} (h : Stands report source s w done before held (a :: rest)) (w' : Walk σ)
    (hstart : w'.start = before.length) (hcurrent : w'.current = w.current + 1)
    (hline : w'.line = w.line + [a].count '\n') (hprogress : w'.progress = w.progress)
    (hasked : ∀ b ∈ w'.asked, b.Within source) :
    Stands report source s w' done before (held ++ [a]) rest where
  text_eq := by rw [h.text_eq, List.append_assoc]; rfl
  pieces_eq := by rw [h.pieces_eq, List.append_assoc]; rfl
  start_le := by rw [hstart, hcurrent, h.current_eq]; omega
  current_eq := by rw [hcurrent, h.current_eq, List.length_append, List.length_singleton, Nat.add_assoc]
  line_eq := by rw [hline, h.line_eq, ← List.append_assoc, Nat.add_assoc, ← List.count_append]
  progress_eq := hprogress.trans h.progress_eq
  asked_within := hasked

def piece (shape : Shape) (before held : List Char) : Piece :=
  ⟨shape, Place.first.advance before, (Place.first.advance before).advance held⟩

section

variable (h : Stands report source s w done before held rest) (shape : Shape)

include h

theorem offset_piece :
    (piece shape before held).start.offset = before.length ∧ (piece shape before held).stop.offset = w.current := by
  rw [h.current_eq]
  exact ⟨Nat.zero_add _, congrArg (· + held.length) (Nat.zero_add before.length)⟩

theorem line_piece :
    (piece shape before held).stop.line = w.line := by
  rw [h.line_eq, List.count_append, ← Nat.add_assoc]
  rfl

theorem startLine_piece (hheld : '\n' ∉ held) :
    (piece shape before held).start.line = w.line := by
  rw [h.line_eq, List.count_append, List.count_eq_zero.2 hheld]
  rfl

end

/-- With the last character of its piece a walk stands behind the piece. -/
theorem close {c : Char} (h : Stands report source s w done before (c :: held) rest) (shape : Shape) (w' : Walk σ)
    (hcuts : Shape.Cuts c (held ++ rest) shape held.length) (hstart : w'.start ≤ w'.current)
    (hcurrent : w'.current = w.current) (hline : w'.line = w.line)
    (hprogress : w'.progress = w.progress.step report ((piece shape before (c :: held)).outcome source))
    (hasked : ∀ b ∈ w'.asked, b.Within source) :
    Stands report source s w' (done ++ [piece shape before (c :: held)]) (before ++ c :: held) [] rest ∧
      piece shape before (c :: held) ∈ piecesOf source.chars := by
  -- the cut of what was ahead of `before` stops where the walk has stopped
  have hpieces : piecesFrom (Place.first.advance before) (c :: held ++ rest) =
      piece shape before (c :: held) :: piecesFrom (Place.first.advance (before ++ c :: held)) rest := by
    rw [List.cons_append, piecesFrom, hcuts.cut_eq, piece, ← Place.advance_advance]
    simp only [List.take_left, List.drop_left]
  have hall : piecesOf source.chars = done ++ [piece shape before (c :: held)] ++
      piecesFrom (Place.first.advance (before ++ c :: held)) rest := by
    rw [h.pieces_eq, hpieces, List.append_assoc]; rfl
  refine ⟨⟨?_, hall, hstart, ?_, ?_, ?_, hasked⟩, ?_⟩
  · rw [h.text_eq, List.append_assoc]; rfl
  · rw [hcurrent, h.current_eq, List.length_append]; rfl
  · rw [hline, h.line_eq, List.append_nil]
  · rw [hprogress, h.progress_eq, progressOf, progressOf, List.foldl_append]; rfl
  · rw [hall]; simp

end Stands

/-! ## Ends of units -/

/-- `w'` is `w` behind its unit, which has come to `o`. -/
structure Closes (report : Reporter σ) (source : Source) (w w' : Walk σ) (o : Outcome) : Prop where
  stage_eq : w'.stage = .between
  start_eq : w'.start = w.start
  current_eq : w'.current = w.current
  line_eq : w'.line = w.line
  progress_eq : w'.progress = w.progress.step report o
  asked_within : (∀ a ∈ w.asked, a.Within source) → ∀ a ∈ w'.asked, a.Within source

theorem closes_nothing : Closes report source w { w with stage := .between } .nothing := ⟨rfl, rfl, rfl, rfl, rfl, id⟩

theorem closes_addError (e : LexError) : Closes report source w (w.addError report e) (.error w.line e) :=
  ⟨rfl, rfl, rfl, rfl, rfl, id⟩

theorem Closes.of_slice {i j : Nat} {o : Outcome} (hij : i ≤ j) (hj : j ≤ source.chars.length)
    (h : Closes report source { w with asked := .slice i j :: w.asked } w' o) : Closes report source w w' o where
  stage_eq := h.stage_eq
  start_eq := h.start_eq
  current_eq := h.current_eq
  line_eq := h.line_eq
  progress_eq := h.progress_eq
  asked_within hasked := h.asked_within (List.forall_mem_cons.2 ⟨Access.within_slice hij hj, hasked⟩)

section

variable (report : Reporter σ)

theorem exists_addToken (hstart : w.start ≤ w.current) (hcurrent : w.current ≤ source.chars.length) (kind : TokenKind)
    (literal : Option Literal) (line : Nat) : ∃ w', w.addToken source kind literal line = .ok w' ∧
      Closes report source w w' (.token ⟨kind, source.slice w.start w.current, literal, line⟩) :=
  ⟨_, addToken_eq hstart kind literal line, rfl, rfl, rfl, rfl, rfl,
    fun h => List.forall_mem_cons.2 ⟨Access.within_slice hstart hcurrent, h⟩⟩

theorem exists_addWord (hstart : w.start ≤ w.current) (hcurrent : w.current ≤ source.chars.length) :
    ∃ w', w.addWord source = .ok w' ∧ Closes report source w w'
      (.token ⟨.ofWord (source.slice w.start w.current), source.slice w.start w.current, none, w.line⟩) := by
  rw [addWord, slice_eq hstart]
  obtain ⟨w', hw', hcloses⟩ := exists_addToken report
    (w := { w with asked := .slice w.start w.current :: w.asked }) hstart hcurrent
    (.ofWord (source.slice w.start w.current)) none w.line
  exact ⟨w', hw', hcloses.of_slice hstart hcurrent⟩

theorem exists_addNumber (hstart : w.start ≤ w.current) (hcurrent : w.current ≤ source.chars.length) :
    ∃ w', w.addNumber report source = .ok w' ∧ Closes report source w w'
      (let value := (Decimal.ofNumeral (source.slice w.start w.current).toList).toBinary64
       if value.isFinite then .token ⟨.number, source.slice w.start w.current, some (.number value), w.line⟩
       else .error w.line .malformedNumber) := by
  rw [addNumber, slice_eq hstart]
  simp only
  cases hvalue : (Decimal.ofNumeral (source.slice w.start w.current).toList).toBinary64.isFinite with
  | true =>
    obtain ⟨w', hw', hcloses⟩ := exists_addToken report
      (w := { w with asked := .slice w.start w.current :: w.asked }) hstart hcurrent .number
      (some (.number (Decimal.ofNumeral (source.slice w.start w.current).toList).toBinary64)) w.line
    refine ⟨w', ?_, hcloses.of_slice hstart hcurrent⟩
    rw [← hw']
    exact if_pos hvalue
  | false => exact ⟨_, if_neg (Bool.eq_false_iff.1 hvalue), (closes_addError _).of_slice hstart hcurrent⟩

/-- The closing quote is next, so there is room for the contents between two quotes. -/
theorem exists_addString (hstart : w.start < w.current) (hcurrent : w.current < source.chars.length)
    (hsize : source.chars.length + 1 < wordLimit) (line : Nat) :
    ∃ w', w.addString source line = .ok w' ∧ Closes report source { w with current := w.current + 1 } w'
      (.token ⟨.string, source.slice w.start (w.current + 1),
        some (.string (source.slice (w.start + 1) (w.current + 1 - 1))), line⟩) := by
  have hcontents : w.start + 1 ≤ w.current + 1 - 1 := hstart
  obtain ⟨w', hw', hcloses⟩ := exists_addToken report
    (w := { w with
      current := w.current + 1
      asked := .slice (w.start + 1) (w.current + 1 - 1) :: w.asked })
    (show w.start ≤ w.current + 1 by omega) (show w.current + 1 ≤ source.chars.length by omega) .string
    (some (.string (source.slice (w.start + 1) (w.current + 1 - 1)))) line
  refine ⟨w', ?_, hcloses.of_slice (w := { w with current := w.current + 1 }) hcontents (by omega)⟩
  rw [← hw', addString, skip_eq (by omega)]
  show (countUp w.start >>= fun i => countDown (w.current + 1) >>= fun j => _) = _
  rw [countUp_eq (by omega), countDown_eq (Nat.succ_pos _)]
  show (Walk.slice source { w with current := w.current + 1 } (w.start + 1) (w.current + 1 - 1) >>= fun _ => _) = _
  rw [slice_eq hcontents]
  rfl

end

/-! ## Characters ahead -/

theorem ne_newline_of_isWordChar {a : Char} (h : isWordChar a = true) : a ≠ '\n' := fun hn => by subst hn; cases h

theorem eq_add_count_of_ne {a : Char} (h : a ≠ '\n') (line : Nat) : line = line + [a].count '\n' := by
  rw [List.count_singleton, if_neg (by simpa using h), Nat.add_zero]

theorem ne_newline_of_isDigit {a : Char} (h : a.isDigit = true) : a ≠ '\n' := fun hn => by subst hn; cases h

theorem head_cases (p : Char → Bool) (rest : List Char) : (∃ a ahead, rest = a :: ahead ∧ p a = true) ∨
    ¬ rest.head?.any p = true ∧ ∀ b, rest.head? = some b → p b = false := by
  cases rest with
  | nil => exact .inr ⟨Bool.false_ne_true, nofun⟩
  | cons a ahead =>
    cases ha : p a with
    | true => exact .inl ⟨a, ahead, rfl, ha⟩
    | false => exact .inr ⟨Bool.eq_false_iff.1 ha, fun b hb => by rw [← Option.some.inj hb, ha]⟩

theorem exists_point (h : (rest[1]?.any Char.isDigit && decide (rest.head? = some '.')) = true) :
    ∃ d tail, rest = '.' :: d :: tail ∧ d.isDigit = true := by
  obtain ⟨hd, hhead⟩ := Bool.and_eq_true_iff.1 h
  obtain ⟨tail, rfl⟩ := List.head?_eq_some_iff.1 (of_decide_eq_true hhead)
  cases tail with
  | nil => cases hd
  | cons d tail => exact ⟨d, tail, rfl, hd⟩

/-! ## Going on and going over -/

section

variable (report : Reporter σ) (source : Source) (s : σ) (w : Walk σ)

/-- What is reached from `w` is a state, it stands in the text again, and it is one of the moves away. -/
def Goes (reached : Except Fault (Walk σ)) : Prop :=
  ∃ w', reached = .ok w' ∧ Inv report source s w' ∧ Moves report source w w'

end

theorem unitStart_of_isInside (h : w.stage.isInside = true) : w.unitStart = w.start :=
  if_neg (fun hstage => by rw [hstage] at h; cases h)

theorem goes_on (h : Stands report source s w' done before held rest)
    (hheld : Held w'.stage (1 + before.count '\n') held rest) (hinside : w'.stage.isInside = true)
    (hstart : w'.start = before.length) (hunit : w.unitStart = before.length) (hlt : w.current < w'.current)
    (hprogress : w'.progress = w.progress) : Goes report source s w (.ok w') := by
  have hunit' : w'.unitStart = before.length := by rw [unitStart_of_isInside hinside, hstart]
  exact ⟨w', rfl, .scanning h hheld hunit', .reads hinside (by rw [hstart, hunit]) hlt hprogress⟩

theorem goes_skip {a : Char} (h : Stands report source s w₁ done before held (a :: rest)) (ha : a ≠ '\n')
    (hheld : Held w₁.stage (1 + before.count '\n') (held ++ [a]) rest) (hinside : w₁.stage.isInside = true)
    (hstart : w₁.start = before.length) (hunit : w.unitStart = before.length) (hle : w.current ≤ w₁.current)
    (hprogress : w₁.progress = w.progress) (hsize : w₁.current + 1 < wordLimit) : Goes report source s w w₁.skip := by
  rw [skip_eq hsize]
  have htaken := h.take { w₁ with current := w₁.current + 1 } hstart rfl (eq_add_count_of_ne ha _) rfl h.asked_within
  exact goes_on htaken hheld hinside hstart hunit (Nat.lt_succ_of_le hle) hprogress

theorem goes_over {c : Char} {shape : Shape} {o : Outcome} (h : Stands report source s w₁ done before (c :: held) rest)
    (hcuts : Shape.Cuts c (held ++ rest) shape held.length)
    (ho : (Stands.piece shape before (c :: held)).outcome source = o) (hcloses : Closes report source w₁ w' o)
    (hunit : w.unitStart = before.length) (hle : w.current ≤ w₁.current) (hprogress : w₁.progress = w.progress) :
    Goes report source s w (.ok w') := by
  obtain ⟨hstage, hstart, hcurrent, hline, hstep, hasked⟩ := hcloses
  obtain ⟨hstands, hmem⟩ := h.close shape w' hcuts (by rw [hstart, hcurrent]; exact h.start_le) hcurrent hline
    (by rw [hstep, ho]) (hasked h.asked_within)
  obtain ⟨hfrom, hto⟩ := h.offset_piece shape
  have hcurrent' : w'.current = before.length + (c :: held).length := by rw [hcurrent, h.current_eq]
  refine ⟨w', rfl, .scanning hstands (by rw [hstage]; exact .between) ?_,
    .closes hmem hstage (by rw [hfrom, hunit]) ?_ ?_ (by rw [hcurrent]; exact hle) (by rw [hstep, ho, hprogress])⟩
  · rw [unitStart, if_pos hstage, hcurrent', List.length_append]
  · rw [hcurrent, hline, ← hto, ← h.line_piece shape]
  · rw [hunit, hcurrent', List.length_cons]; omega

/-! ## What a complete unit comes to -/

namespace Stands

section

variable (h : Stands report source s w done before held rest)

include h

theorem slice_piece (hstart : w.start = before.length)
    (shape : Shape) : source.slice (piece shape before held).start.offset (piece shape before held).stop.offset =
      source.slice w.start w.current := by
  rw [(h.offset_piece shape).1, (h.offset_piece shape).2, hstart]

theorem outcome_operator (hstart : w.start = before.length)
    (hheld : '\n' ∉ held) (op : Operator) : (piece (.operator op) before held).outcome source =
      .token ⟨.operator op, source.slice w.start w.current, none, w.line⟩ := by
  rw [← h.slice_piece hstart (.operator op), ← h.startLine_piece (.operator op) hheld]
  rfl

theorem outcome_word (hstart : w.start = before.length)
    (hheld : '\n' ∉ held) : (piece .word before held).outcome source =
      .token ⟨.ofWord (source.slice w.start w.current), source.slice w.start w.current, none, w.line⟩ := by
  rw [← h.slice_piece hstart .word, ← h.startLine_piece .word hheld]
  rfl

theorem outcome_number (hstart : w.start = before.length)
    (hheld : '\n' ∉ held) : (piece .number before held).outcome source =
      (let value := (Decimal.ofNumeral (source.slice w.start w.current).toList).toBinary64
       if value.isFinite then .token ⟨.number, source.slice w.start w.current, some (.number value), w.line⟩
       else .error w.line .malformedNumber) := by
  have hline := (h.startLine_piece .number hheld).trans (h.line_piece .number).symm
  unfold Piece.outcome
  simp only [h.slice_piece hstart, hline]
  rw [← h.line_piece .number]
  rfl

theorem outcome_bad (c : Char) :
    (piece (.bad c) before held).outcome source = .error w.line (.unexpectedCharacter c) := by
  rw [← h.line_piece (.bad c)]
  rfl

theorem outcome_openString :
    (piece .openString before held).outcome source = .error w.line .unterminatedString := by
  rw [← h.line_piece .openString]
  rfl

theorem outcome_string (hstart : w.start = before.length) :
    (piece .string before held).outcome source = .token ⟨.string, source.slice w.start w.current,
      some (.string (source.slice (w.start + 1) (w.current - 1))), 1 + before.count '\n'⟩ := by
  rw [← h.slice_piece hstart .string, hstart, ← (h.offset_piece .string).1, ← (h.offset_piece .string).2]
  rfl

end

theorem current_lt {a : Char} (h : Stands report source s w done before held (a :: rest)) :
    w.current < source.chars.length := by
  rw [h.length_eq]; exact Nat.lt_add_of_pos_right (Nat.succ_pos _)

theorem setStage (h : Stands report source s w done before held rest) (stage : Stage) :
    Stands report source s { w with stage } done before held rest :=
  ⟨h.text_eq, h.pieces_eq, h.start_le, h.current_eq, h.line_eq, h.progress_eq, h.asked_within⟩

end Stands

/-! ## Units that are complete -/

theorem goes_operator {c : Char} {op : Operator} (h : Stands report source s w₁ done before (c :: held) rest)
    (hcuts : Shape.Cuts c (held ++ rest) (.operator op) held.length) (hnewline : '\n' ∉ c :: held)
    (hstart : w₁.start = before.length) (hunit : w.unitStart = before.length) (hle : w.current ≤ w₁.current)
    (hprogress : w₁.progress = w.progress) :
    Goes report source s w (w₁.addToken source (.operator op) none w₁.line) := by
  obtain ⟨w', hw', hcloses⟩ := exists_addToken report h.start_le h.current_le (.operator op) none w₁.line
  rw [hw']
  exact goes_over h hcuts (h.outcome_operator hstart hnewline op) hcloses hunit hle hprogress

theorem goes_number {c : Char} (h : Stands report source s w done before (c :: held) rest)
    (hunit : w.unitStart = before.length) (hstart : w.start = before.length)
    (hcuts : Shape.Cuts c (held ++ rest) .number held.length) :
    Goes report source s w (w.addNumber report source) := by
  have hmatches : Shape.Matches .number (c :: held) := by
    have hshape : ∀ b, (Shape.cut c (held ++ rest)).1 ≠ .bad b := by rw [hcuts.cut_eq]; nofun
    have hcut := Shape.matches_cut hshape
    rwa [hcuts.cut_eq, List.take_left] at hcut
  obtain ⟨w', hw', hcloses⟩ := exists_addNumber report h.start_le h.current_le
  rw [hw']
  exact goes_over h hcuts (h.outcome_number hstart (Shape.newline_not_mem_of_matches_number hmatches)) hcloses hunit
    (Nat.le_refl _) rfl

/-- With a first digit behind the point the fraction goes on as far as there are digits. -/
theorem cuts_fraction {c : Char} {ds fs : List Char} (hc : c.isDigit = true) (hds : ∀ x ∈ ds, x.isDigit = true)
    (hne : fs ≠ []) (hfs : ∀ x ∈ fs, x.isDigit = true) (hrest : ∀ b, rest.head? = some b → b.isDigit = false) :
    Shape.Cuts c ((ds ++ '.' :: fs) ++ rest) .number (ds ++ '.' :: fs).length := by
  obtain ⟨d, fs, rfl⟩ := List.exists_cons_of_ne_nil hne
  obtain ⟨hd, hfs⟩ := List.forall_mem_cons.1 hfs
  have hlength : (ds ++ '.' :: d :: fs).length = ds.length + 2 + fs.length := by
    simp only [List.length_append, List.length_cons]; omega
  rw [hlength, List.append_assoc]
  exact .fraction hc hds hd hfs hrest

/-! ## Steps, by the stage -/

section

variable (hsize : source.chars.length + 2 < wordLimit)

include hsize

theorem goes_comment (h : Stands report source s w done before held rest)
    (hheld : Held w.stage (1 + before.count '\n') held rest) (hunit : w.unitStart = before.length)
    (hstage : w.stage = .comment) : Goes report source s w (w.step report source) := by
  have hinside : w.stage.isInside = true := by rw [hstage]; rfl
  have hstart : w.start = before.length := by rw [← hunit, unitStart_of_isInside hinside]
  simp only [step, hstage, h.peek_eq]
  rw [hstage] at hheld
  cases hheld with | @comment _ xs _ hxs
  obtain ⟨a, ahead, rfl, ha⟩ | ⟨hstop, hrest⟩ := head_cases (fun a => decide (a ≠ '\n')) rest
  · have hlt := h.current_lt
    have ha' : a ≠ '\n' := of_decide_eq_true ha
    rw [if_pos (by exact ha)]
    refine goes_skip h ha' ?_ hinside hstart hunit (Nat.le_refl _) rfl (by omega)
    rw [hstage]
    exact .comment (by simpa [hxs] using ha'.symm)
  · rw [if_neg hstop]
    have hnewline : ∀ b, rest.head? = some b → b = '\n' := fun b hb => by simpa using hrest b hb
    exact goes_over h (.comment hxs hnewline) rfl closes_nothing hunit (Nat.le_refl _) rfl

theorem goes_word (h : Stands report source s w done before held rest)
    (hheld : Held w.stage (1 + before.count '\n') held rest) (hunit : w.unitStart = before.length)
    (hstage : w.stage = .word) : Goes report source s w (w.step report source) := by
  have hinside : w.stage.isInside = true := by rw [hstage]; rfl
  have hstart : w.start = before.length := by rw [← hunit, unitStart_of_isInside hinside]
  simp only [step, hstage, h.peek_eq]
  rw [hstage] at hheld
  cases hheld with | @word _ c xs _ hc hxs
  obtain ⟨a, ahead, rfl, ha⟩ | ⟨hstop, hrest⟩ := head_cases isWordChar rest
  · have hlt := h.current_lt
    rw [if_pos (by exact ha)]
    refine goes_skip h (ne_newline_of_isWordChar ha) ?_ hinside hstart hunit (Nat.le_refl _) rfl (by omega)
    rw [hstage]
    exact .word hc (List.forall_mem_append.2 ⟨hxs, List.forall_mem_singleton.2 ha⟩)
  · have hline : '\n' ∉ c :: xs := by
      intro hmem
      rcases List.mem_cons.1 hmem with rfl | hmem
      · cases hc
      · exact ne_newline_of_isWordChar (hxs _ hmem) rfl
    rw [if_neg hstop]
    obtain ⟨w', hw', hcloses⟩ := exists_addWord report h.start_le h.current_le
    rw [hw']
    exact goes_over h (.word hc hxs hrest) (h.outcome_word hstart hline) hcloses hunit (Nat.le_refl _) rfl

theorem goes_digits (h : Stands report source s w done before held rest)
    (hheld : Held w.stage (1 + before.count '\n') held rest) (hunit : w.unitStart = before.length)
    (hstage : w.stage = .digits) : Goes report source s w (w.step report source) := by
  have hinside : w.stage.isInside = true := by rw [hstage]; rfl
  have hstart : w.start = before.length := by rw [← hunit, unitStart_of_isInside hinside]
  have hcurrent := h.current_le
  simp only [step, hstage, h.peek_eq]
  rw [peekNext_eq (by omega), h.peekNext_eq]
  rw [hstage] at hheld
  cases hheld with | @digits _ c ds _ hc hds
  obtain ⟨a, ahead, rfl, ha⟩ | ⟨hstop, hrest⟩ := head_cases Char.isDigit rest
  · have hlt := h.current_lt
    rw [if_pos (by exact ha)]
    refine goes_skip h (ne_newline_of_isDigit ha) ?_ hinside hstart hunit (Nat.le_refl _) rfl (by omega)
    rw [hstage]
    exact .digits hc (List.forall_mem_append.2 ⟨hds, List.forall_mem_singleton.2 ha⟩)
  · rw [if_neg hstop]
    -- the character behind the next one has been looked at, whatever the next one is
    show Goes report source s w (if (rest[1]?.any Char.isDigit && decide (rest.head? = some '.')) = true then
      Walk.skip { w with stage := .fraction } else w.addNumber report source)
    by_cases hpoint : (rest[1]?.any Char.isDigit && decide (rest.head? = some '.')) = true
    · rw [if_pos hpoint]
      obtain ⟨d, tail, rfl, hd⟩ := exists_point hpoint
      have hlt := h.current_lt
      exact goes_skip (h.setStage .fraction) (by decide) (.fraction hc hds nofun (fun _ => ⟨d, rfl, hd⟩)) rfl
        hstart hunit (Nat.le_refl _) rfl (show w.current + 1 < wordLimit by omega)
    · rw [if_neg hpoint]
      refine goes_number h hunit hstart (.whole hc hds hrest (fun d tail hrest' => ?_))
      subst hrest'
      simpa using hpoint

theorem goes_fraction (h : Stands report source s w done before held rest)
    (hheld : Held w.stage (1 + before.count '\n') held rest) (hunit : w.unitStart = before.length)
    (hstage : w.stage = .fraction) : Goes report source s w (w.step report source) := by
  have hinside : w.stage.isInside = true := by rw [hstage]; rfl
  have hstart : w.start = before.length := by rw [← hunit, unitStart_of_isInside hinside]
  simp only [step, hstage, h.peek_eq]
  rw [hstage] at hheld
  cases hheld with | @fraction _ c ds fs _ hc hds hfs hfirst
  obtain ⟨a, ahead, rfl, ha⟩ | ⟨hstop, hrest⟩ := head_cases Char.isDigit rest
  · have hlt := h.current_lt
    rw [if_pos (by exact ha)]
    refine goes_skip h (ne_newline_of_isDigit ha) ?_ hinside hstart hunit (Nat.le_refl _) rfl (by omega)
    rw [hstage, List.cons_append, List.append_assoc]
    exact .fraction hc hds (List.forall_mem_append.2 ⟨hfs, List.forall_mem_singleton.2 ha⟩)
      (fun hnil => by simp at hnil)
  · have hne : fs ≠ [] := by
      intro hnil
      obtain ⟨d, hhead, hd⟩ := hfirst hnil
      rw [hrest d hhead] at hd
      cases hd
    rw [if_neg hstop]
    exact goes_number h hunit hstart (cuts_fraction hc hds hne hfs hrest)

/-- Where a string stops, it is closed by a quote or open at the end of the text. -/
theorem goes_quote {line : Nat} {xs : List Char} (h : Stands report source s w done before ('"' :: xs) rest)
    (hxs : '"' ∉ xs) (hrest : ∀ b, rest.head? = some b → b = '"') (hstart : w.start = before.length)
    (hunit : w.unitStart = before.length) (hline : 1 + before.count '\n' = line) : Goes report source s w
      (if w.atEnd source then .ok (w.addError report .unterminatedString) else w.addString source line) := by
  cases rest with
  | nil =>
    have hend : w.atEnd source = true := decide_eq_true (Nat.le_of_eq h.length_eq)
    have hcuts : Shape.Cuts '"' (xs ++ []) .openString xs.length := by rw [List.append_nil]; exact .openString hxs
    rw [if_pos hend]
    exact goes_over h hcuts h.outcome_openString (closes_addError _) hunit (Nat.le_refl _) rfl
  | cons b tail =>
    obtain rfl : b = '"' := hrest b rfl
    have hlt := h.current_lt
    have hend : ¬ w.atEnd source = true := fun hend => absurd (of_decide_eq_true hend) (Nat.not_le_of_lt hlt)
    have hopened : w.start < w.current := by rw [hstart, h.current_eq, List.length_cons]; omega
    have hcuts : Shape.Cuts '"' ((xs ++ ['"']) ++ tail) .string (xs ++ ['"']).length := by
      rw [List.append_assoc, List.length_append]
      exact .string hxs
    have hclosed := h.take { w with current := w.current + 1 } hstart rfl rfl rfl h.asked_within
    obtain ⟨w', hw', hcloses⟩ := exists_addString report hopened hlt (by omega) (1 + before.count '\n')
    rw [if_neg hend, ← hline, hw']
    exact goes_over hclosed hcuts (hclosed.outcome_string hstart) hcloses hunit (Nat.le_succ _) rfl

theorem goes_string {line : Nat} (h : Stands report source s w done before held rest)
    (hheld : Held w.stage (1 + before.count '\n') held rest) (hunit : w.unitStart = before.length)
    (hstage : w.stage = .string line) : Goes report source s w (w.step report source) := by
  have hinside : w.stage.isInside = true := by rw [hstage]; rfl
  have hstart : w.start = before.length := by rw [← hunit, unitStart_of_isInside hinside]
  have hle := h.line_le
  simp only [step, hstage, h.peek_eq]
  rw [hstage] at hheld
  generalize hl : 1 + before.count '\n' = l at hheld
  cases hheld with | @string _ xs _ hxs
  obtain ⟨a, ahead, rfl, ha⟩ | ⟨hstop, hrest⟩ := head_cases (fun a => decide (a ≠ '"')) rest
  · have hlt := h.current_lt
    have ha' : a ≠ '"' := of_decide_eq_true ha
    have hasked : ∀ b ∈ Access.character w.current :: w.asked, b.Within source :=
      List.forall_mem_cons.2 ⟨hlt, h.asked_within⟩
    have hxs' : '"' ∉ xs ++ [a] := by simpa [hxs] using ha'.symm
    rw [if_pos (by exact ha), advance_eq h.peek_eq (by omega)]
    show Goes report source s w (if a = '\n'
      then Walk.feedLine { w with current := w.current + 1, asked := .character w.current :: w.asked } else .ok _)
    -- the two cases differ in the line only
    by_cases hn : a = '\n'
    · subst hn
      rw [if_pos rfl, feedLine_eq (by show w.line + 1 < wordLimit; omega)]
      refine goes_on (h.take _ hstart rfl rfl rfl hasked) ?_ hinside hstart hunit (Nat.lt_succ_self _) rfl
      rw [hstage, hl]
      exact .string hxs'
    · rw [if_neg hn]
      refine goes_on (h.take _ hstart rfl (eq_add_count_of_ne hn _) rfl hasked) ?_ hinside hstart hunit
        (Nat.lt_succ_self _) rfl
      rw [hstage, hl]
      exact .string hxs'
  · rw [if_neg hstop]
    exact goes_quote hsize h hxs (fun b hb => by simpa using hrest b hb) hstart hunit hl

theorem goes_mark {c : Char} (h : Stands report source s w₁ done before [c] rest) (hc : Shape.isMark c = true)
    (hstart : w₁.start = before.length) (hunit : w.unitStart = before.length) (hle : w.current ≤ w₁.current)
    (hprogress : w₁.progress = w.progress) : Goes report source s w (w₁.enter report source c) := by
  obtain ⟨hblank, hquote, hdigit, hword⟩ := Shape.isMark_iff.1 hc
  have hne : c ≠ '\n' := by
    rintro rfl
    cases hblank
  have hnewline : '\n' ∉ [c] := fun hmem => hne (List.mem_singleton.1 hmem).symm
  rw [enter, if_neg hne, if_neg (by simp [hblank]), if_neg hquote, if_neg (by simp [hdigit]), if_neg (by simp [hword]),
    h.peek_eq]
  by_cases hslash : c = '/' ∧ rest.head? = some '/'
  · obtain ⟨rfl, hhead⟩ := hslash
    obtain ⟨tail, rfl⟩ := List.head?_eq_some_iff.1 hhead
    have hlt := h.current_lt
    rw [if_pos (by rw [hhead]; rfl)]
    exact goes_skip (h.setStage .comment) (by decide) (.comment nofun) rfl hstart hunit hle hprogress
      (show w₁.current + 1 < wordLimit by omega)
  rw [if_neg (by simpa using hslash)]
  by_cases hequal : rest.head? = some '=' → Operator.withEqual? c = none
  · have hpair : (if rest.head? = some '=' then Operator.withEqual? c else none) = none := by
      split
      · exact hequal ‹_›
      · rfl
    rw [hpair]
    cases hop : Operator.single? c with
    | none => exact goes_over h (.bad hc hop hslash hequal) (h.outcome_bad c) (closes_addError _) hunit hle hprogress
    | some op =>
      exact goes_operator h (.alone (Operator.single?_eq_some.1 hop) hslash hequal) hnewline hstart hunit hle hprogress
  · obtain ⟨hhead, hop⟩ := Classical.not_imp.1 hequal
    obtain ⟨tail, rfl⟩ := List.head?_eq_some_iff.1 hhead
    obtain ⟨op, hop⟩ := Option.ne_none_iff_exists'.1 hop
    have hlt := h.current_lt
    have htaken := h.take { w₁ with current := w₁.current + 1 } hstart rfl rfl rfl h.asked_within
    rw [if_pos hhead, hop]
    show Goes report source s w (w₁.skip >>= fun w => w.addToken source (.operator op) none w₁.line)
    rw [skip_eq (by omega)]
    exact goes_operator htaken (.pair (Operator.withEqual?_eq_some.1 hop)) (by simpa using hnewline) hstart hunit
      (Nat.le_succ_of_le hle) hprogress

theorem goes_enter {c : Char} (h : Stands report source s w₁ done before [c] rest) (hnewline : c ≠ '\n')
    (hstage : w₁.stage = .between) (hstart : w₁.start = before.length) (hunit : w.unitStart = before.length)
    (hlt : w.current < w₁.current) (hprogress : w₁.progress = w.progress) :
    Goes report source s w (w₁.enter report source c) := by
  rcases Shape.first_cases c with hc | rfl | hc | hc | hc
  · rw [enter, if_neg hnewline, if_pos hc]
    exact goes_over h (.blank hc) rfl ⟨hstage, rfl, rfl, rfl, rfl, id⟩ hunit (Nat.le_of_lt hlt) hprogress
  · rw [enter, if_neg hnewline, if_neg (by decide), if_pos rfl]
    have hline : w₁.line = 1 + before.count '\n' := by rw [h.line_eq, List.count_append]; rfl
    refine goes_on (h.setStage _) ?_ rfl hstart hunit hlt hprogress
    rw [hline]
    exact .string nofun
  · rw [enter, if_neg hnewline, if_neg (by simp [isBlank_of_isDigit hc]), if_neg (ne_quote_of_isDigit hc), if_pos hc]
    exact goes_on (h.setStage .digits) (.digits hc nofun) rfl hstart hunit hlt hprogress
  · rw [enter, if_neg hnewline, if_neg (by simp [isBlank_of_isWordStart hc]), if_neg (ne_quote_of_isWordStart hc),
      if_neg (by simp [isDigit_of_isWordStart hc]), if_pos hc]
    exact goes_on (h.setStage .word) (.word hc nofun) rfl hstart hunit hlt hprogress
  · exact goes_mark hsize h hc hstart hunit (Nat.le_of_lt hlt) hprogress

theorem goes_between (h : Stands report source s w done before held rest)
    (hheld : Held w.stage (1 + before.count '\n') held rest) (hunit : w.unitStart = before.length)
    (hstage : w.stage = .between) : Goes report source s w (w.step report source) := by
  simp only [step, hstage]
  rw [hstage] at hheld
  cases hheld
  have hstart : w.current = before.length := by rw [h.current_eq]; rfl
  cases rest with
  | nil =>
    have hend : w.current = source.chars.length := h.length_eq.symm
    have hdone : done = piecesOf source.chars := by
      rw [h.pieces_eq, List.append_nil, piecesFrom, List.append_nil]
    have hempty : source.slice w.current w.current = "" := by
      rw [source.slice_eq (Nat.le_refl _), List.drop_eq_nil_of_le (List.length_take_le _ _)]
    rw [if_pos (by exact decide_eq_true (Nat.le_of_eq hend.symm)), addToken_eq (Nat.le_refl _)]
    refine ⟨_, rfl, .ended rfl (Nat.le_refl _) hend h.line_eq_lineAt ?_ ?_, .leaves hstage (Nat.le_of_eq hend.symm) rfl⟩
    · show w.progress.accept ⟨.eof, source.slice w.current w.current, none, w.line⟩ = _
      rw [hempty, h.progress_eq, hdone]
      rfl
    · exact List.forall_mem_cons.2 ⟨Access.within_slice (Nat.le_refl _) h.current_le, h.asked_within⟩
  | cons c cs =>
    have hlt := h.current_lt
    have hasked : ∀ b ∈ Access.character w.current :: w.asked, b.Within source :=
      List.forall_mem_cons.2 ⟨hlt, h.asked_within⟩
    rw [if_neg (by exact fun hend => absurd (of_decide_eq_true hend) (Nat.not_le_of_lt hlt)),
      advance_eq (by exact h.peek_eq) (by show w.current + 1 < wordLimit; omega)]
    let taken : Walk σ :=
      ⟨.between, w.current, w.current + 1, w.line, .character w.current :: w.asked, w.progress⟩
    show Goes report source s w (taken.enter report source c)
    by_cases hn : c = '\n'
    · subst hn
      have hle := h.line_le
      rw [enter, if_pos rfl, feedLine_eq (by show w.line + 1 < wordLimit; omega)]
      have htaken := h.take { taken with line := w.line + 1 } hstart rfl rfl rfl hasked
      exact goes_over htaken (.blank rfl) rfl ⟨rfl, rfl, rfl, rfl, rfl, id⟩ hunit (Nat.le_succ _) rfl
    · have htaken := h.take taken hstart rfl (eq_add_count_of_ne hn _) rfl hasked
      exact goes_enter hsize htaken hn rfl hstart hunit (Nat.lt_succ_self _) rfl

/-- **A step succeeds and keeps the invariant**, and it moves on unless all is done. -/
theorem Inv.step (h : Inv report source s w) :
    ∃ w', w.step report source = .ok w' ∧ Inv report source s w' ∧ (w.stage ≠ .done → Moves report source w w') := by
  obtain ⟨stands, hheld, hunit⟩ | hended := h
  · have hgoes : Goes report source s w (w.step report source) := by
      cases hstage : w.stage with
      | between => exact goes_between hsize stands hheld hunit hstage
      | comment => exact goes_comment hsize stands hheld hunit hstage
      | string line => exact goes_string hsize stands hheld hunit hstage
      | digits => exact goes_digits hsize stands hheld hunit hstage
      | fraction => exact goes_fraction hsize stands hheld hunit hstage
      | word => exact goes_word hsize stands hheld hunit hstage
      | done =>
        rw [hstage] at hheld
        cases hheld
    obtain ⟨w', hw', hinv, hmoves⟩ := hgoes
    exact ⟨w', hw', hinv, fun _ => hmoves⟩
  · exact ⟨w, by simp only [Walk.step, hended], .ended ‹_› ‹_› ‹_› ‹_› ‹_› ‹_›, fun hne => absurd hended hne⟩

end

end Walk
end LoxLexer
