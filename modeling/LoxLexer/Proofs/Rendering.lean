import LoxLexer.Proofs.Meaning
/-!
# Well-formed token lists and their text

A list of tokens is well-formed when every token has the lexeme and the literal of its kind, the lines do not go back,
and the one token of the end stands last (`WellFormed`).  `render` writes such a list as a text, every token on its
line behind a space.  Main statement: `wellFormed_scan_render`, scans return well-formed lists, and scanning the text
of one gives it back.
-/
namespace LoxLexer

/-- A token that is not the last, with what its kind asks for: an operator's spelling, a reserved word, another word,
a text without quotes between two, or a numeral with a finite value (`proper_number_iff` says it by what the numeral
denotes). -/
inductive Token.Proper : Token → Prop
  | operator (op : Operator) (line : Nat) : Proper ⟨.operator op, String.ofList op.spelling, none, line⟩
  | keyword (k : Keyword) (line : Nat) : Proper ⟨.keyword k, k.spelling, none, line⟩
  | identifier {w : String} (hw : Shape.Matches .word w.toList) (hk : ∀ k : Keyword, k.spelling ≠ w) (line : Nat) :
      Proper ⟨.identifier, w, none, line⟩
  | string {contents : List Char} (h : '"' ∉ contents) (line : Nat) :
      Proper ⟨.string, String.ofList ('"' :: (contents ++ ['"'])), some (.string (String.ofList contents)), line⟩
  | number {cs : List Char} (hm : Shape.Matches .number cs) (hv : (Decimal.ofNumeral cs).toBinary64.isFinite = true)
      (line : Nat) : Proper ⟨.number, String.ofList cs, some (.number (Decimal.ofNumeral cs).toBinary64), line⟩

def Token.endLine (t : Token) : Nat := t.line + t.lexeme.toList.count '\n'

/-- Proper tokens on lines from `line` on, none before the end of the one before it, and the token of the end. -/
inductive WellFormedFrom : Nat → List Token → Prop
  | eof {line last : Nat} (hline : line ≤ last) : WellFormedFrom line [⟨.eof, "", none, last⟩]
  | cons {line : Nat} {t : Token} {ts : List Token} (hline : line ≤ t.line) (ht : t.Proper)
      (hts : WellFormedFrom t.endLine ts) : WellFormedFrom line (t :: ts)

def WellFormed (ts : List Token) : Prop := WellFormedFrom 1 ts

/-! ## Scans are well-formed -/

theorem Denotes.proper {u : LexUnit} {t : Token} (h : Denotes u (.token t)) (hm : u.shape.Matches u.chars) :
    t.Proper := by
  cases h with
  | operator op =>
    cases hm
    exact .operator op _
  | keyword k => exact .keyword k _
  | identifier hk => exact .identifier hm hk _
  | string =>
    obtain ⟨contents, hq, heq⟩ := Shape.matches_string_iff.1 hm
    obtain rfl := List.append_cancel_right (List.cons.inj heq).2
    exact .string hq _
  | number hv => exact .number hm hv _

theorem WellFormedFrom.mono {line line' : Nat} {ts : List Token} (h : WellFormedFrom line ts) (hle : line' ≤ line) :
    WellFormedFrom line' ts := by
  cases h with
  | eof hline => exact .eof (Nat.le_trans hle hline)
  | cons hline ht hts => exact .cons (Nat.le_trans hle hline) ht hts

theorem wellFormedFrom_outcomes (line : Nat) (cs : List Char) :
    WellFormedFrom line ((outcomesFrom line cs).filterMap Outcome.token? ++ [endToken (line + cs.count '\n')]) := by
  unfold outcomesFrom
  -- on the units; only a token pins its line, so after anything else the list from further down is weakened
  fun_induction unitsFrom line cs with
  | case1 line => exact .eof (Nat.le_refl line)
  | case2 line c cs front ih =>
    have hlawful := LexUnit.lawful_cut line c cs
    have hcount : line + (c :: cs).count '\n' =
        line + front.count '\n' + (cs.drop (Shape.cut c cs).2).count '\n' := by
      rw [Nat.add_assoc, count_front_add]
    rw [hcount, List.map_cons]
    cases ho : LexUnit.outcome ⟨(Shape.cut c cs).1, line, front⟩ with
    | nothing => exact ih.mono (Nat.le_add_right _ _)
    | error _ _ => exact ih.mono (Nat.le_add_right _ _)
    | token t =>
      have hd := (denotes_iff hlawful).2 ho.symm
      obtain ⟨hline, hchars⟩ := hd.token_eq
      refine .cons (Nat.le_of_eq hline.symm) (hd.proper (hlawful.matches_of_token ho)) ?_
      rw [Token.endLine, hline, hchars]
      exact ih

theorem wellFormed_tokens_scan (text : String) : WellFormed (scan text).tokens := by
  rw [tokens_scan]
  exact wellFormedFrom_outcomes 1 text.toList

/-! ## Rendering -/

/-- From `line` on: line feeds up to the line of the next token, a space, its lexeme. -/
def renderFrom (line : Nat) : List Token → List Char
  | [] => []
  | t :: ts => List.replicate (t.line - line) '\n' ++ ' ' :: (t.lexeme.toList ++ renderFrom t.endLine ts)

def render (ts : List Token) : String := String.ofList (renderFrom 1 ts)

/-- Before each token, and behind the last but one, stands a blank. -/
theorem renderFrom_eq_cons (line : Nat) (t : Token) (ts : List Token) :
    ∃ b rest, renderFrom line (t :: ts) = b :: rest ∧ isBlank b = true := by
  rw [renderFrom]
  cases t.line - line with
  | zero => exact ⟨' ', _, rfl, rfl⟩
  | succ n => exact ⟨'\n', _, rfl, rfl⟩

theorem outcomesFrom_feeds (cs : List Char) : ∀ (n line : Nat),
    outcomesFrom line (List.replicate n '\n' ++ ' ' :: cs) =
      List.replicate (n + 1) .nothing ++ outcomesFrom (line + n) cs
  | 0, line => outcomesFrom_blank rfl line cs
  | n + 1, line => by
    rw [List.replicate_succ, List.cons_append, outcomesFrom_blank rfl, List.count_singleton_self,
      outcomesFrom_feeds cs n, Nat.add_assoc, Nat.add_comm 1]
    rfl

theorem matches_spelling (k : Keyword) : Shape.Matches .word k.spelling.toList := by
  cases k <;> exact .word (by decide) (fun x hx => Shape.isWordChar_iff.1 (List.all_eq_true.1 (by decide) x hx))

theorem Token.Proper.exists_unit {t : Token} (h : t.Proper) :
    ∃ shape, shape.Matches t.lexeme.toList ∧ shape ≠ .openString ∧ shape ≠ .comment ∧
      Denotes ⟨shape, t.line, t.lexeme.toList⟩ (.token t) := by
  cases h with
  | operator op line =>
    rw [String.toList_ofList]
    exact ⟨.operator op, .operator op, by simp, by simp, .operator op⟩
  | keyword k line => exact ⟨.word, matches_spelling k, by simp, by simp, .keyword k⟩
  | identifier hw hk line => exact ⟨.word, hw, by simp, by simp, .identifier hk⟩
  | string hq line =>
    rw [String.toList_ofList]
    exact ⟨.string, .string hq, by simp, by simp, .string⟩
  | number hm hv line =>
    rw [String.toList_ofList]
    exact ⟨.number, hm, by simp, by simp, .number hv⟩

theorem outcomesFrom_lexeme {t : Token} (ht : t.Proper) {b : Char} (hb : isBlank b = true) (rest : List Char) :
    outcomesFrom t.line (t.lexeme.toList ++ b :: rest) = .token t :: outcomesFrom t.endLine (b :: rest) := by
  obtain ⟨shape, hm, hopen, hcomment, hd⟩ := ht.exists_unit
  have hunit := unitsFrom_of_matches hm t.line
  rw [outcomesFrom, unitsFrom_append_blank hb, hunit, List.map_append, List.map_singleton,
    ← (denotes_iff (.inl hm)).1 hd]
  · rfl
  · rw [hunit]
    intro u hu
    obtain rfl := List.mem_singleton.1 hu
    exact ⟨hopen, fun h => absurd h hcomment⟩

/-- What a well-formed list renders to comes to its tokens and to no error, and ends on the line of the last token. -/
theorem outcomesFrom_renderFrom {line : Nat} {ts : List Token} (h : WellFormedFrom line ts) :
    (outcomesFrom line (renderFrom line ts)).filterMap Outcome.token? ++
        [endToken (line + (renderFrom line ts).count '\n')] = ts ∧
      (outcomesFrom line (renderFrom line ts)).filterMap Outcome.diagnostic? = [] := by
  induction h with
  -- the lines to `last` and the space before the empty lexeme are blank
  | @eof line last hline =>
    have hlast : line + (last - line) = last := by omega
    have hchars : renderFrom line [⟨.eof, "", none, last⟩] = List.replicate (last - line) '\n' ++ [' '] := by
      simp [renderFrom]
    rw [hchars, outcomesFrom_feeds, outcomesFrom_nil]
    simp [hlast, endToken]
  | @cons line t ts hline ht hts ih =>
    -- some token follows, so a blank stands behind the lexeme of `t`
    obtain ⟨t', ts', rfl⟩ := List.exists_cons_of_ne_nil (l := ts) (by rintro rfl; cases hts)
    obtain ⟨b, rest, hrest, hb⟩ := renderFrom_eq_cons t.endLine t' ts'
    have hstart : line + (t.line - line) = t.line := by omega
    have hend : line + (renderFrom line (t :: t' :: ts')).count '\n' =
        t.endLine + (renderFrom t.endLine (t' :: ts')).count '\n' := by
      rw [renderFrom, List.count_append, List.count_replicate_self, List.count_cons_of_ne (by decide),
        List.count_append, Token.endLine]
      omega
    have houtcomes : outcomesFrom line (renderFrom line (t :: t' :: ts')) =
        List.replicate (t.line - line + 1) .nothing ++
          .token t :: outcomesFrom t.endLine (renderFrom t.endLine (t' :: ts')) := by
      rw [renderFrom, outcomesFrom_feeds, hstart, hrest, outcomesFrom_lexeme ht hb]
    rw [hend, houtcomes]
    refine ⟨?_, ?_⟩
    · simp [ih.1]
    · simp only [List.filterMap_append, List.filterMap_replicate_of_none Outcome.diagnostic?_nothing,
        List.filterMap_cons, Outcome.diagnostic?_token, ih.2, List.nil_append]

/-- **Scans return well-formed lists of tokens, and all of them**: the text of a well-formed list scans to that list,
without errors. -/
theorem wellFormed_scan_render :
    (∀ text : String, WellFormed (scan text).tokens) ∧
      ∀ ts : List Token, WellFormed ts → (scan (render ts)).tokens = ts ∧ (scan (render ts)).diagnostics = [] := by
  refine ⟨wellFormed_tokens_scan, fun ts h => ?_⟩
  have hchars : (render ts).toList = renderFrom 1 ts := String.toList_ofList
  rw [tokens_scan, diagnostics_scan, hchars]
  exact outcomesFrom_renderFrom h

/-- A string over two lines that looks like a comment, then two slashes that a space keeps from being one. -/
theorem wellFormed_scan_render_slashes :
    let ts : List Token :=
      [⟨.string, "\"a\n//\"", some (.string "a\n//"), 2⟩, ⟨.operator .slash, "/", none, 3⟩,
       ⟨.operator .slash, "/", none, 3⟩, ⟨.number, "1.5", some (.number ⟨0x3ff8000000000000⟩), 3⟩, ⟨.eof, "", none, 5⟩]
    WellFormed ts ∧ (scan (render ts)).tokens = ts ∧ (scan (render ts)).diagnostics = [] := by
  intro ts
  have hstring := @Token.Proper.string ['a', '\n', '/', '/'] (by decide) 2
  have hslash := Token.Proper.operator .slash 3
  have hfraction : Shape.Matches .number (['1'] ++ '.' :: ['5']) :=
    .fraction (List.cons_ne_nil _ _) (List.forall_mem_singleton.2 rfl) (List.cons_ne_nil _ _)
      (List.forall_mem_singleton.2 rfl)
  have hnumber := Token.Proper.number hfraction (by decide +kernel) 3
  have hvalue : (Decimal.ofNumeral (['1'] ++ '.' :: ['5'])).toBinary64 = ⟨0x3ff8000000000000⟩ := by decide +kernel
  rw [hvalue] at hnumber
  have h : WellFormed ts :=
    .cons (by decide) hstring (.cons (by decide) hslash (.cons (by decide) hslash (.cons (by decide) hnumber
      (.eof (by decide)))))
  exact ⟨h, wellFormed_scan_render.2 ts h⟩

end LoxLexer
