import LoxLexer.Proofs.Listing
/-!
# Line endings

A carriage return is a blank, so one before a line feed is seen by no lookahead (`nothingNew_crlfChars`): it stands by
itself, or it belongs to what goes on to the end of the line, a comment or a string.  A comment comes to nothing either
way (`filterMap_outcomesFrom_comment`), and a string keeps what it was given.

Main statement: `scan_crlf`.
-/
namespace LoxLexer

/-- A carriage return before each line feed. -/
def crlfChars (cs : List Char) : List Char := cs.flatMap fun c => if c = '\n' then ['\r', '\n'] else [c]

def crlf (text : String) : String := String.ofList (crlfChars text.toList)

/-! ## Carriage returns in front of line feeds -/

theorem crlfChars_nil : crlfChars [] = [] := rfl

theorem crlfChars_newline (cs : List Char) : crlfChars ('\n' :: cs) = '\r' :: '\n' :: crlfChars cs := rfl

theorem crlfChars_cons {c : Char} (hc : c ≠ '\n') (cs : List Char) : crlfChars (c :: cs) = c :: crlfChars cs := by
  rw [crlfChars, List.flatMap_cons, if_neg hc]
  rfl

theorem crlfChars_append (as bs : List Char) : crlfChars (as ++ bs) = crlfChars as ++ crlfChars bs :=
  List.flatMap_append

theorem crlfChars_of_not_mem : ∀ {cs : List Char}, '\n' ∉ cs → crlfChars cs = cs
  | [], _ => rfl
  | c :: cs, h => by
    rw [crlfChars_cons (List.ne_of_not_mem_cons h).symm, crlfChars_of_not_mem (List.not_mem_of_not_mem_cons h)]

theorem not_mem_crlfChars {a : Char} (ha : a ≠ '\r') {cs : List Char} (h : a ∉ cs) : a ∉ crlfChars cs := by
  unfold crlfChars
  rw [List.mem_flatMap]
  rintro ⟨c, hc, hac⟩
  by_cases hn : c = '\n'
  · subst hn
    simp [ha] at hac
    exact h (hac ▸ hc)
  · simp [hn] at hac
    exact h (hac ▸ hc)

theorem count_crlfChars : ∀ cs : List Char, (crlfChars cs).count '\n' = cs.count '\n'
  | [] => rfl
  | c :: cs => by
    by_cases hc : c = '\n'
    · subst hc
      rw [crlfChars_newline, List.count_cons_of_ne (by decide), List.count_cons_self, List.count_cons_self,
        count_crlfChars cs]
    · rw [crlfChars_cons hc, List.count_cons_of_ne hc, List.count_cons_of_ne hc, count_crlfChars cs]

theorem crlf_ofList (cs : List Char) : crlf (String.ofList cs) = String.ofList (crlfChars cs) := by
  rw [crlf, String.toList_ofList]

theorem nothingNew_crlfChars : ∀ (n : Nat) (cs : List Char), Shape.NothingNew n cs (crlfChars cs)
  | 0, _ => .zero
  | _ + 1, [] => .nil
  | n + 1, c :: cs => by
    by_cases hc : c = '\n'
    · subst hc
      exact .blank rfl
    · rw [crlfChars_cons hc]
      exact .cons (nothingNew_crlfChars n cs)

/-! ## Cuts -/

namespace Shape

/-- Only a blank is a line feed, and only a string goes on behind one. -/
theorem newline_not_mem_of_matches {s : Shape} {cs : List Char} (h : Matches s cs) (hblank : s ≠ blank)
    (hstring : s ≠ string) (hopen : s ≠ openString) : '\n' ∉ cs := by
  cases h with
  | blank _ => exact absurd rfl hblank
  | comment hn => simp [hn]
  | operator op => cases op <;> decide
  | string _ => exact absurd rfl hstring
  | openString _ => exact absurd rfl hopen
  | whole hne h => exact newline_not_mem_of_matches_number (.whole hne h)
  | fraction hds h hfs hf => exact newline_not_mem_of_matches_number (.fraction hds h hfs hf)
  | word hc h => exact fun hn => absurd (isWordChar_of_matches (.word hc h) _ hn) (by decide)

variable {c : Char} {cs : List Char} {s : Shape} {n : Nat}

theorem Cuts.newline_not_mem (h : Cuts c cs s n) (hstring : s ≠ .string) (hopen : s ≠ .openString) :
    '\n' ∉ cs.take n := by
  by_cases hbad : ∃ b, s = .bad b
  · obtain ⟨b, rfl⟩ := hbad
    cases h
    simp
  · by_cases hblank : s = .blank
    · subst hblank
      cases h
      simp
    · have hmatches := h.matches_front fun b hb => hbad ⟨b, hb⟩
      exact List.not_mem_of_not_mem_cons (newline_not_mem_of_matches hmatches hblank hstring hopen)

/-- **A cut takes the same characters**, with the carriage returns among them; but a comment takes one more if a line
feed stops it. -/
theorem Cuts.crlf (h : Cuts c cs s n) (hcomment : s ≠ .comment) :
    Cuts c (crlfChars cs) s (crlfChars (cs.take n)).length := by
  by_cases hstring : s = .string
  · subst hstring
    cases h with
    | @string xs rest hxs =>
      have hlength : (crlfChars (xs ++ ['"'])).length = (crlfChars xs).length + 1 := by
        rw [crlfChars_append, List.length_append]
        rfl
      rw [List.take_length_add_append, crlfChars_append, crlfChars_cons (by decide)]
      exact hlength ▸ .string (not_mem_crlfChars (by decide) hxs)
  · by_cases hopen : s = .openString
    · subst hopen
      cases h with
      | openString hxs =>
        rw [List.take_length]
        exact .openString (not_mem_crlfChars (by decide) hxs)
    · have htake : crlfChars (cs.take n) = cs.take n := crlfChars_of_not_mem (h.newline_not_mem hstring hopen)
      have hsame := h.of_nothingNew (nothingNew_crlfChars 2 (cs.drop n)) (fun hs => absurd hs hopen)
        (fun hs => absurd hs hcomment)
      rw [htake, List.length_take_of_le h.le_length]
      rwa [← htake, ← crlfChars_append, List.take_append_drop] at hsame

end Shape

/-! ## What units come to -/

/-- A number shows no characters of the source. -/
def Literal.crlf : Literal → Literal
  | string contents => string (LoxLexer.crlf contents)
  | number value => number value

/-- The token of the same kind on the same line, its lexeme and its string with carriage returns. -/
def Token.crlf (t : Token) : Token :=
  { t with lexeme := LoxLexer.crlf t.lexeme, literal := t.literal.map Literal.crlf }

def Outcome.crlf : Outcome → Outcome
  | nothing => nothing
  | token t => token t.crlf
  | error line e => error line e

namespace LexUnit

theorem outcome_crlf {shape : Shape} {line : Nat} {chars : List Char} (h : Lawful ⟨shape, line, chars⟩) :
    outcome ⟨shape, line, crlfChars chars⟩ = (outcome ⟨shape, line, chars⟩).crlf := by
  have hcount : line + (crlfChars chars).count '\n' = line + chars.count '\n' := by rw [count_crlfChars]
  rcases h with hm | ⟨c, -, hs, -⟩
  · cases shape with
    | blank => rfl
    | comment => rfl
    | operator op =>
      show Outcome.token ⟨_, String.ofList (crlfChars chars), none, line⟩ =
        .token ⟨_, crlf (String.ofList chars), none, line⟩
      rw [crlf_ofList]
    | word =>
      have hself : crlfChars chars = chars :=
        crlfChars_of_not_mem (Shape.newline_not_mem_of_matches hm (by simp) (by simp) (by simp))
      show Outcome.token ⟨.ofWord (String.ofList (crlfChars chars)), String.ofList (crlfChars chars), none, line⟩ =
        .token ⟨.ofWord (String.ofList chars), crlf (String.ofList chars), none, line⟩
      rw [crlf_ofList, hself]
    | string =>
      obtain ⟨contents, -, rfl⟩ := Shape.matches_string_iff.1 hm
      have hcontents : (crlfChars ('"' :: (contents ++ ['"']))).tail.dropLast = crlfChars contents := by
        rw [crlfChars_cons (by decide), List.tail_cons, crlfChars_append]
        exact List.dropLast_concat
      simp only [outcome, lexeme, hcontents, List.tail_cons, List.dropLast_concat, Outcome.crlf, Token.crlf,
        Option.map_some, Literal.crlf, crlf_ofList]
    | number =>
      have hself : crlfChars chars = chars := crlfChars_of_not_mem (Shape.newline_not_mem_of_matches_number hm)
      rw [hself]
      cases hv : (Decimal.ofNumeral chars).toBinary64.isFinite with
      | true =>
        rw [outcome_finite hv]
        show _ = Outcome.token ⟨.number, crlf (String.ofList chars), _, line⟩
        rw [crlf_ofList, hself]
        rfl
      | false =>
        rw [outcome_tooLarge hv]
        rfl
    | openString => exact congrArg (Outcome.error · .unterminatedString) hcount
    | bad c => cases hm
  · obtain rfl : shape = .bad c := hs
    exact congrArg (Outcome.error · (.unexpectedCharacter c)) hcount

end LexUnit

section

variable {α : Type} {view : Outcome → Option α} (hview : view .nothing = none)

include hview

theorem filterMap_outcomesFrom_blank {b : Char} (hb : isBlank b = true) (line : Nat) (cs : List Char) :
    (outcomesFrom line (b :: cs)).filterMap view = (outcomesFrom (line + [b].count '\n') cs).filterMap view := by
  rw [outcomesFrom_blank hb, List.filterMap_cons_none hview]

/-- A comment comes to nothing, with the carriage return that stands before its line feed or without. -/
theorem filterMap_outcomesFrom_comment {c : Char} {cs : List Char} {n : Nat} (h : Shape.Cuts c cs .comment n)
    (line : Nat) :
    (outcomesFrom line (c :: crlfChars cs)).filterMap view =
      (outcomesFrom line (crlfChars (cs.drop n))).filterMap view := by
  cases h with
  | @comment xs rest hxs hrest =>
    -- what follows the two slashes up to the line feed is skipped, whatever it is
    have hskip : ∀ {ys tail : List Char}, '\n' ∉ ys → (∀ b, tail.head? = some b → b = '\n') →
        (outcomesFrom line ('/' :: '/' :: (ys ++ tail))).filterMap view = (outcomesFrom line tail).filterMap view := by
      intro ys tail hys htail
      have hcount : ('/' :: '/' :: ys).count '\n' = 0 := List.count_eq_zero.2 (by simp [hys])
      rw [outcomesFrom, unitsFrom_cons, (Shape.Cuts.comment hys htail).cut_eq, List.take_succ_cons, List.take_left,
        List.drop_succ_cons, List.drop_left, hcount, List.map_cons]
      exact List.filterMap_cons_none hview
    rw [crlfChars_cons (by decide), crlfChars_append, crlfChars_of_not_mem hxs, List.drop_succ_cons, List.drop_left]
    cases rest with
    | nil => exact hskip hxs hrest
    | cons b rest =>
      obtain rfl := hrest b rfl
      have hreturn := @hskip (xs ++ ['\r']) ('\n' :: crlfChars rest) (by simp [hxs]) (by simp)
      rw [List.append_assoc, List.singleton_append] at hreturn
      rw [crlfChars_newline, hreturn, filterMap_outcomesFrom_blank hview (b := '\r') rfl]
      rfl

/-- **With carriage returns before its line feeds a text comes to the same**, but for those in its strings. -/
theorem filterMap_outcomesFrom_crlfChars (line : Nat) (cs : List Char) :
    (outcomesFrom line (crlfChars cs)).filterMap view =
      ((outcomesFrom line cs).map Outcome.crlf).filterMap view := by
  have hnothing : view (Outcome.crlf .nothing) = none := hview
  unfold outcomesFrom
  -- on the units: a line feed becomes two blanks, a comment may take one of them, and any other unit stays
  fun_induction unitsFrom line cs with
  | case1 line => rw [crlfChars_nil, unitsFrom_nil]; rfl
  | case2 line c cs front ih =>
    have hcuts := Shape.cuts_cut c cs
    rw [List.map_cons, List.map_cons]
    by_cases hc : c = '\n'
    · subst hc
      have hblank : Shape.cut '\n' cs = (.blank, 0) := Shape.cut_blank rfl cs
      have hreturn := filterMap_outcomesFrom_blank hview (b := '\r') rfl line ('\n' :: crlfChars cs)
      have hfeed := filterMap_outcomesFrom_blank hview (b := '\n') rfl line (crlfChars cs)
      unfold outcomesFrom at hreturn hfeed
      simp only [front, hblank, List.take_zero, List.drop_zero] at ih ⊢
      rw [crlfChars_newline, hreturn]
      exact (hfeed.trans ih).trans (List.filterMap_cons_none hnothing).symm
    · rw [crlfChars_cons hc]
      by_cases hcomment : (Shape.cut c cs).1 = .comment
      · have hnewline : front.count '\n' = 0 := by
          rw [List.count_eq_zero, List.mem_cons, not_or]
          exact ⟨Ne.symm hc, hcuts.newline_not_mem (by simp [hcomment]) (by simp [hcomment])⟩
        rw [hcomment] at hcuts ⊢
        have hskip := filterMap_outcomesFrom_comment hview hcuts line
        unfold outcomesFrom at hskip
        rw [hnewline] at ih ⊢
        exact (hskip.trans ih).trans (List.filterMap_cons_none hnothing).symm
      · have hcut := (hcuts.crlf hcomment).cut_eq
        have hsplit :
            crlfChars cs = crlfChars (cs.take (Shape.cut c cs).2) ++ crlfChars (cs.drop (Shape.cut c cs).2) := by
          rw [← crlfChars_append, List.take_append_drop]
        have hfront : c :: crlfChars (cs.take (Shape.cut c cs).2) = crlfChars front := (crlfChars_cons hc _).symm
        rw [unitsFrom_cons, hcut, hsplit, List.take_left, List.drop_left, hfront, count_crlfChars, List.map_cons,
          LexUnit.outcome_crlf (LexUnit.lawful_cut line c cs), List.filterMap_cons, List.filterMap_cons, ih]

end

/-! ## Scans -/

namespace Token

/-- A token without a line feed stays as it is. -/
theorem Legible.crlf_eq_self {t : Token} (h : t.Legible) (hn : '\n' ∉ t.lexeme.toList) : t.crlf = t := by
  have hlexeme : LoxLexer.crlf t.lexeme = t.lexeme := by
    rw [LoxLexer.crlf, crlfChars_of_not_mem hn, String.ofList_toList]
  have hliteral : t.literal.map Literal.crlf = t.literal := by
    rw [h.literal_eq]
    unfold literalOf
    split
    · have hcontents : '\n' ∉ t.lexeme.toList.tail.dropLast := fun hc =>
        hn (List.mem_of_mem_tail (List.dropLast_subset _ hc))
      rw [Option.map_some, Literal.crlf, crlf_ofList, crlfChars_of_not_mem hcontents]
    · rfl
    · rfl
  rw [crlf, hlexeme, hliteral]

end Token

/-- **Line endings do not matter.**  With a carriage return before each line feed a text scans to the same tokens on the
same lines and to the same diagnostics.  Only a string over several lines shows the carriage returns, in its lexeme and
in its literal. -/
theorem scan_crlf (text : String) :
    (scan (crlf text)).tokens = (scan text).tokens.map Token.crlf ∧
    (scan (crlf text)).diagnostics = (scan text).diagnostics ∧
    ∀ t ∈ (scan text).tokens, ¬ (t.kind = .string ∧ '\n' ∈ t.lexeme.toList) → t.crlf = t := by
  have htoken : ∀ o : Outcome, o.crlf.token? = o.token?.map Token.crlf := by
    rintro (_ | t | ⟨line, e⟩) <;> rfl
  have hdiagnostic : ∀ o : Outcome, o.crlf.diagnostic? = o.diagnostic?.map id := by
    rintro (_ | t | ⟨line, e⟩) <;> rfl
  have hchars : (crlf text).toList = crlfChars text.toList := String.toList_ofList
  refine ⟨?_, ?_, ?_⟩
  · rw [tokens_scan, tokens_scan, hchars, filterMap_outcomesFrom_crlfChars Outcome.token?_nothing, count_crlfChars,
      filterMap_map_comm htoken, List.map_append]
    rfl
  · rw [diagnostics_scan, diagnostics_scan, hchars, filterMap_outcomesFrom_crlfChars Outcome.diagnostic?_nothing,
      filterMap_map_comm hdiagnostic, List.map_id]
  · intro t ht hn
    have hlegible := (wellFormed_tokens_scan text).legible t ht
    apply hlegible.crlf_eq_self
    by_cases hkind : t.kind = .string
    · exact fun hmem => hn ⟨hkind, hmem⟩
    · exact fun hmem => absurd (hlegible.isBlank_of_mem_lexeme hkind _ hmem) (by decide)

/-- A comment, half an operator and a string over two lines, of which only the second line had a carriage return. -/
theorem scan_crlf_string :
    let text := "1. // \"\n<\n= \"a\r\nb\n\" @"
    let t : Token := ⟨.number, "1", some (.number ⟨0x3ff0000000000000⟩), 1⟩
    crlf text = "1. // \"\r\n<\r\n= \"a\r\r\nb\r\n\" @" ∧
      (scan (crlf text)).tokens =
        [t, ⟨.operator .dot, ".", none, 1⟩, ⟨.operator .less, "<", none, 2⟩, ⟨.operator .equal, "=", none, 3⟩,
         ⟨.string, "\"a\r\r\nb\r\n\"", some (.string "a\r\r\nb\r\n"), 3⟩, ⟨.eof, "", none, 5⟩] ∧
      (scan (crlf text)).diagnostics = [⟨5, "", .unexpectedCharacter '@'⟩] ∧
      t ∈ (scan text).tokens ∧ t.crlf = t := by
  intro text t
  obtain ⟨htokens, hdiagnostics, hself⟩ := scan_crlf text
  have ht : t ∈ (scan text).tokens := by decide +kernel
  exact ⟨by decide +kernel, htokens.trans (by decide +kernel), hdiagnostics.trans (by decide +kernel), ht,
    hself t ht (by simp [t])⟩

end LoxLexer
