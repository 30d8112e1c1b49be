import LoxLexer.Proofs.Boundaries
/-!
# A quote behind a text

A quote goes on no unit but a string that nothing has closed and a comment, so put behind a text it changes at most the
last unit (`LastUnit.with_quote`).  It closes an open string, disappears in a comment, and behind anything else it opens
a string of its own.

Main statement: `scan_append_quote`.
-/
namespace LoxLexer

/-! ## Cuts -/

theorem forall_head_append {P : Char → Prop} {a : Char} {rest : List Char} (ha : P a)
    (h : ∀ b, rest.head? = some b → P b) : ∀ b, (rest ++ [a]).head? = some b → P b := by
  intro b hb
  cases rest with
  | nil => exact Option.some.inj hb ▸ ha
  | cons c rest => exact h b hb

theorem head?_of_append {a b : Char} {rest : List Char} (hne : a ≠ b) (h : (rest ++ [a]).head? = some b) :
    rest.head? = some b := by
  cases rest with
  | nil => exact absurd (Option.some.inj h) hne
  | cons c rest => exact h

namespace Shape

variable {c : Char} {cs : List Char} {s : Shape} {n : Nat}

/-- **A quote behind a text does not change the cut**, unless a quote is open or a comment goes on. -/
theorem Cuts.append_quote (h : Cuts c cs s n) (hopen : s ≠ .openString) (hcomment : s = .comment → cs.drop n ≠ []) :
    Cuts c (cs ++ ['"']) s n := by
  cases h with
  | blank hc => exact .blank hc
  | @comment xs rest hxs hrest =>
    have hne : rest ≠ [] := by
      have := hcomment rfl
      rwa [List.drop_succ_cons, List.drop_left] at this
    rw [List.cons_append, List.append_assoc]
    obtain ⟨a, rest, rfl⟩ := List.exists_cons_of_ne_nil hne
    exact .comment hxs hrest
  | pair hop => exact .pair hop
  | alone hop hslash hequal =>
    exact .alone hop (fun hs => hslash ⟨hs.1, head?_of_append (by decide) hs.2⟩)
      (fun he => hequal (head?_of_append (by decide) he))
  | string hxs =>
    rw [List.append_assoc, List.cons_append]
    exact .string hxs
  | openString hxs => exact absurd rfl hopen
  | @whole _ ds rest hc hds hrest hpoint =>
    rw [List.append_assoc]
    refine .whole hc hds (forall_head_append rfl hrest) ?_
    intro d tail hpair
    cases rest with
    | nil => cases hpair
    | cons a rest =>
      obtain ⟨rfl, htail⟩ := List.cons.inj hpair
      have hhead : (rest ++ ['"']).head? = some d := congrArg List.head? htail
      refine forall_head_append (P := fun d => d.isDigit = false) rfl (fun b hb => ?_) d hhead
      obtain ⟨rest, rfl⟩ := List.head?_eq_some_iff.1 hb
      exact hpoint b rest rfl
  | fraction hc hds hd hfs hrest =>
    rw [List.append_assoc, List.cons_append, List.cons_append, List.append_assoc]
    exact .fraction hc hds hd hfs (forall_head_append rfl hrest)
  | word hc hxs hrest =>
    rw [List.append_assoc]
    exact .word hc hxs (forall_head_append rfl hrest)
  | bad hc hop hslash hequal =>
    exact .bad hc hop (fun hs => hslash ⟨hs.1, head?_of_append (by decide) hs.2⟩)
      (fun he => hequal (head?_of_append (by decide) he))

end Shape

theorem unitsFrom_append_quote_cons {line : Nat} {c : Char} {cs : List Char} (hopen : (Shape.cut c cs).1 ≠ .openString)
    (hcomment : (Shape.cut c cs).1 = .comment → cs.drop (Shape.cut c cs).2 ≠ []) :
    unitsFrom line (c :: cs ++ ['"']) = ⟨(Shape.cut c cs).1, line, c :: cs.take (Shape.cut c cs).2⟩ ::
      unitsFrom (line + (c :: cs.take (Shape.cut c cs).2).count '\n') (cs.drop (Shape.cut c cs).2 ++ ['"']) := by
  have hle := Shape.cut_le c cs
  rw [List.cons_append, unitsFrom_cons, ((Shape.cuts_cut c cs).append_quote hopen hcomment).cut_eq,
    List.take_append_of_le_length hle, List.drop_append_of_le_length hle]

/-- A text that is one unit is cut off whole. -/
theorem exists_cut_of_singleton {line : Nat} {cs : List Char} {u : LexUnit} (h : unitsFrom line cs = [u]) :
    ∃ c tail, cs = c :: tail ∧ ⟨(Shape.cut c tail).1, line, c :: tail.take (Shape.cut c tail).2⟩ = u ∧
      tail.drop (Shape.cut c tail).2 = [] := by
  cases cs with
  | nil =>
    rw [unitsFrom_nil] at h
    cases h
  | cons c tail =>
    rw [unitsFrom_cons] at h
    obtain ⟨hu, hrest⟩ := List.cons.inj h
    refine ⟨c, tail, rfl, hu, ?_⟩
    cases hdrop : tail.drop (Shape.cut c tail).2 with
    | nil => rfl
    | cons b bs =>
      rw [hdrop, unitsFrom_cons] at hrest
      cases hrest

/-! ## The last unit -/

/-- The text is the units `us` and the unit `u` at its end, and a quote behind the text makes a difference to `u`
only. -/
structure LastUnit (line : Nat) (cs : List Char) (us : List LexUnit) (u : LexUnit) : Prop where
  units_eq : unitsFrom line cs = us ++ [u]
  endLine_eq : u.endLine = line + cs.count '\n'
  alone : unitsFrom u.line u.chars = [u]
  not_open : ∀ v ∈ us, v.shape ≠ .openString
  with_quote : unitsFrom line (cs ++ ['"']) = us ++ unitsFrom u.line (u.chars ++ ['"'])

theorem exists_lastUnit (line : Nat) (cs : List Char) (hne : cs ≠ []) : ∃ us u, LastUnit line cs us u := by
  fun_induction unitsFrom line cs with
  | case1 line => exact absurd rfl hne
  | case2 line c cs front ih =>
    have hunits := unitsFrom_cons line c cs
    by_cases hrest : cs.drop (Shape.cut c cs).2 = []
    · have hfront : front = c :: cs := by
        have := front_append_drop c (Shape.cut c cs).2 cs
        rwa [hrest, List.append_nil] at this
      rw [hrest, unitsFrom_nil] at hunits
      refine ⟨[], ⟨(Shape.cut c cs).1, line, front⟩, hunits, ?_, ?_, List.forall_mem_nil _, ?_⟩
      · rw [LexUnit.endLine, hfront]
      · rw [← hfront] at hunits
        exact hunits
      · rw [List.nil_append, hfront]
    · have hopen : (Shape.cut c cs).1 ≠ .openString := by
        intro hopen
        exact hrest (by rw [Shape.cut_openString hopen, List.drop_length])
      obtain ⟨us, u, hlast⟩ := ih hrest
      refine ⟨⟨(Shape.cut c cs).1, line, front⟩ :: us, u, ?_, ?_, hlast.alone,
        List.forall_mem_cons.2 ⟨hopen, hlast.not_open⟩, ?_⟩
      · rw [hunits, hlast.units_eq, List.cons_append]
      · rw [hlast.endLine_eq, Nat.add_assoc, count_front_add]
      · rw [unitsFrom_append_quote_cons hopen fun _ => hrest, hlast.with_quote, List.cons_append]

namespace LastUnit

variable {line : Nat} {cs : List Char} {us : List LexUnit} {u : LexUnit} (h : LastUnit line cs us u)

include h

theorem lawful {v : LexUnit} (hv : v ∈ us ++ [u]) : v.Lawful := lawful_of_mem_unitsFrom (h.units_eq ▸ hv)

theorem matches_chars (hbad : ∀ c, u.shape ≠ .bad c) : u.shape.Matches u.chars := by
  rcases h.lawful (List.mem_append_right us List.mem_cons_self) with hm | ⟨c, -, hs, -⟩
  · exact hm
  · exact absurd hs (hbad c)

/-- A quote closes an open string. -/
theorem exists_string (hs : u.shape = .openString) : ∃ contents, u.chars = '"' :: contents ∧
    unitsFrom line (cs ++ ['"']) = us ++ [⟨.string, u.line, '"' :: (contents ++ ['"'])⟩] := by
  have hm := h.matches_chars (by simp [hs])
  rw [hs] at hm
  generalize hchars : u.chars = chars at hm
  cases hm with
  | @openString contents hq =>
    refine ⟨contents, rfl, ?_⟩
    rw [h.with_quote, hchars, List.cons_append, unitsFrom_of_matches (.string hq)]

/-- A comment takes the quote in. -/
theorem units_of_comment (hs : u.shape = .comment) :
    unitsFrom line (cs ++ ['"']) = us ++ [⟨.comment, u.line, u.chars ++ ['"']⟩] := by
  have hm := h.matches_chars (by simp [hs])
  rw [hs] at hm
  generalize hchars : u.chars = chars at hm
  cases hm with
  | @comment contents hn =>
    have hquoted : Shape.Matches .comment ('/' :: '/' :: (contents ++ ['"'])) := .comment (by simp [hn])
    rw [h.with_quote, hchars, List.cons_append, List.cons_append, unitsFrom_of_matches hquoted]

/-- Behind anything else a quote opens a string. -/
theorem units_of_ne (hopen : u.shape ≠ .openString) (hcomment : u.shape ≠ .comment) :
    unitsFrom line (cs ++ ['"']) = unitsFrom line cs ++ [⟨.openString, line + cs.count '\n', ['"']⟩] := by
  obtain ⟨c, tail, hchars, hu, hdrop⟩ := exists_cut_of_singleton h.alone
  have hshape : (Shape.cut c tail).1 = u.shape := congrArg LexUnit.shape hu
  have hcount : u.line + (c :: tail.take (Shape.cut c tail).2).count '\n' = line + cs.count '\n' := by
    rw [← h.endLine_eq, LexUnit.endLine, ← hu]
  rw [h.with_quote, hchars, unitsFrom_append_quote_cons (hshape ▸ hopen) fun hc => absurd (hshape ▸ hc) hcomment, hu,
    hdrop, List.nil_append, hcount, unitsFrom_of_matches (.openString List.not_mem_nil), h.units_eq, List.append_assoc]
  rfl

end LastUnit

/-! ## The last piece -/

/-- What a piece of a text holds. -/
def Piece.unit (cs : List Char) (p : Piece) : LexUnit :=
  ⟨p.shape, p.start.line, (cs.take p.stop.offset).drop p.start.offset⟩

theorem map_unit_piecesFrom (place : Place) (before cs : List Char) (hplace : place.offset = before.length) :
    (piecesFrom place cs).map (Piece.unit (before ++ cs)) = unitsFrom place.line cs := by
  fun_induction piecesFrom place cs generalizing before with
  | case1 place => rw [unitsFrom_nil]; rfl
  | case2 place c cs shape more hcut stop ih =>
    have htext : before ++ c :: cs = (before ++ c :: cs.take more) ++ cs.drop more := by
      rw [List.append_assoc, front_append_drop]
    have hstop : stop.offset = (before ++ c :: cs.take more).length := by
      rw [List.length_append, ← hplace]
      rfl
    have hfirst : Piece.unit (before ++ c :: cs) ⟨shape, place, stop⟩ = ⟨shape, place.line, c :: cs.take more⟩ := by
      rw [Piece.unit, htext, hstop, hplace, List.take_left, List.drop_left]
    rw [unitsFrom_cons, hcut, List.map_cons, hfirst, htext, ih _ hstop]
    rfl

theorem map_unit_piecesOf (cs : List Char) : (piecesOf cs).map (Piece.unit cs) = unitsFrom 1 cs := by
  rw [piecesOf_eq]
  exact map_unit_piecesFrom .first [] cs rfl

/-- The last piece holds the last unit and goes to the end of the text. -/
theorem LastUnit.exists_piece {text : String} {us : List LexUnit} {u : LexUnit} (h : LastUnit 1 text.toList us u) :
    ∃ p, (piecesOf text.toList).getLast? = some p ∧ p.shape = u.shape ∧
      lineAt text.toList p.start.offset = u.line ∧ text.toList.drop p.start.offset = u.chars := by
  have hunits := map_unit_piecesOf text.toList
  rw [h.units_eq] at hunits
  obtain ⟨ps, last, hpieces, -, hlast⟩ := List.map_eq_append_iff.1 hunits
  obtain ⟨p, rfl, rfl⟩ := List.map_eq_singleton_iff.1 hlast
  have hcovers := covers_piecesOf text.toList
  rw [hpieces] at hcovers
  obtain ⟨k, -, -, -, hstop⟩ := covers_append.1 hcovers
  have hstop : p.stop.offset = text.toList.length := hstop
  have hmem : p ∈ piecesFrom .first text.toList := by
    rw [← piecesOf_eq, hpieces]
    exact List.mem_append_right ps List.mem_cons_self
  obtain ⟨before, front, after, hstands⟩ := exists_standsIn hmem
  have hstands : p.StandsIn .first (Source.ofString text).chars before front after := hstands
  refine ⟨p, by rw [hpieces, List.getLast?_concat], rfl, hstands.start_line.symm, ?_⟩
  rw [Piece.unit, hstop, List.take_length]

/-! ## Scans -/

/-- Only an open string is reported as one. -/
theorem exists_openString {us : List LexUnit} (hlawful : ∀ u ∈ us, u.Lawful) {d : Diagnostic}
    (hd : d ∈ (us.map LexUnit.outcome).filterMap Outcome.diagnostic?) (he : d.error = .unterminatedString) :
    ∃ u ∈ us, u.shape = .openString := by
  obtain ⟨o, ho, hd⟩ := List.mem_filterMap.1 hd
  obtain ⟨u, hu, rfl⟩ := List.mem_map.1 ho
  refine ⟨u, hu, ?_⟩
  have hdenotes := denotes_outcome (hlawful u hu)
  cases houtcome : u.outcome with
  | nothing =>
    rw [houtcome] at hd
    cases hd
  | token t =>
    rw [houtcome] at hd
    cases hd
  | error line e =>
    rw [houtcome] at hd hdenotes
    cases hd
    rcases hdenotes.error_line with ⟨-, hshape, -⟩ | ⟨hne, -⟩
    · exact hshape
    · exact absurd he hne

/-- A scan is what the units come to, and how many lines there are. -/
theorem scan_congr {a b : String} (h : outcomesFrom 1 a.toList = outcomesFrom 1 b.toList)
    (hcount : a.toList.count '\n' = b.toList.count '\n') : scan a = scan b := by
  unfold scan
  rw [scanWith_eq, scanWith_eq, h, hcount]

theorem toList_append_quote (text : String) : (text ++ "\"").toList = text.toList ++ ['"'] := String.toList_append

theorem count_append_quote (text : String) : (text ++ "\"").toList.count '\n' = text.toList.count '\n' := by
  rw [toList_append_quote, List.count_append]
  rfl

/-- What stands at an open quote, in the text and with a quote behind it. -/
theorem textFrom_of_drop {text : String} {i : Nat} {contents : List Char} (h : text.toList.drop i = '"' :: contents) :
    text.toList[i]? = some '"' ∧ textFrom text (i + 1) = String.ofList contents ∧
      textFrom (text ++ "\"") i = String.ofList ('"' :: (contents ++ ['"'])) := by
  have hle : i ≤ text.toList.length := by
    refine Nat.le_of_not_lt fun hlt => ?_
    rw [List.drop_of_length_le (Nat.le_of_lt hlt)] at h
    cases h
  refine ⟨?_, ?_, ?_⟩
  · rw [← List.head?_drop, h, List.head?_cons]
  · rw [textFrom, ← List.tail_drop, h, List.tail_cons]
  · rw [textFrom, toList_append_quote, List.drop_append_of_le_length hle, h, List.cons_append]

section

variable {text : String}

/-- A quote behind a text that leaves no quote open and does not end in a comment opens a string there. -/
theorem scan_append_quote_of_closed (hclosed : Closed text.toList)
    (hcomment : (piecesOf text.toList).getLast?.map Piece.shape ≠ some .comment) :
    (scan (text ++ "\"")).tokens = (scan text).tokens ∧
      (scan (text ++ "\"")).diagnostics =
        (scan text).diagnostics ++ [⟨1 + text.toList.count '\n', "", .unterminatedString⟩] := by
  have hunits : unitsFrom 1 (text.toList ++ ['"']) =
      unitsFrom 1 text.toList ++ [⟨.openString, 1 + text.toList.count '\n', ['"']⟩] := by
    by_cases hne : text.toList = []
    · rw [hne, unitsFrom_nil]
      exact unitsFrom_of_matches (.openString List.not_mem_nil) 1
    · obtain ⟨us, u, hlast⟩ := exists_lastUnit 1 text.toList hne
      obtain ⟨p, hp, hshape, -⟩ := hlast.exists_piece
      refine hlast.units_of_ne (hclosed u ?_) fun hu => hcomment ?_
      · rw [hlast.units_eq]
        exact List.mem_append_right us List.mem_cons_self
      · rw [hp, Option.map_some, hshape, hu]
  constructor
  · rw [tokens_scan, tokens_scan, count_append_quote, toList_append_quote, outcomesFrom, hunits, List.map_append,
      List.filterMap_append]
    exact congrArg (· ++ _) (List.append_nil _)
  · rw [diagnostics_scan, diagnostics_scan, toList_append_quote, outcomesFrom, hunits, List.map_append,
      List.filterMap_append]
    rfl

theorem scan_append_quote_of_comment (hcomment : (piecesOf text.toList).getLast?.map Piece.shape = some .comment) :
    scan (text ++ "\"") = scan text := by
  have hne : text.toList ≠ [] := by
    intro hnil
    rw [hnil] at hcomment
    simp [piecesOf_eq, piecesFrom] at hcomment
  obtain ⟨us, u, hlast⟩ := exists_lastUnit 1 text.toList hne
  obtain ⟨p, hp, hshape, -⟩ := hlast.exists_piece
  rw [hp, Option.map_some, hshape] at hcomment
  have hu : u.shape = .comment := Option.some.inj hcomment
  apply scan_congr
  · rw [toList_append_quote, outcomesFrom, outcomesFrom, hlast.units_of_comment hu, hlast.units_eq, List.map_append,
      List.map_append]
    simp [LexUnit.outcome, hu]
  · exact count_append_quote text

/-- An open string that a scan reports is the last unit. -/
theorem exists_open_lastUnit (h : ∃ d ∈ (scan text).diagnostics, d.error = .unterminatedString) :
    ∃ us u, LastUnit 1 text.toList us u ∧ u.shape = .openString := by
  obtain ⟨d, hd, he⟩ := h
  rw [diagnostics_scan, outcomesFrom] at hd
  obtain ⟨v, hv, hopen⟩ := exists_openString (fun v hv => lawful_of_mem_unitsFrom hv) hd he
  have hne : text.toList ≠ [] := by
    intro hnil
    rw [hnil, unitsFrom_nil] at hv
    cases hv
  obtain ⟨us, u, hlast⟩ := exists_lastUnit 1 text.toList hne
  refine ⟨us, u, hlast, ?_⟩
  rw [hlast.units_eq] at hv
  rcases List.mem_append.1 hv with hv | hv
  · exact absurd hopen (hlast.not_open v hv)
  · exact List.mem_singleton.1 hv ▸ hopen

/-- What a scan finds in front of an open string, which is reported last, is found again when a quote closes it. -/
theorem LastUnit.scan_of_open {us : List LexUnit} {u : LexUnit} (h : LastUnit 1 text.toList us u)
    (hu : u.shape = .openString) : ∃ contents found tokens, u.chars = '"' :: contents ∧
      (scan text).diagnostics = found ++ [⟨1 + text.toList.count '\n', "", .unterminatedString⟩] ∧
      (∀ d ∈ found, d.error ≠ .unterminatedString) ∧ (scan (text ++ "\"")).diagnostics = found ∧
      (scan text).tokens = tokens ++ [endToken (1 + text.toList.count '\n')] ∧
      (scan (text ++ "\"")).tokens = tokens ++ [⟨.string, String.ofList ('"' :: (contents ++ ['"'])),
        some (.string (String.ofList contents)), u.line⟩, endToken (1 + text.toList.count '\n')] := by
  obtain ⟨contents, hchars, hquoted⟩ := h.exists_string hu
  have hstring : LexUnit.outcome ⟨.string, u.line, '"' :: (contents ++ ['"'])⟩ = .token
      ⟨.string, String.ofList ('"' :: (contents ++ ['"'])), some (.string (String.ofList contents)), u.line⟩ := by
    simp [LexUnit.outcome, LexUnit.lexeme]
  have hopen : u.outcome = .error (1 + text.toList.count '\n') .unterminatedString := by
    rw [LexUnit.outcome, hu, ← h.endLine_eq]
  refine ⟨contents, (us.map LexUnit.outcome).filterMap Outcome.diagnostic?,
    (us.map LexUnit.outcome).filterMap Outcome.token?, hchars, ?_, ?_, ?_, ?_, ?_⟩
  · rw [diagnostics_scan, outcomesFrom, h.units_eq, List.map_append, List.filterMap_append, List.map_singleton, hopen]
    rfl
  · intro d hd he
    obtain ⟨v, hv, hshape⟩ := exists_openString (fun v hv => h.lawful (List.mem_append_left [u] hv)) hd he
    exact h.not_open v hv hshape
  · rw [diagnostics_scan, toList_append_quote, outcomesFrom, hquoted, List.map_append, List.filterMap_append,
      List.map_singleton, hstring]
    exact List.append_nil _
  · rw [tokens_scan, outcomesFrom, h.units_eq, List.map_append, List.filterMap_append, List.map_singleton, hopen]
    exact congrArg (· ++ _) (List.append_nil _)
  · rw [tokens_scan, count_append_quote, toList_append_quote, outcomesFrom, hquoted, List.map_append,
      List.filterMap_append, List.map_singleton, hstring, List.append_assoc]
    rfl

end

/-- **A quote behind a text closes the string that is open there.**  If none is open, the quote is lost in the comment
at the end of the text, or opens a string itself. -/
theorem scan_append_quote (text : String) :
    let s := scan text
    let s' := scan (text ++ "\"")
    let last? := (piecesOf text.toList).getLast?
    let endLine := lineAt text.toList text.toList.length
    ((∃ d ∈ s.diagnostics, d.error = .unterminatedString) → ∃ p found tokens,
      last? = some p ∧ p.shape = .openString ∧ text.toList[p.start.offset]? = some '"' ∧
      s.diagnostics = found ++ [⟨endLine, "", .unterminatedString⟩] ∧
      (∀ d ∈ found, d.error ≠ .unterminatedString) ∧ s'.diagnostics = found ∧
      s.tokens = tokens ++ [endToken endLine] ∧
      s'.tokens = tokens ++ [⟨.string, textFrom (text ++ "\"") p.start.offset,
        some (.string (textFrom text (p.start.offset + 1))), lineAt text.toList p.start.offset⟩, endToken endLine]) ∧
    ((∀ d ∈ s.diagnostics, d.error ≠ .unterminatedString) → last?.map Piece.shape ≠ some .comment →
      s'.tokens = s.tokens ∧ s.tokens.getLast? = some (endToken endLine) ∧
      s'.diagnostics = s.diagnostics ++ [⟨endLine, "", .unterminatedString⟩]) ∧
    (last?.map Piece.shape = some .comment → s' = s) := by
  intro s s' last? endLine
  have hend : endLine = 1 + text.toList.count '\n' := lineAt_length text.toList
  rw [hend]
  refine ⟨fun hopen => ?_, fun hclosed hcomment => ?_, scan_append_quote_of_comment⟩
  · obtain ⟨us, u, hlast, hu⟩ := exists_open_lastUnit hopen
    obtain ⟨p, hp, hshape, hline, hdrop⟩ := hlast.exists_piece
    obtain ⟨contents, found, tokens, hchars, hdiagnostics, hfound, hdiagnostics', htokens, htokens'⟩ :=
      hlast.scan_of_open hu
    obtain ⟨hquote, hcontents, hlexeme⟩ := textFrom_of_drop (hdrop.trans hchars)
    refine ⟨p, found, tokens, hp, hshape.trans hu, hquote, hdiagnostics, hfound, hdiagnostics', htokens, ?_⟩
    rw [hlexeme, hcontents, hline]
    exact htokens'
  · obtain ⟨htokens, hdiagnostics⟩ := scan_append_quote_of_closed (closed_of_scan hclosed) hcomment
    refine ⟨htokens, ?_, hdiagnostics⟩
    rw [tokens_scan, List.getLast?_concat]

/-- A string over two lines that nothing closes, behind a bad character; two slashes in a string at the end of a text;
and a quote in a comment there. -/
theorem scan_append_quote_slashes :
    let unclosed := "@+ \"//\nb"
    let closed := "1.\"//\""
    let comment := "\"\n\"/ // \"x"
    (scan unclosed).diagnostics = [⟨1, "", .unexpectedCharacter '@'⟩, ⟨2, "", .unterminatedString⟩] ∧
      (scan (unclosed ++ "\"")).diagnostics = [⟨1, "", .unexpectedCharacter '@'⟩] ∧
      (scan (unclosed ++ "\"")).tokens =
        [⟨.operator .plus, "+", none, 1⟩, ⟨.string, "\"//\nb\"", some (.string "//\nb"), 1⟩, endToken 2] ∧
      (scan (closed ++ "\"")).tokens = (scan closed).tokens ∧
      (scan (closed ++ "\"")).diagnostics = [⟨1, "", .unterminatedString⟩] ∧
      scan (comment ++ "\"") = scan comment := by
  intro unclosed closed comment
  have hopen : (scan unclosed).diagnostics = [⟨1, "", .unexpectedCharacter '@'⟩, ⟨2, "", .unterminatedString⟩] := by
    decide +kernel
  obtain ⟨p, found, tokens, hp, -, -, hfound, -, hdiagnostics, htokens, htokens'⟩ :=
    (scan_append_quote unclosed).1 ⟨⟨2, "", .unterminatedString⟩, by rw [hopen]; simp, rfl⟩
  have hpiece : (piecesOf unclosed.toList).getLast? = some ⟨.openString, ⟨3, 1⟩, ⟨8, 2⟩⟩ := by decide +kernel
  obtain rfl : _ = p := Option.some.inj (hpiece.symm.trans hp)
  obtain rfl : (scan unclosed).diagnostics.dropLast = found := by rw [hfound, List.dropLast_concat]
  obtain rfl : (scan unclosed).tokens.dropLast = tokens := by rw [htokens, List.dropLast_concat]
  obtain ⟨hclosed, -, hclosed'⟩ := (scan_append_quote closed).2.1 (by decide +kernel) (by decide +kernel)
  exact ⟨hopen, hdiagnostics.trans (by decide +kernel), htokens'.trans (by decide +kernel), hclosed,
    hclosed'.trans (by decide +kernel), (scan_append_quote comment).2.2 (by decide +kernel)⟩

end LoxLexer
