import LoxLexer.Proofs.Lines
import LoxLexer.Proofs.Logging
/-!
# The prompt

A prompt answers each line of its input as a text of its own, up to the first line that is no text.  Every answer is
put behind what was emitted before (`promptFrom_texts`), and none depends on another line.

Main statement: `run_prompt`, what a run without a path puts out and says, and how it ends.
-/
namespace LoxLexer

/-! ## Bytes as text -/

theorem isValidUTF8_toUTF8 (text : String) : text.toUTF8.IsValidUTF8 := text.isValidUTF8

theorem fromUTF8?_toUTF8 (text : String) : String.fromUTF8? text.toUTF8 = some text := by
  rw [String.fromUTF8?, dif_pos (isValidUTF8_toUTF8 text)]
  rfl

theorem decodeText_toUTF8 (text : String) : decodeText text.toUTF8 = .ok text := by
  rw [decodeText, fromUTF8?_toUTF8]

theorem decodeText_of_not_valid {bytes : ByteArray} (h : ¬ bytes.IsValidUTF8) :
    ∃ cause, decodeText bytes = .error cause := by
  rw [decodeText, String.fromUTF8?, dif_neg h]
  exact ⟨_, rfl⟩

/-- The leading lines that are well-formed, as texts. -/
def leadingTexts (lines : List ByteArray) : List String :=
  (lines.takeWhile fun line => line.IsValidUTF8).filterMap String.fromUTF8?

theorem map_toUTF8_filterMap : ∀ {lines : List ByteArray}, (∀ line ∈ lines, line.IsValidUTF8) →
    (lines.filterMap String.fromUTF8?).map String.toUTF8 = lines
  | [], _ => rfl
  | line :: lines, h => by
    obtain ⟨hline, hlines⟩ := List.forall_mem_cons.1 h
    have hsome : String.fromUTF8? line = some (String.fromUTF8 line hline) := by rw [String.fromUTF8?, dif_pos hline]
    rw [List.filterMap_cons_some hsome, List.map_cons, map_toUTF8_filterMap hlines]
    rfl

theorem map_toUTF8_leadingTexts (lines : List ByteArray) :
    (leadingTexts lines).map String.toUTF8 = lines.takeWhile fun line => line.IsValidUTF8 :=
  map_toUTF8_filterMap (fun line hline => by simpa using List.all_eq_true.1 List.all_takeWhile line hline)

theorem leadingTexts_append (lines : List ByteArray) :
    lines = (leadingTexts lines).map String.toUTF8 ++ lines.dropWhile fun line => line.IsValidUTF8 := by
  rw [map_toUTF8_leadingTexts, List.takeWhile_append_dropWhile]

/-! ## Answers -/

/-- What the prompt puts out for a line. -/
def answer (f : LogFilter) (text : String) : List Emission := prompt :: (scan text).emissions f

theorem turn_text (f : LogFilter) (text : String) :
    turn f (.ok (some text.toUTF8)) = ⟨(scan text).emissions f, none⟩ := by
  have hline : (Except.ok (some text.toUTF8)).bind (Option.mapM decodeText) = some <$> decodeText text.toUTF8 := rfl
  rw [turn, hline, decodeText_toUTF8]
  rfl

theorem turn_of_not_valid (f : LogFilter) {line : ByteArray} (h : ¬ line.IsValidUTF8) :
    ∃ cause, turn f (.ok (some line)) = ⟨[.notice (.failure (.unreadableInput cause))], some 74⟩ := by
  obtain ⟨cause, hcause⟩ := decodeText_of_not_valid h
  have hline : (Except.ok (some line)).bind (Option.mapM decodeText) = some <$> decodeText line := rfl
  refine ⟨cause, ?_⟩
  rw [turn, hline, hcause]
  rfl

/-- The turns that answer texts, one after the other. -/
theorem promptFrom_texts (f : LogFilter) (rest : List (Option ByteArray)) :
    ∀ (emitted : Array Emission) (texts : List String),
      promptFrom f emitted ((texts.map String.toUTF8).map some ++ rest) =
        promptFrom f (emitted ++ (texts.flatMap (answer f)).toArray) rest
  | emitted, [] => by simp
  | emitted, text :: texts => by
    have hemitted : emitted.push prompt ++ (scan text).emissions f = emitted ++ (answer f text).toArray := by
      apply Array.ext'
      simp [answer]
    have hcode : (turn f (.ok (some text.toUTF8))).exitCode? = none := by rw [turn_text]
    rw [List.map_cons, List.map_cons, List.cons_append, promptFrom_of_none _ _ hcode, turn_text, hemitted,
      promptFrom_texts f rest, List.flatMap_cons]
    simp

theorem join_flatMap {α : Type} (g : α → List String) : ∀ l : List α,
    String.join (l.flatMap g) = String.join (l.map fun x => String.join (g x))
  | [] => rfl
  | x :: l => by rw [List.flatMap_cons, String.join_append, join_flatMap g l, List.map_cons, String.join_cons]

theorem join_texts_answers (f : LogFilter) (texts : List String) :
    String.join (textsOf (texts.flatMap (answer f))) =
      String.join (texts.map fun text => "> " ++ String.join ((scan text).tokens.map fun t => t.text ++ "\n")) := by
  have hanswer : ∀ text, String.join (textsOf (answer f text)) =
      "> " ++ String.join ((scan text).tokens.map fun t => t.text ++ "\n") := by
    intro text
    rw [answer, prompt, textsOf_output, Scan.textsOf_emissions, String.join_cons]
  have htexts : textsOf (texts.flatMap (answer f)) = texts.flatMap fun text => textsOf (answer f text) :=
    List.filterMap_flatMap
  rw [htexts, join_flatMap]
  simp only [hanswer]

theorem join_notices_answers {f : LogFilter} (h : ∀ e, f.shows e = false) (texts : List String) :
    String.join (((texts.flatMap (answer f)).filterMap Emission.notice?).map fun n => n.text ++ "\n") =
      String.join (texts.map fun text => String.join ((scan text).diagnostics.map fun d => d.text ++ "\n")) := by
  have hanswer : ∀ text, (answer f text).filterMap Emission.notice? = (scan text).diagnostics.map .diagnostic :=
    fun text => Scan.notices_emissions _ h
  rw [List.filterMap_flatMap, List.map_flatMap, join_flatMap]
  simp only [hanswer, List.map_map]
  rfl

/-- The leading texts are all lines, or the first line behind them is no text. -/
theorem leadingTexts_cases (lines : List ByteArray) :
    (lines.all (fun line => line.IsValidUTF8) = true ∧ lines = (leadingTexts lines).map String.toUTF8) ∨
      (¬ lines.all (fun line => line.IsValidUTF8) = true ∧ ∃ line rest,
        lines = (leadingTexts lines).map String.toUTF8 ++ line :: rest ∧ ¬ line.IsValidUTF8) := by
  have hlines := leadingTexts_append lines
  cases hrest : lines.dropWhile (fun line => line.IsValidUTF8) with
  | nil =>
    rw [hrest, List.append_nil] at hlines
    refine .inl ⟨?_, hlines⟩
    rw [hlines, List.all_map, List.all_eq_true]
    exact fun text _ => decide_eq_true text.isValidUTF8
  | cons line rest =>
    have hline := List.head?_dropWhile_not (fun line : ByteArray => decide line.IsValidUTF8) lines
    rw [hrest] at hlines hline
    have hline : ¬ line.IsValidUTF8 := by simpa using hline
    have hmem : line ∈ lines := hlines ▸ List.mem_append_right _ List.mem_cons_self
    refine .inr ⟨fun hall => ?_, line, rest, hlines, hline⟩
    exact hline (by simpa using List.all_eq_true.1 hall line hmem)

/-- A prompt ends with the input, or with the first line that is no text. -/
theorem runPrompt_eq (f : LogFilter) (input : ByteArray) :
    let lines := linesOf input
    let emitted := (leadingTexts lines).flatMap (answer f) ++ [prompt]
    ∃ cause, runPrompt f input =
      if lines.all (fun line => line.IsValidUTF8) then ⟨0, emitted⟩ else .failed (.unreadableInput cause) emitted := by
  intro lines emitted
  rcases leadingTexts_cases lines with ⟨hall, hlines⟩ | ⟨hall, line, rest, hlines, hline⟩
  · have hreads : promptLines input = ((leadingTexts lines).map String.toUTF8).map some ++ [none] :=
      congrArg (List.map some · ++ [none]) hlines
    have hlast : turn f (.ok none) = ⟨[], some 0⟩ := rfl
    refine ⟨"", ?_⟩
    rw [runPrompt, hreads, promptFrom_texts, promptFrom, hlast, if_pos hall]
    simp [emitted]
  · obtain ⟨cause, hlast⟩ := turn_of_not_valid f hline
    have hreads : promptLines input =
        ((leadingTexts lines).map String.toUTF8).map some ++ some line :: (rest.map some ++ [none]) := by
      refine (congrArg (List.map some · ++ [none]) hlines).trans ?_
      rw [List.map_append, List.append_assoc]
      rfl
    refine ⟨cause, ?_⟩
    rw [runPrompt, hreads, promptFrom_texts, promptFrom, hlast, if_neg hall]
    simp [emitted, RunReport.failed, Failure.exitCode]

/-- **The prompt answers each line by itself.**  For each of the leading lines that are texts, the output is `> ` and
the texts of its tokens, and last `> ` once more; what is said are the diagnostics of these lines, and last that a line
cannot be read if there is one, which alone makes the run fail. -/
theorem run_prompt {around : Surroundings} {arguments : List String} {options : Options}
    (hread : readArguments arguments = .ok options) (hpath : options.path = none)
    (hsilent : LogFilter.Selects options.verbose around.logSetting ⟨false, none⟩)
    (houtput : around.outputFault = none) :
    let lines := linesOf around.input
    let texts := leadingTexts lines
    let r := run around arguments
    (∀ other, LineSplit around.input other ↔ other = lines) ∧
    texts.map String.toUTF8 = lines.takeWhile (fun line => line.IsValidUTF8) ∧
    r.output = String.join (texts.map fun text =>
      "> " ++ String.join ((scan text).tokens.map fun t => t.text ++ "\n")) ++ "> " ∧
    r.errorText = String.join (texts.map fun text =>
        String.join ((scan text).diagnostics.map fun d => d.text ++ "\n")) ++
      (if lines.all (fun line => line.IsValidUTF8) then "" else "Could not read from standard input.\n") ∧
    r.exitCode = if lines.all (fun line => line.IsValidUTF8) then 0 else 74 := by
  intro lines texts r
  have hr : r = runPrompt (LogFilter.choose options.verbose around.logSetting) around.input := by
    show run around arguments = _
    rw [run_of_output hread houtput, runOptions, hpath]
  obtain ⟨cause, hends⟩ := runPrompt_eq (LogFilter.choose options.verbose around.logSetting) around.input
  have htexts := join_texts_answers (LogFilter.choose options.verbose around.logSetting) texts
  have hnotices := join_notices_answers hsilent.not_shows texts
  refine ⟨fun other => lineSplit_iff, map_toUTF8_leadingTexts lines, ?_⟩
  by_cases hall : lines.all (fun line => line.IsValidUTF8) = true
  · rw [if_pos hall] at hends
    rw [hr, hends, if_pos hall, if_pos hall]
    refine ⟨?_, ?_, rfl⟩
    · rw [RunReport.output, textsOf_append, String.join_append, htexts]
      rfl
    · rw [RunReport.errorText, RunReport.notices, List.filterMap_append, List.map_append, String.join_append, hnotices]
      rfl
  · rw [if_neg hall] at hends
    rw [hr, hends, if_neg hall, if_neg hall]
    refine ⟨?_, ?_, rfl⟩
    · rw [RunReport.failed, RunReport.output, List.append_assoc, textsOf_append, String.join_append, htexts]
      rfl
    · rw [RunReport.failed, RunReport.errorText, RunReport.notices, List.append_assoc, List.filterMap_append,
        List.map_append, String.join_append, hnotices]
      rfl

/-- A string that its line leaves open behind three tokens, a line with a bad character, a byte that starts no
character, and a last line that is not reached. -/
theorem run_prompt_unreadable_line :
    let around : Surroundings :=
      ⟨fun _ => .error "", "var x = \"a\n@ + 1.5;\n".toUTF8 ++ ⟨#[0xff, lineFeed, 0x32]⟩, some "lox=warn", none, 0⟩
    readArguments ["--"] = .ok ⟨none, false⟩ ∧ LogFilter.Selects false around.logSetting ⟨false, none⟩ ∧
      (run around ["--"]).output =
        "> Var var nil\nIdentifier x nil\nEqual = nil\nEof  nil\n" ++
        "> Plus + nil\nNumber 1.5 1.5\nSemicolon ; nil\nEof  nil\n" ++ "> " ∧
      (run around ["--"]).errorText = "[line 2] Error: Unterminated string.\n" ++
        "[line 1] Error: Unexpected character.\n" ++ "Could not read from standard input.\n" ∧
      (run around ["--"]).exitCode = 74 := by
  intro around
  have hread : readArguments ["--"] = .ok ⟨none, false⟩ := rfl
  have hsilent : LogFilter.Selects false around.logSetting ⟨false, none⟩ := .nothing (by decide)
  obtain ⟨-, -, houtput, herrors, hcode⟩ := run_prompt hread rfl hsilent rfl
  exact ⟨hread, hsilent, houtput.trans (by decide +kernel), herrors.trans (by decide +kernel),
    hcode.trans (by decide +kernel)⟩

end LoxLexer
