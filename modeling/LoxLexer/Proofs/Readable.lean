import Mathlib.Data.List.TakeWhile
import LoxLexer.Proofs.File
/-!
# Readable input

No character but the line feed has the byte of a line feed in it (`lineFeed_mem_utf8EncodeChar`), so the bytes of a
text can be cut into lines without cutting a character (`exists_lineSplit`).  Hence bytes are a text exactly when each
of their lines is one, and what can be read does not depend on whether it is read as a whole or line by line.

Main statement: `run_readable`.
-/
namespace LoxLexer

/-! ## Line feeds in bytes -/

/-- A byte of a character is its code, or too large to be one. -/
theorem toNat_of_mem_utf8EncodeChar {c : Char} {b : UInt8} (h : b ∈ String.utf8EncodeChar c) :
    b.toNat = c.val.toNat ∨ 128 ≤ b.toNat := by
  have hbyte : ∀ n, (UInt8.ofNat n).toNat = n % 256 := fun n => UInt8.toNat_ofNat'
  unfold String.utf8EncodeChar at h
  dsimp only at h
  split at h
  · obtain rfl := List.mem_singleton.1 h
    exact .inl (by rw [hbyte]; omega)
  · refine .inr ?_
    split at h
    · simp only [List.mem_cons, List.not_mem_nil, or_false] at h
      rcases h with rfl | rfl <;> rw [hbyte] <;> omega
    split at h
    · simp only [List.mem_cons, List.not_mem_nil, or_false] at h
      rcases h with rfl | rfl | rfl <;> rw [hbyte] <;> omega
    · simp only [List.mem_cons, List.not_mem_nil, or_false] at h
      rcases h with rfl | rfl | rfl | rfl <;> rw [hbyte] <;> omega

theorem lineFeed_mem_utf8EncodeChar {c : Char} (h : lineFeed ∈ String.utf8EncodeChar c) : c = '\n' := by
  rcases toNat_of_mem_utf8EncodeChar h with hc | hle
  · exact Char.ext (UInt32.toNat_inj.1 hc.symm)
  · exact absurd hle (by decide)

theorem lineFeed_not_mem_utf8Encode {cs : List Char} (h : '\n' ∉ cs) : lineFeed ∉ cs.utf8Encode.data.toList := by
  rw [List.utf8Encode, List.toList_data_toByteArray, List.mem_flatMap]
  rintro ⟨c, hc, hmem⟩
  exact h (lineFeed_mem_utf8EncodeChar hmem ▸ hc)

theorem utf8Encode_line (cs : List Char) : (cs ++ ['\n']).utf8Encode = cs.utf8Encode.push lineFeed := by
  rw [List.utf8Encode_append]
  apply eq_of_toList_data_eq
  rw [ByteArray.toList_data_append, toList_data_push]
  congr 1

/-! ## Lines that are texts -/

/-- **The bytes of a text can be cut into lines that are texts.** -/
theorem exists_lineSplit (cs : List Char) :
    ∃ texts : List String, LineSplit cs.utf8Encode (texts.map String.toUTF8) := by
  by_cases hmem : '\n' ∈ cs
  · obtain ⟨front, rest, hcs, hfront⟩ := List.eq_append_cons_of_mem hmem
    have hlt : rest.length < cs.length := by
      rw [hcs, List.length_append, List.length_cons]; omega
    obtain ⟨texts, hrest⟩ := exists_lineSplit rest
    refine ⟨String.ofList (front ++ ['\n']) :: texts, ?_⟩
    have hline : (String.ofList (front ++ ['\n'])).toUTF8 = front.utf8Encode.push lineFeed := by
      rw [String.toUTF8_eq_toByteArray, String.toByteArray_ofList, utf8Encode_line]
    have hbytes : cs.utf8Encode = front.utf8Encode.push lineFeed ++ rest.utf8Encode := by
      rw [hcs, ← utf8Encode_line, ← List.utf8Encode_append, List.append_assoc]
      rfl
    rw [List.map_cons, hline, hbytes]
    exact .cons (lineFeed_not_mem_utf8Encode hfront) hrest
  · by_cases hne : cs = []
    · subst hne
      exact ⟨[], .nil⟩
    · refine ⟨[String.ofList cs], ?_⟩
      have hline : (String.ofList cs).toUTF8 = cs.utf8Encode := by
        rw [String.toUTF8_eq_toByteArray, String.toByteArray_ofList]
      rw [List.map_singleton, hline]
      exact .last (fun h => hne (List.utf8Encode_eq_empty.1 h)) (lineFeed_not_mem_utf8Encode hmem)
termination_by cs.length

/-- Lines that are texts make a text. -/
theorem LineSplit.toUTF8_join {bytes : ByteArray} {lines : List ByteArray} (h : LineSplit bytes lines) :
    ∀ {texts : List String}, texts.map String.toUTF8 = lines → (String.join texts).toUTF8 = bytes := by
  induction h with
  | nil =>
    intro texts htexts
    rw [List.map_eq_nil_iff.1 htexts]
    rfl
  | last hne hfree =>
    intro texts htexts
    obtain ⟨text, rfl, rfl⟩ := List.map_eq_singleton_iff.1 htexts
    rw [String.join_cons, String.join_nil, String.append_empty]
  | cons hfree others ih =>
    intro texts htexts
    obtain ⟨text, texts, rfl, hline, hrest⟩ := List.map_eq_cons_iff.1 htexts
    rw [String.join_cons, ← hline, ← ih hrest]
    exact String.toByteArray_append

theorem leadingTexts_map_toUTF8 (texts : List String) : leadingTexts (texts.map String.toUTF8) = texts := by
  have hall : ∀ line ∈ texts.map String.toUTF8, decide line.IsValidUTF8 = true := by
    intro line hline
    obtain ⟨text, -, rfl⟩ := List.mem_map.1 hline
    exact decide_eq_true (isValidUTF8_toUTF8 text)
  have hread : String.fromUTF8? ∘ String.toUTF8 = some := funext fromUTF8?_toUTF8
  rw [leadingTexts, List.takeWhile_eq_self_iff.2 hall, List.filterMap_map, hread, List.filterMap_some]

/-- The lines of a text are texts, and together they are the text. -/
theorem lines_of_text (text : String) :
    (leadingTexts (linesOf text.toUTF8)).map String.toUTF8 = linesOf text.toUTF8 ∧
      String.join (leadingTexts (linesOf text.toUTF8)) = text := by
  obtain ⟨texts, hsplit⟩ := exists_lineSplit text.toList
  rw [String.utf8Encode_toList] at hsplit
  have hlines : texts.map String.toUTF8 = linesOf text.toUTF8 := lineSplit_iff.1 hsplit
  rw [← hlines, leadingTexts_map_toUTF8]
  exact ⟨rfl, String.toByteArray_inj.1 (hsplit.toUTF8_join rfl)⟩

/-- **Bytes are a text exactly when each of their lines is one.** -/
theorem isValidUTF8_iff_lines (bytes : ByteArray) :
    bytes.IsValidUTF8 ↔ ∀ line ∈ linesOf bytes, line.IsValidUTF8 := by
  constructor
  · intro hvalid line hline
    obtain ⟨text, rfl⟩ : ∃ text : String, text.toUTF8 = bytes := ⟨String.fromUTF8 bytes hvalid, rfl⟩
    rw [← (lines_of_text text).1] at hline
    obtain ⟨text, -, rfl⟩ := List.mem_map.1 hline
    exact isValidUTF8_toUTF8 text
  · intro hlines
    have hjoin := (lineSplit_linesOf bytes).toUTF8_join (map_toUTF8_filterMap hlines)
    rw [← hjoin]
    exact isValidUTF8_toUTF8 _

/-! ## Runs on readable input -/

theorem exists_text_iff {bytes : ByteArray} : bytes.IsValidUTF8 ↔ ∃ text : String, bytes = text.toUTF8 := by
  constructor
  · intro hvalid
    exact ⟨String.fromUTF8 bytes hvalid, rfl⟩
  · rintro ⟨text, rfl⟩
    exact isValidUTF8_toUTF8 text

theorem all_lines_iff (bytes : ByteArray) :
    (linesOf bytes).all (fun line => line.IsValidUTF8) = true ↔ bytes.IsValidUTF8 := by
  rw [isValidUTF8_iff_lines bytes]
  simp only [List.all_eq_true, decide_eq_true_eq]

section

variable {around : Surroundings} {arguments : List String} {options : Options}
  (hread : readArguments arguments = .ok options) (houtput : around.outputFault = none)

include hread houtput

/-- How a run without a path ends. -/
theorem run_prompt_readable (hpath : options.path = none) :
    ((run around arguments).exitCode = 74 ↔ ¬ around.input.IsValidUTF8) ∧
      (around.input.IsValidUTF8 → (run around arguments).emissions =
        (leadingTexts (linesOf around.input)).flatMap
          (answer (LogFilter.choose options.verbose around.logSetting)) ++ [prompt]) := by
  obtain ⟨cause, hends⟩ := runPrompt_eq (LogFilter.choose options.verbose around.logSetting) around.input
  rw [run_of_output hread houtput, runOptions, hpath]
  dsimp only
  rw [hends]
  by_cases hvalid : around.input.IsValidUTF8
  · rw [if_pos ((all_lines_iff _).2 hvalid)]
    have hcode : (0 : Nat) ≠ 74 := by decide
    exact ⟨⟨fun h => absurd h hcode, fun hnot => absurd hvalid hnot⟩, fun _ => rfl⟩
  · rw [if_neg (fun hall => hvalid ((all_lines_iff _).1 hall))]
    exact ⟨⟨fun _ => hvalid, fun _ => rfl⟩, fun h => absurd h hvalid⟩

/-- How a run over a file ends that can be read. -/
theorem run_file_readable {path : String} {bytes : ByteArray} (hpath : options.path = some path)
    (hfile : around.file path = .ok bytes) :
    ((run around arguments).exitCode = 74 ↔ ¬ bytes.IsValidUTF8) ∧
      ∀ text : String, bytes = text.toUTF8 → (run around arguments).emissions =
        (LogFilter.choose options.verbose around.logSetting).emissions [.scanningFile path] ++
          (scan text).emissions (LogFilter.choose options.verbose around.logSetting) := by
  have hrun : run around arguments =
      runFile (LogFilter.choose options.verbose around.logSetting) path (.ok bytes) := by
    rw [run_of_output hread houtput, runOptions, hpath]
    exact congrArg (runFile _ path) hfile
  by_cases hvalid : bytes.IsValidUTF8
  · obtain ⟨text, rfl⟩ := exists_text_iff.1 hvalid
    rw [hrun, runFile_text]
    refine ⟨⟨fun hcode => ?_, fun hnot => absurd hvalid hnot⟩, fun other hother => ?_⟩
    · dsimp only at hcode
      split at hcode <;> cases hcode
    · rw [String.toByteArray_inj.1 hother]
  · have hnot : ∀ other, (Except.ok bytes : Except String ByteArray) = .ok other → ¬ other.IsValidUTF8 := by
      rintro other hother
      cases hother
      exact hvalid
    obtain ⟨cause, hfailed⟩ := runFile_of_not_text hnot
    rw [hrun, hfailed]
    exact ⟨⟨fun _ => hvalid, fun _ => rfl⟩, fun text htext => absurd (exists_text_iff.2 ⟨text, htext⟩) hvalid⟩

end

/-- **A prompt and a run over a file agree on what can be read.**  Given the same bytes, both fail to read them or
neither does; they fail exactly when the bytes are not well-formed, and so exactly when some line is not.  Otherwise
the lines that the prompt answers one by one are together the text that the other run scans. -/
theorem run_readable {around around' : Surroundings} {arguments arguments' : List String}
    {options options' : Options} {path : String}
    (hread : readArguments arguments = .ok options) (hpath : options.path = none)
    (hread' : readArguments arguments' = .ok options') (hpath' : options'.path = some path)
    (houtput : around.outputFault = none) (houtput' : around'.outputFault = none)
    (hfile : around'.file path = .ok around.input) :
    let bytes := around.input
    let lines := linesOf bytes
    let texts := leadingTexts lines
    let f := LogFilter.choose options.verbose around.logSetting
    let f' := LogFilter.choose options'.verbose around'.logSetting
    (∀ other, LineSplit bytes other ↔ other = lines) ∧
    ((run around arguments).exitCode = 74 ↔ (run around' arguments').exitCode = 74) ∧
    ((run around' arguments').exitCode = 74 ↔ ¬ bytes.IsValidUTF8) ∧
    (bytes.IsValidUTF8 ↔ ∀ line ∈ lines, line.IsValidUTF8) ∧
    ∀ text : String, bytes = text.toUTF8 →
      (run around arguments).emissions = texts.flatMap (answer f) ++ [prompt] ∧
      (run around' arguments').emissions = f'.emissions [.scanningFile path] ++ (scan text).emissions f' ∧
      texts.map String.toUTF8 = lines ∧ String.join texts = text := by
  intro bytes lines texts f f'
  obtain ⟨hcode, hemissions⟩ := run_prompt_readable hread houtput hpath
  obtain ⟨hcode', hemissions'⟩ := run_file_readable hread' houtput' hpath' hfile
  refine ⟨fun other => lineSplit_iff, hcode.trans hcode'.symm, hcode', isValidUTF8_iff_lines bytes, ?_⟩
  intro text htext
  have hlines := lines_of_text text
  rw [← htext] at hlines
  exact ⟨hemissions (exists_text_iff.2 ⟨text, htext⟩), hemissions' text htext, hlines⟩

/-- Three lines with a character of two bytes and a string that its line leaves open, then the same with a line feed
between the two bytes. -/
theorem run_readable_two_bytes :
    let around (bytes : ByteArray) : Surroundings :=
      ⟨fun path => if path = "m" then .ok bytes else .error "", bytes, none, none, 0⟩
    let whole := around "é\n\"x\r\n+".toUTF8
    let torn := around ⟨#[0xc3, lineFeed, 0xa9, lineFeed]⟩
    readArguments ["-v"] = .ok ⟨none, true⟩ ∧ readArguments ["m"] = .ok ⟨some "m", false⟩ ∧
      whole.file "m" = .ok whole.input ∧ torn.file "m" = .ok torn.input ∧
      (run whole ["m"]).exitCode ≠ 74 ∧ (run whole ["-v"]).exitCode ≠ 74 ∧
      leadingTexts (linesOf whole.input) = ["é\n", "\"x\r\n", "+"] ∧
      String.join ["é\n", "\"x\r\n", "+"] = "é\n\"x\r\n+" ∧
      (run torn ["m"]).exitCode = 74 ∧ (run torn ["-v"]).exitCode = 74 := by
  intro around whole torn
  have hread : readArguments ["-v"] = .ok ⟨none, true⟩ := rfl
  have hread' : readArguments ["m"] = .ok ⟨some "m", false⟩ := rfl
  obtain ⟨-, hcodes, hcode, -, htext⟩ := @run_readable whole whole _ _ _ _ _ hread rfl hread' rfl rfl rfl rfl
  obtain ⟨-, hcodes', hcode', -, -⟩ := @run_readable torn torn _ _ _ _ _ hread rfl hread' rfl rfl rfl rfl
  have hvalid : whole.input.IsValidUTF8 := isValidUTF8_toUTF8 "é\n\"x\r\n+"
  have htorn : ¬ torn.input.IsValidUTF8 := by decide +kernel
  have htexts : leadingTexts (linesOf whole.input) = ["é\n", "\"x\r\n", "+"] := by decide +kernel
  obtain ⟨-, -, -, hjoin⟩ := htext "é\n\"x\r\n+" rfl
  rw [htexts] at hjoin
  exact ⟨hread, hread', rfl, rfl, fun h => hcode.1 h hvalid, fun h => hcode.1 (hcodes.1 h) hvalid, htexts, hjoin,
    hcode'.2 htorn, hcodes'.2 (hcode'.2 htorn)⟩

end LoxLexer
