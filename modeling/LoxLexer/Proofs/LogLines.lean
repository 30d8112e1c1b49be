import LoxLexer.Log
import LoxLexer.Proofs.Listing
import LoxLexer.Proofs.Quoting
/-!
# Log lines

A log line shows all that an event holds, and it is one line.  Up to the first equals sign it says what event it is
(`Event.opening`); behind that stand the values of the fields, each of which says where it ends: a name and a number at
the next space, a quoted lexeme at its closing quote (`Event.values_inj`).  So no lexeme can pass for another entry, and
a log says entry by entry what was logged.

Main statement: `log_lossless`.
-/
namespace LoxLexer

/-! ## Errors -/

namespace LexError

theorem toList_logText_unexpectedCharacter (c : Char) : (unexpectedCharacter c).logText.toList =
    "UnexpectedCharacter(".toList ++ ((quoted '\'' [c]).toList ++ [')']) := by
  simp [logText, name, character?]

theorem logText_injective {e e' : LexError} (h : e.logText.toList = e'.logText.toList) : e = e' := by
  cases e with
  | unexpectedCharacter c =>
    cases e' with
    | unexpectedCharacter c' =>
      rw [toList_logText_unexpectedCharacter, toList_logText_unexpectedCharacter] at h
      obtain ⟨hc, -⟩ := quoted_append_inj (.inr rfl) (List.append_cancel_left h)
      rw [List.singleton_inj.1 hc]
    | _ => simp [logText, name, character?] at h
  | unterminatedString =>
    cases e' with
    | unterminatedString => rfl
    | _ => simp [logText, name, character?] at h
  | malformedNumber =>
    cases e' with
    | malformedNumber => rfl
    | _ => simp [logText, name, character?] at h

theorem newline_not_mem_logText (e : LexError) : '\n' ∉ e.logText.toList := by
  cases e with
  | unexpectedCharacter c =>
    rw [toList_logText_unexpectedCharacter]
    have hquoted := newline_not_mem_quoted (.inr rfl) [c]
    simp [hquoted]
  | _ => decide

end LexError

/-! ## Events -/

namespace Event

def logLine (e : Event) : String := (LogEntry.event e).text

/-- What the line of an event begins with, up to the first value. -/
def opening : Event → String
  | token .. => "TRACE lox::scanner: token kind"
  | lexicalError .. => "DEBUG lox::scanner: lexical error line"
  | finished .. => "DEBUG lox::scanner: finished scanning source tokens"

/-- What the line of an event ends with, from the first value on. -/
def values : Event → String
  | token kind lexeme line => kind.name ++ " lexeme=" ++ (quoted '"' lexeme.toList ++ " line=" ++ toString line)
  | lexicalError line error => toString line ++ " error=" ++ error.logText
  | finished tokens errors => toString tokens ++ " errors=" ++ toString errors

theorem logLine_eq (e : Event) : e.logLine = e.opening ++ "=" ++ e.values := by
  apply String.toList_inj.1
  cases e <;>
    simp [logLine, LogEntry.text, LogEntry.level, LogEntry.target, LogEntry.message, LogEntry.fields, level, message,
      fields, LogLevel.name, opening, values, String.join]

theorem newline_not_mem_logLine (e : Event) : '\n' ∉ e.logLine.toList := by
  have hnumber : ∀ n : Nat, '\n' ∉ Nat.toDigits 10 n := not_mem_toDigits (by decide)
  rw [logLine_eq]
  cases e with
  | token kind lexeme line =>
    have hname : '\n' ∉ kind.name.toList := fun hn => absurd (kind.isAlpha_of_mem_name _ hn) (by decide)
    have hlexeme : '\n' ∉ (quoted '"' lexeme.toList).toList := newline_not_mem_quoted (.inl rfl) _
    simp [opening, values, hname, hlexeme, hnumber]
  | lexicalError line error =>
    have herror := error.newline_not_mem_logText
    simp [opening, values, herror, hnumber]
  | finished tokens errors => simp [opening, values, hnumber]

theorem values_inj {e e' : Event} (hopening : e.opening = e'.opening) (h : e.values = e'.values) : e = e' := by
  have hnumber : ∀ n : Nat, ' ' ∉ (toString n).toList := not_mem_toString (by decide)
  cases e with
  | token kind lexeme line =>
    cases e' with
    | token kind' lexeme' line' =>
      obtain ⟨hname, h⟩ := append_separator_inj rfl kind.space_not_mem_name kind'.space_not_mem_name h
      have h := congrArg String.toList h
      simp only [String.toList_append, List.append_assoc] at h
      obtain ⟨hlexeme, hline⟩ := quoted_append_inj (.inl rfl) h
      rw [TokenKind.name_injective hname, String.toList_inj.1 hlexeme,
        toString_injective (List.append_cancel_left hline)]
    | _ => simp [opening] at hopening
  | lexicalError line error =>
    cases e' with
    | lexicalError line' error' =>
      obtain ⟨hline, herror⟩ := append_separator_inj rfl (hnumber line) (hnumber line') h
      rw [toString_injective (String.toList_inj.2 hline), LexError.logText_injective (String.toList_inj.2 herror)]
    | _ => simp [opening] at hopening
  | finished tokens errors =>
    cases e' with
    | finished tokens' errors' =>
      obtain ⟨htokens, herrors⟩ := append_separator_inj rfl (hnumber tokens) (hnumber tokens') h
      rw [toString_injective (String.toList_inj.2 htokens), toString_injective (String.toList_inj.2 herrors)]
    | _ => simp [opening] at hopening

/-- **Two events have one line only if they are the same.** -/
theorem logLine_injective {e e' : Event} (h : e.logLine = e'.logLine) : e = e' := by
  have hequals : ∀ e : Event, '=' ∉ e.opening.toList := fun e => by cases e <;> simp [opening]
  rw [logLine_eq, logLine_eq] at h
  obtain ⟨hopening, hvalues⟩ := append_separator_inj rfl (hequals e) (hequals e') h
  exact values_inj hopening hvalues

end Event

/-! ## Logs -/

/-- Texts, each ended as a line. -/
def asLines (texts : List String) : String := String.join (texts.map (· ++ "\n"))

theorem asLines_nil : asLines [] = "" := rfl

theorem asLines_cons (text : String) (texts : List String) :
    asLines (text :: texts) = text ++ "\n" ++ asLines texts := by
  rw [asLines, List.map_cons, String.join_cons, asLines]

theorem asLines_inj : ∀ {texts texts' : List String}, (∀ t ∈ texts, '\n' ∉ t.toList) →
    (∀ t ∈ texts', '\n' ∉ t.toList) → asLines texts = asLines texts' → texts = texts'
  | [], [], _, _, _ => rfl
  | [], text :: texts, _, _, h => by simp [asLines_cons, asLines_nil] at h
  | text :: texts, [], _, _, h => by simp [asLines_cons, asLines_nil] at h
  | text :: texts, text' :: texts', htexts, htexts', h => by
    obtain ⟨htext, htexts⟩ := List.forall_mem_cons.1 htexts
    obtain ⟨htext', htexts'⟩ := List.forall_mem_cons.1 htexts'
    rw [asLines_cons, asLines_cons] at h
    obtain ⟨hfirst, hrest⟩ := append_separator_inj rfl htext htext' h
    rw [hfirst, asLines_inj htexts htexts' hrest]

/-- The log of some events. -/
def logOf (events : List Event) : String := asLines (events.map Event.logLine)

theorem newline_not_mem_of_mem_logLines (events : List Event) : ∀ t ∈ events.map Event.logLine, '\n' ∉ t.toList :=
  List.forall_mem_map.2 fun e _ => e.newline_not_mem_logLine

/-- **A log is lossless.**  The line of an event is one line and says which event it is; so the lines of a log are
those of the events, and logs that are the same log the same events. -/
theorem log_lossless (e e' : Event) (events events' : List Event) (lines : List String) :
    '\n' ∉ (LogEntry.event e).text.toList ∧
    ((LogEntry.event e).text = (LogEntry.event e').text ↔ e = e') ∧
    (logOf events = logOf events' ↔ events = events') ∧
    ((∀ l ∈ lines, '\n' ∉ l.toList) ∧ asLines lines = logOf events ↔ lines = events.map Event.logLine) := by
  refine ⟨e.newline_not_mem_logLine, ⟨Event.logLine_injective, ?_⟩, ⟨fun h => ?_, ?_⟩, ⟨fun ⟨hlines, h⟩ => ?_, ?_⟩⟩
  · rintro rfl
    rfl
  · have hlines := asLines_inj (newline_not_mem_of_mem_logLines events) (newline_not_mem_of_mem_logLines events') h
    exact List.map_inj_right (fun _ _ => Event.logLine_injective) |>.1 hlines
  · rintro rfl
    rfl
  · exact asLines_inj hlines (newline_not_mem_of_mem_logLines events) h
  · rintro rfl
    exact ⟨newline_not_mem_of_mem_logLines events, rfl⟩

/-- A string that holds what looks like an entry does not leave its own line. -/
example : ((scan "\"\nDEBUG lox::scanner: token\"").events.map Event.logLine).head? =
    some "TRACE lox::scanner: token kind=String lexeme=\"\\\"\\nDEBUG lox::scanner: token\\\"\" line=1" := by
  decide +kernel

end LoxLexer
