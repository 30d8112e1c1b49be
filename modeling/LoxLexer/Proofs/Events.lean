import LoxLexer.Log
import LoxLexer.Proofs.LineNumbers
/-!
# What a log sees of a scan

The events of a scan and its two results are filled apart from each other, and one outcome at a time.  So the events
are those of the outcomes in the order of the text, and whoever selects them by level and message finds the tokens and
the diagnostics again (`filter_events`).

Main statement: `scan_events`, where each event stands and that none is missing, double or out of order.
-/
namespace LoxLexer

def Token.event (t : Token) : Event := .token t.kind t.lexeme t.line

def Diagnostic.event (d : Diagnostic) : Event := .lexicalError d.line d.error

/-- A token and an error each show as one event, nothing as none. -/
def Outcome.event? : Outcome → Option Event
  | .nothing => none
  | .token t => some t.event
  | .error line e => some (.lexicalError line e)

/-- The event has this level and this message. -/
def Event.isHeaded (level : LogLevel) (message : String) (e : Event) : Bool :=
  decide (e.level = level ∧ e.message = message)

/-! ## Events of outcomes -/

section

variable {σ : Type u} (report : Reporter σ)

theorem events_foldl_step : ∀ (outcomes : List Outcome) (p : Progress σ),
    (outcomes.foldl (Progress.step report) p).events.toList = p.events.toList ++ outcomes.filterMap Outcome.event?
  | [], p => by simp
  | o :: outcomes, p => by
    rw [List.foldl_cons, events_foldl_step outcomes]
    cases o with
    | nothing => rfl
    | token t => rw [Progress.step, Progress.accept, Array.toList_push, List.append_assoc]; rfl
    | error line e => rw [Progress.step, Progress.reject, Array.toList_push, List.append_assoc]; rfl

theorem events_scanWith (s : σ) (text : String) :
    (scanWith report s text).events.toList =
      (outcomesFrom 1 text.toList).filterMap Outcome.event? ++ [(endToken (1 + text.toList.count '\n')).event] := by
  rw [scanWith_eq, Progress.accept, Array.toList_push, events_foldl_step]
  rfl

end

/-- **The events of a scan** are those of what the units come to, then that of the end, then a count. -/
theorem events_scan (text : String) :
    (scan text).events = (outcomesFrom 1 text.toList).filterMap Outcome.event? ++
      [(endToken (1 + text.toList.count '\n')).event,
       .finished (scan text).tokens.length (scan text).diagnostics.length] := by
  unfold scan
  simp only [Array.toList_push, events_scanWith, Array.length_toList, List.append_assoc]
  rfl

/-- A selection that takes of each outcome what `view` shows of it finds what the view finds. -/
theorem filter_filterMap_event? {α : Type} {select : Event → Bool} {view : Outcome → Option α} {event : α → Event}
    (h : ∀ o : Outcome, o.event?.filter select = (view o).map event) (outcomes : List Outcome) :
    (outcomes.filterMap Outcome.event?).filter select = (outcomes.filterMap view).map event := by
  rw [List.filter_filterMap, List.map_filterMap, funext h]

/-- **Levels and messages select the tokens, the diagnostics and the count.** -/
theorem filter_events (text : String) :
    (scan text).events.filter (Event.isHeaded .trace "token") = (scan text).tokens.map Token.event ∧
    (scan text).events.filter (Event.isHeaded .debug "lexical error") =
      (scan text).diagnostics.map Diagnostic.event ∧
    (scan text).events.filter (Event.isHeaded .debug "finished scanning source") =
      [.finished (scan text).tokens.length (scan text).diagnostics.length] := by
  have htoken : ∀ o : Outcome, o.event?.filter (Event.isHeaded .trace "token") = o.token?.map Token.event := by
    rintro (_ | t | ⟨line, e⟩) <;> rfl
  have herror : ∀ o : Outcome,
      o.event?.filter (Event.isHeaded .debug "lexical error") = o.diagnostic?.map Diagnostic.event := by
    rintro (_ | t | ⟨line, e⟩) <;> rfl
  have hcount : ∀ o : Outcome,
      o.event?.filter (Event.isHeaded .debug "finished scanning source") = (none : Option Event).map id := by
    rintro (_ | t | ⟨line, e⟩) <;> rfl
  rw [events_scan]
  refine ⟨?_, ?_, ?_⟩
  · rw [List.filter_append, filter_filterMap_event? htoken, tokens_scan, List.map_append]
    rfl
  · rw [List.filter_append, filter_filterMap_event? herror, ← diagnostics_scan]
    exact List.append_nil _
  · rw [List.filter_append, filter_filterMap_event? hcount, List.filterMap_eq_nil_iff.2 (fun _ _ => rfl)]
    rfl

/-- **The log is faithful to the scan.**  Piece by piece, in the order of the text, a token shows as one event at the
detailed level, an error as one at the other, and anything else as none; the end and the count follow.  So the events
of tokens are the tokens, those of errors the diagnostics, and what a piece shows stands behind what the pieces before
it show and before what the pieces behind it show. -/
theorem scan_events (text : String) :
    let pieces := piecesOf text.toList
    let outcome := Piece.outcome (Source.ofString text)
    let event? := fun p : Piece => (outcome p).event?
    let s := scan text
    let endOfText := endToken (lineAt text.toList text.toList.length)
    let last : List Event := [endOfText.event, .finished s.tokens.length s.diagnostics.length]
    Covers 0 text.toList.length pieces ∧
    s.events = pieces.filterMap event? ++ last ∧
    s.tokens = pieces.filterMap (fun p => (outcome p).token?) ++ [endOfText] ∧
    s.diagnostics = pieces.filterMap (fun p => (outcome p).diagnostic?) ∧
    s.events.filter (Event.isHeaded .trace "token") = s.tokens.map Token.event ∧
    s.events.filter (Event.isHeaded .debug "lexical error") = s.diagnostics.map Diagnostic.event ∧
    s.events.filter (Event.isHeaded .debug "finished scanning source") =
      [.finished s.tokens.length s.diagnostics.length] ∧
    ∀ before p after, pieces = before ++ p :: after →
      (∀ q ∈ before, q.stop.offset ≤ p.start.offset) ∧ (∀ q ∈ after, p.stop.offset ≤ q.start.offset) ∧
      s.events = before.filterMap event? ++ ((event? p).toList ++ (after.filterMap event? ++ last)) := by
  intro pieces outcome event? s endOfText last
  have hcovers : Covers 0 text.toList.length pieces := covers_piecesOf text.toList
  have hevents : s.events = pieces.filterMap event? ++ last := by
    rw [filterMap_outcome_piecesOf Outcome.event?]
    show (scan text).events = _ ++ [(endToken (lineAt _ _)).event, _]
    rw [lineAt_length]
    exact events_scan text
  have htokens : s.tokens = pieces.filterMap (fun p => (outcome p).token?) ++ [endOfText] := by
    rw [filterMap_outcome_piecesOf Outcome.token?]
    show (scan text).tokens = _ ++ [endToken (lineAt _ _)]
    rw [lineAt_length]
    exact tokens_scan text
  have hdiagnostics : s.diagnostics = pieces.filterMap (fun p => (outcome p).diagnostic?) := by
    rw [filterMap_outcome_piecesOf Outcome.diagnostic?]
    exact diagnostics_scan text
  obtain ⟨htoken, herror, hcount⟩ := filter_events text
  refine ⟨hcovers, hevents, htokens, hdiagnostics, htoken, herror, hcount, fun before p after hpieces => ?_⟩
  rw [hpieces] at hcovers hevents
  obtain ⟨k, hbefore, hstart, -, hafter⟩ := covers_append.1 hcovers
  refine ⟨fun q hq => hstart ▸ (hbefore.bounds q hq).2, fun q hq => (hafter.bounds q hq).1, ?_⟩
  rw [hevents, List.filterMap_append, List.append_assoc]
  cases hp : event? p with
  | none => rw [List.filterMap_cons_none hp]; rfl
  | some e => rw [List.filterMap_cons_some hp]; rfl

/-- A bad character between a word and a string over two lines, and another one behind the string. -/
theorem scan_events_bad_characters :
    let text := "a @\n\"b\nc\" $"
    let before : List Piece := [⟨.word, ⟨0, 1⟩, ⟨1, 1⟩⟩, ⟨.blank, ⟨1, 1⟩, ⟨2, 1⟩⟩]
    let p : Piece := ⟨.bad '@', ⟨2, 1⟩, ⟨3, 1⟩⟩
    let after : List Piece :=
      [⟨.blank, ⟨3, 1⟩, ⟨4, 2⟩⟩, ⟨.string, ⟨4, 2⟩, ⟨9, 3⟩⟩, ⟨.blank, ⟨9, 3⟩, ⟨10, 3⟩⟩, ⟨.bad '$', ⟨10, 3⟩, ⟨11, 3⟩⟩]
    piecesOf text.toList = before ++ p :: after ∧
      (scan text).events = [.token .identifier "a" 1] ++ ([.lexicalError 1 (.unexpectedCharacter '@')] ++
        ([.token .string "\"b\nc\"" 2, .lexicalError 3 (.unexpectedCharacter '$')] ++
          [.token .eof "" 3, .finished 3 2])) := by
  intro text before p after
  have hpieces : piecesOf text.toList = before ++ p :: after := by decide +kernel
  obtain ⟨-, -, hevents⟩ := (scan_events text).2.2.2.2.2.2.2 before p after hpieces
  exact ⟨hpieces, hevents.trans (by decide +kernel)⟩

end LoxLexer
