import Mathlib.Data.List.Basic
import LoxLexer.Proofs.LineNumbers
/-!
# Recovery

What a scan skips or rejects says nothing about the rest of the text: with spaces in its place, its line feeds kept,
the other pieces come to what they came to.  No piece in front sees the difference, since a cut looks no further than
a blank (`Shape.NothingNew`), and what is blanked comes to nothing.

Main statement: `scan_blankOut`, blanking out pieces that are no tokens keeps the tokens and takes away exactly the
diagnostics of those pieces.
-/
namespace LoxLexer

/-- Spaces in place of the characters at the chosen positions, but not of line feeds. -/
def blankWhere (chosen : Nat → Bool) (cs : List Char) : List Char :=
  cs.mapIdx fun i c => if chosen i && c ≠ '\n' then ' ' else c

def Piece.holds (p : Piece) (i : Nat) : Bool := p.start.offset ≤ i && i < p.stop.offset

/-- Whether position `first + i` is held by a chosen one of the pieces. -/
def chosenFrom (chosen : Piece → Bool) (first : Nat) (pieces : List Piece) (i : Nat) : Bool :=
  pieces.any fun p => chosen p && p.holds (first + i)

/-- The text with its chosen pieces blanked out. -/
def blankOut (chosen : Piece → Bool) (text : String) : String :=
  String.ofList (blankWhere (chosenFrom chosen 0 (piecesOf text.toList)) text.toList)

/-! ## Blanks in place of characters -/

theorem blankWhere_nil (chosen : Nat → Bool) : blankWhere chosen [] = [] := rfl

theorem blankWhere_cons (chosen : Nat → Bool) (c : Char) (cs : List Char) :
    blankWhere chosen (c :: cs) =
      (if chosen 0 && c ≠ '\n' then ' ' else c) :: blankWhere (fun i => chosen (i + 1)) cs := by
  rw [blankWhere, List.mapIdx_cons]; rfl

theorem blankWhere_append (chosen : Nat → Bool) (as bs : List Char) :
    blankWhere chosen (as ++ bs) = blankWhere chosen as ++ blankWhere (fun i => chosen (i + as.length)) bs := by
  unfold blankWhere
  rw [List.mapIdx_append]

theorem blankWhere_congr {chosen chosen' : Nat → Bool} {cs : List Char} (h : ∀ i < cs.length, chosen i = chosen' i) :
    blankWhere chosen cs = blankWhere chosen' cs := by
  unfold blankWhere
  refine List.mapIdx_eq_mapIdx_iff.2 (fun i hi => ?_)
  rw [h i hi]

theorem blankWhere_false : ∀ cs : List Char, blankWhere (fun _ => false) cs = cs
  | [] => rfl
  | c :: cs => by rw [blankWhere_cons, blankWhere_false cs]; rfl

theorem count_blankWhere : ∀ (chosen : Nat → Bool) (cs : List Char),
    (blankWhere chosen cs).count '\n' = cs.count '\n'
  | _, [] => rfl
  | chosen, c :: cs => by
    rw [blankWhere_cons, List.count_cons, List.count_cons, count_blankWhere _ cs]
    by_cases hc : c = '\n'
    · simp [hc]
    · by_cases h0 : chosen 0 = true <;> simp [hc, h0]

theorem nothingNew_blankWhere : ∀ (n : Nat) (chosen : Nat → Bool) (cs : List Char),
    Shape.NothingNew n cs (blankWhere chosen cs)
  | 0, _, _ => .zero
  | _ + 1, _, [] => .nil
  | n + 1, chosen, c :: cs => by
    rw [blankWhere_cons]
    split
    · exact .blank rfl
    · exact .cons (nothingNew_blankWhere n _ cs)

theorem head?_blankWhere {chosen : Nat → Bool} {cs : List Char} (h : ∀ b, cs.head? = some b → b = '\n') :
    ∀ b, (blankWhere chosen cs).head? = some b → b = '\n' := by
  intro b hb
  cases cs with
  | nil => cases hb
  | cons c cs =>
    obtain rfl := h c rfl
    rw [blankWhere_cons] at hb
    simpa using hb.symm

/-- What is blanked out comes to nothing, on its lines. -/
theorem outcomesFrom_blankWhere_true (rest : List Char) : ∀ (line : Nat) (cs : List Char),
    outcomesFrom line (blankWhere (fun _ => true) cs ++ rest) =
      List.replicate cs.length .nothing ++ outcomesFrom (line + cs.count '\n') rest
  | _, [] => rfl
  | line, c :: cs => by
    have ih := fun line' => outcomesFrom_blankWhere_true rest line' cs
    rw [blankWhere_cons, List.cons_append, List.length_cons, List.replicate_succ, List.cons_append]
    by_cases hc : c = '\n'
    · subst hc
      have hcount : line + 1 + cs.count '\n' = line + ('\n' :: cs).count '\n' := by
        rw [List.count_cons_self, Nat.add_assoc, Nat.add_comm 1]
      rw [if_neg (by simp), outcomesFrom_blank rfl, List.count_singleton_self, ih, hcount]
    · rw [if_pos (by simp [hc]), outcomesFrom_blank rfl, ih, List.count_cons_of_ne hc]
      rfl

/-! ## The chosen pieces -/

section

variable {chosen : Piece → Bool} {p : Piece} {pieces : List Piece}

theorem chosenFrom_of_lt (hpieces : ∀ q ∈ pieces, p.stop.offset ≤ q.start.offset) {i : Nat}
    (hi : p.start.offset + i < p.stop.offset) :
    chosenFrom chosen p.start.offset (p :: pieces) i = chosen p := by
  have hothers : pieces.any (fun q => chosen q && q.holds (p.start.offset + i)) = false := by
    refine List.any_eq_false.2 (fun q hq => ?_)
    have hle := hpieces q hq
    have hq : q.holds (p.start.offset + i) = false := by
      simp only [Piece.holds, Bool.and_eq_false_iff, decide_eq_false_iff_not]
      omega
    simp [hq]
  have hp : p.holds (p.start.offset + i) = true := by
    simp only [Piece.holds, Bool.and_eq_true, decide_eq_true_eq]
    omega
  rw [chosenFrom, List.any_cons, hothers, hp, Bool.and_true, Bool.or_false]

theorem chosenFrom_of_le {n i : Nat} (hstop : p.stop.offset = p.start.offset + n) :
    chosenFrom chosen p.start.offset (p :: pieces) (i + n) = chosenFrom chosen p.stop.offset pieces i := by
  have hi : p.start.offset + (i + n) = p.stop.offset + i := by omega
  have hp : p.holds (p.stop.offset + i) = false := by
    simp only [Piece.holds, Bool.and_eq_false_iff, decide_eq_false_iff_not]
    omega
  rw [chosenFrom, List.any_cons, hi, hp, Bool.and_false, Bool.false_or]
  rfl

theorem blankWhere_chosenFrom (hpieces : ∀ q ∈ pieces, p.stop.offset ≤ q.start.offset) {front : List Char}
    (hstop : p.stop.offset = p.start.offset + front.length) (rest : List Char) :
    blankWhere (chosenFrom chosen p.start.offset (p :: pieces)) (front ++ rest) =
      blankWhere (fun _ => chosen p) front ++ blankWhere (chosenFrom chosen p.stop.offset pieces) rest := by
  have hfront : ∀ i < front.length, chosenFrom chosen p.start.offset (p :: pieces) i = chosen p :=
    fun i hi => chosenFrom_of_lt hpieces (by omega)
  have hrest : (fun i => chosenFrom chosen p.start.offset (p :: pieces) (i + front.length)) =
      chosenFrom chosen p.stop.offset pieces := by
    funext i
    exact chosenFrom_of_le hstop
  rw [blankWhere_append, blankWhere_congr hfront, hrest]

end

/-- A unit in front of a text sees nothing new in it with some of it blanked out. -/
theorem outcomesFrom_blankWhere_rest (chosen : Nat → Bool) (line : Nat) (c : Char) (cs : List Char) :
    outcomesFrom line (c :: cs.take (Shape.cut c cs).2 ++ blankWhere chosen (cs.drop (Shape.cut c cs).2)) =
      LexUnit.outcome ⟨(Shape.cut c cs).1, line, c :: cs.take (Shape.cut c cs).2⟩ ::
        outcomesFrom (line + (c :: cs.take (Shape.cut c cs).2).count '\n')
          (blankWhere chosen (cs.drop (Shape.cut c cs).2)) := by
  have hopen : (Shape.cut c cs).1 = .openString → blankWhere chosen (cs.drop (Shape.cut c cs).2) = [] := by
    intro h
    rw [Shape.cut_openString h, List.drop_length, blankWhere_nil]
  have hcomment : (Shape.cut c cs).1 = .comment →
      ∀ b, (blankWhere chosen (cs.drop (Shape.cut c cs).2)).head? = some b → b = '\n' :=
    fun h => head?_blankWhere (Shape.head?_drop_of_comment h)
  rw [outcomesFrom, unitsFrom_of_nothingNew (nothingNew_blankWhere 2 chosen _) hopen hcomment, List.map_cons]
  rfl

/-- **With chosen pieces blanked out, a text comes to what the other pieces come to.**  Blanks come to nothing, so this
is said of a view that takes nothing from nothing. -/
theorem filterMap_outcomesFrom_blankWhere {α : Type} {view : Outcome → Option α} (hview : view .nothing = none)
    (chosen : Piece → Bool) {source : Source} (place : Place) (before cs : List Char)
    (hsource : source.chars = before ++ cs) (hplace : place.offset = before.length) :
    (outcomesFrom place.line (blankWhere (chosenFrom chosen place.offset (piecesFrom place cs)) cs)).filterMap view =
      ((piecesFrom place cs).filter fun p => !chosen p).filterMap fun p => view (p.outcome source) := by
  fun_induction piecesFrom place cs generalizing before with
  | case1 place => rw [blankWhere_nil, outcomesFrom_nil]; rfl
  | case2 place c cs shape more hcut stop ih =>
    obtain ⟨hrest, hlength⟩ := split_behind hsource hplace more
    have ih := ih (before ++ c :: cs.take more) hrest hlength
    have hfirst := outcome_firstPiece hsource hplace
    have hunits := outcomesFrom_blankWhere_rest
      (chosenFrom chosen stop.offset (piecesFrom stop (cs.drop more))) place.line c cs
    simp only [hcut] at hfirst hunits
    have hblank : blankWhere (chosenFrom chosen place.offset (⟨shape, place, stop⟩ :: piecesFrom stop (cs.drop more)))
        (c :: cs.take more ++ cs.drop more) = _ :=
      blankWhere_chosenFrom (fun q hq => le_start_of_mem_piecesFrom hq) rfl (cs.drop more)
    rw [front_append_drop] at hblank
    rw [hblank]
    -- chosen, the first piece leaves blanks only; if not, it stands as before and sees nothing new behind it
    cases hchosen : chosen ⟨shape, place, stop⟩ with
    | true =>
      rw [outcomesFrom_blankWhere_true, List.filterMap_append, List.filterMap_replicate_of_none hview,
        List.nil_append, List.filter_cons_of_neg (by simp [hchosen])]
      exact ih
    | false =>
      rw [blankWhere_false, hunits, List.filter_cons_of_pos (by simp [hchosen]), List.filterMap_cons,
        List.filterMap_cons, hfirst, ← ih]
      rfl

/-! ## Scans -/

theorem filterMap_outcomes_blankOut {α : Type} {view : Outcome → Option α} (hview : view .nothing = none)
    (chosen : Piece → Bool) (text : String) :
    (outcomesFrom 1 (blankOut chosen text).toList).filterMap view =
      ((piecesOf text.toList).filter fun p => !chosen p).filterMap
        fun p => view (p.outcome (Source.ofString text)) := by
  rw [blankOut, String.toList_ofList, piecesOf_eq]
  exact filterMap_outcomesFrom_blankWhere hview chosen .first [] text.toList rfl rfl

theorem tokens_scan_blankOut {text : String} {chosen : Piece → Bool}
    (h : ∀ p ∈ piecesOf text.toList, chosen p = true → (p.outcome (Source.ofString text)).token? = none) :
    (scan (blankOut chosen text)).tokens = (scan text).tokens := by
  have hcount : (blankOut chosen text).toList.count '\n' = text.toList.count '\n' := by
    rw [blankOut, String.toList_ofList, count_blankWhere]
  have hkept : ((piecesOf text.toList).filter fun p => !chosen p).filterMap
      (fun p => (p.outcome (Source.ofString text)).token?) =
        (piecesOf text.toList).filterMap fun p => (p.outcome (Source.ofString text)).token? := by
    rw [List.filterMap_filter]
    refine List.filterMap_congr (fun p hp => ?_)
    cases hchosen : chosen p with
    | true => exact (h p hp hchosen).symm
    | false => rfl
  rw [tokens_scan, tokens_scan, hcount, filterMap_outcomes_blankOut Outcome.token?_nothing, hkept,
    filterMap_outcome_piecesOf Outcome.token?]

theorem diagnostics_scan_blankOut (text : String) (chosen : Piece → Bool) :
    (scan (blankOut chosen text)).diagnostics =
      ((piecesOf text.toList).filter fun p => !chosen p).filterMap
        fun p => (p.outcome (Source.ofString text)).diagnostic? := by
  rw [diagnostics_scan, filterMap_outcomes_blankOut Outcome.diagnostic?_nothing]

/-- The pieces of a text that come to an error. -/
def rejected (text : String) (p : Piece) : Bool := (p.outcome (Source.ofString text)).diagnostic?.isSome

/-- **What is skipped or rejected says nothing about the rest**: blanking out any pieces that are no tokens keeps the
tokens and all diagnostics but those of these pieces, and blanking out all that is rejected leaves none. -/
theorem scan_blankOut (text : String) :
    let pieces := piecesOf text.toList
    let outcome := Piece.outcome (Source.ofString text)
    (scan text).diagnostics = pieces.filterMap (fun p => (outcome p).diagnostic?) ∧
    (∀ chosen : Piece → Bool, (∀ p ∈ pieces, chosen p = true → (outcome p).token? = none) →
      (scan (blankOut chosen text)).tokens = (scan text).tokens ∧
      (scan (blankOut chosen text)).diagnostics =
        (pieces.filter fun p => !chosen p).filterMap (fun p => (outcome p).diagnostic?)) ∧
    (scan (blankOut (rejected text) text)).tokens = (scan text).tokens ∧
    (scan (blankOut (rejected text) text)).diagnostics = [] := by
  intro pieces outcome
  have hrejected : ∀ p ∈ pieces, rejected text p = true → (outcome p).token? = none := by
    intro p _ hp
    have hp : (outcome p).diagnostic?.isSome = true := hp
    cases ho : outcome p with
    | token t => rw [ho] at hp; cases hp
    | _ => rfl
  refine ⟨?_, fun chosen h => ⟨tokens_scan_blankOut h, diagnostics_scan_blankOut text chosen⟩,
    tokens_scan_blankOut hrejected, ?_⟩
  · rw [diagnostics_scan, filterMap_outcome_piecesOf Outcome.diagnostic?]
  · rw [diagnostics_scan_blankOut, List.filterMap_eq_nil_iff]
    intro p hp
    have hp : rejected text p = false := by simpa using (List.mem_filter.1 hp).2
    exact Option.isNone_iff_eq_none.1 (by simpa [rejected] using hp)

/-- A bad character between two slashes and a comment with a quote are blanked out; another bad character, between two
parts of a numeral, and an open string are not. -/
theorem scan_blankOut_slashes :
    let text := "/@/ 1.$5//\"\n\"y"
    let chosen : Piece → Bool := fun p => p.shape = .bad '@' || p.shape = .comment
    (∀ p ∈ piecesOf text.toList, chosen p = true → (p.outcome (Source.ofString text)).token? = none) ∧
      blankOut chosen text = "/ / 1.$5   \n\"y" ∧
      (scan (blankOut chosen text)).tokens =
        [⟨.operator .slash, "/", none, 1⟩, ⟨.operator .slash, "/", none, 1⟩,
         ⟨.number, "1", some (.number ⟨0x3ff0000000000000⟩), 1⟩, ⟨.operator .dot, ".", none, 1⟩,
         ⟨.number, "5", some (.number ⟨0x4014000000000000⟩), 1⟩, ⟨.eof, "", none, 2⟩] ∧
      (scan (blankOut chosen text)).diagnostics =
        [⟨1, "", .unexpectedCharacter '$'⟩, ⟨2, "", .unterminatedString⟩] := by
  intro text chosen
  have h : ∀ p ∈ piecesOf text.toList, chosen p = true → (p.outcome (Source.ofString text)).token? = none := by
    decide +kernel
  obtain ⟨htokens, hdiagnostics⟩ := (scan_blankOut text).2.1 chosen h
  exact ⟨h, by decide +kernel, htokens.trans (by decide +kernel), hdiagnostics.trans (by decide +kernel)⟩

end LoxLexer
