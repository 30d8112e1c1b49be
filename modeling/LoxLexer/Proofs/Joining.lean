import LoxLexer.Proofs.Units
/-!
# Joined texts

Lines move down by as many as are put in front, and nothing else of a scan changes (`outcomesFrom_add`); a line feed
between two texts keeps them apart, as long as the first leaves no quote open (`outcomesFrom_append_newline`).  Main
statement: `scan_intercalate`, the scan of texts joined by line feeds is the scans of the texts, each moved down by
what stands before it.
-/
namespace LoxLexer

/-! ## Moving down -/

/-- The token `k` lines further down. -/
def Token.down (k : Nat) (t : Token) : Token := { t with line := t.line + k }

def Diagnostic.down (k : Nat) (d : Diagnostic) : Diagnostic := { d with line := d.line + k }

def Outcome.down (k : Nat) : Outcome → Outcome
  | .nothing => .nothing
  | .token t => .token (t.down k)
  | .error line e => .error (line + k) e

def LexUnit.down (k : Nat) (u : LexUnit) : LexUnit := { u with line := u.line + k }

theorem unitsFrom_add (k line : Nat) (cs : List Char) :
    unitsFrom (line + k) cs = (unitsFrom line cs).map (LexUnit.down k) := by
  fun_induction unitsFrom line cs with
  | case1 line => rw [unitsFrom_nil]; rfl
  | case2 line c cs front ih =>
    rw [unitsFrom_cons, Nat.add_right_comm, ih]
    rfl

theorem LexUnit.outcome_down (k : Nat) (u : LexUnit) : (u.down k).outcome = u.outcome.down k := by
  obtain ⟨shape, line, chars⟩ := u
  cases shape with
  | number =>
    show outcome ⟨.number, line + k, chars⟩ = (outcome ⟨.number, line, chars⟩).down k
    cases hv : (Decimal.ofNumeral chars).toBinary64.isFinite with
    | true => rw [outcome_finite hv, outcome_finite hv]; rfl
    | false => rw [outcome_tooLarge hv, outcome_tooLarge hv, endLine, Nat.add_right_comm]; rfl
  | openString => exact congrArg (Outcome.error · .unterminatedString) (Nat.add_right_comm line k _)
  | bad c => exact congrArg (Outcome.error · (.unexpectedCharacter c)) (Nat.add_right_comm line k _)
  | _ => rfl

theorem outcomesFrom_add (k line : Nat) (cs : List Char) :
    outcomesFrom (line + k) cs = (outcomesFrom line cs).map (Outcome.down k) := by
  rw [outcomesFrom, outcomesFrom, unitsFrom_add, List.map_map, List.map_map]
  exact List.map_congr_left (fun u _ => u.outcome_down k)

theorem filterMap_token_down (k : Nat) (outcomes : List Outcome) :
    (outcomes.map (Outcome.down k)).filterMap Outcome.token? =
      (outcomes.filterMap Outcome.token?).map (Token.down k) :=
  filterMap_map_comm (fun o => by cases o <;> rfl) outcomes

theorem filterMap_diagnostic_down (k : Nat) (outcomes : List Outcome) :
    (outcomes.map (Outcome.down k)).filterMap Outcome.diagnostic? =
      (outcomes.filterMap Outcome.diagnostic?).map (Diagnostic.down k) :=
  filterMap_map_comm (fun o => by cases o <;> rfl) outcomes

/-! ## A line feed between two texts -/

/-- The text leaves no quote open. -/
def Closed (cs : List Char) : Prop := ∀ u ∈ unitsFrom 1 cs, u.shape ≠ .openString

theorem Closed.shape_ne {cs : List Char} (h : Closed cs) {line : Nat} {u : LexUnit} (hu : u ∈ unitsFrom line cs) :
    u.shape ≠ .openString := by
  rw [← Nat.zero_add line, unitsFrom_add] at hu
  obtain ⟨v, hv, rfl⟩ := List.mem_map.1 hu
  exact h (v.down 1) (unitsFrom_add 1 0 cs ▸ List.mem_map_of_mem hv)

theorem closed_of_scan {text : String} (h : ∀ d ∈ (scan text).diagnostics, d.error ≠ .unterminatedString) :
    Closed text.toList := by
  intro u hu hopen
  refine h ⟨u.endLine, "", .unterminatedString⟩ ?_ rfl
  rw [diagnostics_scan, outcomesFrom, List.filterMap_map]
  exact List.mem_filterMap.2 ⟨u, hu, by rw [Function.comp_apply, LexUnit.outcome, hopen]; rfl⟩

/-- **A line feed behind a text that leaves no quote open keeps what follows apart.** -/
theorem outcomesFrom_append_newline {cs : List Char} (h : Closed cs) (line : Nat) (rest : List Char) :
    outcomesFrom line (cs ++ '\n' :: rest) =
      outcomesFrom line cs ++ .nothing :: outcomesFrom (line + (cs.count '\n' + 1)) rest := by
  rw [outcomesFrom, unitsFrom_append_blank rfl rest (fun u hu => ⟨h.shape_ne hu, fun _ => rfl⟩), unitsFrom_blank rfl,
    List.map_append, List.map_cons, List.count_singleton_self, Nat.add_assoc]
  rfl

/-! ## Parts joined by line feeds -/

/-- How many line feeds stand before part `i`: those of the parts before it, and one behind each of them. -/
def linesBefore (parts : List String) (i : Nat) : Nat :=
  (String.join ((parts.take i).map (· ++ "\n"))).toList.count '\n'

theorem linesBefore_zero (parts : List String) : linesBefore parts 0 = 0 := by
  rw [linesBefore, List.take_zero, List.map_nil, String.join_nil]
  rfl

theorem linesBefore_succ (a : String) (parts : List String) (i : Nat) :
    linesBefore (a :: parts) (i + 1) = a.toList.count '\n' + 1 + linesBefore parts i := by
  rw [linesBefore, List.take_succ_cons, List.map_cons, String.join_cons, String.toList_append, List.count_append,
    String.toList_append, List.count_append]
  rfl

theorem toList_intercalate_cons (a b : String) (parts : List String) :
    ("\n".intercalate (a :: b :: parts)).toList = a.toList ++ '\n' :: ("\n".intercalate (b :: parts)).toList := by
  rw [String.intercalate_cons_cons, String.toList_append, String.toList_append, List.append_assoc]
  rfl

/-- What joined parts come to is what the parts come to, each moved down by what stands before it.  The line feeds
between them come to nothing, so this is said of a view that takes nothing from nothing. -/
theorem filterMap_outcomesFrom_intercalate {α : Type} {view : Outcome → Option α} (hview : view .nothing = none) :
    ∀ (parts : List String) (k : Nat), parts ≠ [] → (∀ a ∈ parts.dropLast, Closed a.toList) →
      (outcomesFrom (1 + k) ("\n".intercalate parts).toList).filterMap view =
        parts.zipIdx.flatMap (fun p =>
          ((outcomesFrom 1 p.1.toList).map (Outcome.down (k + linesBefore parts p.2))).filterMap view)
  | [], _, hne, _ => absurd rfl hne
  | [a], k, _, _ => by
    rw [String.intercalate_singleton, outcomesFrom_add, List.zipIdx_singleton, List.flatMap_singleton, linesBefore_zero]
    rfl
  -- the others are scanned from where `a` and its line feed end, that is with a larger `k`
  | a :: b :: rest, k, _, hclosed => by
    have ha : Closed a.toList := hclosed a (by simp)
    have hrest : ∀ c ∈ (b :: rest).dropLast, Closed c.toList := fun c hc => hclosed c (by simp [hc])
    have ih := filterMap_outcomesFrom_intercalate hview (b :: rest) (k + (a.toList.count '\n' + 1)) (by simp) hrest
    have hzip : (a :: b :: rest).zipIdx = (a, 0) :: (b :: rest).zipIdx.map (Prod.map id (· + 1)) := List.zipIdx_cons'
    rw [toList_intercalate_cons, outcomesFrom_append_newline ha, List.filterMap_append, List.filterMap_cons_none hview,
      Nat.add_assoc 1 k, ih, outcomesFrom_add, hzip, List.flatMap_cons, linesBefore_zero, Nat.add_zero, List.flatMap_map]
    congr 2
    funext p
    rw [Prod.map_snd, linesBefore_succ, Nat.add_assoc k]
    rfl

theorem count_intercalate : ∀ (parts : List String) (hne : parts ≠ []),
    ("\n".intercalate parts).toList.count '\n' =
      (parts.getLast hne).toList.count '\n' + linesBefore parts (parts.length - 1)
  | [a], _ => by rw [String.intercalate_singleton, List.length_singleton, linesBefore_zero]; rfl
  | a :: b :: rest, _ => by
    have ih := count_intercalate (b :: rest) (List.cons_ne_nil b rest)
    have hbefore : linesBefore (a :: b :: rest) ((a :: b :: rest).length - 1) =
        a.toList.count '\n' + 1 + linesBefore (b :: rest) ((b :: rest).length - 1) :=
      linesBefore_succ a (b :: rest) rest.length
    rw [toList_intercalate_cons, List.count_append, List.count_cons_self, ih, List.getLast_cons_cons, hbefore]
    omega

/-- **Scanning joined texts is joining their scans.**  Only the last may leave a quote open. -/
theorem scan_intercalate (parts : List String) (hne : parts ≠ [])
    (hclosed : ∀ a ∈ parts.dropLast, ∀ d ∈ (scan a).diagnostics, d.error ≠ .unterminatedString) :
    (scan ("\n".intercalate parts)).tokens =
        parts.zipIdx.flatMap (fun p => (scan p.1).tokens.dropLast.map (Token.down (linesBefore parts p.2))) ++
          [(endToken (1 + (parts.getLast hne).toList.count '\n')).down (linesBefore parts (parts.length - 1))] ∧
      (scan ("\n".intercalate parts)).diagnostics =
        parts.zipIdx.flatMap (fun p => (scan p.1).diagnostics.map (Diagnostic.down (linesBefore parts p.2))) := by
  have hclosed : ∀ a ∈ parts.dropLast, Closed a.toList := fun a ha => closed_of_scan (hclosed a ha)
  constructor
  · have := filterMap_outcomesFrom_intercalate Outcome.token?_nothing parts 0 hne hclosed
    rw [tokens_scan, count_intercalate parts hne, this]
    simp only [tokens_scan, List.dropLast_concat, filterMap_token_down, Nat.zero_add]
    simp only [endToken, Token.down, Nat.add_assoc]
  · have := filterMap_outcomesFrom_intercalate Outcome.diagnostic?_nothing parts 0 hne hclosed
    rw [diagnostics_scan, this]
    simp only [diagnostics_scan, filterMap_diagnostic_down, Nat.zero_add]

/-- A point that could go on, a comment with a quote, half an operator, and an open quote in the last part. -/
theorem scan_intercalate_half_operator :
    let parts := ["1.", "// \"", "\"a\nb\" <", "= \""]
    (∀ a ∈ parts.dropLast, ∀ d ∈ (scan a).diagnostics, d.error ≠ .unterminatedString) ∧
      (scan ("\n".intercalate parts)).tokens =
        [⟨.number, "1", some (.number ⟨0x3ff0000000000000⟩), 1⟩, ⟨.operator .dot, ".", none, 1⟩,
         ⟨.string, "\"a\nb\"", some (.string "a\nb"), 3⟩, ⟨.operator .less, "<", none, 4⟩,
         ⟨.operator .equal, "=", none, 5⟩, ⟨.eof, "", none, 5⟩] ∧
      (scan ("\n".intercalate parts)).diagnostics = [⟨5, "", .unterminatedString⟩] := by
  intro parts
  have hclosed : ∀ a ∈ parts.dropLast, ∀ d ∈ (scan a).diagnostics, d.error ≠ .unterminatedString := by decide +kernel
  obtain ⟨htokens, hdiagnostics⟩ := scan_intercalate parts (by decide) hclosed
  exact ⟨hclosed, htokens.trans (by decide +kernel), hdiagnostics.trans (by decide +kernel)⟩

end LoxLexer
