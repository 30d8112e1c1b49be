import LoxLexer.Proofs.Units
/-!
# Characters outside ASCII

The language knows its characters by name, and all that it names are ASCII.  So the others may be exchanged for each
other, whatever their size in bytes (`KeepsAscii`): a cut takes the same characters (`Cuts.map`), and a unit comes to
the same, but for the characters it shows (`LexUnit.outcome_mapChars`).

Main statement: `scan_map`, scanning a text so exchanged exchanges the characters in its tokens and diagnostics.
-/
namespace LoxLexer

def isAscii (c : Char) : Bool := c.toNat < 128

theorem isAscii_of_isAlphanum {c : Char} (h : c.isAlphanum = true) : isAscii c = true := by
  have hle : ∀ {d : Char}, c.val ≤ d.val → isAscii d = true → isAscii c = true := by
    intro d hcd hd
    have hcd : c.toNat ≤ d.toNat := UInt32.le_iff_toNat_le.1 hcd
    unfold isAscii at hd ⊢
    rw [decide_eq_true_eq] at hd ⊢
    omega
  unfold Char.isAlphanum Char.isAlpha Char.isUpper Char.isLower Char.isDigit at h
  simp only [Bool.or_eq_true, Bool.and_eq_true, decide_eq_true_eq] at h
  rcases h with (⟨-, hZ⟩ | ⟨-, hz⟩) | ⟨-, h9⟩
  · exact hle hZ (by decide)
  · exact hle hz (by decide)
  · exact hle h9 (by decide)

theorem isAscii_of_isDigit {c : Char} (h : c.isDigit = true) : isAscii c = true :=
  isAscii_of_isAlphanum (by rw [Char.isAlphanum, h, Bool.or_true])

theorem isAscii_of_isWordChar {c : Char} (h : isWordChar c = true) : isAscii c = true := by
  rcases Shape.isWordChar_iff.1 h with h | rfl
  · exact isAscii_of_isAlphanum h
  · decide

theorem isAscii_of_isWordStart {c : Char} (h : isWordStart c = true) : isAscii c = true := by
  rcases Shape.isWordStart_iff.1 h with h | rfl
  · exact isAscii_of_isAlphanum (by rw [Char.isAlphanum, h, Bool.true_or])
  · decide

theorem isAscii_of_isBlank {c : Char} (h : isBlank c = true) : isAscii c = true := by
  rcases isBlank_iff.1 h with rfl | rfl | rfl | rfl <;> decide

theorem isAscii_of_spelling {c : Char} {cs : List Char} {op : Operator} (h : op.spelling = c :: cs) :
    isAscii c = true := by
  cases op <;> cases h <;> decide

/-! ## Exchanging the others -/

/-- The function leaves every ASCII character as it is, and makes none out of another character. -/
structure KeepsAscii (f : Char → Char) : Prop where
  eq_self : ∀ c, isAscii c = true → f c = c
  not_ascii : ∀ c, isAscii c = false → isAscii (f c) = false

namespace KeepsAscii

variable {f : Char → Char} (hf : KeepsAscii f)

include hf

theorem eq_self_of_apply {c : Char} (h : isAscii (f c) = true) : f c = c := by
  cases hc : isAscii c with
  | true => exact hf.eq_self c hc
  | false => rw [hf.not_ascii c hc] at h; cases h

theorem apply_eq_iff {a c : Char} (ha : isAscii a = true) : f c = a ↔ c = a := by
  constructor
  · rintro rfl
    exact (hf.eq_self_of_apply ha).symm
  · rintro rfl
    exact hf.eq_self c ha

/-- A class of ASCII characters does not notice the exchange. -/
theorem apply_eq {p : Char → Bool} (hp : ∀ {c}, p c = true → isAscii c = true) (c : Char) : p (f c) = p c := by
  refine Bool.eq_iff_iff.2 ⟨fun h => ?_, fun h => ?_⟩
  · rwa [hf.eq_self_of_apply (hp h)] at h
  · rwa [hf.eq_self c (hp h)]

theorem isBlank_apply (c : Char) : isBlank (f c) = isBlank c := hf.apply_eq isAscii_of_isBlank c

theorem isDigit_apply (c : Char) : (f c).isDigit = c.isDigit := hf.apply_eq isAscii_of_isDigit c

theorem isWordStart_apply (c : Char) : isWordStart (f c) = isWordStart c := hf.apply_eq isAscii_of_isWordStart c

theorem isWordChar_apply (c : Char) : isWordChar (f c) = isWordChar c := hf.apply_eq isAscii_of_isWordChar c

theorem isMark_apply (c : Char) : Shape.isMark (f c) = Shape.isMark c := by
  unfold Shape.isMark
  simp only [hf.isBlank_apply, hf.isDigit_apply, hf.isWordStart_apply, ne_eq,
    hf.apply_eq_iff (show isAscii '"' = true by decide)]

/-- A character that is no operator does not become one. -/
theorem single?_apply {c : Char} (h : Operator.single? c = none) : Operator.single? (f c) = none := by
  refine Option.eq_none_iff_forall_ne_some.2 (fun op hop => ?_)
  rw [hf.eq_self_of_apply (isAscii_of_spelling (Operator.single?_eq_some.1 hop)), h] at hop
  cases hop

theorem withEqual?_apply {c : Char} (h : Operator.withEqual? c = none) : Operator.withEqual? (f c) = none := by
  refine Option.eq_none_iff_forall_ne_some.2 (fun op hop => ?_)
  rw [hf.eq_self_of_apply (isAscii_of_spelling (Operator.withEqual?_eq_some.1 hop)), h] at hop
  cases hop

theorem not_mem_map {a : Char} (ha : isAscii a = true) {cs : List Char} (h : a ∉ cs) : a ∉ cs.map f := by
  rw [List.mem_map]
  rintro ⟨c, hc, hfc⟩
  exact h ((hf.apply_eq_iff ha).1 hfc ▸ hc)

theorem count_map {a : Char} (ha : isAscii a = true) (cs : List Char) : (cs.map f).count a = cs.count a := by
  rw [List.count_eq_countP, List.countP_map, List.count_eq_countP]
  refine List.countP_congr (fun c _ => ?_)
  rw [Function.comp_apply, beq_iff_eq, beq_iff_eq, hf.apply_eq_iff ha]

theorem map_eq_self {cs : List Char} (h : ∀ c ∈ cs, isAscii c = true) : cs.map f = cs := by
  rw [List.map_congr_left (fun c hc => hf.eq_self c (h c hc)), List.map_id']

theorem head?_map {a : Char} (ha : isAscii a = true) {cs : List Char} (h : (cs.map f).head? = some a) :
    cs.head? = some a := by
  rw [List.head?_map] at h
  obtain ⟨c, hc, hfc⟩ := Option.map_eq_some_iff.1 h
  rw [hc, (hf.apply_eq_iff ha).1 hfc]

end KeepsAscii

theorem forall_head?_map {f : Char → Char} {P : Char → Prop} {cs : List Char}
    (h : ∀ c, cs.head? = some c → P (f c)) : ∀ b, (cs.map f).head? = some b → P b := by
  intro b hb
  rw [List.head?_map] at hb
  obtain ⟨c, hc, rfl⟩ := Option.map_eq_some_iff.1 hb
  exact h c hc

/-! ## Cuts and units -/

namespace Shape

def mapChars (f : Char → Char) : Shape → Shape
  | bad c => bad (f c)
  | s => s

/-- **A cut takes the same characters** when those outside ASCII are exchanged. -/
theorem Cuts.map {f : Char → Char} (hf : KeepsAscii f) {c : Char} {cs : List Char} {s : Shape} {n : Nat}
    (h : Cuts c cs s n) : Cuts (f c) (cs.map f) (s.mapChars f) n := by
  have hdigits : ∀ {ds : List Char}, (∀ d ∈ ds, d.isDigit = true) → ∀ d ∈ ds.map f, d.isDigit = true :=
    fun h => List.forall_mem_map.2 (fun d hd => (hf.isDigit_apply d).trans (h d hd))
  cases h with
  | blank hc => exact .blank ((hf.isBlank_apply c).trans hc)
  | comment hxs hrest =>
    rw [List.map_cons, List.map_append, hf.eq_self '/' (by decide), ← List.length_map f]
    exact .comment (hf.not_mem_map (by decide) hxs)
      (forall_head?_map (fun b hb => (hf.apply_eq_iff (by decide)).2 (hrest b hb)))
  | pair hop =>
    rw [List.map_cons, hf.eq_self '=' (by decide), hf.eq_self c (isAscii_of_spelling hop)]
    exact .pair hop
  | alone hop hslash hequal =>
    rw [hf.eq_self c (isAscii_of_spelling hop)]
    exact .alone hop (fun hs => hslash ⟨hs.1, hf.head?_map (by decide) hs.2⟩)
      (fun he => hequal (hf.head?_map (by decide) he))
  | string hxs =>
    rw [List.map_append, List.map_cons, hf.eq_self '"' (by decide), ← List.length_map f]
    exact .string (hf.not_mem_map (by decide) hxs)
  | openString hxs =>
    rw [hf.eq_self '"' (by decide), ← List.length_map f]
    exact .openString (hf.not_mem_map (by decide) hxs)
  | whole hc hds hrest hpoint =>
    rw [List.map_append, ← List.length_map f]
    refine .whole ((hf.isDigit_apply c).trans hc) (hdigits hds)
      (forall_head?_map (fun b hb => (hf.isDigit_apply b).trans (hrest b hb))) (fun d tail h => ?_)
    obtain ⟨point, rest, rfl, hfpoint, h⟩ := List.map_eq_cons_iff.1 h
    obtain ⟨d, tail, rfl, rfl, -⟩ := List.map_eq_cons_iff.1 h
    obtain rfl := (hf.apply_eq_iff (by decide)).1 hfpoint
    exact (hf.isDigit_apply d).trans (hpoint d tail rfl)
  | @fraction _ _ ds fs _ hc hds hd hfs hrest =>
    have hlen : ds.length + 2 + fs.length = (ds.map f).length + 2 + (fs.map f).length := by
      rw [List.length_map, List.length_map]
    rw [List.map_append, List.map_cons, List.map_cons, List.map_append, hf.eq_self '.' (by decide), hlen]
    exact .fraction ((hf.isDigit_apply c).trans hc) (hdigits hds) ((hf.isDigit_apply _).trans hd) (hdigits hfs)
      (forall_head?_map (fun b hb => (hf.isDigit_apply b).trans (hrest b hb)))
  | word hc hxs hrest =>
    rw [List.map_append, ← List.length_map f]
    exact .word ((hf.isWordStart_apply c).trans hc)
      (List.forall_mem_map.2 (fun x hx => (hf.isWordChar_apply x).trans (hxs x hx)))
      (forall_head?_map (fun b hb => (hf.isWordChar_apply b).trans (hrest b hb)))
  | bad hc hop hslash hequal =>
    exact .bad ((hf.isMark_apply c).trans hc) (hf.single?_apply hop)
      (fun hs => hslash ⟨(hf.apply_eq_iff (by decide)).1 hs.1, hf.head?_map (by decide) hs.2⟩)
      (fun he => hf.withEqual?_apply (hequal (hf.head?_map (by decide) he)))

theorem cut_map {f : Char → Char} (hf : KeepsAscii f) (c : Char) (cs : List Char) :
    cut (f c) (cs.map f) = ((cut c cs).1.mapChars f, (cut c cs).2) := ((cuts_cut c cs).map hf).cut_eq

end Shape

namespace LexUnit

def mapChars (f : Char → Char) (u : LexUnit) : LexUnit := ⟨u.shape.mapChars f, u.line, u.chars.map f⟩

end LexUnit

theorem unitsFrom_map {f : Char → Char} (hf : KeepsAscii f) (line : Nat) (cs : List Char) :
    unitsFrom line (cs.map f) = (unitsFrom line cs).map (LexUnit.mapChars f) := by
  fun_induction unitsFrom line cs with
  | case1 line => rw [List.map_nil, unitsFrom_nil]; rfl
  | case2 line c cs front ih =>
    have hfront : f c :: (cs.map f).take (Shape.cut c cs).2 = front.map f := by rw [List.map_cons, List.map_take]
    rw [List.map_cons, unitsFrom_cons, Shape.cut_map hf, hfront, hf.count_map (by decide), ← List.map_drop, ih]
    rfl

/-- The characters of a word or a number are ASCII. -/
theorem LexUnit.Lawful.chars_isAscii {u : LexUnit} (h : u.Lawful) (hshape : u.shape = .word ∨ u.shape = .number) :
    ∀ c ∈ u.chars, isAscii c = true := by
  intro c hc
  rcases h with h | ⟨b, -, hb, -⟩
  · rcases hshape with hs | hs
    · exact isAscii_of_isWordChar (Shape.isWordChar_of_matches (hs ▸ h) c hc)
    · rcases Shape.digit_or_point_of_matches (hs ▸ h) c hc with hd | rfl
      · exact isAscii_of_isDigit hd
      · decide
  · rcases hshape with hs | hs <;> rw [hs] at hb <;> cases hb

/-! ## What the units come to -/

namespace Literal

/-- A number shows no characters of the source. -/
def mapChars (f : Char → Char) : Literal → Literal
  | string contents => string (contents.map f)
  | number value => number value

end Literal

/-- The token of the same kind on the same line, its lexeme and its string exchanged character by character. -/
def Token.mapChars (f : Char → Char) (t : Token) : Token :=
  { t with lexeme := t.lexeme.map f, literal := t.literal.map (Literal.mapChars f) }

def LexError.mapChars (f : Char → Char) : LexError → LexError
  | unexpectedCharacter c => unexpectedCharacter (f c)
  | e => e

def Diagnostic.mapChars (f : Char → Char) (d : Diagnostic) : Diagnostic := { d with error := d.error.mapChars f }

def Outcome.mapChars (f : Char → Char) : Outcome → Outcome
  | nothing => nothing
  | token t => token (t.mapChars f)
  | error line e => error line (e.mapChars f)

theorem map_ofList (f : Char → Char) (cs : List Char) : (String.ofList cs).map f = String.ofList (cs.map f) := by
  rw [← String.toList_inj, String.toList_map, String.toList_ofList, String.toList_ofList]

/-- **A unit comes to the same**, but for the characters it shows. -/
theorem LexUnit.outcome_mapChars {f : Char → Char} (hf : KeepsAscii f) {u : LexUnit} (h : u.Lawful) :
    (u.mapChars f).outcome = u.outcome.mapChars f := by
  -- the kind of a word and the value of a number are read off their characters, which must therefore stay
  have hself := fun hs => hf.map_eq_self (h.chars_isAscii hs)
  have hcount := hf.count_map (a := '\n') (by decide) u.chars
  obtain ⟨shape, line, chars⟩ := u
  cases shape with
  | blank => rfl
  | comment => rfl
  | operator op =>
    show Outcome.token ⟨.operator op, String.ofList (chars.map f), none, line⟩ =
      .token ⟨.operator op, (String.ofList chars).map f, none, line⟩
    rw [map_ofList]
  | word =>
    have hself : chars.map f = chars := hself (.inl rfl)
    show Outcome.token ⟨.ofWord (String.ofList (chars.map f)), String.ofList (chars.map f), none, line⟩ =
      .token ⟨.ofWord (String.ofList chars), (String.ofList chars).map f, none, line⟩
    rw [map_ofList, hself]
  | string =>
    show Outcome.token ⟨.string, String.ofList (chars.map f),
        some (.string (String.ofList (chars.map f).tail.dropLast)), line⟩ =
      .token ⟨.string, (String.ofList chars).map f, some (.string ((String.ofList chars.tail.dropLast).map f)), line⟩
    rw [map_ofList, map_ofList, List.map_dropLast, List.map_tail]
  | number =>
    have hself : chars.map f = chars := hself (.inr rfl)
    show outcome ⟨.number, line, chars.map f⟩ = (outcome ⟨.number, line, chars⟩).mapChars f
    rw [hself]
    cases hv : (Decimal.ofNumeral chars).toBinary64.isFinite with
    | true =>
      rw [outcome_finite hv]
      show _ = Outcome.token ⟨.number, (String.ofList chars).map f, _, line⟩
      rw [map_ofList, hself]
      rfl
    | false =>
      rw [outcome_tooLarge hv]
      rfl
  | openString => exact congrArg (fun k => Outcome.error (line + k) .unterminatedString) hcount
  | bad c => exact congrArg (fun k => Outcome.error (line + k) (.unexpectedCharacter (f c))) hcount

theorem outcomesFrom_map {f : Char → Char} (hf : KeepsAscii f) (line : Nat) (cs : List Char) :
    outcomesFrom line (cs.map f) = (outcomesFrom line cs).map (Outcome.mapChars f) := by
  rw [outcomesFrom, outcomesFrom, unitsFrom_map hf, List.map_map, List.map_map]
  exact List.map_congr_left (fun u hu => u.outcome_mapChars hf (lawful_of_mem_unitsFrom hu))

/-- **Characters outside ASCII are transparent.**  Exchanging them in a text, each for any other of them, exchanges them
in the lexemes, in the strings and in the errors, and changes nothing else of the scan. -/
theorem scan_map {f : Char → Char} (hf : KeepsAscii f) (text : String) :
    (scan (text.map f)).tokens = (scan text).tokens.map (Token.mapChars f) ∧
      (scan (text.map f)).diagnostics = (scan text).diagnostics.map (Diagnostic.mapChars f) := by
  have htoken : ∀ o : Outcome, (o.mapChars f).token? = o.token?.map (Token.mapChars f) := by
    rintro (_ | t | ⟨line, e⟩) <;> rfl
  have hdiagnostic : ∀ o : Outcome, (o.mapChars f).diagnostic? = o.diagnostic?.map (Diagnostic.mapChars f) := by
    rintro (_ | t | ⟨line, e⟩) <;> rfl
  have hend : ∀ line : Nat, (endToken line).mapChars f = endToken line := by
    intro line
    show Token.mk .eof ("".map f) none line = _
    rw [show "".map f = "" from map_ofList f []]
    rfl
  constructor
  · rw [tokens_scan, tokens_scan, String.toList_map, outcomesFrom_map hf, hf.count_map (by decide), List.map_append,
      List.map_singleton, hend, filterMap_map_comm htoken]
  · rw [diagnostics_scan, diagnostics_scan, String.toList_map, outcomesFrom_map hf, filterMap_map_comm hdiagnostic]

/-- Three bytes for two or four: in a string, in a comment and standing alone. -/
theorem scan_map_euro :
    let f : Char → Char := fun c => if isAscii c then c else '€'
    let text := "x = \"é😀\" // ß\n1.5λ 5"
    KeepsAscii f ∧ text.map f = "x = \"€€\" // €\n1.5€ 5" ∧
      (scan (text.map f)).tokens =
        [⟨.identifier, "x", none, 1⟩, ⟨.operator .equal, "=", none, 1⟩,
         ⟨.string, "\"€€\"", some (.string "€€"), 1⟩, ⟨.number, "1.5", some (.number ⟨0x3ff8000000000000⟩), 2⟩,
         ⟨.number, "5", some (.number ⟨0x4014000000000000⟩), 2⟩, ⟨.eof, "", none, 2⟩] ∧
      (scan (text.map f)).diagnostics = [⟨2, "", .unexpectedCharacter '€'⟩] := by
  intro f text
  have hf : KeepsAscii f := by
    refine ⟨fun c hc => if_pos hc, fun c hc => ?_⟩
    rw [show f c = '€' from if_neg (Bool.eq_false_iff.1 hc)]
    decide
  obtain ⟨htokens, hdiagnostics⟩ := scan_map hf text
  exact ⟨hf, by decide +kernel, htokens.trans (by decide +kernel), hdiagnostics.trans (by decide +kernel)⟩

end LoxLexer
