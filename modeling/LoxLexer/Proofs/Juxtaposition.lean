import Mathlib.Data.List.Infix
import LoxLexer.Proofs.Listing
/-!
# Tokens side by side

Written one behind the other without a separator, two tokens can run together, and in one case three
(`RunsTogether`).  A cut sees two characters of what follows it, and those say what the next tokens are; so the first
lexeme is cut off alone exactly when the list does not begin with tokens that run together (`cut_lexeme_iff`).

Main statement: `scan_juxtaposition`.
-/
namespace LoxLexer

/-! ## Tokens that run together -/

namespace TokenKind

/-- Reserved words and all others. -/
inductive IsWord : TokenKind → Prop
  | keyword (word : Keyword) : IsWord (.keyword word)
  | identifier : IsWord .identifier

/-- The kinds of two tokens that run together. -/
inductive Merges : TokenKind → TokenKind → Prop
  | words {k k' : TokenKind} (hk : k.IsWord) (hk' : k'.IsWord) : Merges k k'
  | wordNumber {k : TokenKind} (hk : k.IsWord) : Merges k .number
  | numbers : Merges .number .number
  | slashes : Merges (.operator .slash) (.operator .slash)
  | equals {op op' : Operator} (hop : op ∈ [.bang, .equal, .less, .greater]) (hop' : op' ∈ [.equal, .equalEqual]) :
      Merges (.operator op) (.operator op')

end TokenKind

/-- Two tokens that run together, or the three that make a fraction. -/
inductive RunsTogether : List Token → Prop
  | pair {a b : Token} (h : a.kind.Merges b.kind) : RunsTogether [a, b]
  | fraction {a b c : Token} (ha : a.kind = .number) (hwhole : '.' ∉ a.lexeme.toList) (hb : b.kind = .operator .dot)
      (hc : c.kind = .number) : RunsTogether [a, b, c]

namespace TokenKind

@[simp] theorem not_isWord_operator {op : Operator} : ¬ (operator op).IsWord := nofun

@[simp] theorem not_isWord_number : ¬ number.IsWord := nofun

@[simp] theorem not_isWord_string : ¬ string.IsWord := nofun

variable {k k' : TokenKind} {op : Operator}

theorem merges_word (hk : k.IsWord) : Merges k k' ↔ k'.IsWord ∨ k' = .number := by
  constructor
  · intro h
    cases h with
    | words _ hk' => exact .inl hk'
    | wordNumber _ => exact .inr rfl
    | _ => cases hk
  · rintro (hk' | rfl)
    · exact .words hk hk'
    · exact .wordNumber hk

theorem merges_number : Merges .number k' ↔ k' = .number := by
  constructor
  · intro h
    cases h with
    | words hk _ => cases hk
    | wordNumber hk => cases hk
    | numbers => rfl
  · rintro rfl
    exact .numbers

theorem not_merges_string : ¬ Merges .string k' := by
  intro h
  cases h with
  | words hk _ => cases hk
  | wordNumber hk => cases hk

theorem merges_operator : Merges (.operator op) k' ↔ op = .slash ∧ k' = .operator .slash ∨
    op ∈ [.bang, .equal, .less, .greater] ∧ (k' = .operator .equal ∨ k' = .operator .equalEqual) := by
  constructor
  · intro h
    cases h with
    | words hk _ => cases hk
    | wordNumber hk => cases hk
    | slashes => exact .inl ⟨rfl, rfl⟩
    | equals hop hop' => exact .inr ⟨hop, by simpa using hop'⟩
  · rintro (⟨rfl, rfl⟩ | ⟨hop, rfl | rfl⟩)
    · exact .slashes
    · exact .equals hop (by decide)
    · exact .equals hop (by decide)

end TokenKind

/-- No tokens at the front run together: not the first two, and the first three make no fraction. -/
theorem forall_prefix_iff {t t' : Token} {ts : List Token} :
    (∀ us, us <+: t :: t' :: ts → ¬ RunsTogether us) ↔ ¬ t.kind.Merges t'.kind ∧
      (t.kind = .number → '.' ∉ t.lexeme.toList → t'.kind = .operator .dot →
        ∀ t'' ts', ts = t'' :: ts' → t''.kind ≠ .number) := by
  constructor
  · refine fun h => ⟨fun hpair => h [t, t'] ⟨ts, rfl⟩ (.pair hpair), ?_⟩
    rintro ht hwhole ht' t'' ts' rfl ht''
    exact h [t, t', t''] ⟨ts', rfl⟩ (.fraction ht hwhole ht' ht'')
  · rintro ⟨hpair, hfraction⟩ us ⟨rest, heq⟩ h
    cases h with
    | pair hmerges =>
      cases heq
      exact hpair hmerges
    | fraction ha hwhole hb hc =>
      cases heq
      exact hfraction ha hwhole hb _ _ rfl hc

theorem not_runsTogether_singleton {t : Token} {us : List Token} (h : us <+: [t]) : ¬ RunsTogether us := by
  obtain ⟨rest, heq⟩ := h
  intro h
  cases h <;> cases heq

theorem forall_infix_cons_iff {t : Token} {ts : List Token} :
    (∀ us, us <:+: t :: ts → ¬ RunsTogether us) ↔
      (∀ us, us <+: t :: ts → ¬ RunsTogether us) ∧ ∀ us, us <:+: ts → ¬ RunsTogether us := by
  simp only [List.infix_cons_iff, or_imp, forall_and]

/-! ## Where a cut stops -/

theorem runLength_append_eq_iff {p : Char → Bool} {xs : List Char} (h : ∀ x ∈ xs, p x = true) (rest : List Char) :
    runLength p (xs ++ rest) = xs.length ↔ ∀ b, rest.head? = some b → p b = false := by
  rw [runLength_append_of_pos h, Nat.add_eq_left]
  refine ⟨fun hzero b hb => ?_, runLength_of_head⟩
  obtain ⟨rest, rfl⟩ := List.head?_eq_some_iff.1 hb
  by_contra hpos
  rw [runLength, List.takeWhile_cons_of_pos (by simpa using hpos)] at hzero
  cases hzero

namespace Shape

variable {c : Char} {cs rest : List Char}

theorem cut_word_eq_iff (h : Matches word (c :: cs)) (rest : List Char) :
    (cut c (cs ++ rest)).2 = cs.length ↔ ∀ b, rest.head? = some b → isWordChar b = false := by
  cases h with
  | word hc hw =>
    rw [cut_wordStart (isWordStart_iff.2 hc)]
    exact runLength_append_eq_iff (fun x hx => isWordChar_iff.2 (hw x hx)) rest

theorem cut_string_eq (h : Matches string (c :: cs)) (rest : List Char) : (cut c (cs ++ rest)).2 = cs.length := by
  cases h with
  | string hq => rw [cut_quote, List.append_assoc, List.singleton_append, cutString_closed hq, List.length_append]; rfl

/-- Behind an operator of one character the cut goes on only for a comment or an equals sign. -/
theorem cut_single_eq_iff {op : Operator} (hop : op.spelling = [c]) (rest : List Char) :
    (cut c rest).2 = 0 ↔
      ¬ (c = '/' ∧ rest.head? = some '/') ∧ (rest.head? = some '=' → Operator.withEqual? c = none) := by
  rw [cut_mark (isMark_of_spelling hop)]
  constructor
  · intro hzero
    refine ⟨?_, fun hequal => ?_⟩
    · rintro ⟨rfl, hslash⟩
      obtain ⟨rest, rfl⟩ := List.head?_eq_some_iff.1 hslash
      rw [cutMark_comment, runLength, List.takeWhile_cons_of_pos (by decide)] at hzero
      cases hzero
    · obtain ⟨rest, rfl⟩ := List.head?_eq_some_iff.1 hequal
      cases hpair : Operator.withEqual? c with
      | none => rfl
      | some op' =>
        rw [cutMark_pair (Operator.withEqual?_eq_some.1 hpair)] at hzero
        cases hzero
  · rintro ⟨hslash, hequal⟩
    rw [cutMark_alone hslash hequal]

theorem cut_pair_eq {op : Operator} (hop : op.spelling = [c, '=']) (rest : List Char) :
    (cut c ('=' :: rest)).2 = 1 := by
  rw [cut_mark (isMark_of_spelling hop), cutMark_pair hop]

theorem cut_whole_eq_iff (hc : c.isDigit = true) (hds : ∀ d ∈ cs, d.isDigit = true) (rest : List Char) :
    (cut c (cs ++ rest)).2 = cs.length ↔ (∀ b, rest.head? = some b → b.isDigit = false) ∧
      ∀ d tail, rest = '.' :: d :: tail → d.isDigit = false := by
  rw [cut_digit hc]
  constructor
  · intro hlength
    constructor
    · refine (runLength_append_eq_iff hds rest).1 (Nat.le_antisymm ?_ (le_runLength_append hds rest))
      exact (runLength_le_numberLength _).trans (Nat.le_of_eq hlength)
    · rintro d tail rfl
      by_contra hd
      rw [numberLength_fraction hds (by simpa using hd)] at hlength
      omega
  · rintro ⟨hrest, hpoint⟩
    exact numberLength_whole hds hrest hpoint

theorem cut_fraction_eq_iff {f : Char} {ds fs : List Char} (hc : c.isDigit = true) (hds : ∀ d ∈ ds, d.isDigit = true)
    (hf : f.isDigit = true) (hfs : ∀ d ∈ fs, d.isDigit = true) (rest : List Char) :
    (cut c (ds ++ '.' :: f :: fs ++ rest)).2 = (ds ++ '.' :: f :: fs).length ↔
      ∀ b, rest.head? = some b → b.isDigit = false := by
  rw [cut_digit hc, List.append_assoc, List.cons_append, List.cons_append, numberLength_fraction hds hf,
    ← runLength_append_eq_iff hfs rest, List.length_append, List.length_cons, List.length_cons]
  omega

end Shape

/-! ## First characters -/

/-- What the first character of a lexeme says about the kind. -/
structure StartsWith (k : TokenKind) (b : Char) : Prop where
  word : isWordStart b = true ↔ k.IsWord
  digit : b.isDigit = true ↔ k = .number
  point : b = '.' ↔ k = .operator .dot
  slash : b = '/' ↔ k = .operator .slash
  equal : b = '=' ↔ k = .operator .equal ∨ k = .operator .equalEqual

theorem ne_of_apply {p : Char → Bool} {a b : Char} (hb : p b = true) (ha : p a = false) : b ≠ a := by
  rintro rfl
  exact absurd hb (Bool.eq_false_iff.1 ha)

theorem startsWith_operator {op : Operator} {b : Char} {bs : List Char} (h : op.spelling = b :: bs) :
    StartsWith (.operator op) b := by
  obtain ⟨-, -, hdigit, hword⟩ := Shape.isMark_iff.1 (Shape.isMark_of_spelling h)
  refine ⟨by simp [hword], by simp [hdigit], ?_, ?_, ?_⟩
  all_goals cases op <;> cases h <;> decide

theorem startsWith_word {k : TokenKind} (hk : k.IsWord) {b : Char} (hb : isWordStart b = true) : StartsWith k b := by
  have hoperator : ∀ op, k ≠ .operator op := by
    rintro op rfl
    exact TokenKind.not_isWord_operator hk
  have hnumber : k ≠ .number := by
    rintro rfl
    exact TokenKind.not_isWord_number hk
  exact ⟨by simp [hb, hk], by simp [isDigit_of_isWordStart hb, hnumber],
    iff_of_false (ne_of_apply hb (by decide)) (hoperator _), iff_of_false (ne_of_apply hb (by decide)) (hoperator _),
    iff_of_false (ne_of_apply hb (by decide)) (by simp [hoperator])⟩

theorem startsWith_number {b : Char} (hb : b.isDigit = true) : StartsWith .number b := by
  have hword : isWordStart b = false := by
    refine Bool.eq_false_iff.2 fun h => ?_
    rw [isDigit_of_isWordStart h] at hb
    cases hb
  exact ⟨by simp [hword], by simp [hb], iff_of_false (ne_of_apply hb (by decide)) (by simp),
    iff_of_false (ne_of_apply hb (by decide)) (by simp), iff_of_false (ne_of_apply hb (by decide)) (by simp)⟩

theorem isDigit_head_of_matches_number {b : Char} {bs : List Char} (h : Shape.Matches .number (b :: bs)) :
    b.isDigit = true := by
  generalize hchars : b :: bs = chars at h
  cases h with
  | whole hne h => exact h b (hchars ▸ List.mem_cons_self)
  | fraction hds h hfs hf =>
    obtain ⟨d, ds, rfl⟩ := List.exists_cons_of_ne_nil hds
    obtain ⟨rfl, -⟩ := List.cons.inj hchars
    exact h b List.mem_cons_self

theorem isWordStart_head_of_matches_word {b : Char} {bs : List Char} (h : Shape.Matches .word (b :: bs)) :
    isWordStart b = true := by
  cases h with
  | word hc hw => exact Shape.isWordStart_iff.2 hc

theorem startsWith_string : StartsWith .string '"' :=
  ⟨iff_of_false (by decide) TokenKind.not_isWord_string, by decide, by decide, by decide, by decide⟩

theorem Token.Proper.startsWith {t : Token} (h : t.Proper) {b : Char} {bs : List Char}
    (hb : t.lexeme.toList = b :: bs) : StartsWith t.kind b := by
  cases h with
  | operator op line =>
    rw [String.toList_ofList] at hb
    exact startsWith_operator hb
  | keyword k line => exact startsWith_word (.keyword k) (isWordStart_head_of_matches_word (hb ▸ matches_spelling k))
  | identifier hw hk line => exact startsWith_word .identifier (isWordStart_head_of_matches_word (hb ▸ hw))
  | string hq line =>
    rw [String.toList_ofList] at hb
    obtain ⟨rfl, -⟩ := List.cons.inj hb
    exact startsWith_string
  | number hm hv line =>
    rw [String.toList_ofList] at hb
    exact startsWith_number (isDigit_head_of_matches_number (hb ▸ hm))

/-! ## Lists of tokens as they are written -/

/-- The lexemes of a list without anything between them. -/
def joined (ts : List Token) : List Char := ts.flatMap (fun t => t.lexeme.toList)

theorem Token.Proper.exists_cons {t : Token} (h : t.Proper) : ∃ c cs, t.lexeme.toList = c :: cs := by
  obtain ⟨shape, hm, -⟩ := h.exists_unit
  exact List.exists_cons_of_ne_nil hm.ne_nil

theorem joined_cons (t : Token) (ts : List Token) : joined (t :: ts) = t.lexeme.toList ++ joined ts := List.flatMap_cons

theorem mem_equals_iff {op : Operator} {c : Char} (hop : op.spelling = [c]) :
    op ∈ [.bang, .equal, .less, .greater] ↔ Operator.withEqual? c ≠ none := by
  cases op <;> cases hop <;> decide

theorem isWordChar_eq (b : Char) : isWordChar b = (isWordStart b || b.isDigit) := by
  rw [isWordChar, isWordStart, Char.isAlphanum, Bool.or_right_comm]

/-! ## The first cut -/

theorem lexeme_of_dot {t : Token} (h : t.Proper) (hkind : t.kind = .operator .dot) : t.lexeme.toList = ['.'] := by
  cases h with
  | operator op line =>
    cases hkind
    rw [String.toList_ofList]
    rfl
  | _ => cases hkind

section

variable {c b : Char} {cs rest : List Char} {k : TokenKind}

theorem word_alone_iff (hm : Shape.Matches .word (c :: cs)) (hk : k.IsWord) {k' : TokenKind} (hb : StartsWith k' b) :
    (Shape.cut c (cs ++ b :: rest)).2 = cs.length ↔ ¬ k.Merges k' := by
  rw [Shape.cut_word_eq_iff hm, TokenKind.merges_word hk, ← hb.word, ← hb.digit, ← Bool.or_eq_true, ← isWordChar_eq]
  simp

theorem operator_alone_iff {op : Operator} (hop : op.spelling = c :: cs) {k' : TokenKind} (hb : StartsWith k' b) :
    (Shape.cut c (cs ++ b :: rest)).2 = cs.length ↔ ¬ TokenKind.Merges (.operator op) k' := by
  rw [TokenKind.merges_operator]
  rcases op.spelling_cases with ⟨c', hop'⟩ | ⟨c', hop'⟩
  · obtain ⟨rfl, rfl⟩ := List.cons.inj (hop.symm.trans hop')
    have hslash : c = '/' ↔ op = .slash := (startsWith_operator hop).slash.trans (by simp)
    rw [List.nil_append, List.length_nil, Shape.cut_single_eq_iff hop, mem_equals_iff hop, ← hslash, ← hb.slash,
      ← hb.equal]
    simp only [List.head?_cons, Option.some.injEq, ne_eq, not_or, not_and]
    tauto
  · obtain ⟨rfl, rfl⟩ := List.cons.inj (hop.symm.trans hop')
    have hnone : op ≠ .slash ∧ op ∉ [.bang, .equal, .less, .greater] := by cases op <;> cases hop <;> decide
    exact iff_of_true (Shape.cut_pair_eq hop _) (by simp [hnone.1, hnone.2])

/-- A point with a digit behind it is a dot and a number. -/
theorem point_iff {t : Token} {ts : List Token} (ht : t.Proper) (hts : ∀ t' ∈ ts, t'.Proper) :
    (∀ d tail, joined (t :: ts) = '.' :: d :: tail → d.isDigit = false) ↔
      (t.kind = .operator .dot → ∀ t' ts', ts = t' :: ts' → t'.kind ≠ .number) := by
  rw [joined_cons]
  constructor
  · rintro h hdot t' ts' rfl hnumber
    obtain ⟨d, ds, hlexeme⟩ := (hts t' List.mem_cons_self).exists_cons
    have hd := h d (ds ++ joined ts') (by rw [lexeme_of_dot ht hdot, joined_cons, hlexeme]; rfl)
    have hd' := ((hts t' List.mem_cons_self).startsWith hlexeme).digit.2 hnumber
    rw [hd] at hd'
    cases hd'
  · intro h d tail hpoint
    obtain ⟨b, bs, hlexeme⟩ := ht.exists_cons
    have hb : b = '.' := by
      rw [hlexeme] at hpoint
      exact (List.cons.inj hpoint).1
    have hdot := (ht.startsWith hlexeme).point.1 hb
    rw [lexeme_of_dot ht hdot, List.singleton_append] at hpoint
    have hrest := (List.cons.inj hpoint).2
    cases ts with
    | nil => cases hrest
    | cons t' ts' =>
      obtain ⟨d', ds, hlexeme'⟩ := (hts t' List.mem_cons_self).exists_cons
      rw [joined_cons, hlexeme'] at hrest
      obtain ⟨rfl, -⟩ := List.cons.inj hrest
      refine Bool.eq_false_iff.2 fun hd => h hdot t' ts' rfl ?_
      exact ((hts t' List.mem_cons_self).startsWith hlexeme').digit.1 hd

theorem number_alone_iff (hm : Shape.Matches .number (c :: cs)) {t : Token} {ts : List Token} (ht : t.Proper)
    (hts : ∀ t' ∈ ts, t'.Proper) : (Shape.cut c (cs ++ joined (t :: ts))).2 = cs.length ↔
      ¬ TokenKind.Merges .number t.kind ∧
        ('.' ∉ c :: cs → t.kind = .operator .dot → ∀ t' ts', ts = t' :: ts' → t'.kind ≠ .number) := by
  obtain ⟨b, bs, hlexeme⟩ := ht.exists_cons
  have hhead : (∀ a, (joined (t :: ts)).head? = some a → a.isDigit = false) ↔ ¬ TokenKind.Merges .number t.kind := by
    rw [TokenKind.merges_number, ← (ht.startsWith hlexeme).digit, joined_cons, hlexeme]
    simp
  generalize hchars : c :: cs = chars at hm
  cases hm with
  | whole hne h =>
    rw [← hchars] at h
    obtain ⟨hc, hds⟩ := List.forall_mem_cons.1 h
    have hwhole : '.' ∉ chars := by
      rw [← hchars]
      exact fun hpoint => absurd (h _ hpoint) (by decide)
    rw [Shape.cut_whole_eq_iff hc hds, hhead, point_iff ht hts]
    simp [hwhole]
  | fraction hds h hfs hf =>
    obtain ⟨d, ds, rfl⟩ := List.exists_cons_of_ne_nil hds
    obtain ⟨f, fs, rfl⟩ := List.exists_cons_of_ne_nil hfs
    rw [List.cons_append] at hchars
    obtain ⟨rfl, rfl⟩ := List.cons.inj hchars
    obtain ⟨hc, hds⟩ := List.forall_mem_cons.1 h
    obtain ⟨hf, hfs⟩ := List.forall_mem_cons.1 hf
    rw [Shape.cut_fraction_eq_iff hc hds hf hfs, hhead]
    simp

end

/-- **A lexeme is cut off alone exactly where its token does not run together with what follows.** -/
theorem cut_lexeme_iff {t : Token} {ts : List Token} (ht : t.Proper) (hts : ∀ t' ∈ ts, t'.Proper) {c : Char}
    {cs : List Char} (hlexeme : t.lexeme.toList = c :: cs) :
    (Shape.cut c (cs ++ joined ts)).2 = cs.length ↔ ∀ us, us <+: t :: ts → ¬ RunsTogether us := by
  cases ts with
  | nil =>
    obtain ⟨shape, hm, -⟩ := ht.exists_unit
    rw [hlexeme] at hm
    have hcut : (Shape.cut c (cs ++ joined [])).2 = cs.length := by
      rw [joined, List.flatMap_nil, List.append_nil, Shape.cut_of_matches hm]
    exact iff_of_true hcut fun us => not_runsTogether_singleton
  | cons t' ts =>
    obtain ⟨ht', hts⟩ := List.forall_mem_cons.1 hts
    obtain ⟨b, bs, hlexeme'⟩ := ht'.exists_cons
    -- what the cut sees first is the next token's first character, and that says its kind
    have hb := ht'.startsWith hlexeme'
    have hjoined : joined (t' :: ts) = b :: (bs ++ joined ts) := by rw [joined_cons, hlexeme']; rfl
    rw [forall_prefix_iff]
    cases ht with
    | operator op line =>
      rw [String.toList_ofList] at hlexeme
      rw [hjoined, operator_alone_iff hlexeme hb]
      simp
    | keyword k line =>
      rw [hjoined, word_alone_iff (hlexeme ▸ matches_spelling k) (.keyword k) hb]
      simp
    | identifier hw hk line =>
      rw [hjoined, word_alone_iff (hlexeme ▸ hw) .identifier hb]
      simp
    | string hq line =>
      rw [String.toList_ofList] at hlexeme
      exact iff_of_true (Shape.cut_string_eq (hlexeme ▸ .string hq) _) ⟨TokenKind.not_merges_string, nofun⟩
    | number hm hv line =>
      rw [String.toList_ofList] at hlexeme
      rw [number_alone_iff (hlexeme ▸ hm) ht' hts, String.toList_ofList, hlexeme]
      simp

/-! ## Scanning what is written -/

namespace Token

def onLine (t : Token) (line : Nat) : Token := { t with line := line }

theorem Proper.onLine {t : Token} (h : t.Proper) (line : Nat) : (t.onLine line).Proper := by
  cases h with
  | operator op _ => exact .operator op line
  | keyword k _ => exact .keyword k line
  | identifier hw hk _ => exact .identifier hw hk line
  | string hq _ => exact .string hq line
  | number hm hv _ => exact .number hm hv line

/-- The tokens of a list on the lines where they are written, the first on `line`. -/
def placed (line : Nat) : List Token → List Token
  | [] => []
  | t :: ts => t.onLine line :: placed (t.onLine line).endLine ts

theorem map_content_placed (line : Nat) (ts : List Token) : (placed line ts).map content = ts.map content := by
  induction ts generalizing line with
  | nil => rfl
  | cons t ts ih =>
    rw [placed, List.map_cons, List.map_cons, ih]
    rfl

end Token

/-- A token that does not run together with what follows it is scanned. -/
theorem outcomesFrom_joined_cons {t : Token} {ts : List Token} (ht : t.Proper) (hts : ∀ t' ∈ ts, t'.Proper)
    (h : ∀ us, us <+: t :: ts → ¬ RunsTogether us) (line : Nat) : outcomesFrom line (joined (t :: ts)) =
      .token (t.onLine line) :: outcomesFrom (t.onLine line).endLine (joined ts) := by
  obtain ⟨c, cs, hlexeme⟩ := ht.exists_cons
  obtain ⟨shape, hm, -, -, hdenotes⟩ := (ht.onLine line).exists_unit
  have hlength := (cut_lexeme_iff ht hts hlexeme).2 h
  have hlexeme' : (t.onLine line).lexeme.toList = c :: cs := hlexeme
  rw [hlexeme'] at hm hdenotes
  -- what is cut off is the lexeme, so it has the token's shape
  have hcut := Shape.matches_cut (Shape.cut_of_matches_append hm (joined ts)).1
  rw [hlength, List.take_left] at hcut
  have houtcome : Outcome.token (t.onLine line) =
      LexUnit.outcome ⟨(Shape.cut c (cs ++ joined ts)).1, line, c :: cs⟩ := by
    rw [hcut.unique hm]
    exact (denotes_iff (.inl hm)).1 hdenotes
  rw [joined_cons, hlexeme, List.cons_append, outcomesFrom, unitsFrom_cons, hlength, List.take_left, List.drop_left,
    List.map_cons, ← houtcome, Token.endLine, hlexeme']
  rfl

/-- **Tokens of which none run together are scanned one by one**, and nothing else is. -/
theorem outcomesFrom_joined {ts : List Token} (h : ∀ t ∈ ts, t.Proper) (hnone : ∀ us, us <:+: ts → ¬ RunsTogether us)
    (line : Nat) : outcomesFrom line (joined ts) = (Token.placed line ts).map .token := by
  induction ts generalizing line with
  | nil => exact outcomesFrom_nil line
  | cons t ts ih =>
    obtain ⟨ht, hts⟩ := List.forall_mem_cons.1 h
    obtain ⟨hfirst, hrest⟩ := forall_infix_cons_iff.1 hnone
    rw [outcomesFrom_joined_cons ht hts hfirst, ih hts hrest]
    rfl

/-! ## Nothing between the tokens -/

theorem length_flatten_le_of_sublist {xss yss : List (List Char)} (h : xss.Sublist yss) :
    xss.flatten.length ≤ yss.flatten.length := by
  induction h with
  | slnil => exact Nat.le_refl _
  | cons ys h ih =>
    rw [List.flatten_cons, List.length_append]
    exact Nat.le_add_left_of_le ih
  | cons_cons ys h ih =>
    rw [List.flatten_cons, List.flatten_cons, List.length_append, List.length_append]
    exact Nat.add_le_add_left ih _

/-- Of parts that are not empty none can be left out without a loss. -/
theorem eq_of_sublist_of_flatten_eq {xss yss : List (List Char)} (h : xss.Sublist yss) (hne : ∀ ys ∈ yss, ys ≠ [])
    (heq : xss.flatten = yss.flatten) : xss = yss := by
  induction h with
  | slnil => rfl
  | @cons xss yss ys h ih =>
    have hpos := List.length_pos_of_ne_nil (hne ys List.mem_cons_self)
    have hle := length_flatten_le_of_sublist h
    rw [heq, List.flatten_cons, List.length_append] at hle
    omega
  | @cons_cons xss yss ys h ih =>
    rw [List.flatten_cons, List.flatten_cons] at heq
    rw [ih (fun zs hzs => hne zs (List.mem_cons_of_mem _ hzs)) (List.append_cancel_left heq)]

theorem sublist_chars {us : List LexUnit} (h : ∀ u ∈ us, u.Lawful) :
    (((us.map LexUnit.outcome).filterMap Outcome.token?).map (fun t => t.lexeme.toList)).Sublist
      (us.map LexUnit.chars) := by
  induction us with
  | nil => exact List.Sublist.refl _
  | cons u us ih =>
    obtain ⟨hu, hus⟩ := List.forall_mem_cons.1 h
    rw [List.map_cons, List.map_cons, List.filterMap_cons]
    cases ho : u.outcome with
    | nothing => exact (ih hus).cons _
    | error _ _ => exact (ih hus).cons _
    | token t =>
      have hchars := ((denotes_iff hu).2 ho.symm).token_eq.2
      rw [Outcome.token?_token, List.map_cons, hchars]
      exact (ih hus).cons_cons _

theorem LexUnit.Lawful.chars_ne_nil {u : LexUnit} (h : u.Lawful) : u.chars ≠ [] := by
  obtain h | ⟨c, -, -, hchars⟩ := h
  · exact h.ne_nil
  · rw [hchars]
    exact List.cons_ne_nil _ _

/-- Where the tokens have all the characters of a text, its units are their lexemes. -/
theorem map_chars_of_tokens {line : Nat} {ts : List Token}
    (h : ((outcomesFrom line (joined ts)).filterMap Outcome.token?).map Token.content = ts.map Token.content) :
    (unitsFrom line (joined ts)).map LexUnit.chars = ts.map (fun t => t.lexeme.toList) := by
  have hlexemes : ((outcomesFrom line (joined ts)).filterMap Outcome.token?).map (fun t => t.lexeme.toList) =
      ts.map (fun t => t.lexeme.toList) := by
    have h := congrArg (List.map fun c => c.2.1.toList) h
    rwa [List.map_map, List.map_map] at h
  have hlawful : ∀ u ∈ unitsFrom line (joined ts), u.Lawful := fun _ => lawful_of_mem_unitsFrom
  have hsublist := sublist_chars hlawful
  rw [← outcomesFrom, hlexemes] at hsublist
  refine (eq_of_sublist_of_flatten_eq hsublist ?_ ?_).symm
  · intro cs hcs
    obtain ⟨u, hu, rfl⟩ := List.mem_map.1 hcs
    exact (hlawful u hu).chars_ne_nil
  · have hunits := flatMap_chars_unitsFrom line (joined ts)
    rw [List.flatMap_def] at hunits
    rw [hunits, joined, List.flatMap_def]

/-- Where the units are the lexemes, no tokens run together. -/
theorem not_runsTogether_of_map_chars {line : Nat} {ts : List Token} (h : ∀ t ∈ ts, t.Proper)
    (hchars : (unitsFrom line (joined ts)).map LexUnit.chars = ts.map (fun t => t.lexeme.toList)) :
    ∀ us, us <:+: ts → ¬ RunsTogether us := by
  induction ts generalizing line with
  | nil =>
    intro us hus
    rw [List.infix_nil.1 hus]
    nofun
  | cons t ts ih =>
    obtain ⟨ht, hts⟩ := List.forall_mem_cons.1 h
    obtain ⟨c, cs, hlexeme⟩ := ht.exists_cons
    rw [joined_cons, hlexeme, List.cons_append, unitsFrom_cons, List.map_cons, List.map_cons, hlexeme,
      List.cons.injEq] at hchars
    obtain ⟨hfront, hrest⟩ := hchars
    have hlength := congrArg List.length (List.cons.inj hfront).2
    rw [List.length_take_of_le (Shape.cut_le c _)] at hlength
    rw [hlength, List.drop_left] at hrest
    exact forall_infix_cons_iff.2 ⟨(cut_lexeme_iff ht hts hlexeme).1 hlength, ih hts hrest⟩

theorem filterMap_token?_map (ts : List Token) : (ts.map Outcome.token).filterMap Outcome.token? = ts := by
  rw [List.filterMap_map]
  exact List.filterMap_some

theorem filterMap_diagnostic?_map (ts : List Token) : (ts.map Outcome.token).filterMap Outcome.diagnostic? = [] := by
  rw [List.filterMap_map]
  exact List.filterMap_eq_nil_iff.2 fun _ _ => rfl

/-- **Written without separators, tokens are scanned exactly where none of them run together.** -/
theorem scan_juxtaposition {ts : List Token} (h : ∀ t ∈ ts, t.Proper) :
    let s := scan (String.join (ts.map Token.lexeme))
    s.tokens.map Token.content = ts.map Token.content ++ [(.eof, "", none)] ∧ s.diagnostics = [] ↔
      ∀ us, us <:+: ts → ¬ RunsTogether us := by
  intro s
  have htext : (String.join (ts.map Token.lexeme)).toList = joined ts := by
    rw [String.toList_join, List.flatMap_map]
    rfl
  have htokens : s.tokens.map Token.content =
      ((outcomesFrom 1 (joined ts)).filterMap Outcome.token?).map Token.content ++ [(.eof, "", none)] := by
    rw [tokens_scan, htext, List.map_append]
    rfl
  constructor
  · rintro ⟨hcontent, -⟩
    rw [htokens] at hcontent
    exact not_runsTogether_of_map_chars h (map_chars_of_tokens (List.append_cancel_right hcontent))
  · intro hnone
    have houtcomes := outcomesFrom_joined h hnone 1
    constructor
    · rw [htokens, houtcomes, filterMap_token?_map, Token.map_content_placed]
    · rw [diagnostics_scan, htext, houtcomes, filterMap_diagnostic?_map]

/-- A fraction has its point already, so a dot and a number stay apart from it; from a whole number they do not. -/
theorem scan_juxtaposition_point :
    let whole : Token := ⟨.number, "1", some (.number ⟨0x3ff0000000000000⟩), 1⟩
    let fraction : Token := ⟨.number, "1.5", some (.number ⟨0x3ff8000000000000⟩), 1⟩
    let dot : Token := ⟨.operator .dot, ".", none, 1⟩
    whole.Proper ∧ fraction.Proper ∧ dot.Proper ∧
      (scan "1.5.1").tokens.map Token.content = [fraction, dot, whole].map Token.content ++ [(.eof, "", none)] ∧
      (∀ us, us <:+: [fraction, dot, whole] → ¬ RunsTogether us) ∧ RunsTogether [whole, dot, fraction] ∧
      ¬ ((scan "1.1.5").tokens.map Token.content = [whole, dot, fraction].map Token.content ++ [(.eof, "", none)] ∧
        (scan "1.1.5").diagnostics = []) := by
  intro whole fraction dot
  have hwhole : whole.Proper := by
    have hm : Shape.Matches .number ['1'] := .whole (List.cons_ne_nil _ _) (List.forall_mem_singleton.2 rfl)
    have h := Token.Proper.number hm (by decide +kernel) 1
    have hvalue : (Decimal.ofNumeral ['1']).toBinary64 = ⟨0x3ff0000000000000⟩ := by decide +kernel
    rwa [hvalue] at h
  have hfraction : fraction.Proper := by
    have hm : Shape.Matches .number (['1'] ++ '.' :: ['5']) :=
      .fraction (List.cons_ne_nil _ _) (List.forall_mem_singleton.2 rfl) (List.cons_ne_nil _ _)
        (List.forall_mem_singleton.2 rfl)
    have h := Token.Proper.number hm (by decide +kernel) 1
    have hvalue : (Decimal.ofNumeral (['1'] ++ '.' :: ['5'])).toBinary64 = ⟨0x3ff8000000000000⟩ := by decide +kernel
    rwa [hvalue] at h
  have hdot : dot.Proper := .operator .dot 1
  have hapart : ∀ t ∈ [fraction, dot, whole], t.Proper := by simp [hwhole, hfraction, hdot]
  have htogether : ∀ t ∈ [whole, dot, fraction], t.Proper := by simp [hwhole, hfraction, hdot]
  have hscan : (scan "1.5.1").tokens.map Token.content =
      [fraction, dot, whole].map Token.content ++ [(.eof, "", none)] := by decide +kernel
  have hpoint : RunsTogether [whole, dot, fraction] := .fraction rfl (by decide) rfl rfl
  refine ⟨hwhole, hfraction, hdot, hscan, ?_, hpoint, fun h => ?_⟩
  · exact (scan_juxtaposition hapart).1 ⟨hscan, by decide +kernel⟩
  · exact (scan_juxtaposition htogether).1 h _ List.infix_rfl hpoint

end LoxLexer
