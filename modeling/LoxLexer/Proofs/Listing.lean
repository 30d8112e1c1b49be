import LoxLexer.Proofs.Emissions
import LoxLexer.Proofs.Rendering
import LoxLexer.Proofs.Separators
/-!
# Reading a listing back

The listing of a scan is what it puts out (`join_textsOf_emissions`).  It escapes nothing, and a string stands in it
twice as it is, over several lines if it has them.  Still it says what the tokens are: a kind's name ends at the first
space, the kind says where the lexeme ends (a string at its second quote, anything else at the next space), and kind
and lexeme say what the literal is (`Token.Legible.literal_eq`).  So no token's text goes on where another's ends
(`Token.Legible.text_append_inj`).

Main statement: `listing_eq_iff`, two scans have one listing exactly when their tokens agree but for the lines.
-/
namespace LoxLexer

/-! ## Names of kinds -/

namespace TokenKind

theorem ofName?_name (k : TokenKind) : ofName? k.name = some k := by
  cases k with
  | operator op => cases op <;> decide
  | keyword word => cases word <;> decide
  | _ => decide

theorem name_injective {k k' : TokenKind} (h : k.name = k'.name) : k = k' := by
  have := ofName?_name k
  rw [h, ofName?_name k'] at this
  exact (Option.some.inj this).symm

/-- Names are made of letters. -/
theorem isAlpha_of_mem_name (k : TokenKind) : ∀ c ∈ k.name.toList, c.isAlpha = true := by
  apply List.all_eq_true.1
  cases k with
  | operator op => cases op <;> decide
  | keyword word => cases word <;> decide
  | _ => decide

theorem space_not_mem_name (k : TokenKind) : ' ' ∉ k.name.toList :=
  fun hn => absurd (k.isAlpha_of_mem_name _ hn) (by decide)

end TokenKind

/-! ## Tokens that a listing tells apart -/

namespace Token

/-- All of a token but its line. -/
def content (t : Token) : TokenKind × String × Option Literal := (t.kind, t.lexeme, t.literal)

/-- A proper token, or the one that ends a scan. -/
def Legible (t : Token) : Prop := t.Proper ∨ ∃ line, t = endToken line

theorem toList_text (t : Token) :
    t.text.toList = t.kind.name.toList ++ ' ' :: (t.lexeme.toList ++ ' ' ::
      ((t.literal.map Literal.text).getD "nil").toList) := by
  simp [text]

theorem text_eq_of_content_eq {t t' : Token} (h : t.content = t'.content) : t.text = t'.text := by
  obtain ⟨hkind, hrest⟩ := Prod.mk.inj h
  obtain ⟨hlexeme, hliteral⟩ := Prod.mk.inj hrest
  rw [text, text, hkind, hlexeme, hliteral]

def literalOf (kind : TokenKind) (lexeme : String) : Option Literal :=
  match kind with
  | .string => some (.string (String.ofList lexeme.toList.tail.dropLast))
  | .number => some (.number (Decimal.ofNumeral lexeme.toList).toBinary64)
  | _ => none

namespace Legible

theorem literal_eq {t : Token} (h : t.Legible) : t.literal = literalOf t.kind t.lexeme := by
  obtain h | ⟨line, rfl⟩ := h
  · cases h with
    | string hq line => simp [literalOf]
    | number hm hv line => simp [literalOf]
    | _ => rfl
  · rfl

theorem lexeme_of_string {t : Token} (h : t.Legible) (hkind : t.kind = .string) :
    ∃ contents, '"' ∉ contents ∧ t.lexeme.toList = '"' :: (contents ++ ['"']) := by
  obtain h | ⟨line, rfl⟩ := h
  · cases h with
    | string hq line => exact ⟨_, hq, String.toList_ofList⟩
    | _ => cases hkind
  · cases hkind

/-- Only a string has blanks in its lexeme. -/
theorem isBlank_of_mem_lexeme {t : Token} (h : t.Legible) (hkind : t.kind ≠ .string) :
    ∀ c ∈ t.lexeme.toList, isBlank c = false := by
  have hword : ∀ {w : String}, Shape.Matches .word w.toList → ∀ c ∈ w.toList, isBlank c = false := by
    intro w hw c hc
    refine Bool.eq_false_iff.2 fun hb => ?_
    have := Shape.isWordChar_of_matches hw c hc
    rw [Shape.isWordChar_of_isBlank hb] at this
    cases this
  obtain h | ⟨line, rfl⟩ := h
  · cases h with
    | operator op line =>
      rw [String.toList_ofList]
      rcases op.spelling_cases with ⟨b, hop⟩ | ⟨b, hop⟩
      · rw [hop, List.forall_mem_singleton]
        exact (Shape.isMark_iff.1 (Shape.isMark_of_spelling hop)).1
      · rw [hop, List.forall_mem_cons, List.forall_mem_singleton]
        exact ⟨(Shape.isMark_iff.1 (Shape.isMark_of_spelling hop)).1, rfl⟩
    | keyword k line => exact hword (matches_spelling k)
    | identifier hw hk line => exact hword hw
    | string hq line => exact absurd rfl hkind
    | number hm hv line =>
      rw [String.toList_ofList]
      intro c hc
      rcases Shape.digit_or_point_of_matches hm c hc with hd | rfl
      · exact isBlank_of_isDigit hd
      · rfl
  · exact fun c hc => absurd hc List.not_mem_nil

theorem space_not_mem_lexeme {t : Token} (h : t.Legible) (hkind : t.kind ≠ .string) : ' ' ∉ t.lexeme.toList :=
  fun hn => absurd (h.isBlank_of_mem_lexeme hkind _ hn) (by decide)

variable {t t' : Token} {us vs : List Char}

theorem lexeme_append_inj (ht : t.Legible) (ht' : t'.Legible) (hkind : t.kind = t'.kind)
    (h : t.lexeme.toList ++ ' ' :: us = t'.lexeme.toList ++ ' ' :: vs) : t.lexeme = t'.lexeme := by
  by_cases hstring : t.kind = .string
  · obtain ⟨contents, hq, hlexeme⟩ := ht.lexeme_of_string hstring
    obtain ⟨contents', hq', hlexeme'⟩ := ht'.lexeme_of_string (hkind ▸ hstring)
    have hcontents : contents = contents' := by
      rw [hlexeme, hlexeme', List.cons_append, List.cons_append, List.append_assoc, List.append_assoc] at h
      exact (append_cons_inj hq hq' (List.cons.inj h).2).1
    exact String.toList_inj.1 (by rw [hlexeme, hlexeme', hcontents])
  · have hstring' : t'.kind ≠ .string := hkind ▸ hstring
    exact String.toList_inj.1
      (append_cons_inj (ht.space_not_mem_lexeme hstring) (ht'.space_not_mem_lexeme hstring') h).1

/-- **A text ends where its token says.** -/
theorem text_append_inj (ht : t.Legible) (ht' : t'.Legible) (h : t.text.toList ++ us = t'.text.toList ++ vs) :
    t.content = t'.content ∧ us = vs := by
  have hcontent : t.content = t'.content := by
    rw [toList_text, toList_text, List.append_assoc, List.append_assoc, List.cons_append, List.cons_append,
      List.append_assoc, List.append_assoc, List.cons_append, List.cons_append] at h
    obtain ⟨hname, hrest⟩ := append_cons_inj t.kind.space_not_mem_name t'.kind.space_not_mem_name h
    have hkind : t.kind = t'.kind := TokenKind.name_injective (String.toList_inj.1 hname)
    have hlexeme : t.lexeme = t'.lexeme := ht.lexeme_append_inj ht' hkind hrest
    have hliteral : t.literal = t'.literal := by rw [ht.literal_eq, ht'.literal_eq, hkind, hlexeme]
    rw [content, content, hkind, hlexeme, hliteral]
  rw [text_eq_of_content_eq hcontent] at h
  exact ⟨hcontent, List.append_cancel_left h⟩

end Legible
end Token

/-! ## Listings -/

theorem WellFormedFrom.legible {line : Nat} {ts : List Token} (h : WellFormedFrom line ts) : ∀ t ∈ ts, t.Legible := by
  induction h with
  | @eof line last hline => exact List.forall_mem_singleton.2 (.inr ⟨last, rfl⟩)
  | cons hline ht hts ih => exact List.forall_mem_cons.2 ⟨.inl ht, ih⟩

/-- The texts of the tokens, each with its line end. -/
def Scan.listing (s : Scan) : String := String.join (s.tokens.map fun t => t.text ++ "\n")

theorem Scan.join_textsOf_emissions (s : Scan) (f : LogFilter) : String.join (textsOf (s.emissions f)) = s.listing :=
  congrArg String.join s.textsOf_emissions

/-- A token's part of a listing. -/
def Token.listed (t : Token) : List Char := t.text.toList ++ ['\n']

theorem toList_listing (s : Scan) : s.listing.toList = s.tokens.flatMap Token.listed := by
  rw [Scan.listing, String.toList_join, List.flatMap_map]
  simp only [String.toList_append]
  rfl

theorem content_eq_of_listed_eq : ∀ {ts ts' : List Token}, (∀ t ∈ ts, t.Legible) → (∀ t ∈ ts', t.Legible) →
    ts.flatMap Token.listed = ts'.flatMap Token.listed → ts.map Token.content = ts'.map Token.content
  | [], [], _, _, _ => rfl
  | [], _ :: _, _, _, h => by simp [Token.listed] at h
  | _ :: _, [], _, _, h => by simp [Token.listed] at h
  | t :: ts, t' :: ts', hts, hts', h => by
    obtain ⟨ht, hts⟩ := List.forall_mem_cons.1 hts
    obtain ⟨ht', hts'⟩ := List.forall_mem_cons.1 hts'
    rw [List.flatMap_cons, List.flatMap_cons, Token.listed, Token.listed, List.append_assoc, List.append_assoc] at h
    obtain ⟨hcontent, hrest⟩ := ht.text_append_inj ht' h
    rw [List.map_cons, List.map_cons, hcontent, content_eq_of_listed_eq hts hts' (List.cons.inj hrest).2]

theorem listed_eq_of_content_eq : ∀ {ts ts' : List Token}, ts.map Token.content = ts'.map Token.content →
    ts.flatMap Token.listed = ts'.flatMap Token.listed
  | [], [], _ => rfl
  | t :: ts, t' :: ts', h => by
    obtain ⟨hcontent, hrest⟩ := List.cons.inj h
    rw [List.flatMap_cons, List.flatMap_cons, Token.listed, Token.listed, Token.text_eq_of_content_eq hcontent,
      listed_eq_of_content_eq hrest]

/-- **A listing says what the tokens are**, and all it does not say is their lines. -/
theorem listing_eq_iff (a b : String) :
    (scan a).listing = (scan b).listing ↔ (scan a).tokens.map Token.content = (scan b).tokens.map Token.content := by
  constructor
  · intro h
    have h := congrArg String.toList h
    rw [toList_listing, toList_listing] at h
    exact content_eq_of_listed_eq (wellFormed_tokens_scan a).legible (wellFormed_tokens_scan b).legible h
  · intro h
    apply String.toList_inj.1
    rw [toList_listing, toList_listing, listed_eq_of_content_eq h]

/-- Of tokens that no scan makes this is false: a literal where none belongs can pass for another token. -/
example :
    [Token.mk .identifier "a" (some (.string "x\nEof  nil")) 1].flatMap Token.listed =
      [Token.mk .identifier "a" (some (.string "x")) 1, endToken 1].flatMap Token.listed := by
  decide +kernel

end LoxLexer
