import LoxLexer.Text.Quoted
/-!
# Reading quoted text back

An escaped character can be read back from the front of any text (`unescape_escape`), and none begins like the quote
that ends the text.  So quoted text says where it ends and what was quoted (`quoted_append_inj`), and it has no line
feed, since whatever does not show is escaped (`newline_not_mem_quoted`).
-/
namespace LoxLexer

/-- The quotes that a log writes, around a text and around a character. -/
def IsQuote (q : Char) : Prop := q = '"' ∨ q = '\''

/-! ## Hexadecimal digits -/

def hexValue (c : Char) : Nat := if c.isDigit then c.toNat - '0'.toNat else c.toNat - 'a'.toNat + 10

def ofHexDigits (cs : List Char) : Nat := cs.foldl (fun n c => 16 * n + hexValue c) 0

theorem hexValue_digitChar {n : Nat} (hn : n < 16) : hexValue n.digitChar = n := by
  have hall : ∀ n : Fin 16, hexValue n.val.digitChar = n := by decide
  exact hall ⟨n, hn⟩

theorem ofHexDigits_toDigits (n : Nat) : ofHexDigits (Nat.toDigits 16 n) = n := by
  induction n using Nat.strongRecOn with
  | ind n ih =>
    rw [Nat.toDigits_eq_if (by decide)]
    split
    · rw [ofHexDigits, List.foldl_cons, List.foldl_nil, hexValue_digitChar ‹n < 16›]
      omega
    · have hlast : n % 16 < 16 := Nat.mod_lt n (by decide)
      have ih := ih (n / 16) (by omega)
      unfold ofHexDigits at ih ⊢
      rw [List.foldl_append, ih, List.foldl_cons, List.foldl_nil, hexValue_digitChar hlast]
      omega

theorem mem_toDigits_sixteen {n : Nat} : ∀ c ∈ Nat.toDigits 16 n, ∃ d, d < 16 ∧ c = d.digitChar := by
  induction n using Nat.strongRecOn with
  | ind n ih =>
    rw [Nat.toDigits_eq_if (by decide)]
    split
    · exact List.forall_mem_singleton.2 ⟨n, ‹n < 16›, rfl⟩
    · exact List.forall_mem_append.2 ⟨ih (n / 16) (by omega),
        List.forall_mem_singleton.2 ⟨n % 16, Nat.mod_lt n (by decide), rfl⟩⟩

theorem not_mem_toDigits_sixteen {a : Char} (ha : ∀ d : Fin 16, d.val.digitChar ≠ a) (n : Nat) :
    a ∉ Nat.toDigits 16 n := by
  intro h
  obtain ⟨d, hd, rfl⟩ := mem_toDigits_sixteen a h
  exact ha ⟨d, hd⟩ rfl

/-! ## Escaped characters -/

/-- The character that stands behind a backslash in place of another. -/
inductive LetterFor (q : Char) : Char → Char → Prop
  | null : LetterFor q '\x00' '0'
  | tab : LetterFor q '\t' 't'
  | newline : LetterFor q '\n' 'n'
  | carriageReturn : LetterFor q '\r' 'r'
  | quote : LetterFor q q q
  | backslash : LetterFor q '\\' '\\'

/-- How a character is written: as it is, by a letter, or by its number. -/
inductive Escapes (q : Char) : Char → List Char → Prop
  | plain {c : Char} (hq : c ≠ q) (hbackslash : c ≠ '\\') (hvisible : isVisible c = true) : Escapes q c [c]
  | letter {c l : Char} (h : LetterFor q c l) : Escapes q c ['\\', l]
  | number {c : Char} : Escapes q c ('\\' :: 'u' :: '{' :: (Nat.toDigits 16 c.toNat ++ ['}']))

theorem escapes_escape (q c : Char) : Escapes q c (escape q c) := by
  unfold escape
  split
  · subst c
    exact .letter .null
  split
  · subst c
    exact .letter .tab
  split
  · subst c
    exact .letter .newline
  split
  · subst c
    exact .letter .carriageReturn
  split
  · rename_i h
    simp only [Bool.or_eq_true, decide_eq_true_eq] at h
    rcases h with rfl | rfl
    · exact .letter .quote
    · exact .letter .backslash
  · rename_i h
    simp only [Bool.or_eq_true, decide_eq_true_eq, not_or] at h
    split
    · exact .plain h.1 h.2 ‹_›
    · exact .number

/-- What a letter behind a backslash stands for. -/
def meaningOfLetter (l : Char) : Char :=
  if l = '0' then '\x00' else if l = 't' then '\t' else if l = 'n' then '\n' else if l = 'r' then '\r' else l

/-- The character that is written at the front of a text, and what stands behind it. -/
def unescape : List Char → Option (Char × List Char)
  | '\\' :: 'u' :: '{' :: cs =>
    some (Char.ofNat (ofHexDigits (cs.takeWhile (· ≠ '}'))), (cs.dropWhile (· ≠ '}')).drop 1)
  | '\\' :: l :: cs => some (meaningOfLetter l, cs)
  | c :: cs => some (c, cs)
  | [] => none

theorem unescape_plain {c : Char} (hc : c ≠ '\\') (cs : List Char) : unescape (c :: cs) = some (c, cs) := by
  unfold unescape
  split <;> simp_all

theorem unescape_letter {l : Char} (hl : l ≠ 'u') (cs : List Char) :
    unescape ('\\' :: l :: cs) = some (meaningOfLetter l, cs) := by
  unfold unescape
  split <;> grind

theorem unescape_number (c : Char) (cs : List Char) :
    unescape ('\\' :: 'u' :: '{' :: (Nat.toDigits 16 c.toNat ++ '}' :: cs)) = some (c, cs) := by
  have hbrace : '}' ∉ Nat.toDigits 16 c.toNat := not_mem_toDigits_sixteen (by decide) _
  have hdigits : ∀ d ∈ Nat.toDigits 16 c.toNat, decide (d ≠ '}') = true := by
    intro d hd
    rw [decide_eq_true_eq]
    rintro rfl
    exact hbrace hd
  have htake : (Nat.toDigits 16 c.toNat ++ '}' :: cs).takeWhile (· ≠ '}') = Nat.toDigits 16 c.toNat := by
    rw [List.takeWhile_append_of_pos hdigits, List.takeWhile_cons_of_neg (by simp), List.append_nil]
  have hdrop : (Nat.toDigits 16 c.toNat ++ '}' :: cs).dropWhile (· ≠ '}') = '}' :: cs := by
    rw [List.dropWhile_append_of_pos hdigits, List.dropWhile_cons_of_neg (by simp)]
  show some (Char.ofNat (ofHexDigits (List.takeWhile _ _)), (List.dropWhile _ _).drop 1) = _
  rw [htake, hdrop, ofHexDigits_toDigits, Char.ofNat_toNat]
  rfl

section

variable {q : Char} (hq : IsQuote q)

include hq

theorem LetterFor.meaning_eq {c l : Char} (h : LetterFor q c l) : l ≠ 'u' ∧ meaningOfLetter l = c := by
  rcases hq with rfl | rfl <;> cases h <;> decide

/-- **An escaped character reads back**, whatever follows it. -/
theorem unescape_escape (c : Char) (rest : List Char) : unescape (escape q c ++ rest) = some (c, rest) := by
  have h := escapes_escape q c
  generalize escape q c = written at h
  cases h with
  | plain _ hbackslash _ => exact unescape_plain hbackslash rest
  | letter hl =>
    obtain ⟨hu, hmeaning⟩ := hl.meaning_eq hq
    exact hmeaning ▸ unescape_letter hu rest
  | number =>
    have hread := unescape_number c rest
    rwa [← List.singleton_append (x := '}'), ← List.append_assoc] at hread

theorem escape_append_inj {c c' : Char} {us vs : List Char} (h : escape q c ++ us = escape q c' ++ vs) :
    c = c' ∧ us = vs := by
  have hread := congrArg unescape h
  rw [unescape_escape hq, unescape_escape hq] at hread
  exact Prod.mk.inj (Option.some.inj hread)

/-- An escaped character does not begin with the quote. -/
theorem exists_escape (c : Char) : ∃ b bs, escape q c = b :: bs ∧ b ≠ q := by
  have hbackslash : '\\' ≠ q := by rcases hq with rfl | rfl <;> decide
  have h := escapes_escape q c
  generalize escape q c = written at h
  cases h with
  | plain hne _ _ => exact ⟨c, [], rfl, hne⟩
  | letter _ => exact ⟨'\\', _, rfl, hbackslash⟩
  | number => exact ⟨'\\', _, rfl, hbackslash⟩

theorem newline_not_mem_escape (c : Char) : '\n' ∉ escape q c := by
  have h := escapes_escape q c
  generalize escape q c = written at h
  cases h with
  | plain _ _ hvisible =>
    rw [List.mem_singleton]
    rintro rfl
    exact absurd hvisible (by decide)
  | letter hl =>
    rcases hq with rfl | rfl <;> cases hl <;> decide
  | number =>
    have hdigits : '\n' ∉ Nat.toDigits 16 c.toNat := not_mem_toDigits_sixteen (by decide) _
    simp [hdigits]

/-! ## Quoted texts -/

theorem escaped_append_inj : ∀ {cs cs' us vs : List Char},
    cs.flatMap (escape q) ++ q :: us = cs'.flatMap (escape q) ++ q :: vs → cs = cs' ∧ us = vs
  | [], [], _, _, h => ⟨rfl, (List.cons.inj h).2⟩
  | [], c :: cs, us, vs, h => by
    obtain ⟨b, bs, hc, hne⟩ := exists_escape hq c
    rw [List.flatMap_cons, hc] at h
    exact absurd (List.cons.inj h).1.symm hne
  | c :: cs, [], us, vs, h => by
    obtain ⟨b, bs, hc, hne⟩ := exists_escape hq c
    rw [List.flatMap_cons, hc] at h
    exact absurd (List.cons.inj h).1 hne
  | c :: cs, c' :: cs', us, vs, h => by
    rw [List.flatMap_cons, List.flatMap_cons, List.append_assoc, List.append_assoc] at h
    obtain ⟨rfl, hrest⟩ := escape_append_inj hq h
    obtain ⟨rfl, hus⟩ := escaped_append_inj hrest
    exact ⟨rfl, hus⟩

/-- **A quoted text says what is quoted and where it ends.** -/
theorem quoted_append_inj {cs cs' us vs : List Char}
    (h : (quoted q cs).toList ++ us = (quoted q cs').toList ++ vs) : cs = cs' ∧ us = vs := by
  rw [quoted, quoted, String.toList_ofList, String.toList_ofList, List.append_assoc, List.append_assoc] at h
  exact escaped_append_inj hq (List.cons.inj h).2

theorem newline_not_mem_quoted (cs : List Char) : '\n' ∉ (quoted q cs).toList := by
  have hne : '\n' ≠ q := by rcases hq with rfl | rfl <;> decide
  rw [quoted, String.toList_ofList]
  simp only [List.cons_append, List.mem_cons, List.mem_append, List.mem_flatMap, List.not_mem_nil, hne, or_false,
    false_or]
  rintro ⟨c, -, hc⟩
  exact newline_not_mem_escape hq c hc

end

end LoxLexer
