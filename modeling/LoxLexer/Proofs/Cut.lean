import LoxLexer.Piece
/-!
# The cut

What `Shape.cut` takes off a text, said once, so that nothing below unfolds it again: by its first character
(`first_cases`), and then by how far the characters of a shape go and what stops them (`Cuts`).

Main statements: `cut_of_nothingNew`, a cut looks two characters ahead and no further than a blank, and from it
`cut_append_blank`, the end of a text and a blank behind it cut alike.
-/
namespace LoxLexer

/-! ## Runs -/

/-- A text begins with its run, behind which it stops or goes on with a character outside. -/
theorem exists_run (p : Char → Bool) : ∀ (cs : List Char), ∃ xs rest, cs = xs ++ rest ∧ (∀ x ∈ xs, p x = true) ∧
    ∀ b, rest.head? = some b → p b = false
  | [] => ⟨[], [], rfl, by simp, by simp⟩
  | c :: cs => by
    by_cases hc : p c = true
    · obtain ⟨xs, rest, rfl, hxs, hrest⟩ := exists_run p cs
      refine ⟨c :: xs, rest, rfl, ?_, hrest⟩
      intro x hx
      rcases List.mem_cons.1 hx with rfl | hx
      · exact hc
      · exact hxs x hx
    · refine ⟨[], c :: cs, rfl, by simp, ?_⟩
      intro b hb
      obtain rfl : c = b := by simpa using hb
      simpa using hc

theorem runLength_append_of_pos {p : Char → Bool} {xs : List Char} (h : ∀ x ∈ xs, p x = true) (rest : List Char) :
    runLength p (xs ++ rest) = xs.length + runLength p rest := by
  rw [runLength, List.takeWhile_append_of_pos h, List.length_append]; rfl

theorem runLength_of_head {p : Char → Bool} {rest : List Char} (h : ∀ b, rest.head? = some b → p b = false) :
    runLength p rest = 0 := by
  cases rest with
  | nil => rfl
  | cons b rest => rw [runLength, List.takeWhile_cons_of_neg (by simp [h b rfl])]; rfl

theorem runLength_append {p : Char → Bool} {xs rest : List Char} (h : ∀ x ∈ xs, p x = true)
    (hrest : ∀ b, rest.head? = some b → p b = false) : runLength p (xs ++ rest) = xs.length := by
  rw [runLength_append_of_pos h, runLength_of_head hrest, Nat.add_zero]

theorem runLength_of_all {p : Char → Bool} {xs : List Char} (h : ∀ x ∈ xs, p x = true) :
    runLength p xs = xs.length := by
  have := runLength_append_of_pos h []
  rwa [List.append_nil] at this

theorem le_runLength_append {p : Char → Bool} {xs : List Char} (h : ∀ x ∈ xs, p x = true) (rest : List Char) :
    xs.length ≤ runLength p (xs ++ rest) := by
  rw [runLength_append_of_pos h]; exact Nat.le_add_right _ _

theorem decide_ne_of_not_mem {a : Char} {cs : List Char} (h : a ∉ cs) : ∀ x ∈ cs, decide (x ≠ a) = true := by
  intro x hx
  rw [decide_eq_true_eq]
  rintro rfl
  exact h hx

theorem runLength_ne_of_not_mem {a : Char} {cs : List Char} (h : a ∉ cs) : runLength (· ≠ a) cs = cs.length :=
  runLength_of_all (decide_ne_of_not_mem h)

theorem runLength_ne_append_cons {a : Char} {cs : List Char} (h : a ∉ cs) (rest : List Char) :
    runLength (· ≠ a) (cs ++ a :: rest) = cs.length :=
  runLength_append (decide_ne_of_not_mem h) (fun b hb => by simpa using hb.symm)

/-! ## What is taken off, and what is left -/

theorem front_append_drop (c : Char) (n : Nat) (cs : List Char) : (c :: cs.take n) ++ cs.drop n = c :: cs := by
  rw [List.cons_append, List.take_append_drop]

theorem count_front_add (c : Char) (n : Nat) (cs : List Char) :
    (c :: cs.take n).count '\n' + (cs.drop n).count '\n' = (c :: cs).count '\n' := by
  rw [← List.count_append, front_append_drop]

/-! ## Operators -/

namespace Operator

theorem single?_eq_some {c : Char} {op : Operator} : single? c = some op ↔ op.spelling = [c] := by
  constructor
  · intro h
    unfold single? at h
    split at h <;> cases h <;> rfl
  · intro h
    cases op <;> cases h <;> rfl

theorem withEqual?_eq_some {c : Char} {op : Operator} : withEqual? c = some op ↔ op.spelling = [c, '='] := by
  constructor
  · intro h
    unfold withEqual? at h
    split at h <;> cases h <;> rfl
  · intro h
    cases op <;> cases h <;> rfl

theorem spelling_cases (op : Operator) : (∃ c, op.spelling = [c]) ∨ ∃ c, op.spelling = [c, '='] := by
  cases op <;> first | exact .inl ⟨_, rfl⟩ | exact .inr ⟨_, rfl⟩

end Operator

/-! ## The cut, by the first character -/

theorem isBlank_iff {c : Char} : isBlank c = true ↔ c = ' ' ∨ c = '\t' ∨ c = '\r' ∨ c = '\n' := by
  simp [isBlank, or_assoc]

theorem isBlank_of_isDigit {c : Char} (h : c.isDigit = true) : isBlank c = false :=
  Bool.eq_false_iff.2 (fun hb => by rcases isBlank_iff.1 hb with rfl | rfl | rfl | rfl <;> cases h)

theorem isBlank_of_isWordStart {c : Char} (h : isWordStart c = true) : isBlank c = false :=
  Bool.eq_false_iff.2 (fun hb => by rcases isBlank_iff.1 hb with rfl | rfl | rfl | rfl <;> cases h)

theorem ne_quote_of_isDigit {c : Char} (h : c.isDigit = true) : c ≠ '"' := fun hq => by subst hq; cases h

theorem ne_quote_of_isWordStart {c : Char} (h : isWordStart c = true) : c ≠ '"' := fun hq => by subst hq; cases h

theorem isDigit_of_isWordStart {c : Char} (h : isWordStart c = true) : c.isDigit = false := by
  refine Bool.eq_false_iff.2 (fun hd => ?_)
  unfold isWordStart Char.isAlpha Char.isUpper Char.isLower at h
  unfold Char.isDigit at hd
  simp only [Bool.or_eq_true, Bool.and_eq_true, decide_eq_true_eq] at h hd
  obtain ⟨h1, h2⟩ := hd
  rcases h with (⟨h3, h4⟩ | ⟨h3, h4⟩) | rfl
  · exact absurd (UInt32.le_trans h3 h2) (by decide)
  · exact absurd (UInt32.le_trans h3 h2) (by decide)
  · exact absurd h2 (by decide)

namespace Shape

theorem cut_blank {c : Char} (h : isBlank c = true) (cs : List Char) : cut c cs = (blank, 0) := by
  rw [cut, if_pos h]

theorem cut_quote (cs : List Char) : cut '"' cs = cutString cs := by
  rw [cut, if_neg (by decide), if_pos rfl]

theorem cut_digit {c : Char} (h : c.isDigit = true) (cs : List Char) : cut c cs = (number, numberLength cs) := by
  rw [cut, if_neg (by simp [isBlank_of_isDigit h]), if_neg (ne_quote_of_isDigit h), if_pos h]

theorem cut_wordStart {c : Char} (h : isWordStart c = true) (cs : List Char) :
    cut c cs = (word, runLength isWordChar cs) := by
  rw [cut, if_neg (by simp [isBlank_of_isWordStart h]), if_neg (ne_quote_of_isWordStart h),
    if_neg (by simp [isDigit_of_isWordStart h]), if_pos h]

/-- A character that is no blank, quote, digit or letter. -/
def isMark (c : Char) : Bool := !isBlank c && c ≠ '"' && !c.isDigit && !isWordStart c

theorem isMark_iff {c : Char} : isMark c = true ↔
    isBlank c = false ∧ c ≠ '"' ∧ c.isDigit = false ∧ isWordStart c = false := by
  simp only [isMark, Bool.and_eq_true, Bool.not_eq_true', decide_eq_true_eq, and_assoc]

theorem cut_mark {c : Char} (h : isMark c = true) (cs : List Char) : cut c cs = cutMark c cs := by
  obtain ⟨hb, hq, hd, hw⟩ := isMark_iff.1 h
  rw [cut, if_neg (by simp [hb]), if_neg hq, if_neg (by simp [hd]), if_neg (by simp [hw])]

theorem isMark_of_spelling {c : Char} {cs : List Char} {op : Operator} (h : op.spelling = c :: cs) :
    isMark c = true := by
  cases op <;> cases h <;> decide

theorem first_cases (c : Char) :
    isBlank c = true ∨ c = '"' ∨ c.isDigit = true ∨ isWordStart c = true ∨ isMark c = true := by
  by_cases hb : isBlank c = true
  · exact .inl hb
  by_cases hq : c = '"'
  · exact .inr (.inl hq)
  by_cases hd : c.isDigit = true
  · exact .inr (.inr (.inl hd))
  by_cases hw : isWordStart c = true
  · exact .inr (.inr (.inr (.inl hw)))
  · exact .inr (.inr (.inr (.inr (isMark_iff.2 ⟨by simpa using hb, hq, by simpa using hd, by simpa using hw⟩))))

theorem cutMark_comment (cs : List Char) : cutMark '/' ('/' :: cs) = (comment, runLength (· ≠ '\n') ('/' :: cs)) := rfl

theorem cutMark_pair {c : Char} {op : Operator} (h : op.spelling = [c, '=']) (cs : List Char) :
    cutMark c ('=' :: cs) = (operator op, 1) := by
  rw [cutMark, if_neg (by simp), List.head?_cons, if_pos rfl, Operator.withEqual?_eq_some.2 h]

/-- Behind a mark that starts neither a comment nor a longer operator stands a piece of its own. -/
theorem cutMark_alone {c : Char} {cs : List Char} (hs : ¬ (c = '/' ∧ cs.head? = some '/'))
    (he : cs.head? = some '=' → Operator.withEqual? c = none) :
    cutMark c cs = (((Operator.single? c).map operator).getD (bad c), 0) := by
  have hw : (if cs.head? = some '=' then Operator.withEqual? c else none) = none := by
    split
    · exact he ‹_›
    · rfl
  rw [cutMark, if_neg (by simpa using hs), hw]
  cases Operator.single? c <;> rfl

/-! ## Strings and numbers -/

theorem cutString_closed {cs : List Char} (h : '"' ∉ cs) (rest : List Char) :
    cutString (cs ++ '"' :: rest) = (string, cs.length + 1) := by
  unfold cutString
  simp only [runLength_ne_append_cons h, List.drop_left]

theorem cutString_open {cs : List Char} (h : '"' ∉ cs) : cutString cs = (openString, cs.length) := by
  unfold cutString
  simp only [runLength_ne_of_not_mem h, List.drop_length]

theorem numberLength_fraction {ds : List Char} {d : Char} (hds : ∀ x ∈ ds, x.isDigit = true) (hd : d.isDigit = true)
    (rest : List Char) : numberLength (ds ++ '.' :: d :: rest) = ds.length + 2 + runLength Char.isDigit rest := by
  have hrun : runLength Char.isDigit (ds ++ '.' :: d :: rest) = ds.length :=
    runLength_append hds (fun b hb => by obtain rfl : '.' = b := by simpa using hb
                                         rfl)
  unfold numberLength
  simp only [hrun, List.drop_left, hd, if_true]

/-- Digits make a number by themselves, unless a point with a digit behind follows. -/
theorem numberLength_whole {ds rest : List Char} (hds : ∀ x ∈ ds, x.isDigit = true)
    (hrest : ∀ b, rest.head? = some b → b.isDigit = false)
    (hpoint : ∀ d tail, rest = '.' :: d :: tail → d.isDigit = false) : numberLength (ds ++ rest) = ds.length := by
  unfold numberLength
  simp only [runLength_append hds hrest, List.drop_left]
  split
  · rename_i d tail
    simp [hpoint d tail rfl]
  · rfl

theorem runLength_le_numberLength (cs : List Char) : runLength Char.isDigit cs ≤ numberLength cs := by
  unfold numberLength
  simp only
  split
  · split <;> omega
  · exact Nat.le_refl _

/-! ## What can be cut -/

/-- How many of `cs` are cut off behind `c`, with which shape, and what it is that stops there. -/
inductive Cuts : Char → List Char → Shape → Nat → Prop
  | blank {c : Char} {cs : List Char} (hc : isBlank c = true) : Cuts c cs blank 0
  | comment {xs rest : List Char} (hxs : '\n' ∉ xs) (hrest : ∀ b, rest.head? = some b → b = '\n') :
      Cuts '/' ('/' :: (xs ++ rest)) comment (xs.length + 1)
  | pair {c : Char} {rest : List Char} {op : Operator} (hop : op.spelling = [c, '=']) :
      Cuts c ('=' :: rest) (operator op) 1
  | alone {c : Char} {cs : List Char} {op : Operator} (hop : op.spelling = [c])
      (hslash : ¬ (c = '/' ∧ cs.head? = some '/')) (hequal : cs.head? = some '=' → Operator.withEqual? c = none) :
      Cuts c cs (operator op) 0
  | string {xs rest : List Char} (hxs : '"' ∉ xs) : Cuts '"' (xs ++ '"' :: rest) string (xs.length + 1)
  | openString {xs : List Char} (hxs : '"' ∉ xs) : Cuts '"' xs openString xs.length
  | whole {c : Char} {ds rest : List Char} (hc : c.isDigit = true) (hds : ∀ d ∈ ds, d.isDigit = true)
      (hrest : ∀ b, rest.head? = some b → b.isDigit = false)
      (hpoint : ∀ d tail, rest = '.' :: d :: tail → d.isDigit = false) : Cuts c (ds ++ rest) number ds.length
  | fraction {c d : Char} {ds fs rest : List Char} (hc : c.isDigit = true) (hds : ∀ x ∈ ds, x.isDigit = true)
      (hd : d.isDigit = true) (hfs : ∀ x ∈ fs, x.isDigit = true)
      (hrest : ∀ b, rest.head? = some b → b.isDigit = false) :
      Cuts c (ds ++ '.' :: d :: (fs ++ rest)) number (ds.length + 2 + fs.length)
  | word {c : Char} {xs rest : List Char} (hc : isWordStart c = true) (hxs : ∀ x ∈ xs, isWordChar x = true)
      (hrest : ∀ b, rest.head? = some b → isWordChar b = false) : Cuts c (xs ++ rest) word xs.length
  | bad {c : Char} {cs : List Char} (hc : isMark c = true) (hop : Operator.single? c = none)
      (hslash : ¬ (c = '/' ∧ cs.head? = some '/')) (hequal : cs.head? = some '=' → Operator.withEqual? c = none) :
      Cuts c cs (bad c) 0

theorem Cuts.cut_eq {c : Char} {cs : List Char} {s : Shape} {n : Nat} (h : Cuts c cs s n) : cut c cs = (s, n) := by
  cases h with
  | blank hc => exact cut_blank hc cs
  | @comment xs rest hxs hrest =>
    have hrun : runLength (· ≠ '\n') (('/' :: xs) ++ rest) = xs.length + 1 :=
      runLength_append (decide_ne_of_not_mem (by simp [hxs])) (fun b hb => by simp [hrest b hb])
    rw [cut_mark (by decide), cutMark_comment]
    exact congrArg (Prod.mk Shape.comment) hrun
  | pair hop => rw [cut_mark (isMark_of_spelling hop), cutMark_pair hop]
  | alone hop hslash hequal =>
    rw [cut_mark (isMark_of_spelling hop), cutMark_alone hslash hequal, Operator.single?_eq_some.2 hop]
    rfl
  | string hxs => rw [cut_quote, cutString_closed hxs]
  | openString hxs => rw [cut_quote, cutString_open hxs]
  | whole hc hds hrest hpoint => rw [cut_digit hc, numberLength_whole hds hrest hpoint]
  | fraction hc hds hd hfs hrest => rw [cut_digit hc, numberLength_fraction hds hd, runLength_append hfs hrest]
  | word hc hxs hrest => rw [cut_wordStart hc, runLength_append hxs hrest]
  | bad hc hop hslash hequal =>
    rw [cut_mark hc, cutMark_alone hslash hequal, hop]
    rfl

theorem exists_cuts_digit {c : Char} (hc : c.isDigit = true) (cs : List Char) : ∃ s n, Cuts c cs s n := by
  obtain ⟨ds, rest, rfl, hds, hrest⟩ := exists_run Char.isDigit cs
  by_cases hpoint : ∀ d tail, rest = '.' :: d :: tail → d.isDigit = false
  · exact ⟨_, _, .whole hc hds hrest hpoint⟩
  · obtain ⟨d, hpoint⟩ := Classical.not_forall.1 hpoint
    obtain ⟨tail, hpoint⟩ := Classical.not_forall.1 hpoint
    obtain ⟨rfl, hd⟩ := Classical.not_imp.1 hpoint
    obtain ⟨fs, tail, rfl, hfs, htail⟩ := exists_run Char.isDigit tail
    exact ⟨_, _, .fraction hc hds (by simpa using hd) hfs htail⟩

theorem exists_cuts_mark {c : Char} (hc : isMark c = true) (cs : List Char) : ∃ s n, Cuts c cs s n := by
  by_cases hslash : c = '/' ∧ cs.head? = some '/'
  · obtain ⟨rfl, hcs⟩ := hslash
    obtain ⟨rest, rfl⟩ := List.head?_eq_some_iff.1 hcs
    obtain ⟨xs, rest, rfl, hxs, hrest⟩ := exists_run (· ≠ '\n') rest
    exact ⟨_, _, .comment (fun hn => by simpa using hxs _ hn) (fun b hb => by simpa using hrest b hb)⟩
  by_cases hequal : cs.head? = some '=' → Operator.withEqual? c = none
  · cases hop : Operator.single? c with
    | none => exact ⟨_, _, .bad hc hop hslash hequal⟩
    | some op => exact ⟨_, _, .alone (Operator.single?_eq_some.1 hop) hslash hequal⟩
  · obtain ⟨hcs, hop⟩ := Classical.not_imp.1 hequal
    obtain ⟨rest, rfl⟩ := List.head?_eq_some_iff.1 hcs
    obtain ⟨op, hop⟩ := Option.ne_none_iff_exists'.1 hop
    exact ⟨_, _, .pair (Operator.withEqual?_eq_some.1 hop)⟩

theorem exists_cuts (c : Char) (cs : List Char) : ∃ s n, Cuts c cs s n := by
  rcases first_cases c with hc | rfl | hc | hc | hc
  · exact ⟨_, _, .blank hc⟩
  · by_cases hq : '"' ∈ cs
    · obtain ⟨xs, rest, rfl, hxs⟩ := List.eq_append_cons_of_mem hq
      exact ⟨_, _, .string hxs⟩
    · exact ⟨_, _, .openString hq⟩
  · exact exists_cuts_digit hc cs
  · obtain ⟨xs, rest, rfl, hxs, hrest⟩ := exists_run isWordChar cs
    exact ⟨_, _, .word hc hxs hrest⟩
  · exact exists_cuts_mark hc cs

theorem cuts_cut (c : Char) (cs : List Char) : Cuts c cs (cut c cs).1 (cut c cs).2 := by
  obtain ⟨s, n, h⟩ := exists_cuts c cs
  rwa [h.cut_eq]

theorem Cuts.le_length {c : Char} {cs : List Char} {s : Shape} {n : Nat} (h : Cuts c cs s n) : n ≤ cs.length := by
  cases h with
  | blank _ => exact Nat.zero_le _
  | alone _ _ _ => exact Nat.zero_le _
  | bad _ _ _ _ => exact Nat.zero_le _
  | openString _ => exact Nat.le_refl _
  | _ => simp only [List.length_append, List.length_cons]; omega

theorem cut_le (c : Char) (cs : List Char) : (cut c cs).2 ≤ cs.length := (cuts_cut c cs).le_length

theorem cut_openString {c : Char} {cs : List Char} (h : (cut c cs).1 = openString) : (cut c cs).2 = cs.length := by
  have hcuts := cuts_cut c cs
  rw [h] at hcuts
  generalize (cut c cs).2 = n at hcuts
  cases hcuts
  rfl

/-! ## What may stand behind a cut -/

theorem isDigit_of_isBlank {b : Char} (h : isBlank b = true) : b.isDigit = false :=
  Bool.eq_false_iff.2 (fun hd => by rw [isBlank_of_isDigit hd] at h; cases h)

theorem isWordChar_of_isBlank {b : Char} (h : isBlank b = true) : isWordChar b = false := by
  rcases isBlank_iff.1 h with rfl | rfl | rfl | rfl <;> decide

/-- Looking at most `n` characters ahead, and no further than a blank or the end, `seen` shows nothing but what stands
in `rest`. -/
inductive NothingNew : Nat → List Char → List Char → Prop
  | zero {rest seen : List Char} : NothingNew 0 rest seen
  | nil {n : Nat} {rest : List Char} : NothingNew n rest []
  | blank {n : Nat} {b : Char} {rest seen : List Char} (hb : isBlank b = true) : NothingNew n rest (b :: seen)
  | cons {n : Nat} {a : Char} {rest seen : List Char} (h : NothingNew n rest seen) :
      NothingNew (n + 1) (a :: rest) (a :: seen)

namespace NothingNew

theorem append_blank {b : Char} (hb : isBlank b = true) (more : List Char) : ∀ (n : Nat) (rest : List Char),
    NothingNew n rest (rest ++ b :: more)
  | 0, _ => .zero
  | _ + 1, [] => .blank hb
  | n + 1, _ :: rest => .cons (append_blank hb more n rest)

variable {n : Nat} {rest seen : List Char}

theorem head? (h : NothingNew (n + 1) rest seen) {a : Char} (ha : isBlank a = false) (hs : seen.head? = some a) :
    rest.head? = some a := by
  cases h with
  | nil => cases hs
  | blank hb =>
    obtain rfl := Option.some.inj hs
    rw [hb] at ha
    cases ha
  | cons _ => exact hs

theorem forall_head (h : NothingNew (n + 1) rest seen) {P : Char → Prop} (hblank : ∀ b, isBlank b = true → P b)
    (hrest : ∀ a, rest.head? = some a → P a) : ∀ a, seen.head? = some a → P a := by
  intro a ha
  cases hb : isBlank a with
  | true => exact hblank a hb
  | false => exact hrest a (h.head? hb ha)

theorem point (h : NothingNew 2 rest seen) (hrest : ∀ d tail, rest = '.' :: d :: tail → d.isDigit = false) :
    ∀ d tail, seen = '.' :: d :: tail → d.isDigit = false := by
  rintro d tail rfl
  cases h with
  | blank hb => cases hb
  | @cons _ _ rest _ h =>
    refine h.forall_head (P := fun d => d.isDigit = false) (fun b hb => isDigit_of_isBlank hb) (fun a ha => ?_) d rfl
    obtain ⟨tail, rfl⟩ := List.head?_eq_some_iff.1 ha
    exact hrest a tail rfl

end NothingNew

/-- A cut stays what it is where nothing new is seen behind it. -/
theorem Cuts.of_nothingNew {c : Char} {cs seen : List Char} {s : Shape} {n : Nat} (h : Cuts c cs s n)
    (hseen : NothingNew 2 (cs.drop n) seen) (hopen : s = .openString → seen = [])
    (hcomment : s = .comment → ∀ b, seen.head? = some b → b = '\n') : Cuts c (cs.take n ++ seen) s n := by
  cases h with
  | blank hc => exact .blank hc
  | comment hxs _ =>
    rw [List.take_succ_cons, List.take_left]
    exact .comment hxs (hcomment rfl)
  | pair hop => exact .pair hop
  | alone hop hslash hequal =>
    exact .alone hop (fun hs => hslash ⟨hs.1, hseen.head? rfl hs.2⟩) (fun he => hequal (hseen.head? rfl he))
  | string hxs =>
    rw [List.take_length_add_append, List.append_assoc]
    exact .string hxs
  | openString hxs =>
    rw [hopen rfl, List.take_length, List.append_nil]
    exact .openString hxs
  | whole hc hds hrest hpoint =>
    rw [List.drop_left] at hseen
    rw [List.take_left]
    exact .whole hc hds (hseen.forall_head (fun b hb => isDigit_of_isBlank hb) hrest) (hseen.point hpoint)
  | @fraction c d ds fs rest hc hds hd hfs hrest =>
    have hfront : ds ++ '.' :: d :: (fs ++ rest) = (ds ++ '.' :: d :: fs) ++ rest := by simp
    have hlen : ds.length + 2 + fs.length = (ds ++ '.' :: d :: fs).length := by
      simp only [List.length_append, List.length_cons]; omega
    rw [hfront, hlen, List.drop_left] at hseen
    rw [hfront, hlen, List.take_left, ← hlen, List.append_assoc]
    exact .fraction hc hds hd hfs (hseen.forall_head (fun b hb => isDigit_of_isBlank hb) hrest)
  | word hc hxs hrest =>
    rw [List.drop_left] at hseen
    rw [List.take_left]
    exact .word hc hxs (hseen.forall_head (fun b hb => isWordChar_of_isBlank hb) hrest)
  | bad hc hop hslash hequal =>
    exact .bad hc hop (fun hs => hslash ⟨hs.1, hseen.head? rfl hs.2⟩) (fun he => hequal (hseen.head? rfl he))

theorem cut_of_nothingNew {c : Char} {cs seen : List Char} (hseen : NothingNew 2 (cs.drop (cut c cs).2) seen)
    (hopen : (cut c cs).1 = .openString → seen = [])
    (hcomment : (cut c cs).1 = .comment → ∀ b, seen.head? = some b → b = '\n') :
    cut c (cs.take (cut c cs).2 ++ seen) = cut c cs :=
  ((cuts_cut c cs).of_nothingNew hseen hopen hcomment).cut_eq

/-- A comment stops at a line feed or at the end. -/
theorem head?_drop_of_comment {c : Char} {cs : List Char} (h : (cut c cs).1 = comment) :
    ∀ b, (cs.drop (cut c cs).2).head? = some b → b = '\n' := by
  have hcuts := cuts_cut c cs
  rw [h] at hcuts
  generalize (cut c cs).2 = n at hcuts
  cases hcuts with
  | comment _ hrest =>
    rw [List.drop_succ_cons, List.drop_left]
    exact hrest

/-- **A blank behind a text does not change the cut**, unless a quote is open or a comment goes on. -/
theorem cut_append_blank {c b : Char} {cs : List Char} (hb : isBlank b = true) (hopen : (cut c cs).1 ≠ openString)
    (hcomment : (cut c cs).1 = comment → b = '\n') (rest : List Char) : cut c (cs ++ b :: rest) = cut c cs := by
  have hcut := cut_of_nothingNew (NothingNew.append_blank hb rest 2 (cs.drop (cut c cs).2))
    (fun h => absurd h hopen) (fun h a ha => ?_)
  · rwa [← List.append_assoc, List.take_append_drop] at hcut
  · rw [List.head?_append] at ha
    cases hstop : (cs.drop (cut c cs).2).head? with
    | none =>
      rw [hstop] at ha
      obtain rfl := Option.some.inj ha
      exact hcomment h
    | some a' =>
      rw [hstop] at ha
      obtain rfl := Option.some.inj ha
      exact head?_drop_of_comment h _ hstop

end Shape
end LoxLexer
