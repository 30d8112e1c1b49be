import LoxLexer.Proofs.Cut
/-!
# The lexical grammar

Which characters have which shape (`Shape.Matches`), said without looking at what follows them, and the longest
matching prefix of a text (`FirstUnit`).  Main statement: `firstUnit_iff`, the cut takes exactly that prefix.
-/
namespace LoxLexer
namespace Shape

/-- The characters of each shape.  A bad character is what has none of these in front. -/
inductive Matches : Shape → List Char → Prop
  | blank {c : Char} (h : c = ' ' ∨ c = '\t' ∨ c = '\r' ∨ c = '\n') : Matches blank [c]
  | comment {cs : List Char} (h : '\n' ∉ cs) : Matches comment ('/' :: '/' :: cs)
  | operator (op : Operator) : Matches (operator op) op.spelling
  | string {cs : List Char} (h : '"' ∉ cs) : Matches string ('"' :: (cs ++ ['"']))
  | openString {cs : List Char} (h : '"' ∉ cs) : Matches openString ('"' :: cs)
  | whole {ds : List Char} (hne : ds ≠ []) (h : ∀ d ∈ ds, d.isDigit = true) : Matches number ds
  | fraction {ds fs : List Char} (hds : ds ≠ []) (h : ∀ d ∈ ds, d.isDigit = true) (hfs : fs ≠ [])
      (hf : ∀ d ∈ fs, d.isDigit = true) : Matches number (ds ++ '.' :: fs)
  | word {c : Char} {cs : List Char} (hc : c.isAlpha = true ∨ c = '_')
      (h : ∀ x ∈ cs, x.isAlphanum = true ∨ x = '_') : Matches word (c :: cs)

theorem Matches.ne_nil {s : Shape} {cs : List Char} (h : Matches s cs) : cs ≠ [] := by
  cases h with
  | operator op => rcases op.spelling_cases with ⟨c, h⟩ | ⟨c, h⟩ <;> simp [h]
  | whole hne _ => exact hne
  | fraction hds _ _ _ => simp
  | _ => simp

theorem matches_string_iff {cs : List Char} :
    Matches string cs ↔ ∃ contents, '"' ∉ contents ∧ cs = '"' :: (contents ++ ['"']) := by
  constructor
  · rintro ⟨⟩
    exact ⟨_, ‹_›, rfl⟩
  · rintro ⟨contents, h, rfl⟩
    exact .string h

theorem digit_or_point_of_matches {cs : List Char} (h : Matches number cs) : ∀ c ∈ cs, c.isDigit = true ∨ c = '.' := by
  intro c hc
  cases h with
  | whole _ h => exact .inl (h c hc)
  | fraction _ h _ hf =>
    rcases List.mem_append.1 hc with hc | hc
    · exact .inl (h c hc)
    · rcases List.mem_cons.1 hc with hc | hc
      · exact .inr hc
      · exact .inl (hf c hc)

theorem newline_not_mem_of_matches_number {cs : List Char} (h : Matches number cs) : '\n' ∉ cs :=
  fun hn => absurd (digit_or_point_of_matches h _ hn) (by decide)

theorem isWordStart_iff {c : Char} : isWordStart c = true ↔ c.isAlpha = true ∨ c = '_' := by simp [isWordStart]

theorem isWordChar_iff {c : Char} : isWordChar c = true ↔ c.isAlphanum = true ∨ c = '_' := by simp [isWordChar]

theorem isWordChar_of_matches {cs : List Char} (h : Matches word cs) : ∀ c ∈ cs, isWordChar c = true := by
  intro c hc
  cases h with
  | word hstart hrest =>
    rcases List.mem_cons.1 hc with rfl | hc
    · exact isWordChar_iff.2 (hstart.imp_left (fun ha => by rw [Char.isAlphanum, ha, Bool.true_or]))
    · exact isWordChar_iff.2 (hrest c hc)

/-! ## What is cut has its shape -/

/-- **What is cut has its shape**, unless it is a bad character. -/
theorem Cuts.matches_front {c : Char} {cs : List Char} {s : Shape} {n : Nat} (h : Cuts c cs s n)
    (hbad : ∀ b, s ≠ .bad b) : Matches s (c :: cs.take n) := by
  cases h with
  | blank hc =>
    rw [List.take_zero]
    exact .blank (isBlank_iff.1 hc)
  | comment hxs _ =>
    rw [List.take_succ_cons, List.take_left]
    exact .comment hxs
  | pair hop =>
    rw [List.take_succ_cons, List.take_zero, ← hop]
    exact .operator _
  | alone hop _ _ =>
    rw [List.take_zero, ← hop]
    exact .operator _
  | string hxs =>
    rw [List.take_length_add_append]
    exact .string hxs
  | openString hxs =>
    rw [List.take_length]
    exact .openString hxs
  | whole hc hds _ _ =>
    rw [List.take_left]
    exact .whole (List.cons_ne_nil _ _) (List.forall_mem_cons.2 ⟨hc, hds⟩)
  | fraction hc hds hd hfs _ =>
    rw [Nat.add_assoc, List.take_length_add_append, Nat.add_comm 2, List.take_succ_cons, List.take_succ_cons,
      List.take_left]
    exact .fraction (List.cons_ne_nil _ _) (List.forall_mem_cons.2 ⟨hc, hds⟩) (List.cons_ne_nil _ _)
      (List.forall_mem_cons.2 ⟨hd, hfs⟩)
  | word hc hxs _ =>
    rw [List.take_left]
    exact .word (isWordStart_iff.1 hc) (fun x hx => isWordChar_iff.1 (hxs x hx))
  | bad _ _ _ _ => exact absurd rfl (hbad _)

theorem matches_cut {c : Char} {cs : List Char} (h : ∀ b, (cut c cs).1 ≠ bad b) :
    Matches (cut c cs).1 (c :: cs.take (cut c cs).2) := (cuts_cut c cs).matches_front h

theorem cut_eq_bad {c b : Char} {cs : List Char} (h : (cut c cs).1 = bad b) :
    cut c cs = (bad c, 0) ∧ Operator.single? c = none := by
  have hcuts := cuts_cut c cs
  rw [h] at hcuts
  generalize (cut c cs).2 = n at hcuts
  cases hcuts with
  | bad hc hop hslash hequal => exact ⟨Cuts.cut_eq (.bad hc hop hslash hequal), hop⟩

/-! ## No matching prefix is longer than the cut -/

theorem length_le_numberLength {ds : List Char} (h : ∀ d ∈ ds, d.isDigit = true) (rest : List Char) :
    ds.length ≤ numberLength (ds ++ rest) :=
  Nat.le_trans (le_runLength_append h rest) (runLength_le_numberLength _)

/-- A prefix of a text that has a shape keeps its first character from being bad and lies inside the cut, and where
nothing follows it the cut has its shape. -/
theorem cut_of_matches_append {s : Shape} {c : Char} {cs : List Char} (h : Matches s (c :: cs)) (rest : List Char) :
    (∀ b, (cut c (cs ++ rest)).1 ≠ bad b) ∧ cs.length ≤ (cut c (cs ++ rest)).2 ∧
      (rest = [] → (cut c (cs ++ rest)).1 = s) := by
  generalize hfront : c :: cs = front at h
  cases h with
  | blank hb =>
    obtain ⟨rfl, rfl⟩ := List.cons.inj hfront
    rw [cut_blank (isBlank_iff.2 hb)]
    exact ⟨by simp, Nat.le_refl _, fun _ => rfl⟩
  | comment hn =>
    obtain ⟨rfl, rfl⟩ := List.cons.inj hfront
    rw [cut_mark (by decide), List.cons_append, cutMark_comment]
    exact ⟨by simp, le_runLength_append (decide_ne_of_not_mem (by simp [hn])) rest, fun _ => rfl⟩
  | operator op =>
    rcases op.spelling_cases with ⟨c', hop⟩ | ⟨c', hop⟩
    -- a single character may be cut with more, but `single?` still knows it
    · obtain ⟨rfl, rfl⟩ := List.cons.inj (hfront.trans hop)
      have hsingle := Operator.single?_eq_some.2 hop
      refine ⟨fun b hb => ?_, Nat.zero_le _, ?_⟩
      · rw [(cut_eq_bad hb).2] at hsingle
        cases hsingle
      · rintro rfl
        rw [List.append_nil, cut_mark (isMark_of_spelling hop), cutMark_alone (by simp) (by simp), hsingle]
        rfl
    · obtain ⟨rfl, rfl⟩ := List.cons.inj (hfront.trans hop)
      rw [cut_mark (isMark_of_spelling hop), List.cons_append, cutMark_pair hop]
      exact ⟨by simp, Nat.le_refl _, fun _ => rfl⟩
  | string hq =>
    obtain ⟨rfl, rfl⟩ := List.cons.inj hfront
    rw [cut_quote, List.append_assoc, List.singleton_append, cutString_closed hq]
    exact ⟨by simp, by simp, fun _ => rfl⟩
  | openString hq =>
    obtain ⟨rfl, rfl⟩ := List.cons.inj hfront
    rw [cut_quote]
    -- what follows may close the quote
    by_cases hr : '"' ∈ rest
    · obtain ⟨xs, tail, rfl, hxs⟩ := List.eq_append_cons_of_mem hr
      rw [← List.append_assoc, cutString_closed (by simp [hq, hxs])]
      exact ⟨by simp, by simp only [List.length_append]; omega, by simp⟩
    · rw [cutString_open (by simp [hq, hr])]
      exact ⟨by simp, by simp, fun _ => rfl⟩
  | whole hne hd =>
    subst hfront
    rw [cut_digit (hd c List.mem_cons_self)]
    exact ⟨by simp, length_le_numberLength (fun d h => hd d (List.mem_cons_of_mem c h)) rest, fun _ => rfl⟩
  | @fraction ds fs hds hd hfs hf =>
    obtain ⟨d', ds, rfl⟩ := List.exists_cons_of_ne_nil hds
    obtain ⟨f, fs, rfl⟩ := List.exists_cons_of_ne_nil hfs
    rw [List.cons_append] at hfront
    obtain ⟨rfl, rfl⟩ := List.cons.inj hfront
    obtain ⟨hc, hd⟩ := List.forall_mem_cons.1 hd
    obtain ⟨hf1, hf⟩ := List.forall_mem_cons.1 hf
    rw [cut_digit hc, List.append_assoc, List.cons_append, List.cons_append, numberLength_fraction hd hf1]
    have := le_runLength_append hf rest
    exact ⟨by simp, by simp only [List.length_append, List.length_cons]; omega, fun _ => rfl⟩
  | word hc hw =>
    obtain ⟨rfl, rfl⟩ := List.cons.inj hfront
    rw [cut_wordStart (isWordStart_iff.2 hc)]
    exact ⟨by simp, le_runLength_append (fun x hx => isWordChar_iff.2 (hw x hx)) rest, fun _ => rfl⟩

/-- **Characters that have a shape are cut whole**, with that shape, where they stand alone. -/
theorem cut_of_matches {s : Shape} {c : Char} {cs : List Char} (h : Matches s (c :: cs)) :
    cut c cs = (s, cs.length) := by
  obtain ⟨-, hle, hshape⟩ := cut_of_matches_append h []
  rw [List.append_nil] at hle hshape
  exact Prod.ext (hshape rfl) (Nat.le_antisymm (cut_le c cs) hle)

theorem Matches.unique {s s' : Shape} {cs : List Char} (h : Matches s cs) (h' : Matches s' cs) : s = s' := by
  cases cs with
  | nil => exact absurd rfl h.ne_nil
  | cons c cs => exact congrArg Prod.fst ((cut_of_matches h).symm.trans (cut_of_matches h'))

end Shape

/-! ## The first unit of a text -/

/-- A prefix of the text that has the shape, and no shorter than any other prefix that has one. -/
structure LongestMatch (text : List Char) (shape : Shape) (front : List Char) : Prop where
  isFront : front <+: text
  matches_front : shape.Matches front
  longest : ∀ other more, Shape.Matches other more → more <+: text → more.length ≤ front.length

/-- What maximal munch takes off the front of a text: the longest match, or a single bad character where nothing
matches. -/
inductive FirstUnit : List Char → Shape → List Char → Prop
  | longest {text : List Char} {shape : Shape} {front : List Char} (h : LongestMatch text shape front) :
      FirstUnit text shape front
  | bad {c : Char} {cs : List Char} (h : ∀ shape front, Shape.Matches shape front → ¬ front <+: c :: cs) :
      FirstUnit (c :: cs) (.bad c) [c]

theorem firstUnit_cut (c : Char) (cs : List Char) :
    FirstUnit (c :: cs) (Shape.cut c cs).1 (c :: cs.take (Shape.cut c cs).2) := by
  by_cases hbad : ∃ b, (Shape.cut c cs).1 = .bad b
  · obtain ⟨b, hb⟩ := hbad
    rw [(Shape.cut_eq_bad hb).1, List.take_zero]
    refine .bad (fun shape front hm hfront => ?_)
    obtain ⟨d, ds, rfl⟩ := List.exists_cons_of_ne_nil hm.ne_nil
    obtain ⟨rest, hrest⟩ := hfront
    obtain ⟨rfl, rfl⟩ := List.cons.inj hrest
    exact (Shape.cut_of_matches_append hm rest).1 b hb
  · refine .longest ⟨?_, Shape.matches_cut (fun b hb => hbad ⟨b, hb⟩), fun shape front hm hfront => ?_⟩
    · exact (List.prefix_cons_inj c).2 (List.take_prefix _ cs)
    · obtain ⟨d, ds, rfl⟩ := List.exists_cons_of_ne_nil hm.ne_nil
      obtain ⟨rest, hrest⟩ := hfront
      rw [List.cons_append] at hrest
      obtain ⟨rfl, rfl⟩ := List.cons.inj hrest
      have hcut := (Shape.cut_of_matches_append hm rest).2.1
      simp only [List.length_cons, List.length_take, List.length_append]
      omega

theorem FirstUnit.unique {text front front' : List Char} {shape shape' : Shape} (h : FirstUnit text shape front)
    (h' : FirstUnit text shape' front') : shape = shape' ∧ front = front' := by
  cases h with
  | longest h =>
    cases h' with
    | longest h' =>
      have hlen : front.length = front'.length :=
        Nat.le_antisymm (h'.longest _ _ h.matches_front h.isFront) (h.longest _ _ h'.matches_front h'.isFront)
      have hprefix : front <+: front' := List.prefix_of_prefix_length_le h.isFront h'.isFront (Nat.le_of_eq hlen)
      have heq : front = front' := hprefix.eq_of_length hlen
      subst heq
      exact ⟨h.matches_front.unique h'.matches_front, rfl⟩
    | bad h' => exact absurd h.isFront (h' _ _ h.matches_front)
  | bad h =>
    cases h' with
    | longest h' => exact absurd h'.isFront (h _ _ h'.matches_front)
    | bad _ => exact ⟨rfl, rfl⟩

/-- **The cut takes what maximal munch takes.** -/
theorem firstUnit_iff {c : Char} {cs : List Char} {shape : Shape} {front : List Char} :
    FirstUnit (c :: cs) shape front ↔
      shape = (Shape.cut c cs).1 ∧ front = c :: cs.take (Shape.cut c cs).2 := by
  constructor
  · intro h
    exact h.unique (firstUnit_cut c cs)
  · rintro ⟨rfl, rfl⟩
    exact firstUnit_cut c cs

end LoxLexer
