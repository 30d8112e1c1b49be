/-!
# Texts made of parts

A line that a program prints has its values between fixed texts.  What such a text says can be taken from it again
where each value says where it ends: at the first character that it cannot hold (`append_cons_inj`,
`append_separator_inj`), as a number does at whatever is no digit (`not_mem_toString`), or, the other way round, where
the endings that may follow it cannot be taken for each other (`append_ending_inj`).
-/
namespace LoxLexer

/-! ## Separators -/

/-- What stands before the first separator is determined, and so is what stands behind it. -/
theorem append_cons_inj {α : Type u} {a : α} : ∀ {xs ys us vs : List α}, a ∉ xs → a ∉ ys →
    xs ++ a :: us = ys ++ a :: vs → xs = ys ∧ us = vs
  | [], [], _, _, _, _, h => ⟨rfl, (List.cons.inj h).2⟩
  | [], _ :: _, _, _, _, hys, h => absurd (List.cons.inj h).1 (List.ne_of_not_mem_cons hys)
  | _ :: _, [], _, _, hxs, _, h => absurd (List.cons.inj h).1.symm (List.ne_of_not_mem_cons hxs)
  | x :: xs, y :: ys, _, _, hxs, hys, h => by
    obtain ⟨hxy, h⟩ := List.cons.inj h
    obtain ⟨hxs, hus⟩ := append_cons_inj (List.not_mem_of_not_mem_cons hxs) (List.not_mem_of_not_mem_cons hys) h
    exact ⟨by rw [hxy, hxs], hus⟩

/-- What stands before the first `a` of a separator is determined, and so is what stands behind the separator. -/
theorem append_separator_inj {a : Char} {separator s s' t t' : String} (ha : separator.toList.head? = some a)
    (hs : a ∉ s.toList) (hs' : a ∉ s'.toList) (h : s ++ separator ++ t = s' ++ separator ++ t') : s = s' ∧ t = t' := by
  obtain ⟨rest, hseparator⟩ := List.head?_eq_some_iff.1 ha
  have h := congrArg String.toList h
  simp only [String.toList_append, List.append_assoc, hseparator, List.cons_append] at h
  obtain ⟨hs, hrest⟩ := append_cons_inj hs hs' h
  exact ⟨String.toList_inj.1 hs, String.toList_inj.1 (List.append_cancel_left hrest)⟩

/-- An ending is determined, and so is what stands before it, if neither ending ends the other. -/
theorem append_ending_inj {s s' t t' : String} (ht : t.toList <:+ t'.toList → t = t')
    (ht' : t'.toList <:+ t.toList → t' = t) (h : s ++ t = s' ++ t') : s = s' ∧ t = t' := by
  have hlists := congrArg String.toList h
  rw [String.toList_append, String.toList_append] at hlists
  have hend : t = t' := by
    -- both end one text, so one of them ends the other
    have hends : t.toList <:+ s'.toList ++ t'.toList := ⟨s.toList, hlists⟩
    rcases List.suffix_or_suffix_of_suffix hends (List.suffix_append _ _) with hsuffix | hsuffix
    · exact ht hsuffix
    · exact (ht' hsuffix).symm
  subst hend
  exact ⟨String.toList_inj.1 (List.append_cancel_right hlists), rfl⟩

/-! ## Numbers -/

theorem toList_toString (n : Nat) : (toString n).toList = Nat.toDigits 10 n := Nat.toList_repr

theorem not_mem_toDigits {a : Char} (ha : a.isDigit = false) (n : Nat) : a ∉ Nat.toDigits 10 n := by
  intro hn
  rw [Nat.isDigit_of_mem_toDigits (by decide) (by decide) hn] at ha
  cases ha

theorem not_mem_toString {a : Char} (ha : a.isDigit = false) (n : Nat) : a ∉ (toString n).toList := by
  rw [toList_toString]
  exact not_mem_toDigits ha n

theorem toString_injective {m n : Nat} (h : (toString m).toList = (toString n).toList) : m = n := by
  rw [toList_toString, toList_toString] at h
  have hread := congrArg (Nat.ofDigitChars 10 · 0) h
  simpa using hread

end LoxLexer
