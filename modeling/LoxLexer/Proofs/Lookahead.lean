import Mathlib.Data.List.Basic
import LoxLexer.Proofs.LineNumbers
/-!
# Lookahead

A cut looks at what it takes and at two characters behind it (`Shape.cut_of_take_eq`).  So two texts that begin alike
have the same pieces up to two characters before they part (`exists_common`), and what these come to is the same.

Main statement: `scan_of_take_eq`.
-/
namespace LoxLexer
namespace Shape

/-! ## How far a cut looks -/

theorem NothingNew.of_take_eq : ∀ {n : Nat} {rest seen : List Char}, rest.take n = seen.take n → NothingNew n rest seen
  | 0, _, _, _ => .zero
  | _ + 1, _, [], _ => .nil
  | _ + 1, [], _ :: _, h => by cases h
  | _ + 1, _ :: _, _ :: _, h => by
    rw [List.take_succ_cons, List.take_succ_cons] at h
    obtain ⟨rfl, htail⟩ := List.cons.inj h
    exact .cons (of_take_eq htail)

theorem take_drop_eq {cs cs' : List Char} {m n k : Nat} (h : cs.take n = cs'.take n) (hle : m + k ≤ n) :
    (cs.drop m).take k = (cs'.drop m).take k := by
  have hdrop := congrArg (fun l => (l.drop m).take k) h
  simp only [List.drop_take, List.take_take] at hdrop
  rwa [Nat.min_eq_left (by omega)] at hdrop

theorem take_eq_of_le {cs cs' : List Char} {m n : Nat} (h : cs.take n = cs'.take n) (hle : m ≤ n) :
    cs.take m = cs'.take m := take_drop_eq (m := 0) h (by omega)

/-- **A cut sees no more than two characters behind what it takes.** -/
theorem cut_of_take_eq {c : Char} {cs cs' : List Char} {n : Nat} (h : cs.take n = cs'.take n)
    (hn : (cut c cs).2 + 2 ≤ n) : cut c cs' = cut c cs := by
  have hfront : cs'.take (cut c cs).2 = cs.take (cut c cs).2 := (take_eq_of_le h (by omega)).symm
  have hrest : (cs.drop (cut c cs).2).take 2 = (cs'.drop (cut c cs).2).take 2 := take_drop_eq h hn
  rw [← List.take_append_drop (cut c cs).2 cs', hfront]
  refine cut_of_nothingNew (.of_take_eq hrest) (fun hopen => ?_) (fun hcomment b hb => ?_)
  · rw [cut_openString hopen, List.drop_length, List.take_nil] at hrest
    rw [cut_openString hopen]
    rcases List.take_eq_nil_iff.1 hrest.symm with h2 | hnil
    · cases h2
    · exact hnil
  · have hhead := congrArg List.head? hrest
    rw [List.head?_take, List.head?_take, if_neg (by decide), if_neg (by decide)] at hhead
    exact head?_drop_of_comment hcomment b (hhead.trans hb)

end Shape

/-! ## Pieces of texts that begin alike -/

/-- No piece stops before the first one. -/
theorem first_stop_le {place : Place} {c : Char} {cs : List Char} {p : Piece} (hp : p ∈ piecesFrom place (c :: cs)) :
    place.offset + ((Shape.cut c cs).2 + 1) ≤ p.stop.offset := by
  rw [piecesFrom_cons] at hp
  rw [← place.offset_advance_cut]
  rcases List.mem_cons.1 hp with rfl | hp
  · exact Nat.le_refl _
  · exact le_stop_of_mem_piecesFrom hp

theorem cons_of_take_eq {c : Char} {cs cs' : List Char} : ∀ {n : Nat}, (c :: cs).take n = cs'.take n →
    n = 0 ∨ ∃ k tail, n = k + 1 ∧ cs' = c :: tail ∧ cs.take k = tail.take k
  | 0, _ => .inl rfl
  | k + 1, h => by
    cases cs' with
    | nil => cases h
    | cons c' tail =>
      obtain ⟨rfl, htail⟩ := List.cons.inj h
      exact .inr ⟨k, tail, rfl, rfl, htail⟩

theorem piecesFrom_of_take_eq {c : Char} {cs cs' : List Char} {n : Nat} (h : cs.take n = cs'.take n)
    (hn : (Shape.cut c cs).2 + 2 ≤ n) (place : Place) :
    piecesFrom place (c :: cs') =
      ⟨(Shape.cut c cs).1, place, place.advance (c :: cs.take (Shape.cut c cs).2)⟩ ::
        piecesFrom (place.advance (c :: cs.take (Shape.cut c cs).2)) (cs'.drop (Shape.cut c cs).2) := by
  rw [piecesFrom_cons, Shape.cut_of_take_eq h hn, Shape.take_eq_of_le h (by omega : (Shape.cut c cs).2 ≤ n)]

/-- Where one of two texts that begin alike has no piece that stops early, the other has none. -/
theorem late_of_take_eq {place : Place} {cs cs' : List Char} {n : Nat} (h : cs.take n = cs'.take n)
    (hlate : ∀ p ∈ piecesFrom place cs, place.offset + n < p.stop.offset + 2) :
    ∀ p ∈ piecesFrom place cs', place.offset + n < p.stop.offset + 2 := by
  intro p hp
  cases cs' with
  | nil =>
    rw [piecesFrom] at hp
    cases hp
  | cons c tail =>
    have hstop := first_stop_le hp
    rcases cons_of_take_eq h.symm with rfl | ⟨k, rest, rfl, rfl, htail⟩
    · omega
    · by_cases hk : (Shape.cut c tail).2 + 2 ≤ k
      · have hfirst := piecesFrom_of_take_eq htail hk place
        have := hlate _ (hfirst ▸ List.mem_cons_self)
        rw [place.offset_advance_cut] at this
        omega
      · omega

/-- **Texts that begin alike have the same first pieces**, and these come to the same, up to two characters before the
texts part. -/
theorem exists_common {source source' : Source} : ∀ (place : Place) (before cs cs' : List Char) (n : Nat),
    source.chars = before ++ cs → source'.chars = before ++ cs' → place.offset = before.length →
    cs.take n = cs'.take n → ∃ common after after',
      piecesFrom place cs = common ++ after ∧ piecesFrom place cs' = common ++ after' ∧
      (∀ p ∈ common, p.stop.offset + 2 ≤ place.offset + n ∧ p.outcome source = p.outcome source') ∧
      (∀ p ∈ after, place.offset + n < p.stop.offset + 2) ∧ (∀ p ∈ after', place.offset + n < p.stop.offset + 2)
  | place, _, [], cs', n, _, _, _, htake => by
    have hlate : ∀ p ∈ piecesFrom place [], place.offset + n < p.stop.offset + 2 := by simp [piecesFrom]
    exact ⟨[], _, _, rfl, rfl, List.forall_mem_nil _, hlate, late_of_take_eq htake hlate⟩
  | place, before, c :: cs, cs', n, hsource, hsource', hplace, htake => by
    by_cases hn : (Shape.cut c cs).2 + 3 ≤ n
    -- the first piece stops early, so it is the first of the other text as well
    · rcases cons_of_take_eq htake with rfl | ⟨k, tail, rfl, rfl, htail⟩
      · omega
      have hk : (Shape.cut c cs).2 + 2 ≤ k := by omega
      have hfront : tail.take (Shape.cut c cs).2 = cs.take (Shape.cut c cs).2 :=
        (Shape.take_eq_of_le htail (by omega)).symm
      obtain ⟨hrest, hlength⟩ := split_behind hsource hplace (Shape.cut c cs).2
      obtain ⟨hrest', -⟩ := split_behind hsource' hplace (Shape.cut c cs).2
      have hfirst := outcome_firstPiece hsource hplace
      have hfirst' := outcome_firstPiece hsource' hplace
      rw [hfront] at hrest'
      rw [Shape.cut_of_take_eq htail hk, hfront] at hfirst'
      have hstop := place.offset_advance_cut c cs
      obtain ⟨common, after, after', hpieces, hpieces', hcommon, hafter, hafter'⟩ :=
        exists_common _ _ _ _ (k - (Shape.cut c cs).2) hrest hrest' hlength (Shape.take_drop_eq htail (by omega))
      have hbound : place.offset + ((Shape.cut c cs).2 + 1) + (k - (Shape.cut c cs).2) = place.offset + (k + 1) := by
        omega
      rw [hstop, hbound] at hcommon hafter hafter'
      refine ⟨_ :: common, after, after', ?_, ?_, List.forall_mem_cons.2 ⟨⟨?_, hfirst.trans hfirst'.symm⟩, hcommon⟩,
        hafter, hafter'⟩
      · rw [piecesFrom_cons, hpieces, List.cons_append]
      · rw [piecesFrom_of_take_eq htail hk, hpieces', List.cons_append]
      · rw [hstop]
        omega
    · have hlate : ∀ p ∈ piecesFrom place (c :: cs), place.offset + n < p.stop.offset + 2 := fun p hp => by
        have := first_stop_le hp
        omega
      exact ⟨[], _, _, rfl, rfl, List.forall_mem_nil _, hlate, late_of_take_eq htake hlate⟩
termination_by _ _ cs => cs.length
decreasing_by simp only [List.length_drop, List.length_cons]; omega

/-! ## Scans of texts that begin alike -/

/-- What the pieces come to that stop at least two characters before position `n`, as far as `view` shows it. -/
def settled {α : Type} (view : Outcome → Option α) (text : String) (n : Nat) : List α :=
  ((piecesOf text.toList).filter fun p => p.stop.offset + 2 ≤ n).filterMap
    fun p => view (p.outcome (Source.ofString text))

section

variable {s s' : String} {n : Nat} (h : s.toList.take n = s'.toList.take n)

include h

theorem exists_common_piecesOf : ∃ common after after',
    piecesOf s.toList = common ++ after ∧ piecesOf s'.toList = common ++ after' ∧
    (∀ p ∈ common, p.stop.offset + 2 ≤ n ∧ p.outcome (Source.ofString s) = p.outcome (Source.ofString s')) ∧
    (∀ p ∈ after, n < p.stop.offset + 2) ∧ (∀ p ∈ after', n < p.stop.offset + 2) := by
  have hcommon := @exists_common (Source.ofString s) (Source.ofString s') .first [] _ _ n rfl rfl rfl h
  rwa [← piecesOf_eq, ← piecesOf_eq, Place.first, Nat.zero_add] at hcommon

/-- **A piece that stops early is a piece of both texts, and comes to the same in both.** -/
theorem mem_piecesOf_of_take_eq {p : Piece} (hp : p ∈ piecesOf s.toList) (hn : p.stop.offset + 2 ≤ n) :
    p ∈ piecesOf s'.toList ∧ p.outcome (Source.ofString s) = p.outcome (Source.ofString s') := by
  obtain ⟨common, after, after', hpieces, hpieces', hcommon, hafter, -⟩ := exists_common_piecesOf h
  rw [hpieces] at hp
  rcases List.mem_append.1 hp with hp | hp
  · exact ⟨hpieces' ▸ List.mem_append_left after' hp, (hcommon p hp).2⟩
  · have := hafter p hp
    omega

theorem settled_of_take_eq {α : Type} (view : Outcome → Option α) :
    settled view s n <+: (outcomesFrom 1 s'.toList).filterMap view := by
  obtain ⟨common, after, after', hpieces, hpieces', hcommon, hafter, -⟩ := exists_common_piecesOf h
  have hsettled : (piecesOf s.toList).filter (fun p => p.stop.offset + 2 ≤ n) = common := by
    rw [hpieces]
    exact filter_append_left (fun p hp => decide_eq_true (hcommon p hp).1)
      (fun p hp => decide_eq_false (Nat.not_le.2 (hafter p hp)))
  have hsame : common.filterMap (fun p => view (p.outcome (Source.ofString s))) =
      common.filterMap fun p => view (p.outcome (Source.ofString s')) :=
    List.filterMap_congr (fun p hp => by rw [(hcommon p hp).2])
  unfold settled
  rw [hsettled, hsame, ← filterMap_outcome_piecesOf, hpieces', List.filterMap_append]
  exact List.prefix_append _ _

theorem settled_tokens : settled Outcome.token? s n <+: (scan s').tokens := by
  rw [tokens_scan]
  exact (settled_of_take_eq h _).trans (List.prefix_append _ _)

theorem settled_diagnostics : settled Outcome.diagnostic? s n <+: (scan s').diagnostics := by
  rw [diagnostics_scan]
  exact settled_of_take_eq h _

end

/-- **Lookahead is bounded by two characters.**  Of two texts with the same first `n` characters, a piece of either that
stops at least two characters before `n` is a piece of the other, and comes to the same there.  So what is settled in a
text is how the scan of the other begins, and text that is put behind a text takes back nothing that is settled. -/
theorem scan_of_take_eq {s s' : String} {n : Nat} (h : s.toList.take n = s'.toList.take n) :
    (∀ p : Piece, p.stop.offset + 2 ≤ n →
      (p ∈ piecesOf s.toList ↔ p ∈ piecesOf s'.toList) ∧
      (p ∈ piecesOf s.toList → p.outcome (Source.ofString s) = p.outcome (Source.ofString s'))) ∧
    settled Outcome.token? s n <+: (scan s').tokens ∧
    settled Outcome.diagnostic? s n <+: (scan s').diagnostics ∧
    ∀ more : String,
      settled Outcome.token? s s.toList.length <+: (scan (s ++ more)).tokens ∧
      settled Outcome.diagnostic? s s.toList.length <+: (scan (s ++ more)).diagnostics := by
  refine ⟨fun p hn => ⟨⟨fun hp => (mem_piecesOf_of_take_eq h hp hn).1,
    fun hp => (mem_piecesOf_of_take_eq h.symm hp hn).1⟩, fun hp => (mem_piecesOf_of_take_eq h hp hn).2⟩,
    settled_tokens h, settled_diagnostics h, fun more => ?_⟩
  have hmore : s.toList.take s.toList.length = (s ++ more).toList.take s.toList.length := by
    rw [String.toList_append, List.take_length, List.take_left]
  exact ⟨settled_tokens hmore, settled_diagnostics hmore⟩

/-- A number that goes on or does not, behind a settled number, a settled string over two lines and a settled bad
character. -/
theorem scan_of_take_eq_number :
    let s := "1@\"\n\" 2.5"
    let s' := "1@\"\n\" 2.é\n"
    let p : Piece := ⟨.string, ⟨2, 1⟩, ⟨5, 2⟩⟩
    s.toList.take 8 = s'.toList.take 8 ∧ p ∈ piecesOf s.toList ∧ p ∈ piecesOf s'.toList ∧
      p.outcome (Source.ofString s') = .token ⟨.string, "\"\n\"", some (.string "\n"), 1⟩ ∧
      [⟨.number, "1", some (.number ⟨0x3ff0000000000000⟩), 1⟩, ⟨.string, "\"\n\"", some (.string "\n"), 1⟩] <+:
        (scan s').tokens ∧
      [⟨1, "", .unexpectedCharacter '@'⟩] <+: (scan s').diagnostics := by
  intro s s' p
  have h : s.toList.take 8 = s'.toList.take 8 := by decide +kernel
  obtain ⟨hpieces, htokens, hdiagnostics, -⟩ := scan_of_take_eq h
  have hp : p ∈ piecesOf s.toList := by decide +kernel
  obtain ⟨hmem, houtcome⟩ := hpieces p (by decide)
  have hsettled : settled Outcome.token? s 8 =
      [⟨.number, "1", some (.number ⟨0x3ff0000000000000⟩), 1⟩, ⟨.string, "\"\n\"", some (.string "\n"), 1⟩] := by
    decide +kernel
  have hsettled' : settled Outcome.diagnostic? s 8 = [⟨1, "", .unexpectedCharacter '@'⟩] := by decide +kernel
  rw [hsettled] at htokens
  rw [hsettled'] at hdiagnostics
  exact ⟨h, hp, hmem.1 hp, (houtcome hp).symm.trans (by decide +kernel), htokens, hdiagnostics⟩

/-- One character is not enough: a point belongs to a number only with a digit behind. -/
example : ⟨.number, ⟨0, 1⟩, ⟨1, 1⟩⟩ ∈ piecesOf "1.".toList ∧ ⟨.number, ⟨0, 1⟩, ⟨1, 1⟩⟩ ∉ piecesOf "1.5".toList := by
  decide +kernel

end LoxLexer
