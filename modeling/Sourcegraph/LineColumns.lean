import Sourcegraph.CommitMatchTree

/-! # Lines and columns of matches

The scan for an offset goes on where it stopped at the offset before. -/
namespace LineColumns

open GoStrings CommitMatchTree List

/-- Where the line of an offset starts: behind the last newline before it. -/
def lineStart (content : Bytes) (offset : ℕ) : ℕ :=
  offset - ((content.take offset).reverse.takeWhile (· ≠ newline)).length

def locate (content : Bytes) (offset : ℕ) : Location :=
  ⟨offset, (content.take offset).count newline,
    runeCount ((content.take offset).drop (lineStart content offset))⟩

def scanAt (content : Bytes) (offset : ℕ) : LineScan :=
  ⟨offset, (content.take offset).count newline, lineStart content offset⟩

theorem lineStart_append (before unscanned : Bytes) :
    (before ++ unscanned).length - ((before ++ unscanned).reverse.takeWhile (· ≠ newline)).length =
      if newline ∈ unscanned then before.length +
        (unscanned.length - (unscanned.reverse.takeWhile (· ≠ newline)).length)
      else before.length - (before.reverse.takeWhile (· ≠ newline)).length := by
  have hall : (unscanned.reverse.takeWhile (· ≠ newline)).length = unscanned.reverse.length ↔
      newline ∉ unscanned := by
    rw [(takeWhile_sublist _).length_eq]
    simp [forall_mem_ne']
  rw [reverse_append, takeWhile_append, length_append]
  have hle := (unscanned.reverse.takeWhile_sublist (· ≠ newline)).length_le
  rw [length_reverse] at hle
  split
  · rename_i hl
    rw [if_neg (hall.mp hl), length_append, length_reverse]
    omega
  · rename_i hl
    rw [if_pos (not_not.mp (mt hall.mpr hl))]
    omega

theorem lineColumnOffset_eq (h : o ≤ n) (hn : n ≤ content.length) :
    lineColumnOffset content (scanAt content o) n = (locate content n, scanAt content n) := by
  have hsp : content.take n = content.take o ++ (content.take n).drop o := by
    conv_lhs => rw [← take_append_drop o (content.take n), take_take, Nat.min_eq_left h]
  have hst := lineStart_append (content.take o) ((content.take n).drop o)
  rw [← hsp, length_take_of_le hn, length_take_of_le (h.trans hn)] at hst
  have hct : (content.take n).count newline =
      (content.take o).count newline + ((content.take n).drop o).count newline := by
    rw [← count_append, ← hsp]
  simp only [lineColumnOffset, scanAt, locate, lineStart, hst, hct]
  by_cases hun : newline ∈ (content.take n).drop o
  · simp [hun]
  · simp [hun, count_eq_zero.mpr hun]

/-- Each offset is given the newlines before it and the runes since the last of them. -/
theorem matchesToRanges_locate {content : Bytes} {found : List (ℕ × ℕ)}
    (hs : (found.flatMap fun m => [m.1, m.2]).Pairwise (· ≤ ·))
    (hc : ∀ m ∈ found, m.2 ≤ content.length) :
    matchesToRanges content found = found.map fun m => ⟨locate content m.1, locate content m.2⟩ := by
  have hfrom : ∀ o, (∀ m ∈ found, o ≤ m.1) → matchesToRangesFrom content (scanAt content o) found =
      found.map fun m => ⟨locate content m.1, locate content m.2⟩ := by
    induction found with
    | nil => simp [matchesToRangesFrom]
    | cons m found ih =>
      intro o ho
      simp only [flatMap_cons, cons_append, nil_append, pairwise_cons, mem_cons] at hs
      obtain ⟨hc₀, hc⟩ := forall_mem_cons.mp hc
      have hm := hs.1 m.2 (.inl rfl)
      rw [matchesToRangesFrom, lineColumnOffset_eq (ho m mem_cons_self) (hm.trans hc₀),
        lineColumnOffset_eq hm hc₀]
      refine congrArg _ (ih hs.2.2 hc m.2 fun m' hm' => hs.2.1 _ ?_)
      exact mem_flatMap.mpr ⟨m', hm', mem_cons_self⟩
  exact hfrom 0 (by simp)

theorem second_line_located : matchesToRanges (bytes "a\nbc") [(0, 1), (3, 4)] =
    [⟨⟨0, 0, 0⟩, ⟨1, 0, 1⟩⟩, ⟨⟨3, 1, 1⟩, ⟨4, 1, 2⟩⟩] :=
  matchesToRanges_locate (by decide) (by decide)

end LineColumns
