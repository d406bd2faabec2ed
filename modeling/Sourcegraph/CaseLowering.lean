import Sourcegraph.RegexpSyntax

/-! # Lowering patterns and texts for case-insensitive search

A pattern is lowered with the Unicode tables and its classes by range arithmetic on A-Z, a text
byte by byte with an ASCII table. -/
namespace CaseLowering

open GoStrings GoRunes RegexpSyntax List

def isUpperASCII (x : ℕ) : Prop := 0x41 ≤ x ∧ x ≤ 0x5A

def isLowerASCII (x : ℕ) : Prop := 0x61 ≤ x ∧ x ≤ 0x7A

instance (x : ℕ) : Decidable (isUpperASCII x) := inferInstanceAs (Decidable (_ ∧ _))

instance (x : ℕ) : Decidable (isLowerASCII x) := inferInstanceAs (Decidable (_ ∧ _))

def lowerASCII (x : ℕ) : ℕ := if isUpperASCII x then x + 0x20 else x

/-- The lower case mapping of the `unicode` package, whose tables are known on ASCII. -/
structure Unicode where
  toLower : ℕ → ℕ
  ascii : ∀ r < 0x80, toLower r = lowerASCII r

/-- A gap between two ranges, clamped to A-Z and moved to a-z; both ends are exclusive. -/
def excludedGap (a b : ℕ) : Option (ℕ × ℕ) :=
  if a > 0x5A ∨ b < 0x41 then none
  else some ((if a < 0x41 then 0x41 - 1 else a) + 0x20, (if b > 0x5A then 0x5A + 1 else b) + 0x20)

def excludedGaps : List (ℕ × ℕ) → List (ℕ × ℕ)
  | [] => []
  | [_] => []
  | (_, a) :: (b, c) :: rest => (excludedGap a b).toList ++ excludedGaps ((b, c) :: rest)

def subtractFirst (a b : ℕ) : List (ℕ × ℕ) → List (ℕ × ℕ)
  | [] => [(a, b)]
  | (lo, hi) :: _ =>
    if b ≤ lo then [(a, b)]
    else (if a ≤ lo then [(a, lo)] else []) ++ (if b ≥ hi then [(hi, b)] else [])

/-- The loop over the ranges, from which the gaps that end before one are dropped. -/
def copyRanges : List (ℕ × ℕ) → List (ℕ × ℕ) → List (ℕ × ℕ)
  | _, [] => []
  | excluded, (a, b) :: rest =>
    let left := excluded.dropWhile fun gap => a ≥ gap.2
    subtractFirst a b left ++ copyRanges left rest

def isExclusion (ranges : List (ℕ × ℕ)) : Bool :=
  2 ≤ ranges.length && ranges.head?.any (fun r => r.1 == 0) &&
    ranges.getLast?.any fun r => r.2 == maxRune

def lowerSimple (U : Unicode) (r : ℕ × ℕ) : ℕ × ℕ :=
  if r.1 > 0x5A ∨ r.2 < 0x41 then r
  else if r.1 < 0x41 ∨ r.2 > 0x5A then r
  else (U.toLower r.1, U.toLower r.2)

def lowerAppended (U : Unicode) (r : ℕ × ℕ) : Option (ℕ × ℕ) :=
  if r.1 > 0x5A ∨ r.2 < 0x41 then none
  else if r.1 < 0x41 ∨ r.2 > 0x5A then
    some (U.toLower (if r.1 < 0x41 then 0x41 else r.1), U.toLower (if r.2 > 0x5A then 0x5A else r.2))
  else none

def lowerClass (U : Unicode) (ranges : List (ℕ × ℕ)) : List (ℕ × ℕ) :=
  if isExclusion ranges then copyRanges (excludedGaps ranges) ranges
  else if ranges.any fun r => r.1 ≤ 0x61 && r.2 ≥ 0x7A then ranges
  else ranges.map (lowerSimple U) ++ ranges.filterMap (lowerAppended U)

mutual

def lowerRegexpASCII (U : Unicode) : Regexp → Regexp
  | .noMatch => .noMatch
  | .emptyMatch => .emptyMatch
  | .literal foldCase runes => .literal foldCase (runes.map U.toLower)
  | .charClass ranges => .charClass (lowerClass U ranges)
  | .anyCharNotNL => .anyCharNotNL
  | .anyChar => .anyChar
  | .beginLine => .beginLine
  | .endLine => .endLine
  | .beginText => .beginText
  | .endText => .endText
  | .wordBoundary => .wordBoundary
  | .noWordBoundary => .noWordBoundary
  | .capture sub => .capture (lowerRegexpASCII U sub)
  | .star sub => .star (lowerRegexpASCII U sub)
  | .plus sub => .plus (lowerRegexpASCII U sub)
  | .quest sub => .quest (lowerRegexpASCII U sub)
  | .repetition min max sub => .repetition min max (lowerRegexpASCII U sub)
  | .concat subs => .concat (lowerSubs U subs)
  | .alternate subs => .alternate (lowerSubs U subs)

def lowerSubs (U : Unicode) : List Regexp → List Regexp
  | [] => []
  | sub :: subs => lowerRegexpASCII U sub :: lowerSubs U subs

end

structure RuneClass where
  ranges : List (ℕ × ℕ)
  nonempty : ∀ r ∈ ranges, r.1 ≤ r.2
  sorted : ranges.Pairwise fun r s => r.2 < s.1
  bounded : ∀ r ∈ ranges, r.2 ≤ maxRune

/-- Case-insensitive search with the lowered class is what the class asks for. -/
def LoweredExactly (U : Unicode) (C : RuneClass) : Prop :=
  ∀ x, ¬ isUpperASCII x → (inClass (lowerClass U C.ranges) x ↔
    if isExclusion C.ranges then
      inClass C.ranges x ∧ (isLowerASCII x → inClass C.ranges (x - 0x20))
    else ∃ y, inClass C.ranges y ∧ lowerASCII y = x)

/-- No range reaches into a second excluded gap: those after the first that ends behind its start. -/
def OneGapEach (C : RuneClass) : Prop :=
  ∀ r ∈ C.ranges, ∀ gap ∈ ((excludedGaps C.ranges).dropWhile fun gap => r.1 ≥ gap.2).tail,
    ∀ x, r.1 ≤ x → x ≤ r.2 → ¬ (gap.1 < x ∧ x < gap.2)

def InGap (x : ℕ) (gap : ℕ × ℕ) : Prop := gap.1 < x ∧ x < gap.2

theorem dropWhile_dropWhile {p : α → Bool} (h : ∀ a, p a = true → q a = true) (l : List α) :
    (l.dropWhile p).dropWhile q = l.dropWhile q := by
  induction l with
  | nil => rfl
  | cons a l ih =>
    by_cases hp : p a = true
    · rw [dropWhile_cons_of_pos hp, dropWhile_cons_of_pos (h a hp), ih]
    · rw [dropWhile_cons_of_neg hp]

theorem of_mem_head_dropWhile {l : List α} (h : a ∈ (l.dropWhile p).head?) : p a = false := by
  have := head?_dropWhile_not p l
  rw [Option.mem_def.mp h] at this
  exact this

theorem mem_subtractFirst {a b x : ℕ} {gaps : List (ℕ × ℕ)} (hgap : ∀ gap ∈ gaps.head?, a < gap.2) :
    inClass (subtractFirst a b gaps) x ↔ (a ≤ x ∧ x ≤ b) ∧ ∀ gap ∈ gaps.head?, ¬ InGap x gap := by
  cases gaps with
  | nil => simp [subtractFirst, inClass]
  | cons gap gaps =>
    obtain ⟨lo, hi⟩ := gap
    have ha : a < hi := hgap _ rfl
    simp only [subtractFirst, InGap, head?_cons, Option.mem_some_iff, forall_eq']
    split
    · simp only [inClass, mem_singleton, exists_eq_left]
      omega
    · split <;> split <;> simp [inClass] <;> omega

variable {ranges : List (ℕ × ℕ)}

/-- What is copied: every range without the first gap that ends after its start. -/
theorem mem_copyRanges {exc : List (ℕ × ℕ)} (hsrt : ranges.Pairwise fun r s => r.1 ≤ s.1) :
    inClass (copyRanges exc ranges) x ↔ ∃ r ∈ ranges, (r.1 ≤ x ∧ x ≤ r.2) ∧
      ∀ gap ∈ (exc.dropWhile fun gap => r.1 ≥ gap.2).head?, ¬ InGap x gap := by
  induction ranges generalizing exc with
  | nil => simp [copyRanges, inClass]
  | cons r rest ih =>
    obtain ⟨a, b⟩ := r
    obtain ⟨hf, hrs⟩ := pairwise_cons.mp hsrt
    have hhd := @mem_subtractFirst a b x (exc.dropWhile fun gap => a ≥ gap.2) fun gap hgap => by
      simpa using of_mem_head_dropWhile hgap
    have hlat : ∀ s ∈ rest, (exc.dropWhile fun gap => decide (a ≥ gap.2)).dropWhile
        (fun gap => decide (s.1 ≥ gap.2)) = exc.dropWhile fun gap => decide (s.1 ≥ gap.2) := by
      intro s hs
      apply dropWhile_dropWhile
      intro gap hgap
      have := hf s hs
      simp only [decide_eq_true_eq] at hgap ⊢
      omega
    have hspl : inClass (copyRanges exc ((a, b) :: rest)) x ↔
        inClass (subtractFirst a b (exc.dropWhile fun gap => a ≥ gap.2)) x ∨
        inClass (copyRanges (exc.dropWhile fun gap => a ≥ gap.2) rest) x := by
      simp [copyRanges, inClass, or_and_right, exists_or]
    rw [hspl, hhd, ih hrs, exists_mem_cons_iff]
    refine or_congr_right (exists_congr fun s => and_congr_right fun hs => ?_)
    rw [hlat s hs]

theorem exists_inGap_dropWhile (h : a ≤ x) (gaps : List (ℕ × ℕ)) :
    (∃ gap ∈ gaps.dropWhile fun gap => decide (a ≥ gap.2), InGap x gap) ↔
      ∃ gap ∈ gaps, InGap x gap := by
  induction gaps with
  | nil => rfl
  | cons gap gaps ih =>
    by_cases ha : a ≥ gap.2
    · have hout : ¬ InGap x gap := by
        unfold InGap
        omega
      rw [dropWhile_cons_of_pos (by simpa using ha), ih]
      simp [hout]
    · rw [dropWhile_cons_of_neg (by simpa using ha)]

theorem excludedGap_eq_some (h : excludedGap a b = some gap) :
    a ≤ 0x5A ∧ gap.1 = max a 0x40 + 0x20 ∧ gap.2 = min b 0x5B + 0x20 := by
  unfold excludedGap at h
  split at h
  · cases h
  cases h
  dsimp only
  refine ⟨by omega, ?_, ?_⟩
  · split <;> omega
  · split <;> omega

theorem mem_excludedGaps (hne : ∀ s ∈ r :: rest, s.1 ≤ s.2)
    (hsrt : (r :: rest).Pairwise fun r s => r.2 < s.1) (h : gap ∈ excludedGaps (r :: rest)) :
    ∃ a b, r.2 ≤ a ∧ excludedGap a b = some gap := by
  induction rest generalizing r with
  | nil => cases h
  | cons s rest ih =>
    obtain ⟨hr, hrs⟩ := pairwise_cons.mp hsrt
    rcases mem_append.mp h with h | h
    · exact ⟨r.2, s.1, Nat.le_refl _, Option.mem_toList.mp h⟩
    obtain ⟨a, b, ha, hgap⟩ := ih (forall_mem_cons.mp hne).2 hrs h
    have h₁ := hr s (by simp)
    have h₂ := hne s (by simp)
    exact ⟨a, b, by omega, hgap⟩

theorem excludedGaps_sorted (hne : ∀ s ∈ ranges, s.1 ≤ s.2)
    (hsrt : ranges.Pairwise fun r s => r.2 < s.1) :
    (excludedGaps ranges).Pairwise fun g h => g.2 ≤ h.1 := by
  induction ranges with
  | nil => exact Pairwise.nil
  | cons r rest ih =>
    cases rest with
    | nil => exact Pairwise.nil
    | cons s rest =>
      obtain ⟨hr, hrs⟩ := pairwise_cons.mp hsrt
      have hne' : ∀ t ∈ s :: rest, t.1 ≤ t.2 := (forall_mem_cons.mp hne).2
      refine pairwise_append.mpr ⟨?_, ih hne' hrs, ?_⟩
      · cases excludedGap r.2 s.1 <;> simp
      · intro g hg h hh
        obtain ⟨-, -, hg₂⟩ := excludedGap_eq_some (Option.mem_toList.mp hg)
        obtain ⟨a, b, ha, hgap⟩ := mem_excludedGaps hne' hrs hh
        obtain ⟨ha', hh₁, -⟩ := excludedGap_eq_some hgap
        have := hne s (by simp)
        omega

theorem inGap_lower (hne : ∀ s ∈ ranges, s.1 ≤ s.2) (hsrt : ranges.Pairwise fun r s => r.2 < s.1)
    (hgap : gap ∈ excludedGaps ranges) (h : InGap x gap) : isLowerASCII x := by
  unfold InGap at h
  unfold isLowerASCII
  cases ranges with
  | nil => cases hgap
  | cons r rest =>
    obtain ⟨a, b, -, hab⟩ := mem_excludedGaps hne hsrt hgap
    obtain ⟨-, h₁, h₂⟩ := excludedGap_eq_some hab
    omega

/-- The letters missing between the first and the last range are those in a gap. -/
theorem not_inClass_iff {r : ℕ × ℕ} {rest : List (ℕ × ℕ)} {y : ℕ} (hy : isUpperASCII y)
    (hne : ∀ s ∈ r :: rest, s.1 ≤ s.2) (hsrt : (r :: rest).Pairwise fun r s => r.2 < s.1)
    (hf : r.1 ≤ y) (hla : ∀ s ∈ (r :: rest).getLast?, y ≤ s.2) :
    ¬ inClass (r :: rest) y ↔ ∃ gap ∈ excludedGaps (r :: rest), InGap (y + 0x20) gap := by
  unfold isUpperASCII at hy
  induction rest generalizing r with
  | nil =>
    have hin : inClass [r] y := ⟨r, by simp, hf, hla r rfl⟩
    simp [hin, excludedGaps]
  | cons s rest ih =>
    obtain ⟨hr, hrs⟩ := pairwise_cons.mp hsrt
    have hne' : ∀ t ∈ s :: rest, t.1 ≤ t.2 := (forall_mem_cons.mp hne).2
    by_cases hyr : y ≤ r.2
    · have hin : inClass (r :: s :: rest) y := ⟨r, by simp, hf, hyr⟩
      refine iff_of_false (not_not.mpr hin) ?_
      rintro ⟨gap, hgap, hx⟩
      obtain ⟨a, b, ha, hab⟩ := mem_excludedGaps hne hsrt hgap
      obtain ⟨-, h₁, -⟩ := excludedGap_eq_some hab
      unfold InGap at hx
      omega
    · have hcla : inClass (r :: s :: rest) y ↔ inClass (s :: rest) y := by
        simp only [inClass, exists_mem_cons_iff]
        exact or_iff_right fun h => hyr h.2
      rw [hcla]
      by_cases hys : y < s.1
      · have hout : ¬ inClass (s :: rest) y := by
          rintro ⟨t, ht, hyt, -⟩
          rcases mem_cons.mp ht with rfl | ht
          · omega
          have h₁ := (pairwise_cons.mp hrs).1 t ht
          have h₂ := hne' s (by simp)
          omega
        have hgap : excludedGap r.2 s.1 = some (max r.2 0x40 + 0x20, min s.1 0x5B + 0x20) := by
          rw [excludedGap, if_neg (by omega)]
          congr 2
          · split <;> omega
          · split <;> omega
        refine iff_of_true hout ⟨_, mem_append_left _ (Option.mem_toList.mpr hgap), ?_⟩
        unfold InGap
        omega
      · rw [ih hne' hrs (by omega) hla]
        simp only [excludedGaps, mem_append, or_and_right, exists_or]
        rw [or_iff_right]
        rintro ⟨gap, hgap, hx⟩
        obtain ⟨-, -, h₂⟩ := excludedGap_eq_some (Option.mem_toList.mp hgap)
        unfold InGap at hx
        omega

theorem isExclusion_iff (h : isExclusion ranges = true) :
    ∃ r rest, ranges = r :: rest ∧ r.1 = 0 ∧ ∀ s ∈ (r :: rest).getLast?, s.2 = maxRune := by
  cases ranges with
  | nil => simp [isExclusion] at h
  | cons r rest =>
    simp only [isExclusion, Bool.and_eq_true, head?_cons, Option.any_some, beq_iff_eq] at h
    refine ⟨r, rest, rfl, h.1.2, fun s hs => ?_⟩
    rw [Option.mem_def.mp hs] at h
    simpa using h.2

variable {C : RuneClass}

theorem upper_inClass_iff (h : isExclusion C.ranges = true) (hx : isLowerASCII x) :
    inClass C.ranges (x - 0x20) ↔ ¬ ∃ gap ∈ excludedGaps C.ranges, InGap x gap := by
  obtain ⟨r, rest, hran, hr, hla⟩ := isExclusion_iff h
  have hne := C.nonempty
  have hsrt := C.sorted
  unfold isLowerASCII at hx
  rw [hran] at hne hsrt ⊢
  have hmis := @not_inClass_iff r rest (x - 0x20) ⟨by omega, by omega⟩ hne hsrt
    (by omega) fun s hs => by rw [hla s hs, maxRune]; omega
  rw [Nat.sub_add_cancel (by omega)] at hmis
  rw [← hmis, not_not]

theorem starts_sorted : C.ranges.Pairwise fun r s => r.1 ≤ s.1 := by
  refine C.sorted.imp_of_mem fun hr _ h => ?_
  have := C.nonempty _ hr
  omega

theorem lowered_exclusion (h : isExclusion C.ranges = true) :
    LoweredExactly U C ↔ ∀ x, ¬ isUpperASCII x →
      ((∃ r ∈ C.ranges, (r.1 ≤ x ∧ x ≤ r.2) ∧
          ∀ gap ∈ ((excludedGaps C.ranges).dropWhile fun gap => r.1 ≥ gap.2).head?, ¬ InGap x gap) ↔
        inClass C.ranges x ∧ ¬ ∃ gap ∈ excludedGaps C.ranges, InGap x gap) := by
  have hlts : ∀ x, (isLowerASCII x → inClass C.ranges (x - 0x20)) ↔
      ¬ ∃ gap ∈ excludedGaps C.ranges, InGap x gap := by
    intro x
    by_cases hx : isLowerASCII x
    · rw [upper_inClass_iff h hx]
      exact ⟨fun h => h hx, fun h _ => h⟩
    refine iff_of_true (fun h => absurd h hx) ?_
    rintro ⟨gap, hgap, hin⟩
    exact hx (inGap_lower C.nonempty C.sorted hgap hin)
  unfold LoweredExactly lowerClass
  simp [h, mem_copyRanges starts_sorted, hlts]

theorem lowered_exclusion_iff (h : isExclusion C.ranges = true) :
    LoweredExactly U C ↔ OneGapEach C := by
  rw [lowered_exclusion h]
  constructor
  · intro hlaw r hr gap hgap x hrx hxr hx
    have hmem : gap ∈ excludedGaps C.ranges :=
      (dropWhile_suffix _).mem (mem_of_mem_tail hgap)
    have hlo := inGap_lower C.nonempty C.sorted hmem hx
    have hupp : ¬ isUpperASCII x := by
      unfold isLowerASCII at hlo
      unfold isUpperASCII
      omega
    refine absurd ((hlaw x hupp).mp ⟨r, hr, ⟨hrx, hxr⟩, fun first hf hin => ?_⟩).2
      (not_not.mpr ⟨gap, hmem, hx⟩)
    -- two different gaps have no rune in common
    obtain ⟨gaps, hga⟩ := head?_eq_some_iff.mp (Option.mem_def.mp hf)
    have hsrt := (excludedGaps_sorted C.nonempty C.sorted).sublist
      (dropWhile_sublist fun gap => decide (r.1 ≥ gap.2))
    rw [hga] at hsrt hgap
    have := (pairwise_cons.mp hsrt).1 gap hgap
    unfold InGap at hin
    omega
  · intro hone x _
    constructor
    · rintro ⟨r, hr, hrx, hf⟩
      refine ⟨⟨r, hr, hrx⟩, fun hgap => ?_⟩
      rw [← exists_inGap_dropWhile hrx.1] at hgap
      obtain ⟨gap, hgap, hx⟩ := hgap
      generalize hd : (excludedGaps C.ranges).dropWhile (fun gap => decide (r.1 ≥ gap.2)) = left
        at hf hgap
      cases left with
      | nil => cases hgap
      | cons first left =>
        rcases mem_cons.mp hgap with rfl | hgap
        · exact hf gap rfl hx
        · exact hone r hr gap (by rw [hd]; exact hgap) x hrx.1 hrx.2 hx
    · rintro ⟨⟨r, hr, hrx⟩, hgap⟩
      refine ⟨r, hr, hrx, fun gap hf hx => hgap ⟨gap, ?_, hx⟩⟩
      exact (dropWhile_suffix _).mem (mem_of_mem_head? hf)

theorem lowerASCII_of_not_upper (h : ¬ isUpperASCII x) : lowerASCII x = x := if_neg h

theorem toLower_upper {U : Unicode} {x : ℕ} (h : isUpperASCII x) : U.toLower x = x + 0x20 := by
  rw [U.ascii x (by unfold isUpperASCII at h; omega), lowerASCII, if_pos h]

theorem exists_lower_iff (hx : ¬ isUpperASCII x) :
    (∃ y, (a ≤ y ∧ y ≤ b) ∧ lowerASCII y = x) ↔
      (a ≤ x ∧ x ≤ b) ∨ isLowerASCII x ∧ a ≤ x - 0x20 ∧ x - 0x20 ≤ b := by
  constructor
  · rintro ⟨y, hy, rfl⟩
    by_cases hu : isUpperASCII y
    · rw [lowerASCII, if_pos hu]
      unfold isUpperASCII at hu
      unfold isLowerASCII
      omega
    rw [lowerASCII_of_not_upper hu]
    exact .inl hy
  · rintro (h | ⟨hl, h⟩)
    · exact ⟨x, h, lowerASCII_of_not_upper hx⟩
    · unfold isLowerASCII at hl
      refine ⟨x - 0x20, h, ?_⟩
      rw [lowerASCII, if_pos ⟨by omega, by omega⟩]
      omega

theorem lowerRange_iff {U : Unicode} {r : ℕ × ℕ} {x : ℕ} (hne : r.1 ≤ r.2) (hx : ¬ isUpperASCII x) :
    (((lowerSimple U r).1 ≤ x ∧ x ≤ (lowerSimple U r).2) ∨
      ∃ s ∈ lowerAppended U r, s.1 ≤ x ∧ x ≤ s.2) ↔
      ∃ y, (r.1 ≤ y ∧ y ≤ r.2) ∧ lowerASCII y = x := by
  rw [exists_lower_iff hx]
  obtain ⟨a, b⟩ := r
  unfold isUpperASCII at hx
  unfold isLowerASCII
  by_cases hout : a > 0x5A ∨ b < 0x41
  · simp only [lowerSimple, lowerAppended, if_pos hout, Option.not_mem_none, false_and, exists_false,
      or_false]
    omega
  by_cases hpa : a < 0x41 ∨ b > 0x5A
  · have ha : U.toLower (if a < 0x41 then 0x41 else a) = max a 0x41 + 0x20 := by
      rw [show (if a < 0x41 then 0x41 else a) = max a 0x41 by split <;> omega,
        toLower_upper ⟨by omega, by omega⟩]
    have hb : U.toLower (if b > 0x5A then 0x5A else b) = min b 0x5A + 0x20 := by
      rw [show (if b > 0x5A then 0x5A else b) = min b 0x5A by split <;> omega,
        toLower_upper ⟨by omega, by omega⟩]
    simp only [lowerSimple, lowerAppended, if_neg hout, if_pos hpa, Option.mem_some_iff,
      exists_eq_left', ha, hb]
    omega
  · simp only [lowerSimple, lowerAppended, if_neg hout, if_neg hpa, Option.not_mem_none, false_and,
      exists_false, or_false, @toLower_upper U a ⟨by omega, by omega⟩,
      @toLower_upper U b ⟨by omega, by omega⟩]
    omega

theorem lowered_letters (hr : r ∈ ranges) (ha : r.1 ≤ 0x61) (hz : r.2 ≥ 0x7A)
    (hx : ¬ isUpperASCII x) : inClass ranges x ↔ ∃ y, inClass ranges y ∧ lowerASCII y = x := by
  constructor
  · exact fun h => ⟨x, h, lowerASCII_of_not_upper hx⟩
  · rintro ⟨y, hy, rfl⟩
    by_cases hu : isUpperASCII y
    · rw [lowerASCII, if_pos hu]
      unfold isUpperASCII at hu
      exact ⟨r, hr, by omega, by omega⟩
    · rwa [lowerASCII_of_not_upper hu]

theorem lowered_inclusion (h : isExclusion C.ranges = false) : LoweredExactly U C := by
  intro x hx
  unfold lowerClass
  simp only [h, Bool.false_eq_true, if_false]
  by_cases hany : C.ranges.any fun r => r.1 ≤ 0x61 && r.2 ≥ 0x7A
  · obtain ⟨r, hr, hlts⟩ := any_eq_true.mp hany
    simp only [Bool.and_eq_true, decide_eq_true_eq] at hlts
    rw [if_pos hany]
    exact lowered_letters hr hlts.1 hlts.2 hx
  rw [if_neg hany]
  constructor
  · rintro ⟨s, hs, hsx⟩
    rcases mem_append.mp hs with hs | hs
    · obtain ⟨r, hr, rfl⟩ := mem_map.mp hs
      obtain ⟨y, hy, hlo⟩ := (lowerRange_iff (C.nonempty r hr) hx).mp (.inl hsx)
      exact ⟨y, ⟨r, hr, hy⟩, hlo⟩
    obtain ⟨r, hr, hrs⟩ := mem_filterMap.mp hs
    obtain ⟨y, hy, hlo⟩ := (lowerRange_iff (C.nonempty r hr) hx).mp (.inr ⟨s, hrs, hsx⟩)
    exact ⟨y, ⟨r, hr, hy⟩, hlo⟩
  · rintro ⟨y, ⟨r, hr, hy⟩, hlo⟩
    rcases (@lowerRange_iff U r x (C.nonempty r hr) hx).mpr ⟨y, hy, hlo⟩ with hsx | ⟨s, hs, hsx⟩
    · exact ⟨_, mem_append_left _ (mem_map_of_mem hr), hsx⟩
    · exact ⟨s, mem_append_right _ (mem_filterMap.mpr ⟨r, hr, hs⟩), hsx⟩

/-- Lowering a class is exact unless an exclusion class has a range that reaches into a second gap. -/
theorem class_lowering_exact_iff (U : Unicode) (C : RuneClass) :
    LoweredExactly U C ↔ (isExclusion C.ranges = true → OneGapEach C) := by
  by_cases h : isExclusion C.ranges = true
  · rw [lowered_exclusion_iff h, imp_iff_right h]
  · exact iff_of_true (lowered_inclusion (Bool.not_eq_true _ ▸ h)) fun hex => absurd hex h

/-- Tables that agree with `unicode.ToLower` on Latin-1 and have no other letters. -/
def latin1 : Unicode where
  toLower r := if isUpperASCII r ∨ 0xC0 ≤ r ∧ r ≤ 0xDE ∧ r ≠ 0xD7 then r + 0x20 else r
  ascii r hr := by
    unfold lowerASCII
    by_cases h : isUpperASCII r
    · rw [if_pos (.inl h), if_pos h]
    · rw [if_neg (not_or.mpr ⟨h, by omega⟩), if_neg h]

/-- The class of the pattern `[^AC]`. -/
def notAC : RuneClass where
  ranges := [(0, 0x40), (0x42, 0x42), (0x44, maxRune)]
  nonempty := by decide
  sorted := by decide
  bounded := by decide

/-- The lowered class of `[^AC]` still has c, though C is excluded. -/
theorem second_gap_kept : isExclusion notAC.ranges = true ∧ ¬ inClass notAC.ranges 0x43 ∧
    inClass (lowerClass latin1 notAC.ranges) 0x63 ∧ ¬ LoweredExactly latin1 notAC := by
  have hc : inClass (lowerClass latin1 notAC.ranges) 0x63 := by decide
  refine ⟨by decide, by decide, hc, fun h => ?_⟩
  have hlaw := (h 0x63 (by decide)).mp hc
  exact absurd (hlaw.2 (by decide)) (by decide)

def lowerByte (b : UInt8) : UInt8 := if inRange 0x41 0x5A b then b + 0x20 else b

/-- `BytesToLowerASCII`, whose table maps only the bytes of A-Z. -/
def bytesToLowerASCII (buf : Bytes) : Bytes := buf.map lowerByte

/-- The matches `FindAllIndex` reports for a literal in a text read rune by rune: it goes on after
the end of a match, so `skip` runes of the last one are passed over. -/
def findAllFrom (literal : List ℕ) (position : ℕ) (skip : ℕ) : List Rune → List (ℕ × ℕ)
  | [] => []
  | r :: rs =>
    match skip with
    | skip + 1 => findAllFrom literal (position + r.width) skip rs
    | 0 =>
      if literal.isPrefixOf ((r :: rs).map fun r => r.char.toNat) then
        (position, position + width ((r :: rs).take literal.length)) ::
          findAllFrom literal (position + r.width) (literal.length - 1) rs
      else findAllFrom literal (position + r.width) 0 rs

def findAllLiteral (literal : List ℕ) (buf : Bytes) : List (ℕ × ℕ) :=
  findAllFrom literal 0 0 (runes buf)

def searchLowered (U : Unicode) (pattern : List Char) (buf : Bytes) : List (ℕ × ℕ) :=
  match lowerRegexpASCII U (.literal false (pattern.map Char.toNat)) with
  | .literal _ runes => findAllLiteral runes (bytesToLowerASCII buf)
  | _ => []

def OccursAt (pattern : List Char) (buf : Bytes) (position : ℕ) : Prop :=
  ∃ before after, buf = before ++ encode (pattern.map Char.toNat) ++ after ∧ before.length = position

/-- The occurrences a scan from left to right keeps: those that do not overlap one kept before. -/
def Kept (literal text : List ℕ) (i : ℕ) : Prop :=
  literal <+: text.drop i ∧ ∀ j, j < i → i < j + literal.length → ¬ Kept literal text j
termination_by i

theorem findAllFrom_start (h : m ∈ findAllFrom lit ps skip rs) : ps ≤ m.1 := by
  induction rs generalizing ps skip with
  | nil => cases h
  | cons r rs ih =>
    cases skip with
    | succ skip =>
      have := ih h
      omega
    | zero =>
      rw [findAllFrom] at h
      split at h
      · rcases mem_cons.mp h with rfl | h
        · exact Nat.le_refl _
        · have := ih h
          omega
      have := ih h
      omega

theorem width_take_lt_iff {pre rest : List Rune} {r : Rune} (hr : 0 < r.width) (n : ℕ) :
    width pre < width ((pre ++ r :: rest).take n) ↔ pre.length < n := by
  constructor
  · intro h
    by_contra hn
    rw [take_append_of_le_length (by omega)] at h
    have : width (pre.take n) + width (pre.drop n) = width pre := by
      rw [← width_append, take_append_drop]
    omega
  · intro h
    rw [take_append, take_of_length_le (by omega),
      show n - pre.length = (n - pre.length - 1) + 1 by omega, take_succ_cons,
      width_append, width_cons]
    omega

/-- A match is reported at every occurrence that does not start inside an earlier one. -/
theorem mem_findAllFrom (hpos : ∀ x ∈ pre ++ r :: rest, 0 < x.width)
    (ps skip : ℕ) :
    (∃ stop, (ps + width pre, stop) ∈
        findAllFrom lit ps skip (pre ++ r :: rest)) ↔
      lit <+: ((r :: rest).map fun r => r.char.toNat) ∧ skip ≤ pre.length ∧
        ∀ m ∈ findAllFrom lit ps skip (pre ++ r :: rest),
          ¬ (m.1 < ps + width pre ∧ ps + width pre < m.2) := by
  induction pre generalizing ps skip with
  | nil =>
    have hr := hpos r (by simp)
    have hlat : ∀ skip, ¬ ∃ stop, (ps, stop) ∈ findAllFrom lit (ps + r.width) skip rest := by
      rintro skip ⟨stop, h⟩
      have := findAllFrom_start h
      omega
    simp only [width_nil, Nat.add_zero, nil_append, length_nil]
    cases skip with
    | succ skip => exact iff_of_false (hlat skip) (by omega)
    | zero =>
      rw [findAllFrom]
      by_cases hm : lit.isPrefixOf ((r :: rest).map fun r => r.char.toNat) = true
      · rw [if_pos hm]
        refine iff_of_true ⟨_, mem_cons_self⟩
          ⟨List.isPrefixOf_iff_prefix.mp hm, Nat.le_refl _, fun m hin => ?_⟩
        rcases mem_cons.mp hin with rfl | hin
        · omega
        have := findAllFrom_start hin
        omega
      · rw [if_neg hm]
        exact iff_of_false (hlat 0) fun h => hm (List.isPrefixOf_iff_prefix.mpr h.1)
  | cons b pre ih =>
    have hb := hpos b (by simp)
    have ih := fun ps skip => ih (forall_mem_cons.mp hpos).2 ps skip
    simp only [cons_append, width_cons, length_cons, ← Nat.add_assoc]
    cases skip with
    | succ skip =>
      rw [findAllFrom, ih]
      simp
    | zero =>
      rw [findAllFrom]
      split
      · have hcov := @width_take_lt_iff (b :: pre) rest r (hpos r (by simp)) lit.length
        rw [cons_append, width_cons, length_cons] at hcov
        have hne : ps + b.width + width pre ≠ ps := by omega
        simp only [mem_cons, Prod.mk.injEq, hne, false_and, false_or, forall_eq_or_imp]
        rw [ih]
        refine and_congr_right fun _ => ?_
        rw [← and_assoc]
        exact and_congr_left fun _ => by omega
      · rw [ih]
        simp

theorem mem_findAllFrom_eq {rs : List Rune} (h : m ∈ findAllFrom lit ps skip rs) :
    ∃ j < rs.length, m = (ps + width (rs.take j), ps + width (rs.take (j + lit.length))) := by
  induction rs generalizing ps skip with
  | nil => cases h
  | cons r rs ih =>
    have hlater : ∀ skip, m ∈ findAllFrom lit (ps + r.width) skip rs → ∃ j < (r :: rs).length,
        m = (ps + width ((r :: rs).take j), ps + width ((r :: rs).take (j + lit.length))) := by
      intro skip h
      obtain ⟨j, hj, rfl⟩ := ih h
      refine ⟨j + 1, by simpa using hj, ?_⟩
      rw [Nat.add_right_comm j 1, take_succ_cons, take_succ_cons, width_cons, width_cons,
        Nat.add_assoc, Nat.add_assoc]
    cases skip with
    | succ skip => exact hlater skip h
    | zero =>
      rw [findAllFrom] at h
      split at h
      · rcases mem_cons.mp h with rfl | h
        · exact ⟨0, by simp, by simp⟩
        · exact hlater _ h
      · exact hlater _ h

theorem width_take_lt_take {rs : List Rune} (hpos : ∀ x ∈ rs, 0 < x.width) (hj : j < rs.length)
    (i : ℕ) : width (rs.take j) < width (rs.take i) ↔ j < i := by
  have hsplit : rs.take j ++ rs[j] :: rs.drop (j + 1) = rs := by simp
  have h := @width_take_lt_iff (rs.take j) (rs.drop (j + 1)) rs[j] (hpos _ (getElem_mem hj)) i
  rwa [hsplit, length_take_of_le (Nat.le_of_lt hj)] at h

/-- `FindAllIndex` reports the occurrences that are kept. -/
theorem mem_findAllFrom_iff {rs : List Rune} (hpos : ∀ x ∈ rs, 0 < x.width) (hi : i < rs.length) :
    (∃ stop, (width (rs.take i), stop) ∈ findAllFrom lit 0 0 rs) ↔
      Kept lit (rs.map fun r => r.char.toNat) i := by
  induction i using Nat.strong_induction_on with
  | _ i ih =>
    have hsplit : rs.take i ++ rs[i] :: rs.drop (i + 1) = rs := by simp
    have hmem := @mem_findAllFrom (rs.take i) rs[i] (rs.drop (i + 1)) lit
      (by rwa [hsplit]) 0 0
    rw [hsplit, ← drop_eq_getElem_cons hi, map_drop] at hmem
    simp only [Nat.zero_add, Nat.zero_le, true_and] at hmem
    -- bytes and runes order the starts alike
    have hover : ∀ j < rs.length, (width (rs.take j) < width (rs.take i) ∧
        width (rs.take i) < width (rs.take (j + lit.length))) ↔ (j < i ∧ i < j + lit.length) :=
      fun j hj => and_congr (width_take_lt_take hpos hj i) (width_take_lt_take hpos hi _)
    rw [hmem, Kept]
    refine and_congr_right fun _ => ⟨fun hfree j hj hin hkept => ?_, fun hfree m hm hin => ?_⟩
    · obtain ⟨stop, hstop⟩ := (ih j hj (hj.trans hi)).mpr hkept
      obtain ⟨k, hk, heq⟩ := mem_findAllFrom_eq hstop
      simp only [Nat.zero_add, Prod.mk.injEq] at heq
      obtain ⟨hw, rfl⟩ := heq
      have hjk : j = k := by
        have h₁ := width_take_lt_take hpos hk j
        have h₂ := width_take_lt_take hpos (hj.trans hi) k
        omega
      subst hjk
      exact hfree _ hstop ((hover j hk).mpr ⟨hj, hin⟩)
    · obtain ⟨j, hj, rfl⟩ := mem_findAllFrom_eq hm
      simp only [Nat.zero_add] at hm hin
      obtain ⟨hji, hij⟩ := (hover j hj).mp hin
      exact hfree j hji hij ((ih j hji hj).mp ⟨_, hm⟩)

theorem lowerByte_of_ge (h : 0x80 ≤ b.toNat) : lowerByte b = b := by
  refine if_neg ?_
  rw [inRange_iff]
  omega

theorem lowerASCII_upper (h : isUpperASCII n) : lowerASCII n = n + 0x20 := if_pos h

theorem lowerByte_ofNat (h : n < 0x80) :
    lowerByte (UInt8.ofNat n) = UInt8.ofNat (lowerASCII n) := by
  have hin := @inRange_ofNat 0x41 0x5A n (by omega)
  by_cases hn : isUpperASCII n
  · rw [lowerByte, if_pos (hin.mpr hn), lowerASCII_upper hn, ← UInt8.toNat_inj, UInt8.toNat_add,
      toNat_ofNat (by omega), toNat_ofNat (by omega)]
    exact Nat.mod_eq_of_lt (show n + 0x20 < 256 by omega)
  · rw [lowerByte, if_neg (fun h => hn (hin.mp h)), lowerASCII_of_not_upper hn]

theorem lowerASCII_of_ge (h : 0x80 ≤ n) : lowerASCII n = n := by
  apply lowerASCII_of_not_upper
  unfold isUpperASCII
  omega

theorem lowerASCII_lt (h : n < 0x80) : lowerASCII n < 0x80 := by
  by_cases hn : isUpperASCII n
  · have : n ≤ 0x5A := hn.2
    rw [lowerASCII_upper hn]
    omega
  · rwa [lowerASCII_of_not_upper hn]

theorem lowerASCII_scalar (h : Scalar n) : Scalar (lowerASCII n) := by
  by_cases hn : n < 0x80
  · exact .inl (Nat.lt_trans (lowerASCII_lt hn) (by omega))
  · rwa [lowerASCII_of_ge (by omega)]

theorem lowerByte_encodeRune : (encodeRune r).map lowerByte = encodeRune (lowerASCII r) := by
  by_cases h : r < 0x80
  · rw [encodeRune, if_pos h, encodeRune, if_pos (lowerASCII_lt h), map_singleton,
      lowerByte_ofNat h]
  have hid : ∀ b ∈ encodeRune r, lowerByte b = id b := fun b hb =>
    lowerByte_of_ge (encodeRune_ge (by omega) hb)
  rw [lowerASCII_of_ge (by omega), map_congr_left hid, map_id]

theorem bytesToLowerASCII_encode : bytesToLowerASCII (encode rs) = encode (rs.map lowerASCII) := by
  rw [bytesToLowerASCII, encode, encode, map_flatMap, flatMap_map]
  simp [lowerByte_encodeRune]

theorem searchLowered_eq :
    searchLowered U pat buf =
      findAllLiteral ((pat.map Char.toNat).map U.toLower) (bytesToLowerASCII buf) := rfl

theorem rune_width_pos_of_mem (h : r ∈ runes buf) : 0 < r.width := by
  obtain ⟨tk, left, hrun⟩ := append_of_mem h
  exact rune_width_pos (runes_drop hrun)

theorem found_iff_kept (pre : Bytes) {next : Bytes} (hne : next ≠ []) (hnx : StartsRune next) :
    (∃ stop, (pre.length, stop) ∈ findAllLiteral lit (pre ++ next)) ↔
      lit <+: codes next ∧ ∀ j, j < (codes pre).length → (codes pre).length < j + lit.length →
        ¬ Kept lit (codes (pre ++ next)) j := by
  have hpos : ∀ r ∈ runes (pre ++ next), 0 < r.width := fun r hr => rune_width_pos_of_mem hr
  have hlt : (runes pre).length < (runes (pre ++ next)).length := by
    have := length_pos_iff.mpr (mt runes_eq_nil.mp hne)
    rw [runes_append pre hnx, length_append]
    omega
  have htake : (runes (pre ++ next)).take (runes pre).length = runes pre := by
    rw [runes_append pre hnx, take_left]
  have hdrop : (codes (pre ++ next)).drop (runes pre).length = codes next := by
    rw [codes, runes_append pre hnx, map_append, drop_left' (length_map _)]
    rfl
  have hkept := @mem_findAllFrom_iff (runes pre).length lit _ hpos hlt
  rw [htake, width_runes, Kept] at hkept
  have hlen : (codes pre).length = (runes pre).length := length_map _
  rw [findAllLiteral, hkept, hlen, ← hdrop]
  rfl

theorem map_prefix_map_iff {l : List ℕ} : l.map f <+: l.map g ++ rest ↔ ∀ r ∈ l, f r = g r := by
  rw [prefix_iff_eq_take, length_map, take_left' (length_map g), map_inj_left]

/-- A lowered literal is found where it occurs exactly if the tables do not move its runes other
than A-Z, and no occurrence up to case that is kept overlaps this one from before. -/
theorem lowered_literal_found_iff (U : Unicode) {pattern : List Char} {buf : Bytes} {position : ℕ}
    (hne : pattern ≠ []) (hocc : OccursAt pattern buf position) :
    (∃ stop, (position, stop) ∈ searchLowered U pattern buf) ↔
      (∀ c ∈ pattern, U.toLower c.toNat = lowerASCII c.toNat) ∧
        ∀ j, j < (codes (bytesToLowerASCII (buf.take position))).length →
          (codes (bytesToLowerASCII (buf.take position))).length < j + pattern.length →
          ¬ Kept (pattern.map fun c => lowerASCII c.toNat) (codes (bytesToLowerASCII buf)) j := by
  obtain ⟨pre, post, rfl, rfl⟩ := hocc
  obtain ⟨c, cs, rfl⟩ := exists_cons_of_ne_nil hne
  have hsca : ∀ r ∈ ((c :: cs).map Char.toNat).map lowerASCII, Scalar r := by
    intro r hr
    rw [map_map] at hr
    obtain ⟨d, -, rfl⟩ := mem_map.mp hr
    exact lowerASCII_scalar (scalar_toNat d)
  have hlow : bytesToLowerASCII (pre ++ encode ((c :: cs).map Char.toNat) ++ post) =
      bytesToLowerASCII pre ++
        (encode (((c :: cs).map Char.toNat).map lowerASCII) ++ bytesToLowerASCII post) := by
    rw [← bytesToLowerASCII_encode]
    simp [bytesToLowerASCII]
  have hlen : pre.length = (bytesToLowerASCII pre).length := by
    rw [bytesToLowerASCII, length_map]
  have hf : Scalar (lowerASCII c.toNat) := hsca _ (by simp)
  have htake : (pre ++ encode ((c :: cs).map Char.toNat) ++ post).take pre.length = pre := by
    rw [append_assoc, take_left]
  rw [searchLowered_eq, htake, hlow, hlen, found_iff_kept _ ?_ ?_,
    codes_encode hsca, map_prefix_map_iff, forall_mem_map]
  · refine and_congr_right fun heq => ?_
    have hlit : ((c :: cs).map Char.toNat).map U.toLower =
        (c :: cs).map fun c => lowerASCII c.toNat := by
      rw [map_map]
      exact map_congr_left heq
    rw [hlit, length_map]
  · simp [encode, encodeRune_ne_nil]
  rw [map_cons, map_cons, encode, flatMap_cons, append_assoc]
  exact startsRune_encodeRune hf _

theorem shouted_word_found :
    OccursAt ['F', 'o'] [0x66, 0x46, 0x6F] 1 ∧ ∃ stop, (1, stop) ∈
      searchLowered latin1 ['F', 'o'] [0x66, 0x46, 0x6F] := by
  have hocc : OccursAt ['F', 'o'] [0x66, 0x46, 0x6F] 1 := ⟨[0x66], [], by decide, rfl⟩
  have hcas : ∀ c ∈ ['F', 'o'], latin1.toLower c.toNat = lowerASCII c.toNat := by
    rw [forall_mem_cons, forall_mem_singleton]
    decide
  refine ⟨hocc, (lowered_literal_found_iff latin1 (by decide) hocc).mpr ⟨hcas, ?_⟩⟩
  intro j hj _ hkept
  obtain rfl : j = 0 := Nat.lt_one_iff.mp hj
  rw [Kept] at hkept
  exact absurd hkept.1 (by decide)

/-- The tables move É to é, which the bytes of the text are not. -/
theorem accented_word_missed :
    OccursAt ['É'] (encode [0xC9]) 0 ∧ searchLowered latin1 ['É'] (encode [0xC9]) = [] :=
  ⟨⟨[], [], by decide, rfl⟩, by decide⟩

end CaseLowering
