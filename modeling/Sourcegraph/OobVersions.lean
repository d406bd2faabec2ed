import Mathlib

/-! # Versions of an instance

Versions are ordered by their major and then by their minor number. Which version precedes the first
one of a major release is only known for those listed in the source. -/
namespace OobVersions

open List

/-- Go's `int` has 64 bits. -/
structure Version where
  major : Int64
  minor : Int64
  dev : Bool := false
  deriving DecidableEq

inductive VersionOrder where
  | before
  | equal
  | after
  deriving DecidableEq

def lastMinorVersionInMajorRelease (major : Int64) : Option Int64 :=
  if major = 3 then some 43 else if major = 4 then some 5 else none

def newVersion (major minor : Int64) : Version := ⟨major, minor, false⟩

def Version.string (v : Version) : String := toString v.major ++ "." ++ toString v.minor

def Version.next (v : Version) : Version :=
  match lastMinorVersionInMajorRelease v.major with
  | some minor => if minor = v.minor then newVersion (v.major + 1) 0
    else newVersion v.major (v.minor + 1)
  | none => newVersion v.major (v.minor + 1)

/-- `none` is the false flag. -/
def Version.previous (v : Version) : Option Version :=
  if v.minor = 0 then
    (lastMinorVersionInMajorRelease (v.major - 1)).map (newVersion (v.major - 1))
  else some (newVersion v.major (v.minor - 1))

def comparePairs : List (Int64 × Int64) → VersionOrder
  | [] => .equal
  | (a, b) :: rest => if a < b then .before else if b < a then .after else comparePairs rest

def compareVersions (a b : Version) : VersionOrder :=
  comparePairs [(a.major, b.major), (a.minor, b.minor)]

def pointIntersectsInterval (lower upper point : Version) : Bool :=
  compareVersions point lower ≠ .before && compareVersions upper point ≠ .before

/-- The place of a version, whether or not it is a development version. -/
def Version.key (v : Version) : ℤ ×ₗ ℤ := toLex (v.major.toInt, v.minor.toInt)

variable {a b : Version}

theorem key_lt_iff : a.key < b.key ↔ a.major.toInt < b.major.toInt ∨
    a.major.toInt = b.major.toInt ∧ a.minor.toInt < b.minor.toInt :=
  Prod.Lex.toLex_lt_toLex

theorem key_le_iff : a.key ≤ b.key ↔ a.major.toInt < b.major.toInt ∨
    a.major.toInt = b.major.toInt ∧ a.minor.toInt ≤ b.minor.toInt :=
  Prod.Lex.toLex_le_toLex

theorem compareVersions_before : compareVersions a b = .before ↔ a.key < b.key := by
  rw [key_lt_iff]
  simp only [compareVersions, comparePairs, Int64.lt_iff_toInt_lt]
  split_ifs <;> simp <;> omega

theorem compareVersions_after : compareVersions a b = .after ↔ b.key < a.key := by
  rw [key_lt_iff]
  simp only [compareVersions, comparePairs, Int64.lt_iff_toInt_lt]
  split_ifs <;> simp <;> omega

theorem pointIntersectsInterval_iff {lower upper point : Version} :
    pointIntersectsInterval lower upper point = true ↔
      lower.key ≤ point.key ∧ point.key ≤ upper.key := by
  simp [pointIntersectsInterval, compareVersions_before]

theorem key_injective (h : a.key = b.key) (hdev : a.dev = b.dev) : a = b := by
  obtain ⟨major, minor, dev⟩ := b
  have hkey := congrArg ofLex h
  obtain ⟨hmajor, hminor⟩ := Prod.mk.inj hkey
  obtain rfl := Int64.toInt_inj.mp hmajor
  obtain rfl := Int64.toInt_inj.mp hminor
  obtain rfl := hdev
  rfl

variable {v p upper : Version}

theorem previous_dev (h : v.previous = some p) : p.dev = false := by
  unfold Version.previous at h
  split at h
  · obtain ⟨last, -, rfl⟩ := Option.map_eq_some_iff.mp h
    rfl
  cases h
  rfl

/-- The loop over `next`, which is given up after `fuel` comparisons. -/
def upgradeLoop (upper : Version) : ℕ → Version → Option (List Version)
  | 0, _ => none
  | fuel + 1, v =>
    if compareVersions v upper ≠ .after then (upgradeLoop upper fuel v.next).map (v :: ·)
    else some []

def upgradeRange (fuel : ℕ) (lower upper : Version) : Option (Except String (List Version)) :=
  if compareVersions lower upper ≠ .before then
    some (.error ("invalid range (from=" ++ lower.string ++ " >= to=" ++ upper.string ++ ")"))
  else (upgradeLoop upper fuel lower).map .ok

theorem add_one_toInt {n : Int64} (h : n ≠ Int64.maxValue) : (n + 1).toInt = n.toInt + 1 := by
  have hne : n.toInt ≠ 2 ^ 63 - 1 := by
    rw [← Int64.toInt_maxValue]
    exact fun he => h (Int64.toInt_inj.mp he)
  have hlow := Int64.le_toInt n
  have hhigh := Int64.toInt_lt n
  rw [Int64.toInt_add, show (1 : Int64).toInt = 1 from rfl]
  exact Int.bmod_eq_of_le (by omega) (by omega)

theorem lastMinor_bounds {m last : Int64} (h : last ∈ lastMinorVersionInMajorRelease m) :
    0 ≤ last.toInt ∧ last.toInt ≤ 43 ∧ m ≠ Int64.maxValue := by
  unfold lastMinorVersionInMajorRelease at h
  split_ifs at h with hthree hfour
  · cases h
    subst hthree
    decide
  · cases h
    subst hfour
    decide
  · cases h

theorem next_cases (v : Version) :
    lastMinorVersionInMajorRelease v.major = some v.minor ∧
        v.next = newVersion (v.major + 1) 0 ∧ (v.major + 1).toInt = v.major.toInt + 1 ∨
      lastMinorVersionInMajorRelease v.major ≠ some v.minor ∧
        v.next = newVersion v.major (v.minor + 1) := by
  rw [Version.next]
  cases hlast : lastMinorVersionInMajorRelease v.major with
  | none => simp
  | some last =>
    have hmajor := add_one_toInt (lastMinor_bounds hlast).2.2
    by_cases h : last = v.minor <;> simp [h, hmajor]

/-- Every major release that is left on the way has a known last minor version, and the first of
them is not yet past it. The release of `upper` is left too if no minor number follows that of
`upper`. -/
def Passable (lower upper : Version) : Prop :=
  ∀ m, lower.major ≤ m → m < upper.major ∨ m = upper.major ∧ upper.minor = Int64.maxValue →
    ∃ last ∈ lastMinorVersionInMajorRelease m, m = lower.major → lower.minor ≤ last

theorem Passable.minor_ne (h : Passable v upper) (hle : v.key ≤ upper.key) :
    v.minor ≠ Int64.maxValue := by
  intro hmax
  rw [key_le_iff, hmax, Int64.toInt_maxValue] at hle
  have hleft : v.major < upper.major ∨ v.major = upper.major ∧ upper.minor = Int64.maxValue := by
    rcases hle with hlt | ⟨he, hminor⟩
    · exact .inl (Int64.lt_iff_toInt_lt.mpr hlt)
    · refine .inr ⟨Int64.toInt_inj.mp he, Int64.toInt_inj.mp ?_⟩
      rw [Int64.toInt_maxValue]
      have := Int64.toInt_lt upper.minor
      omega
  obtain ⟨last, hmem, hbound⟩ := h v.major (Int64.le_refl _) hleft
  have hle := Int64.le_iff_toInt_le.mp (hbound rfl)
  rw [hmax, Int64.toInt_maxValue] at hle
  have := lastMinor_bounds hmem
  omega

theorem Passable.next (h : Passable v upper) (hle : v.key ≤ upper.key) :
    Passable v.next upper ∧ v.key < v.next.key := by
  rw [key_lt_iff]
  rcases next_cases v with ⟨_, hnext, hmajor⟩ | ⟨hlast, hnext⟩
  · rw [hnext]
    refine ⟨fun m hlow hleft => ?_, .inl (by simp only [newVersion]; omega)⟩
    have hm := Int64.le_iff_toInt_le.mp hlow
    simp only [newVersion] at hm
    obtain ⟨last, hmem, _⟩ := h m (Int64.le_iff_toInt_le.mpr (by omega)) hleft
    exact ⟨last, hmem, fun _ => Int64.le_iff_toInt_le.mpr (lastMinor_bounds hmem).1⟩
  · have hminor := add_one_toInt (h.minor_ne hle)
    rw [hnext]
    refine ⟨fun m hlow hleft => ?_, .inr ⟨rfl, by simp only [newVersion]; omega⟩⟩
    obtain ⟨last, hmem, hbound⟩ := h m hlow hleft
    refine ⟨last, hmem, fun hm => ?_⟩
    have hne : last.toInt ≠ v.minor.toInt := by
      intro he
      obtain rfl := Int64.toInt_inj.mp he
      exact hlast (hm ▸ hmem)
    have hle := Int64.le_iff_toInt_le.mp (hbound hm)
    rw [Int64.le_iff_toInt_le]
    simp only [newVersion]
    omega

/-- What is left in minor versions, a major release counting for more than the longest one. -/
def distance (upper v : Version) : ℤ :=
  max upper.minor.toInt 0 + 44 * (upper.major.toInt - v.major.toInt) - v.minor.toInt

theorem Passable.distance_next (h : Passable v upper) (hle : v.key ≤ upper.key) :
    distance upper v.next < distance upper v := by
  unfold distance
  rcases next_cases v with ⟨hlast, hnext, hmajor⟩ | ⟨hlast, hnext⟩
  · have := lastMinor_bounds hlast
    have hzero : (0 : Int64).toInt = 0 := rfl
    simp only [hnext, newVersion]
    omega
  · have hminor := add_one_toInt (h.minor_ne hle)
    simp only [hnext, newVersion]
    omega

theorem Passable.distance_nonneg (h : Passable v upper) (hle : v.key ≤ upper.key) :
    0 ≤ distance upper v := by
  unfold distance
  rw [key_le_iff] at hle
  rcases hle with hlt | ⟨he, hminor⟩
  · obtain ⟨last, hmem, hbound⟩ := h v.major (Int64.le_refl _)
      (.inl (Int64.lt_iff_toInt_lt.mpr hlt))
    have := lastMinor_bounds hmem
    have := Int64.le_iff_toInt_le.mp (hbound rfl)
    omega
  · omega

/-- The loop goes upwards until it has passed `upper`. -/
theorem Passable.passes (h : Passable v upper) (n : ℕ) (hn : distance upper v < n) :
    ∃ k, upper.key < (Version.next^[k] v).key ∧
      ∀ j < k, v.key ≤ (Version.next^[j] v).key ∧ (Version.next^[j] v).key ≤ upper.key := by
  induction n generalizing v with
  | zero =>
    refine ⟨0, ?_, by simp⟩
    by_contra hle
    have := h.distance_nonneg (not_lt.mp hle)
    omega
  | succ n ih =>
    by_cases hle : v.key ≤ upper.key
    · obtain ⟨hnext, hlt⟩ := h.next hle
      have hless := h.distance_next hle
      obtain ⟨k, hk, hbefore⟩ := ih hnext (by omega)
      refine ⟨k + 1, hk, fun j hj => ?_⟩
      cases j with
      | zero => exact ⟨le_refl _, hle⟩
      | succ j =>
        obtain ⟨hlow, hhigh⟩ := hbefore j (by omega)
        exact ⟨(le_of_lt hlt).trans hlow, hhigh⟩
    · exact ⟨0, not_le.mp hle, by simp⟩

theorem upgradeLoop_cons (fuel : ℕ) (h : v.key ≤ upper.key) :
    upgradeLoop upper (fuel + 1) v = (upgradeLoop upper fuel v.next).map (v :: ·) := by
  have hle : ¬ compareVersions v upper = .after := by
    rw [compareVersions_after, not_lt]
    exact h
  rw [upgradeLoop, if_pos hle]

theorem upgradeLoop_eq (hbefore : ∀ j < k, (Version.next^[j] v).key ≤ upper.key)
    (h : upper.key < (Version.next^[k] v).key) :
    upgradeLoop upper (k + 1) v = some (iterate Version.next v k) := by
  induction k generalizing v with
  | zero =>
    rw [Function.iterate_zero_apply] at h
    rw [upgradeLoop, if_neg (not_not.mpr (compareVersions_after.mpr h))]
    rfl
  | succ k ih =>
    have hle : v.key ≤ upper.key := hbefore 0 (Nat.zero_lt_succ k)
    rw [upgradeLoop_cons (k + 1) hle, ih (fun j hj => hbefore (j + 1) (Nat.succ_lt_succ hj)) h]
    rfl

theorem upgradeLoop_none {P : Version → Prop}
    (h : ∀ v, P v → v.key ≤ upper.key ∧ P v.next) (hv : P v) (fuel : ℕ) :
    upgradeLoop upper fuel v = none := by
  induction fuel generalizing v with
  | zero => rfl
  | succ fuel ih => rw [upgradeLoop_cons fuel (h v hv).1, ih (h v hv).2, Option.map_none]

/-- A major release without a known last minor version is never left. -/
theorem upgradeLoop_unlisted {m : Int64} (hm : lastMinorVersionInMajorRelease m = none)
    (hle : ∀ w : Version, w.major ≤ m → w.key ≤ upper.key) (hv : v.major ≤ m) (fuel : ℕ) :
    upgradeLoop upper fuel v = none := by
  refine upgradeLoop_none (P := fun w => w.major ≤ m) (fun w hw => ⟨hle w hw, ?_⟩) hv fuel
  rcases next_cases w with ⟨hlast, hnext, hmajor⟩ | ⟨_, hnext⟩
  · have hne : w.major.toInt ≠ m.toInt := by
      intro he
      rw [Int64.toInt_inj.mp he, hm] at hlast
      cases hlast
    rw [Int64.le_iff_toInt_le] at hw ⊢
    simp only [hnext, newVersion]
    omega
  · rw [hnext]
    exact hw

/-- Past the last minor version of its major release the loop comes to the least minor number. -/
theorem upgradeLoop_below {lower : Version}
    (hlast : last ∈ lastMinorVersionInMajorRelease lower.major) (hlt : last < lower.minor)
    (hle : ∀ w : Version, w.major = lower.major → w.key ≤ upper.key)
    (hmajor : v.major = lower.major) (hminor : lower.minor ≤ v.minor)
    (h : upgradeLoop upper fuel v = some versions) : ∃ w ∈ versions, w.key < lower.key := by
  induction fuel generalizing v versions with
  | zero => cases h
  | succ fuel ih =>
    rw [upgradeLoop_cons fuel (hle v hmajor)] at h
    obtain ⟨rest, hrest, rfl⟩ := Option.map_eq_some_iff.mp h
    rw [Int64.lt_iff_toInt_lt] at hlt
    rw [Int64.le_iff_toInt_le] at hminor
    have hnext : v.next = newVersion v.major (v.minor + 1) := by
      rcases next_cases v with ⟨hlisted, -, -⟩ | ⟨-, hnext⟩
      · rw [hmajor, Option.mem_def.mp hlast] at hlisted
        cases hlisted
        omega
      · exact hnext
    by_cases hmax : v.minor = Int64.maxValue
    · cases fuel with
      | zero => cases hrest
      | succ fuel =>
        have hkey : v.next.major = lower.major := by
          rw [hnext]
          exact hmajor
        rw [upgradeLoop_cons fuel (hle v.next hkey)] at hrest
        obtain ⟨rest, -, rfl⟩ := Option.map_eq_some_iff.mp hrest
        refine ⟨v.next, by simp, key_lt_iff.mpr (.inr ⟨by rw [hkey], ?_⟩)⟩
        have hwrap : (Int64.maxValue + 1).toInt = -2 ^ 63 := by decide
        have := lastMinor_bounds hlast
        simp only [hnext, newVersion, hmax, hwrap]
        omega
    · have hsucc := add_one_toInt hmax
      obtain ⟨w, hw, hbelow⟩ := ih (by rw [hnext]; exact hmajor) (by
        rw [Int64.le_iff_toInt_le, hnext]
        simp only [newVersion]
        omega) hrest
      exact ⟨w, mem_cons_of_mem _ hw, hbelow⟩

/-- The versions from `lower` on, one after the other, as far as `upper`. -/
structure Contiguous (lower upper : Version) (versions : List Version) : Prop where
  starts : versions.head? = some lower
  steps : versions.IsChain fun v w => w = v.next
  within : ∀ v ∈ versions, lower.key ≤ v.key ∧ v.key ≤ upper.key
  complete : ∀ k, (∀ j ≤ k, (Version.next^[j] lower).key ≤ upper.key) →
    Version.next^[k] lower ∈ versions

theorem key_le_of_left {m : Int64}
    (hleft : m < upper.major ∨ m = upper.major ∧ upper.minor = Int64.maxValue)
    (h : v.major ≤ m) : v.key ≤ upper.key := by
  rw [Int64.le_iff_toInt_le] at h
  rw [Int64.lt_iff_toInt_lt] at hleft
  rw [key_le_iff]
  rcases hleft with hlt | ⟨rfl, hmax⟩
  · omega
  · have := Int64.toInt_lt v.minor
    rw [hmax, Int64.toInt_maxValue]
    omega

theorem passable_of_upgradeLoop {lower : Version}
    (h : upgradeLoop upper fuel lower = some versions)
    (hwithin : ∀ v ∈ versions, lower.key ≤ v.key) : Passable lower upper := by
  intro m hlow hleft
  cases hlast : lastMinorVersionInMajorRelease m with
  | none =>
    rw [upgradeLoop_unlisted hlast (fun w => key_le_of_left hleft) hlow fuel] at h
    cases h
  | some last =>
    refine ⟨last, rfl, fun hm => ?_⟩
    by_contra hgt
    subst hm
    obtain ⟨w, hw, hbelow⟩ := upgradeLoop_below hlast (Int64.not_le.mp hgt)
      (fun w hw => key_le_of_left hleft (Int64.le_of_eq hw)) rfl (Int64.le_refl _) h
    exact absurd (hwithin w hw) (not_le.mpr hbelow)

/-- Where a major release has no known last minor version, its minor versions never end. -/
theorem upgradeRange_contiguous_iff {lower : Version}
    (h : compareVersions lower upper = .before) :
    (∃ fuel versions, upgradeRange fuel lower upper = some (.ok versions) ∧
      Contiguous lower upper versions) ↔ Passable lower upper := by
  have hrange : ∀ fuel, upgradeRange fuel lower upper = (upgradeLoop upper fuel lower).map .ok :=
    fun fuel => if_neg (not_not.mpr h)
  constructor
  · rintro ⟨fuel, versions, hrun, hcontiguous⟩
    rw [hrange] at hrun
    obtain ⟨versions, hloop, heq⟩ := Option.map_eq_some_iff.mp hrun
    cases heq
    exact passable_of_upgradeLoop hloop fun v hv => (hcontiguous.within v hv).1
  · intro hpassable
    obtain ⟨k, hpast, hbefore⟩ := hpassable.passes (distance upper lower + 1).toNat (by omega)
    refine ⟨k + 1, iterate Version.next lower k, ?_, ?_, ?_, fun v hv => ?_, fun i hi => ?_⟩
    · rw [hrange, upgradeLoop_eq (fun j hj => (hbefore j hj).2) hpast]
      rfl
    · cases k with
      | zero => exact absurd (compareVersions_before.mp h) (lt_asymm hpast)
      | succ k => rfl
    · refine isChain_iff_getElem.mpr fun i hi => ?_
      rw [getElem_iterate, getElem_iterate, Function.iterate_succ_apply']
    · obtain ⟨j, hj, rfl⟩ := mem_iterate.mp hv
      exact hbefore j hj
    · refine mem_iterate.mpr ⟨i, ?_, rfl⟩
      by_contra hle
      exact absurd (hi k (not_lt.mp hle)) (not_le.mpr hpast)

theorem upgradeRange_across_majors : ∃ fuel versions,
    upgradeRange fuel (newVersion 3 42) (newVersion 4 1) = some (.ok versions) ∧
      Contiguous (newVersion 3 42) (newVersion 4 1) versions := by
  refine (upgradeRange_contiguous_iff (by decide)).mpr fun m hlow hleft => ?_
  have hm : m = 3 := by
    rcases hleft with hlt | ⟨-, hmax⟩
    · rw [Int64.le_iff_toInt_le] at hlow
      rw [Int64.lt_iff_toInt_lt] at hlt
      exact Int64.toInt_inj.mp (le_antisymm (Int.lt_add_one_iff.mp hlt) hlow)
    · exact absurd hmax (by decide)
  subst hm
  exact ⟨43, rfl, fun _ => by decide⟩

/-- In the second range no minor number follows the last one. -/
theorem upgradeRange_from_last_release :
    compareVersions (newVersion 5 0) (newVersion 6 0) = .before ∧
      (∀ fuel, upgradeRange fuel (newVersion 5 0) (newVersion 6 0) = none) ∧
      ∀ fuel, upgradeRange fuel (newVersion 5 0) (newVersion 5 Int64.maxValue) = none := by
  have hnone : ∀ upper fuel, compareVersions (newVersion 5 0) upper = .before →
      (5 < upper.major ∨ 5 = upper.major ∧ upper.minor = Int64.maxValue) →
      upgradeRange fuel (newVersion 5 0) upper = none := by
    intro upper fuel hbefore hleft
    rw [upgradeRange, if_neg (not_not.mpr hbefore), upgradeLoop_unlisted (m := 5) rfl
      (fun w => key_le_of_left hleft) (Int64.le_refl _) fuel]
    rfl
  exact ⟨by decide, fun fuel => hnone _ fuel (by decide) (by decide),
    fun fuel => hnone _ fuel (by decide) (by decide)⟩

end OobVersions
