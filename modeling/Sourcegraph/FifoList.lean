import Mathlib

/-! # The FIFO list

A list in Redis keeps the items that were inserted last. The size is asked for at every call. -/
namespace FifoList

open List

/-- The index a Redis command means: a negative one counts from the end. -/
def position (l : List α) (i : ℤ) : ℤ := if i < 0 then l.length + i else i

/-- `LRANGE`, with inclusive bounds. -/
def lrange (l : List α) (start stop : ℤ) : List α :=
  (l.take (position l stop + 1).toNat).drop (position l start).toNat

/-- `LTRIM` keeps what `LRANGE` returns. -/
def ltrim (l : List α) (start stop : ℤ) : List α := lrange l start stop

def maxSize (size : ℤ) : ℤ := if size < 0 then 0 else size

-- The error for an item that is not valid UTF-8 is built and not returned.
def insert (size : ℤ) (b : α) (l : List α) : List α :=
  if maxSize size = 0 then ltrim l 0 0 else ltrim (b :: l) 0 (maxSize size - 1)

def slice (size : ℤ) (l : List α) (start stop : ℤ) : List α :=
  let bs := lrange l start stop
  if maxSize size < bs.length then bs.take (maxSize size).toNat else bs

/-- The list after a sequence of insertions under changing sizes, the latest first. -/
def stored : List (ℤ × α) → List α
  | [] => []
  | (size, b) :: earlier => insert size b (stored earlier)

/-- What an insertion is to leave: the items that are newest, as many as the size allows. -/
def newest (size : ℤ) (b : α) (l : List α) : List α :=
  (if 0 < size then b :: l else l).take size.toNat

/-- Every insertion of a sequence leaves the newest items, and a slice is read from them. -/
structure Recent (inserts : List (ℤ × α)) (size : ℤ) : Prop where
  inserted : ∀ m b earlier, (m, b) :: earlier <:+ inserts →
    stored ((m, b) :: earlier) = newest m b (stored earlier)
  bounded : ∀ m b earlier, (m, b) :: earlier <:+ inserts →
    (stored ((m, b) :: earlier)).length ≤ m.toNat
  sliced : ∀ i j, slice size (stored inserts) i j = lrange ((stored inserts).take size.toNat) i j

theorem position_nonneg (h : 0 ≤ i) : position l i = i := if_neg (Int.not_lt.mpr h)

theorem lrange_zero (hn : 0 ≤ n) : lrange l 0 n = l.take (n + 1).toNat := by
  rw [lrange, position_nonneg hn]
  rfl

theorem maxSize_eq : maxSize m = m.toNat := by
  rw [maxSize]
  split <;> omega

theorem insert_positive (h : 0 < m) : insert m b l = newest m b l := by
  rw [insert, maxSize_eq, if_neg (by omega), ltrim, lrange_zero (by omega), Int.sub_add_cancel,
    Int.toNat_natCast, newest, if_pos h]

theorem insert_disabled (h : m ≤ 0) : insert m b l = l.take 1 := by
  rw [insert, maxSize_eq, if_pos (by omega)]
  rfl

theorem insert_newest_iff : insert m b l = newest m b l ↔ 0 < m ∨ l = [] := by
  by_cases hm : 0 < m
  · exact iff_of_true (insert_positive hm) (.inl hm)
  have hz : m.toNat = 0 := by omega
  rw [insert_disabled (by omega), newest, hz, or_iff_right hm]
  simp

theorem stored_eq_nil_iff : stored l = [] ↔ ∀ x ∈ l, x.1 ≤ 0 := by
  induction l with
  | nil => simp [stored]
  | cons x l ih =>
    rw [stored, forall_mem_cons, ← ih]
    by_cases hx : 0 < x.1
    · rw [insert_positive hx, newest, if_pos hx]
      simp [Int.not_le.mpr hx]
    · rw [insert_disabled (by omega)]
      simp [Int.not_lt.mp hx]

theorem inserted_iff {inserts : List (ℤ × α)} :
    (∀ m b earlier, (m, b) :: earlier <:+ inserts →
      stored ((m, b) :: earlier) = newest m b (stored earlier)) ↔
      inserts.Pairwise fun later earlier => 0 < later.1 ∨ earlier.1 ≤ 0 := by
  induction inserts with
  | nil => simp
  | cons x l ih =>
    have hx : stored (x :: l) = newest x.1 x.2 (stored l) ↔ ∀ y ∈ l, 0 < x.1 ∨ y.1 ≤ 0 := by
      rw [stored, insert_newest_iff, stored_eq_nil_iff]
      simp only [← forall_or_left, ← or_assoc, or_comm, imp_iff_or_not]
    rw [pairwise_cons, ← ih, ← hx]
    constructor
    · intro h
      exact ⟨h _ _ l (suffix_refl _), fun m b earlier hs => h m b earlier (hs.trans (suffix_cons x l))⟩
    · rintro ⟨hx, hl⟩ m b earlier hs
      rcases suffix_cons_iff.mp hs with he | hs
      · obtain ⟨rfl, rfl⟩ := cons.inj he
        exact hx
      · exact hl m b earlier hs

theorem length_lrange : (lrange l i j).length ≤ l.length := by
  rw [lrange, length_drop, length_take]
  omega

theorem sliced_iff {l : List α} : (∀ i j, slice m l i j = lrange (l.take m.toNat) i j) ↔
    m ≤ 0 ∨ l.length ≤ m.toNat := by
  constructor
  · intro h
    by_contra hm
    -- the item after the newest ones is returned at its own position
    have hat := congrArg length (h m m)
    rw [slice, lrange, lrange, position_nonneg (by omega), position_nonneg (by omega)] at hat
    have hone : (drop m.toNat (take (m + 1).toNat l)).length = 1 := by
      rw [length_drop, length_take]
      omega
    rw [maxSize_eq, if_neg (by omega), hone, length_drop, length_take, length_take] at hat
    omega
  · rintro (hm | hl) i j
    · have hz : m.toNat = 0 := by omega
      have hnil := length_eq_zero_iff.mp (Nat.le_zero.mp (@length_lrange α [] i j))
      rw [slice, maxSize_eq, hz, take_zero, hnil]
      split
      · rfl
      · exact length_eq_zero_iff.mp (by omega)
    · have hle := @length_lrange _ l i j
      rw [take_of_length_le hl, slice, maxSize_eq, if_neg (by omega)]

/-- The list holds the newest items unless the size drops to zero when the list has items, and a
slice is read from them unless the list is longer than the size by then. -/
theorem recent_iff (inserts : List (ℤ × α)) (size : ℤ) : Recent inserts size ↔
    (inserts.Pairwise fun later earlier => 0 < later.1 ∨ earlier.1 ≤ 0) ∧
      (size ≤ 0 ∨ (stored inserts).length ≤ size.toNat) := by
  rw [← inserted_iff, ← sliced_iff]
  refine ⟨fun h => ⟨h.inserted, h.sliced⟩, fun h => ⟨h.1, fun m b earlier hs => ?_, h.2⟩⟩
  rw [h.1 m b earlier hs]
  exact length_take_le _ _

/-- An insertion under size zero keeps the newest item. A slice behind the newest item is cut to
the size, not to the position. -/
theorem disabled_list_kept : stored [(0, "b"), (1, "a")] = ["a"] ∧ newest 0 "b" ["a"] = [] ∧
    slice 1 (stored [(2, "b"), (2, "a")]) 1 1 = ["a"] ∧
    lrange ((stored [(2, "b"), (2, "a")]).take 1) 1 1 = [] := by decide

end FifoList
