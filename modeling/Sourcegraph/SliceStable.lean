import Mathlib

/-! # The stable sort of Go

`sort.SliceStable` sorts blocks of a slice by insertion and merges them by rotations. It only swaps
elements. The comparison is given two indices, so it need not depend on the elements there. -/
namespace SliceStable

variable {α : Type}

/-- The comparison of two indices, for the current elements of the slice. -/
abbrev Less (α : Type) := List α → ℕ → ℕ → Bool

def swap (xs : List α) (i j : ℕ) : List α :=
  match xs[i]?, xs[j]? with
  | some x, some y => (xs.set i y).set j x
  | _, _ => xs

/-- The inner loop of `insertionSort`. -/
def insertAt (less : Less α) (a : ℕ) : ℕ → List α → List α
  | 0, xs => xs
  | j + 1, xs =>
    if a < j + 1 && less xs (j + 1) j then insertAt less a j (swap xs (j + 1) j) else xs

def insertionSort (less : Less α) (a b : ℕ) (xs : List α) : List α :=
  (List.range' (a + 1) (b - (a + 1))).foldl (fun xs i => insertAt less a i xs) xs

def swapRange (xs : List α) (a b n : ℕ) : List α :=
  (List.range n).foldl (fun xs i => swap xs (a + i) (b + i)) xs

/-- The loop of `rotate`, for blocks of `i` and `j` elements around `m`. Neither is empty. -/
def rotateLoop (m i j : ℕ) (xs : List α) : List α :=
  if i ≠ j ∧ 0 < i ∧ 0 < j then
    if i > j then rotateLoop m (i - j) j (swapRange xs (m - i) m j)
    else rotateLoop m i (j - i) (swapRange xs (m - i) (m + j - i) i)
  else swapRange xs (m - i) m i
termination_by i + j

def rotate (a m b : ℕ) (xs : List α) : List α := rotateLoop m (m - a) (b - m) xs

/-- The binary searches of `symMerge`. -/
def search (below : ℕ → Bool) (i j : ℕ) : ℕ :=
  if i < j then
    let h := (i + j) / 2
    if below h then search below (h + 1) j else search below i h
  else i
termination_by j - i

def symMerge (less : Less α) (a m b : ℕ) (xs : List α) : List α :=
  if m - a = 1 then
    let i := search (fun h => less xs h a) m b
    (List.range' a (i - 1 - a)).foldl (fun xs k => swap xs k (k + 1)) xs
  else if b - m = 1 then
    let i := search (fun h => !less xs m h) a m
    (List.range' (i + 1) (m - i)).reverse.foldl (fun xs k => swap xs k (k - 1)) xs
  else
    let mid := (a + b) / 2
    let n := mid + m
    let bounds := if m > mid then (n - b, mid) else (a, m)
    let start := search (fun c => !less xs (n - 1 - c) c) bounds.1 bounds.2
    let stop := n - start
    let rotated := if start < m && m < stop then rotate start m stop xs else xs
    let left := if a < start ∧ start < mid then symMerge less a start mid rotated else rotated
    if mid < stop ∧ stop < b then symMerge less mid stop b left else left
termination_by b - a
decreasing_by all_goals omega

def sortBlocks (less : Less α) (blockSize n a : ℕ) (xs : List α) : List α :=
  if 0 < blockSize ∧ a + blockSize ≤ n then
    sortBlocks less blockSize n (a + blockSize) (insertionSort less a (a + blockSize) xs)
  else insertionSort less a n xs
termination_by n - a

def mergeBlocks (less : Less α) (blockSize n a : ℕ) (xs : List α) : List α :=
  if 0 < blockSize ∧ a + 2 * blockSize ≤ n then
    mergeBlocks less blockSize n (a + 2 * blockSize)
      (symMerge less a (a + blockSize) (a + 2 * blockSize) xs)
  else if a + blockSize < n then symMerge less a (a + blockSize) n xs
  else xs
termination_by n - a

def mergeAll (less : Less α) (blockSize n : ℕ) (xs : List α) : List α :=
  if 0 < blockSize ∧ blockSize < n then
    mergeAll less (blockSize * 2) n (mergeBlocks less blockSize n 0 xs)
  else xs
termination_by n - blockSize

def sliceStable (less : Less α) (xs : List α) : List α :=
  mergeAll less 20 xs.length (sortBlocks less 20 xs.length 0 xs)

variable {xs : List α}

theorem search_eq_low (hij : i ≤ j) (h : ∀ k, i ≤ k → k < j → bl k = false) :
    search bl i j = i := by
  fun_induction search bl i j with
  | case1 i j hlt mid hbel ih =>
    rw [h mid (by omega) (by omega)] at hbel
    cases hbel
  | case2 i j hlt mid hbel ih => exact ih (by omega) fun k hik hkh => h k hik (by omega)
  | case3 i j hle => rfl

theorem search_eq_high (hij : i ≤ j) (h : ∀ k, i ≤ k → k < j → bl k = true) :
    search bl i j = j := by
  fun_induction search bl i j with
  | case1 i j hlt mid hbel ih => exact ih (by omega) fun k hik hkj => h k (by omega) hkj
  | case2 i j hlt mid hbel ih => exact absurd (h mid (by omega) (by omega)) hbel
  | case3 i j hle => omega

theorem insertionSort_eq_self (h : ∀ xs i j, j < i → i < n → less xs i j = false) (hb : b ≤ n) :
    insertionSort less a b xs = xs := by
  refine List.foldlRecOn (motive := (· = xs)) _ _ rfl fun ys hys i hi => ?_
  rw [List.mem_range'_1] at hi
  subst hys
  cases i with
  | zero => rfl
  | succ j => rw [insertAt, h ys (j + 1) j (Nat.lt_succ_self j) (by omega), Bool.and_false,
      if_neg Bool.false_ne_true]

theorem symMerge_eq_self (h : ∀ xs i j, j < i → i < n → less xs i j = false) (ham : a < m)
    (hmb : m < b) (hb : b ≤ n) (xs : List α) : symMerge less a m b xs = xs := by
  induction hsz : b - a using Nat.strong_induction_on generalizing a m b with
  | _ size ih =>
    rw [symMerge]
    by_cases hl : m - a = 1
    · have hsch : search (fun h => less xs h a) m b = m :=
        search_eq_low (le_of_lt hmb) fun k hk hkb => h xs k a (by omega) (by omega)
      simp only [hsch, Nat.sub_right_comm m 1 a, hl, Nat.sub_self]
      rfl
    rw [if_neg hl]
    by_cases hrt : b - m = 1
    · have hsch : search (fun h => !less xs m h) a m = m :=
        search_eq_high (le_of_lt ham) fun k hk hkm => by rw [h xs m k hkm (by omega)]; rfl
      rw [if_pos hrt]
      simp only [hsch, Nat.sub_self]
      rfl
    rw [if_neg hrt]
    by_cases hmid : m > (a + b) / 2
    · have hsch : search (fun c => !less xs ((a + b) / 2 + m - 1 - c) c)
          ((a + b) / 2 + m - b) ((a + b) / 2) = (a + b) / 2 :=
        search_eq_high (by omega) fun k hk hkm => by rw [h xs _ k (by omega) (by omega)]; rfl
      simp only [if_pos hmid, hsch, Nat.add_sub_cancel_left, Nat.lt_irrefl, decide_false,
        Bool.and_false, Bool.false_eq_true, if_false, and_false]
      split
      · exact ih _ (by omega) (by omega) hmb hb rfl
      · rfl
    · have hsch : search (fun c => !less xs ((a + b) / 2 + m - 1 - c) c) a m = m :=
        search_eq_high (le_of_lt ham) fun k hk hkm => by rw [h xs _ k (by omega) (by omega)]; rfl
      simp only [if_neg hmid, hsch, Nat.add_sub_cancel, Nat.lt_irrefl, decide_false,
        Bool.false_and, Bool.false_eq_true, if_false, false_and]
      split
      · exact ih _ (by omega) ham (by omega) (by omega) rfl
      · rfl

theorem sortBlocks_eq_self (h : ∀ xs i j, j < i → i < n → less xs i j = false) :
    sortBlocks less bs n a xs = xs := by
  fun_induction sortBlocks less bs n a xs with
  | case1 a xs hle ih =>
    rw [insertionSort_eq_self h hle.2] at ih ⊢
    exact ih
  | case2 a xs hgt => exact insertionSort_eq_self h (le_refl n)

theorem mergeBlocks_eq_self (h : ∀ xs i j, j < i → i < n → less xs i j = false)
    (hsz : 0 < bs) (a : ℕ) (xs : List α) : mergeBlocks less bs n a xs = xs := by
  fun_induction mergeBlocks less bs n a xs with
  | case1 a xs hle ih =>
    have hmer := symMerge_eq_self h (Nat.lt_add_of_pos_right hsz)
      (show a + bs < a + 2 * bs by omega) hle.2 xs
    rw [hmer] at ih ⊢
    exact ih
  | case2 a xs hgt hlt =>
    exact symMerge_eq_self h (Nat.lt_add_of_pos_right hsz) hlt (le_refl n) xs
  | case3 a xs hgt hge => rfl

theorem mergeAll_eq_self (h : ∀ xs i j, j < i → i < n → less xs i j = false) :
    mergeAll less bs n xs = xs := by
  fun_induction mergeAll less bs n xs with
  | case1 bs xs hlt ih =>
    rw [mergeBlocks_eq_self h hlt.1] at ih ⊢
    exact ih
  | case2 bs xs hge => rfl

theorem sliceStable_eq_self (h : ∀ ys i j, j < i → i < xs.length → less ys i j = false) :
    sliceStable less xs = xs := by
  rw [sliceStable, sortBlocks_eq_self h, mergeAll_eq_self h]

theorem sliceStable_eq_insertionSort (less : Less α) (h : xs.length ≤ 20) :
    sliceStable less xs = insertionSort less 0 xs.length xs := by
  have hmer : ∀ ys : List α, mergeAll less 20 xs.length ys = ys := by
    intro ys
    rw [mergeAll, if_neg (by omega)]
  rw [sliceStable, hmer, sortBlocks]
  split
  · have hlen : xs.length = 20 := by omega
    rw [hlen, sortBlocks]
    rfl
  · rfl

end SliceStable
