import Mathlib

/-! # Binary heaps behind an interface

The operations of a heap that can only compare and swap the elements at two positions. What they
do to the order is said about the keys at the positions. -/
namespace BinaryHeap

structure Interface (S : Type) where
  len : S → ℕ
  less : S → ℕ → ℕ → Bool
  swap : S → ℕ → ℕ → S

def parent (k : ℕ) : ℕ := (k - 1) / 2

section Operations

variable {S : Type} (I : Interface S)

def up : ℕ → S → ℕ → S
  | 0, s, _ => s
  | fuel + 1, s, j =>
    if j = 0 || !I.less s j (parent j) then s
    else up fuel (I.swap s (parent j) j) (parent j)

/-- The child of `i` to compare with, of which there is at least one before `n`. -/
def child (n : ℕ) (s : S) (i : ℕ) : ℕ :=
  if 2 * i + 2 < n && I.less s (2 * i + 2) (2 * i + 1) then 2 * i + 2 else 2 * i + 1

/-- The last position of the element that was sifted down is returned, too. -/
def down (n : ℕ) : ℕ → S → ℕ → S × ℕ
  | 0, s, i => (s, i)
  | fuel + 1, s, i =>
    if n ≤ 2 * i + 1 then (s, i)
    else if !I.less s (child I n s i) i then (s, i)
    else down n fuel (I.swap s i (child I n s i)) (child I n s i)

def sift (n : ℕ) (s : S) (i : ℕ) : S :=
  let (s', i') := down I n n s i
  if i' > i then s' else up I i s' i

def fix (s : S) (i : ℕ) : S := sift I (I.len s) s i

end Operations

section Keys

variable {K : Type} [LinearOrder K] {v : ℕ → K}

def Ordered (v : ℕ → K) (n : ℕ) : Prop := ∀ k, 0 < k → k < n → v (parent k) ≤ v k

structure UpOrdered (v : ℕ → K) (n j : ℕ) : Prop where
  others : ∀ k, 0 < k → k < n → k ≠ j → v (parent k) ≤ v k
  grand : ∀ k, 0 < k → k < n → parent k = j → 0 < j → v (parent j) ≤ v k

structure DownOrdered (v : ℕ → K) (n i : ℕ) : Prop where
  others : ∀ k, 0 < k → k < n → parent k ≠ i → v (parent k) ≤ v k
  grand : ∀ k, 0 < k → k < n → parent k = i → 0 < i → v (parent i) ≤ v k

structure Around (v : ℕ → K) (n i : ℕ) : Prop where
  others : ∀ k, 0 < k → k < n → k ≠ i → parent k ≠ i → v (parent k) ≤ v k
  grand : ∀ k, 0 < k → k < n → parent k = i → 0 < i → v (parent i) ≤ v k

def exchange (v : ℕ → K) (i j k : ℕ) : K := if k = i then v j else if k = j then v i else v k

theorem parent_lt (h : 0 < j) : parent j < j := by
  rw [parent]
  omega

theorem parent_eq_iff (h : 0 < j) : parent j = i ↔ j = 2 * i + 1 ∨ j = 2 * i + 2 := by
  rw [parent]
  omega

theorem Ordered.head_le (h : Ordered v n) (hk : k < n) : v 0 ≤ v k := by
  induction k using Nat.strongRecOn with
  | ind k ih =>
    by_cases hz : k = 0
    · rw [hz]
    have hpos : 0 < k := Nat.pos_of_ne_zero hz
    have hlt := parent_lt hpos
    exact le_trans (ih _ hlt (by omega)) (h k hpos hk)

theorem Ordered.around (h : Ordered v n) (i : ℕ) : Around v n i := by
  refine ⟨fun k hk hn _ _ => h k hk hn, fun k hk hn hpr hi => ?_⟩
  have hchi := h k hk hn
  have hlt := parent_lt hk
  rw [hpr] at hchi hlt
  exact le_trans (h i hi (by omega)) hchi

theorem Around.congr (h : Around v n i) (hw : ∀ k, k < n → k ≠ i → w k = v k) : Around w n i := by
  constructor
  · intro k hk hn hne hpr
    have hlt := parent_lt hk
    rw [hw k hn hne, hw (parent k) (by omega) hpr]
    exact h.others k hk hn hne hpr
  · intro k hk hn hpr hi
    have hlt := parent_lt hk
    have hlt' := parent_lt hi
    rw [hw k hn (by omega), hw (parent i) (by omega) (by omega)]
    exact h.grand k hk hn hpr hi

theorem UpOrdered.stop (h : UpOrdered v n j) (hj : 0 < j → v (parent j) ≤ v j) : Ordered v n := by
  intro k hk hn
  by_cases hkj : k = j
  · subst hkj
    exact hj hk
  · exact h.others k hk hn hkj

theorem UpOrdered.step (h : UpOrdered v n j) (hj : 0 < j) (hn : j < n)
    (hlt : v j < v (parent j)) : UpOrdered (exchange v (parent j) j) n (parent j) := by
  have hpr := parent_lt hj
  constructor
  · intro k hk hkn hne
    by_cases hkj : k = j
    · subst hkj
      simp only [exchange, if_true, if_neg hne]
      exact le_of_lt hlt
    have hold := h.others k hk hkn hkj
    by_cases hp : parent k = parent j
    · -- A sibling of the element.
      rw [hp] at hold
      simp only [exchange, hp, if_true, if_neg hne, if_neg hkj]
      exact le_trans (le_of_lt hlt) hold
    by_cases hc : parent k = j
    · simp only [exchange, if_neg hne, if_neg hkj, if_neg hp, if_pos hc]
      exact h.grand k hk hkn hc hj
    simp only [exchange, if_neg hne, if_neg hkj, if_neg hp, if_neg hc]
    exact hold
  · intro k hk hkn hp hpos
    have hgra := parent_lt hpos
    have htop := h.others (parent j) hpos (by omega) (by omega)
    have hw : exchange v (parent j) j (parent (parent j)) = v (parent (parent j)) := by
      rw [exchange, if_neg (by omega), if_neg (by omega)]
    have hkp := parent_lt hk
    rw [hw, exchange, if_neg (by omega)]
    by_cases hkj : k = j
    · rw [if_pos hkj]
      exact htop
    rw [if_neg hkj]
    have hold := h.others k hk hkn hkj
    rw [hp] at hold
    exact le_trans htop hold

theorem Around.stop (h : Around v n i)
    (hi : ∀ k, 0 < k → k < n → parent k = i → v i ≤ v k) : UpOrdered v n i := by
  refine ⟨fun k hk hn hne => ?_, h.grand⟩
  by_cases hp : parent k = i
  · rw [hp]
    exact hi k hk hn hp
  · exact h.others k hk hn hne hp

theorem Around.step (h : Around v n i) (hj : 0 < j) (hpr : parent j = i) (hn : j < n)
    (hmin : ∀ k, 0 < k → k < n → parent k = i → v j ≤ v k) (hlt : v j < v i) :
    DownOrdered (exchange v i j) n j := by
  have hij := parent_lt hj
  constructor
  · intro k hk hkn hne
    by_cases hki : k = i
    · -- The element that moved up is not smaller than the parent of its new position.
      subst hki
      have hpk := parent_lt hk
      simp only [exchange, if_true, if_neg (show parent k ≠ k by omega), if_neg hne]
      exact h.grand j hj hn hpr hk
    by_cases hp : parent k = i
    · by_cases hkj : k = j
      · subst hkj
        simp only [exchange, hp, if_true, if_neg hki]
        exact le_of_lt hlt
      · simp only [exchange, hp, if_true, if_neg hki, if_neg hkj]
        exact hmin k hk hkn hp
    have hkj : k ≠ j := fun he => hp (he ▸ hpr)
    simp only [exchange, if_neg hki, if_neg hkj, if_neg hp, if_neg hne]
    exact h.others k hk hkn hki hp
  · intro k hk hkn hp _
    have hkj := parent_lt hk
    rw [hpr]
    simp only [exchange, if_true, if_neg (show k ≠ i by omega), if_neg (show k ≠ j by omega)]
    have hold := h.others k hk hkn (by omega) (by omega)
    rwa [hp] at hold

theorem DownOrdered.around (h : DownOrdered v n i) : Around v n i :=
  ⟨fun k hk hn _ hp => h.others k hk hn hp, h.grand⟩

end Keys

structure Keyed {S : Type} (I : Interface S) (K : Type) [LinearOrder K] where
  key : S → ℕ → K
  less_iff : ∀ s i j, i < I.len s → j < I.len s → (I.less s i j = true ↔ key s i < key s j)
  len_swap : ∀ s i j, I.len (I.swap s i j) = I.len s
  key_swap : ∀ s i j, i < I.len s → j < I.len s → key (I.swap s i j) = exchange (key s) i j

section Sifting

variable {S K : Type} [LinearOrder K] {I : Interface S} (keyed : Keyed I K)

theorem up_ordered (fuel : ℕ) (s : S) (j : ℕ) (hfu : j ≤ fuel) (hj : j < n) (hn : n ≤ I.len s)
    (h : UpOrdered (keyed.key s) n j) : Ordered (keyed.key (up I fuel s j)) n := by
  fun_induction up I fuel s j with
  | case1 => exact h.stop fun hpos => absurd hpos (by omega)
  | case2 fuel s j hst =>
    refine h.stop fun hpos => ?_
    have hlt := parent_lt hpos
    have hle := keyed.less_iff s j (parent j) (by omega) (by omega)
    exact not_lt.mp (mt hle.mpr (by simpa [hpos.ne'] using hst))
  | case3 fuel s j hst ih =>
    obtain ⟨hz, hsml⟩ : j ≠ 0 ∧ I.less s j (parent j) = true := by simpa using hst
    have hpos : 0 < j := Nat.pos_of_ne_zero hz
    have hlt := parent_lt hpos
    refine ih (by omega) (by omega) (by rwa [keyed.len_swap]) ?_
    rw [keyed.key_swap _ _ _ (by omega) (by omega)]
    exact h.step hpos hj ((keyed.less_iff s j (parent j) (by omega) (by omega)).mp hsml)

theorem child_spec (s : S) (hi : 2 * i + 1 < n) (hn : n ≤ I.len s) :
    child I n s i < n ∧ 0 < child I n s i ∧ parent (child I n s i) = i ∧
      ∀ k, 0 < k → k < n → parent k = i → keyed.key s (child I n s i) ≤ keyed.key s k := by
  have hle := keyed.less_iff s (2 * i + 2) (2 * i + 1)
  fun_cases child I n s i with
  | case1 hrt =>
    obtain ⟨hin, hls⟩ : 2 * i + 2 < n ∧ I.less s (2 * i + 2) (2 * i + 1) = true := by
      simpa using hrt
    refine ⟨hin, by omega, by rw [parent]; omega, fun k hk _ hp => ?_⟩
    rcases (parent_eq_iff hk).mp hp with rfl | rfl
    · exact le_of_lt ((hle (by omega) (by omega)).mp hls)
    · exact le_refl _
  | case2 hrt =>
    refine ⟨hi, by omega, by rw [parent]; omega, fun k hk hkn hp => ?_⟩
    rcases (parent_eq_iff hk).mp hp with rfl | rfl
    · exact le_refl _
    · exact not_lt.mp fun hkey => hrt (by simp [hkn, (hle (by omega) (by omega)).mpr hkey])

theorem down_around (fuel : ℕ) (s : S) (i : ℕ) (hfu : n ≤ i + fuel) (hn : n ≤ I.len s)
    (h : Around (keyed.key s) n i) :
    down I n fuel s i = (s, i) ∧ UpOrdered (keyed.key s) n i ∨
      i < (down I n fuel s i).2 ∧ Ordered (keyed.key (down I n fuel s i).1) n := by
  fun_induction down I n fuel s i with
  | case1 =>
    refine .inl ⟨rfl, h.stop fun k hk hkn hp => ?_⟩
    have := parent_lt hk
    omega
  | case2 =>
    refine .inl ⟨rfl, h.stop fun k hk hkn hp => ?_⟩
    rcases (parent_eq_iff hk).mp hp with rfl | rfl <;> omega
  | case3 fuel s i hlf hge =>
    obtain ⟨hlt, hpos, hpr, hmin⟩ := child_spec keyed s (not_le.mp hlf) hn
    have hbel := parent_lt hpos
    have hle := keyed.less_iff s (child I n s i) i (by omega) (by omega)
    refine .inl ⟨rfl, h.stop fun k hk hkn hp => le_trans (not_lt.mp ?_) (hmin k hk hkn hp)⟩
    exact mt hle.mpr (by simpa using hge)
  | case4 fuel s i hlf hsml ih =>
    obtain ⟨hlt, hpos, hpr, hmin⟩ := child_spec keyed s (not_le.mp hlf) hn
    have hbel := parent_lt hpos
    have hle := keyed.less_iff s (child I n s i) i (by omega) (by omega)
    have hdo : DownOrdered (keyed.key (I.swap s i (child I n s i))) n (child I n s i) := by
      rw [keyed.key_swap _ _ _ (by omega) (by omega)]
      exact h.step hpos hpr hlt hmin (hle.mp (by simpa using hsml))
    rcases ih (by omega) (by rwa [keyed.len_swap]) hdo.around with ⟨heq, hup⟩ | ⟨hmov, hord⟩
    · rw [heq]
      exact .inr ⟨by omega, hup.stop fun _ => hdo.others _ hpos hlt (by omega)⟩
    · exact .inr ⟨by omega, hord⟩

theorem sift_ordered (s : S) (hi : i < n) (hn : n ≤ I.len s) (h : Around (keyed.key s) n i) :
    Ordered (keyed.key (sift I n s i)) n := by
  rw [sift]
  rcases down_around keyed n s i (by omega) hn h with ⟨heq, hup⟩ | ⟨hmov, hord⟩
  · simp only [heq, gt_iff_lt, lt_irrefl, if_false]
    exact up_ordered keyed i s i le_rfl hi hn hup
  · simp only [gt_iff_lt, if_pos hmov]
    exact hord

end Sifting

section Preserving

variable {S : Type} {P : S → Prop}

theorem up_preserves (hsw : ∀ s i j, i < n → j < n → P s → P (I.swap s i j)) (fuel : ℕ) (s : S)
    (j : ℕ) (hj : j < n) (h : P s) : P (up I fuel s j) := by
  fun_induction up I fuel s j with
  | case3 fuel s j hst ih =>
    obtain ⟨hz, -⟩ : j ≠ 0 ∧ I.less s j (parent j) = true := by simpa using hst
    have hlt := parent_lt (Nat.pos_of_ne_zero hz)
    exact ih (by omega) (hsw _ _ _ (by omega) hj h)
  | _ => exact h

theorem down_preserves (hsw : ∀ s i j, i < n → j < n → P s → P (I.swap s i j)) (fuel : ℕ) (s : S)
    (i : ℕ) (h : P s) : P (down I n fuel s i).1 := by
  fun_induction down I n fuel s i with
  | case4 fuel s i hlf _ ih =>
    have hchi : child I n s i < n := by
      rw [child]
      split
      · rename_i hrt
        simp only [Bool.and_eq_true, decide_eq_true_eq] at hrt
        exact hrt.1
      · omega
    exact ih (hsw _ _ _ (by omega) hchi h)
  | _ => exact h

theorem sift_preserves (hsw : ∀ s i j, i < n → j < n → P s → P (I.swap s i j)) (s : S)
    (hi : i < n) (h : P s) : P (sift I n s i) := by
  have hdo := down_preserves hsw n s i h
  rw [sift]
  simp only
  split
  · exact hdo
  · exact up_preserves hsw i _ i hi hdo

end Preserving

variable {α : Type} (less : α → α → Bool)

def swapAt (l : List α) (i j : ℕ) : List α :=
  match l[i]?, l[j]? with
  | some a, some b => (l.set i b).set j a
  | _, _ => l

def ofLess : Interface (List α) where
  len := List.length
  less l i j :=
    match l[i]?, l[j]? with
    | some a, some b => less a b
    | _, _ => false
  swap := swapAt

def push (l : List α) (a : α) : List α := up (ofLess less) l.length (l ++ [a]) l.length

def pop (l : List α) : Option (α × List α) :=
  let n := l.length - 1
  let l' := (down (ofLess less) n n (swapAt l 0 n) 0).1
  l'.getLast?.map fun a => (a, l'.dropLast)

theorem swapAt_perm (l : List α) (i j : ℕ) : (swapAt l i j).Perm l := by
  fun_cases swapAt l i j with
  | case1 a b hj hi =>
    obtain ⟨hlt, rfl⟩ := List.getElem?_eq_some_iff.mp hi
    obtain ⟨hlt', rfl⟩ := List.getElem?_eq_some_iff.mp hj
    exact List.set_set_perm hlt hlt'
  | case2 => exact .refl l

theorem push_perm (l : List α) (a : α) : (push less l a).Perm (a :: l) := by
  refine up_preserves (P := fun l' : List α => l'.Perm (a :: l)) (n := l.length + 1) ?_ l.length _
    l.length (Nat.lt_succ_self _) (List.perm_append_singleton a l)
  exact fun l' i j _ _ h => (swapAt_perm l' i j).trans h

theorem down_perm (n fuel : ℕ) (l : List α) (i : ℕ) : (down (ofLess less) n fuel l i).1.Perm l :=
  down_preserves (P := fun l' : List α => l'.Perm l)
    (fun l' i j _ _ h => (swapAt_perm l' i j).trans h) fuel l i (.refl l)

theorem pop_perm (h : pop less l = some (a, l')) : (a :: l').Perm l := by
  obtain ⟨b, hla, heq⟩ := Option.map_eq_some_iff.mp h
  obtain ⟨rfl, rfl⟩ := Prod.mk.inj heq
  refine List.Perm.trans ?_ ((down_perm less (l.length - 1) (l.length - 1) _ 0).trans
    (swapAt_perm l 0 (l.length - 1)))
  obtain ⟨rest, hrs⟩ := List.getLast?_eq_some_iff.mp hla
  rw [hrs, List.dropLast_concat]
  exact (List.perm_append_singleton _ _).symm

theorem pop_eq_none : pop less l = none ↔ l = [] := by
  have hpm := (down_perm less (l.length - 1) (l.length - 1) _ 0).trans
    (swapAt_perm l 0 (l.length - 1))
  rw [pop, Option.map_eq_none_iff, List.getLast?_eq_none_iff]
  constructor
  · intro hnil
    rw [hnil] at hpm
    exact List.nil_perm.mp hpm
  · intro hnil
    exact List.perm_nil.mp (hnil ▸ hpm)

end BinaryHeap
