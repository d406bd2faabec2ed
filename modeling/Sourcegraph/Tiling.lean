import Mathlib

/-! # Tilings of an interval of positions

A list of pieces tiles an interval when they follow each other in order and what lies between them
is a gap of the admitted kind. -/
namespace Tiling

variable {α : Type*}

structure Gap (gap : ℕ → ℕ → Prop) : Prop where
  le : ∀ {a b}, gap a b → a ≤ b
  trans : ∀ {a b c}, gap a b → gap b c → gap a c

inductive Tiles (lo hi : α → ℕ) (gap : ℕ → ℕ → Prop) : ℕ → List α → ℕ → Prop
  | nil {a b : ℕ} (h : gap a b) : Tiles lo hi gap a [] b
  | cons {a b : ℕ} {x : α} {xs : List α} (h : gap a (lo x)) (hx : lo x ≤ hi x)
    (hxs : Tiles lo hi gap (hi x) xs b) : Tiles lo hi gap a (x :: xs) b

theorem Tiles.gap_left (g : Gap gap) (h : gap a b) (ht : Tiles lo hi gap b xs c) :
    Tiles lo hi gap a xs c := by
  cases ht with
  | nil h' => exact .nil (g.trans h h')
  | cons h' hx hxs => exact .cons (g.trans h h') hx hxs

theorem Tiles.append (g : Gap gap) (hx : Tiles lo hi gap a xs b) (hy : Tiles lo hi gap b ys c) :
    Tiles lo hi gap a (xs ++ ys) c := by
  induction hx with
  | nil h => exact hy.gap_left g h
  | cons h hx _ ih => exact .cons h hx (ih hy)

theorem Tiles.le (g : Gap gap) (h : Tiles lo hi gap a xs b) : a ≤ b := by
  induction h with
  | nil h => exact g.le h
  | cons h hx _ ih => exact Nat.le_trans (g.le h) (Nat.le_trans hx ih)

theorem Tiles.bounds (g : Gap gap) (h : Tiles lo hi gap a xs b) :
    ∀ x ∈ xs, a ≤ lo x ∧ lo x ≤ hi x ∧ hi x ≤ b := by
  induction h with
  | nil h => simp
  | cons h hx hxs ih =>
    intro y hy
    have hle := g.le h
    rcases List.mem_cons.mp hy with rfl | hy
    · exact ⟨hle, hx, hxs.le g⟩
    obtain ⟨h₁, h₂, h₃⟩ := ih y hy
    exact ⟨by omega, h₂, h₃⟩

theorem Tiles.pairwise (g : Gap gap) (h : Tiles lo hi gap a xs b) :
    xs.Pairwise fun x y => hi x ≤ lo y := by
  induction h with
  | nil h => exact .nil
  | cons h hx hxs ih => exact .cons (fun y hy => (hxs.bounds g y hy).1) ih

theorem Tiles.unique (g : Gap gap) (h : Tiles lo hi gap a xs b) (hx : x ∈ xs) (hy : y ∈ xs)
    (hix : lo x ≤ i ∧ i < hi x) (hiy : lo y ≤ i ∧ i < hi y) : x = y := by
  induction h with
  | nil h => cases hx
  | cons h hz hzs ih =>
    rcases List.mem_cons.mp hx with rfl | hx'
    · rcases List.mem_cons.mp hy with rfl | hy'
      · rfl
      · have := (hzs.bounds g y hy').1
        omega
    rcases List.mem_cons.mp hy with rfl | hy'
    · have := (hzs.bounds g x hx').1
      omega
    · exact ih hx' hy'

theorem Tiles.cover (h : Tiles lo hi gap a xs b) (ha : a ≤ i) (hb : i < b) :
    (∃ x ∈ xs, lo x ≤ i ∧ i < hi x) ∨ ∃ c d, gap c d ∧ c ≤ i ∧ i < d := by
  induction h with
  | nil h => exact .inr ⟨_, _, h, ha, hb⟩
  | @cons a b x xs h hx hxs ih =>
    by_cases h₁ : i < lo x
    · exact .inr ⟨_, _, h, ha, h₁⟩
    by_cases h₂ : i < hi x
    · exact .inl ⟨x, by simp, by omega, h₂⟩
    rcases ih (by omega) hb with ⟨y, hy, hi⟩ | hgap
    · exact .inl ⟨y, by simp [hy], hi⟩
    · exact .inr hgap

end Tiling
