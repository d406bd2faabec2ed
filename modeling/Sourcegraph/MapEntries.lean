import Mathlib

/-! # Maps as lists of entries

The entries of a finite map, with distinct keys, in the order in which the keys were added. -/
namespace MapEntries

theorem mem_iff_lookup {K V : Type} [BEq K] [LawfulBEq K] {entries : List (K × V)}
    (h : (entries.map Prod.fst).Nodup) {k : K} {v : V} :
    (k, v) ∈ entries ↔ entries.lookup k = some v := by
  induction entries with
  | nil => simp
  | cons entry rest ih =>
    obtain ⟨k', v'⟩ := entry
    rw [List.map_cons, List.nodup_cons] at h
    by_cases hk : k = k'
    · subst hk
      have hrest : (k, v) ∉ rest := fun hmem => h.1 (List.mem_map.mpr ⟨_, hmem, rfl⟩)
      simp [hrest, eq_comm]
    · simp [hk, List.lookup_cons, beq_eq_false_iff_ne.mpr hk, ih h.2]

variable {K V : Type} [DecidableEq K]

/-- Changes the value of a key, or adds an entry for it behind the others. -/
def update (key : K) (change : Option V → V) : List (K × V) → List (K × V)
  | [] => [(key, change none)]
  | (k, v) :: rest =>
    if k = key then (k, change (some v)) :: rest else (k, v) :: update key change rest

variable (key : K) (change : Option V → V) (entries : List (K × V))

theorem lookup_update : (update key change entries).lookup other =
    if other = key then some (change (entries.lookup key)) else entries.lookup other := by
  fun_induction update key change entries with
  | case3 k _ _ hkey ih =>
    have hne : key ≠ k := Ne.symm hkey
    by_cases hother : other = k <;> simp_all [List.lookup_cons, beq_eq_decide]
  | _ => by_cases hother : other = key <;> simp_all [List.lookup_cons, beq_eq_decide]

theorem mem_keys_update : other ∈ (update key change entries).map Prod.fst ↔
    other ∈ entries.map Prod.fst ∨ other = key := by
  fun_induction update key change entries with
  | case1 => simp
  | case2 => rw [List.map_cons, List.map_cons, List.mem_cons, or_right_comm, or_self]
  | case3 _ _ _ _ ih =>
    rw [List.map_cons, List.map_cons, List.mem_cons, List.mem_cons, ih, or_assoc]

theorem nodup_update {entries : List (K × V)} (h : (entries.map Prod.fst).Nodup) :
    ((update key change entries).map Prod.fst).Nodup := by
  fun_induction update key change entries with
  | case1 => simp
  | case2 => exact h
  | case3 _ _ _ hkey ih =>
    rw [List.map_cons, List.nodup_cons] at h
    rw [List.map_cons, List.nodup_cons, mem_keys_update]
    exact ⟨fun hk => hk.elim h.1 hkey, ih h.2⟩

end MapEntries
