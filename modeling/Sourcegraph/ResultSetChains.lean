import Mathlib

/-! # Chains of result sets

Canonicalisation follows the `next` edges of a result set before it removes them. -/
namespace ResultSetChains

open Function Relation

/-- The results of a range or of a result set. -/
structure Item where
  definitionResultID : ℤ := 0
  referenceResultID : ℤ := 0
  implementationResultID : ℤ := 0
  hoverResultID : ℤ := 0

structure State where
  rangeData : ℤ → Option Item := fun _ => none
  resultSetData : ℤ → Option Item := fun _ => none
  nextData : ℤ → Option ℤ := fun _ => none

/-- The elements on which ranges, result sets and the edges between them depend. -/
inductive Element where
  | range (id : ℤ) (item : Item)
  | resultSet (id : ℤ) (item : Item)
  | next (outV inV : ℤ)

def correlateElement (s : State) : Element → Option State
  | .range id item => some { s with rangeData := update s.rangeData id (some item) }
  | .resultSet id item => some { s with resultSetData := update s.resultSetData id (some item) }
  | .next outV inV =>
    if s.resultSetData inV = none ∨ s.rangeData outV = none ∧ s.resultSetData outV = none then none
    else some { s with nextData := update s.nextData outV (some inV) }

def mergeNext (item nextItem : Item) : Item :=
  let first (x y : ℤ) := if x = 0 then y else x
  ⟨first item.definitionResultID nextItem.definitionResultID,
    first item.referenceResultID nextItem.referenceResultID,
    first item.implementationResultID nextItem.implementationResultID,
    first item.hoverResultID nextItem.hoverResultID⟩

/-- The recursion, down to a depth. -/
def canonicalizeResultSetData : ℕ → State → ℤ → Item → Option (State × Item)
  | 0, _, _, _ => none
  | depth + 1, s, id, item =>
    match s.nextData id with
    | none => some ({ s with resultSetData := update s.resultSetData id (some item) }, item)
    | some nextID =>
      (canonicalizeResultSetData depth s nextID ((s.resultSetData nextID).getD {})).map fun r =>
        let item := mergeNext item r.2
        (⟨r.1.rangeData, update r.1.resultSetData id (some item), update r.1.nextData id none⟩,
          item)

def canonicalizeResultSet (depth : ℕ) (s : State) (id : ℤ) : Option State :=
  (canonicalizeResultSetData depth s id ((s.resultSetData id).getD {})).map Prod.fst

def canonicalizeRange (s : State) (id : ℤ) : State :=
  match s.nextData id with
  | none => s
  | some nextID =>
    let item := mergeNext ((s.rangeData id).getD {}) ((s.resultSetData nextID).getD {})
    ⟨update s.rangeData id (some item), s.resultSetData, update s.nextData id none⟩

/-- `canonicalizeResultSets` and `canonicalizeRanges`, for an order of the ids of both maps. -/
def canonicalize (depth : ℕ) (order ranges : List ℤ) (s : State) : Option State :=
  (order.foldlM (canonicalizeResultSet depth) s).map (ranges.foldl canonicalizeRange)

def Follows (s : State) (b a : ℤ) : Prop := s.nextData a = some b

variable {id : ℤ} {order : List ℤ}

theorem follows_update {data : ℤ → Option ℤ} :
    update data id none a = some b ↔ a ≠ id ∧ data a = some b := by
  by_cases ha : a = id <;> simp [ha]

/-- A call that returns has followed a chain to its end, and only removes edges that lead there. -/
theorem returned_acc (h : canonicalizeResultSetData depth s id item = some r) :
    Acc (Follows s) id ∧ (∀ a b, Follows s b a → Follows r.1 b a ∨ Acc (Follows s) a) ∧
      Follows r.1 ≤ Follows s := by
  induction depth generalizing id item r with
  | zero => cases h
  | succ depth ih =>
    rw [canonicalizeResultSetData] at h
    split at h
    · rename_i hn
      cases h
      exact ⟨⟨_, fun b hb => by rw [Follows, hn] at hb; cases hb⟩, fun a b => .inl, le_rfl⟩
    · rename_i n hn
      obtain ⟨u, hu, rfl⟩ := Option.map_eq_some_iff.mp h
      obtain ⟨hacc, hkp, hle⟩ := ih hu
      have hid : Acc (Follows s) id := ⟨_, fun b hb => Option.some.inj (hn.symm.trans hb) ▸ hacc⟩
      refine ⟨hid, fun a b hab => ?_, fun b a hf => hle b a (follows_update.mp hf).2⟩
      by_cases ha : a = id
      · exact .inr (ha ▸ hid)
      · exact (hkp a b hab).imp_left fun hf => follows_update.mpr ⟨ha, hf⟩

theorem acc_of_removed (hkp : ∀ a b, Follows s b a → Follows t b a ∨ Acc (Follows s) a)
    (h : Acc (Follows t) a) : Acc (Follows s) a := by
  induction h with
  | intro a _ ih => exact ⟨a, fun b hb => (hkp a b hb).elim (ih b) fun ha => ha.inv hb⟩

theorem resultSets_acc (h : order.foldlM (canonicalizeResultSet depth) s = some t) :
    ∀ id ∈ order, Acc (Follows s) id := by
  induction order generalizing s with
  | nil => simp
  | cons first rest ih =>
    obtain ⟨u, hu, h⟩ := Option.bind_eq_some_iff.mp h
    obtain ⟨r, hr, rfl⟩ := Option.map_eq_some_iff.mp hu
    obtain ⟨hacc, hkp, -⟩ := returned_acc hr
    exact List.forall_mem_cons.mpr ⟨hacc, fun id hid => acc_of_removed hkp (ih h id hid)⟩

theorem deeper (h : canonicalizeResultSetData depth s id item = some r) (hle : depth ≤ depth') :
    canonicalizeResultSetData depth' s id item = some r := by
  induction depth generalizing id item r depth' with
  | zero => cases h
  | succ depth ih =>
    obtain ⟨depth', rfl⟩ : ∃ d, depth' = d + 1 := ⟨depth' - 1, by omega⟩
    rw [canonicalizeResultSetData] at h ⊢
    split at h
    · exact h
    · obtain ⟨u, hu, rfl⟩ := Option.map_eq_some_iff.mp h
      rw [ih hu (by omega)]
      rfl

theorem acc_returns (h : Acc (Follows s) id) (item : Item) :
    ∃ depth r, canonicalizeResultSetData depth s id item = some r := by
  induction h generalizing item with
  | intro id _ ih =>
    cases hb : s.nextData id with
    | none => exact ⟨1, _, by rw [canonicalizeResultSetData, hb]⟩
    | some b =>
      obtain ⟨depth, r, hr⟩ := ih b hb ((s.resultSetData b).getD {})
      exact ⟨depth + 1, _, by rw [canonicalizeResultSetData, hb]; exact congrArg (Option.map _) hr⟩

theorem resultSets_return (h : ∀ id ∈ order, Acc (Follows s) id) :
    ∃ n, ∀ depth ≥ n, ∃ t, order.foldlM (canonicalizeResultSet depth) s = some t := by
  induction order generalizing s with
  | nil => exact ⟨0, fun _ _ => ⟨s, rfl⟩⟩
  | cons first rest ih =>
    obtain ⟨n, r, hr⟩ := acc_returns (h first List.mem_cons_self) ((s.resultSetData first).getD {})
    obtain ⟨m, hm⟩ := @ih r.1 fun id hid =>
      Subrelation.accessible (fun hf => (returned_acc hr).2.2 _ _ hf)
        (h id (List.mem_cons_of_mem first hid))
    refine ⟨max n m, fun depth hle => ?_⟩
    obtain ⟨t, ht⟩ := hm depth (by omega)
    refine ⟨t, Option.bind_eq_some_iff.mpr ⟨r.1, ?_, ht⟩⟩
    rw [canonicalizeResultSet, deeper hr (by omega)]
    rfl

theorem acc_irrefl {r : ℤ → ℤ → Prop} (h : Acc r a) : ¬TransGen r a a := by
  have htr := h.transGen
  clear h
  induction htr with
  | intro a _ ih => exact fun hc => ih a hc hc

theorem acyclic_iff (ho : ∀ a b, Follows s b a → b ∈ order) :
    (∀ id ∈ order, Acc (Follows s) id) ↔ ∀ id, ¬TransGen (Follows s) id id := by
  constructor
  · intro h id hc
    obtain ⟨a, ha, -⟩ := TransGen.head'_iff.mp hc
    exact acc_irrefl (h id (ho _ _ ha)) hc
  · intro h
    let r (x y : {a // a ∈ order}) : Prop := TransGen (Follows s) x.1 y.1
    have : Std.Irrefl r := ⟨fun x => h x.1⟩
    have hwf : WellFounded r := Finite.wellFounded_of_trans_of_irrefl r
    intro id hid
    exact hwf.induction (C := fun x => Acc (Follows s) x.1) ⟨id, hid⟩ fun x ih =>
      ⟨_, fun b hb => ih ⟨b, ho _ _ hb⟩ (.single hb)⟩

theorem correlated {es : List Element} (h : es.foldlM correlateElement s = some t)
    (hs : ∀ a b, Follows s b a → s.resultSetData b ≠ none) :
    ∀ a b, Follows t b a → t.resultSetData b ≠ none := by
  induction es generalizing s with
  | nil =>
    cases h
    exact hs
  | cons e es ih =>
    obtain ⟨u, hu, h⟩ := Option.bind_eq_some_iff.mp h
    refine ih h fun a b hf => ?_
    cases e with
    | range id item =>
      cases hu
      exact hs a b hf
    | resultSet id item =>
      cases hu
      by_cases hb : b = id
      · simp [hb]
      · simpa [update_of_ne hb] using hs a b hf
    | next outV inV =>
      rw [correlateElement] at hu
      split at hu
      · cases hu
      rename_i hin
      cases hu
      by_cases ha : a = outV
      · simp only [Follows, ha, update_self] at hf
        cases hf
        exact fun hno => hin (.inl hno)
      · simp only [Follows, update_of_ne ha] at hf
        exact hs a b hf

/-- Canonicalisation returns if and only if no result set follows itself. -/
theorem canonicalize_terminates_iff {es : List Element} {s : State} {order : List ℤ}
    (h : es.foldlM correlateElement {} = some s)
    (ho : ∀ id, id ∈ order ↔ s.resultSetData id ≠ none) (ranges : List ℤ) :
    (∃ depth t, canonicalize depth order ranges s = some t) ↔
      ∀ id, ¬TransGen (Follows s) id id := by
  rw [← acyclic_iff fun a b hf => (ho b).mpr (correlated h (fun _ _ hn => by cases hn) a b hf)]
  constructor
  · rintro ⟨depth, t, ht⟩
    obtain ⟨u, hu, -⟩ := Option.map_eq_some_iff.mp ht
    exact resultSets_acc hu
  · intro hacc
    obtain ⟨n, hn⟩ := resultSets_return hacc
    obtain ⟨t, ht⟩ := hn n le_rfl
    exact ⟨n, _, congrArg (Option.map _) ht⟩

theorem chain_canonicalized : ∃ s, [.resultSet 1 {}, .resultSet 2 {}, .next 1 2].foldlM
    correlateElement {} = some s ∧ ∀ id, ¬TransGen (Follows s) id id := by
  refine ⟨_, rfl, (@canonicalize_terminates_iff [.resultSet 1 {}, .resultSet 2 {}, .next 1 2] _
    [1, 2] rfl (fun id => ?_) []).mp ⟨2, _, rfl⟩⟩
  by_cases h1 : id = 1 <;> by_cases h2 : id = 2 <;> simp [update, h1, h2]

/-- A result set that is its own next one. -/
theorem self_loop_unbounded : ∃ s, [.resultSet 1 {}, .next 1 1].foldlM correlateElement {} =
    some s ∧ ∀ depth ranges, canonicalize depth [1] ranges s = none := by
  refine ⟨_, rfl, fun depth ranges => Option.eq_none_iff_forall_not_mem.mpr fun t ht => ?_⟩
  obtain ⟨u, hu, -⟩ := Option.map_eq_some_iff.mp ht
  exact acc_irrefl (resultSets_acc hu 1 (by simp)) (.single rfl)

end ResultSetChains
