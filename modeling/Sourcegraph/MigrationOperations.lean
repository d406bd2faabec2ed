import Sourcegraph.MapEntries
import Sourcegraph.MigrationPlans

/-! # Operations on a schema

Upgrades and reverts are rewritten into operations with targets. A revert is the operation that
migrates down to the parents of the last migration. -/
namespace MigrationOperations

open MigrationGraph MigrationOrder MigrationPlans List

inductive MigrationOperationType where
  | targetedUp
  | targetedDown
  | upgrade
  | revert
  deriving DecidableEq

structure MigrationOperation where
  schemaName : String
  operationType : MigrationOperationType
  targetVersions : List ℤ
  deriving DecidableEq

structure MapOrder where
  iterate : {α : Type} → List α → List α
  iterate_perm : ∀ {α : Type} (l : List α), (iterate l).Perm l

def Definitions.leaves (ds : Definitions) : List Definition :=
  ds.definitions.filter fun d => (children ds.definitions d.id).length = 0

abbrev Counts := List (ℤ × ℕ)

/-- `counts[id] = counts[id] + n`. -/
def Counts.add (id : ℤ) (n : ℕ) : Counts → Counts
  | [] => [(id, n)]
  | (k, m) :: rest => if k = id then (k, m + n) :: rest else (k, m) :: Counts.add id n rest

def appliedChildren (ds : Definitions) (appliedVersions : List ℤ) : Counts :=
  (appliedVersions.filterMap ds.getByID).foldl (fun counts d =>
      Counts.add d.id 0 (d.parents.foldl (fun counts p => Counts.add p 1 counts) counts))
    []

def leafVersions (order : MapOrder) (counts : Counts) : List ℤ :=
  (order.iterate counts).filterMap fun entry => if entry.2 = 0 then some entry.1 else none

def desugarRevert (order : MapOrder) (ds : Definitions) (appliedVersions : List ℤ)
    (operation : MigrationOperation) : Except String MigrationOperation :=
  match leafVersions order (appliedChildren ds appliedVersions) with
  | [version] =>
    match ds.getByID version with
    | none => .error ("unknown version " ++ toString version)
    | some d => .ok ⟨operation.schemaName, .targetedDown, d.parents⟩
  | [] => .error "nothing to revert"
  | versions =>
    .error ("ambiguous revert - candidates include " ++
      String.intercalate ", " (intsToStrings versions))

def additions (d : Definition) : List (ℤ × ℕ) := d.parents.map (·, 1) ++ [(d.id, 0)]

theorem add_eq_update (id : ℤ) (n : ℕ) (cts : Counts) :
    Counts.add id n cts = MapEntries.update id (fun m => m.getD 0 + n) cts := by
  induction cts with
  | nil => simp [Counts.add, MapEntries.update]
  | cons en rest ih => simp [Counts.add, MapEntries.update, ih]

theorem foldl_add (es : List (ℤ × ℕ)) :
    ((es.foldl (fun cts e => Counts.add e.1 e.2 cts) []).map Prod.fst).Nodup ∧
    ∀ k, (es.foldl (fun cts e => Counts.add e.1 e.2 cts) []).lookup k =
      if k ∈ es.map Prod.fst then some ((es.filter (·.1 = k)).map Prod.snd).sum
      else none := by
  induction es using reverseRecOn with
  | nil => simp
  | append_singleton es e ih =>
    obtain ⟨hnd, hlk⟩ := ih
    rw [foldl_append, foldl_cons, foldl_nil, add_eq_update]
    refine ⟨MapEntries.nodup_update _ _ hnd, fun k => ?_⟩
    rw [MapEntries.lookup_update]
    simp only [hlk, map_append, map_singleton, mem_append, mem_singleton, filter_append]
    by_cases hk : k = e.1
    · by_cases hin : k ∈ es.map Prod.fst
      · simp [hk ▸ hin, hk]
      · have hno : es.filter (·.1 = k) = [] := filter_eq_nil_iff.mpr fun a ha h =>
          hin (mem_map.mpr ⟨a, ha, of_decide_eq_true h⟩)
        rw [hno]
        simp [hk ▸ hin, hk]
    simp only [hk, or_false, if_false]
    simp [Ne.symm hk]

theorem appliedChildren_eq :
    appliedChildren ds applied =
      ((applied.filterMap ds.getByID).flatMap additions).foldl
        (fun cts e => Counts.add e.1 e.2 cts) [] := by
  rw [appliedChildren, foldl_flatMap]
  congr 1
  funext cts d
  rw [additions, foldl_append, foldl_map]
  rfl

theorem leafVersions_eq :
    leafVersions ord cts = ((ord.iterate cts).filter fun en => en.2 = 0).map Prod.fst := by
  rw [leafVersions]
  induction ord.iterate cts with
  | nil => rfl
  | cons en rest ih => by_cases hz : en.2 = 0 <;> simp [hz, ih]

theorem mem_leafVersions :
    ver ∈ leafVersions ord (appliedChildren ds applied) ↔
      (∃ d ∈ applied.filterMap ds.getByID, d.id = ver) ∧
        ∀ d ∈ applied.filterMap ds.getByID, ver ∉ d.parents := by
  obtain ⟨hnd, hlk⟩ := foldl_add ((applied.filterMap ds.getByID).flatMap additions)
  rw [← appliedChildren_eq] at hnd hlk
  have hadd : ∀ n, (ver, n) ∈ (applied.filterMap ds.getByID).flatMap additions ↔
      ∃ d ∈ applied.filterMap ds.getByID, ver ∈ d.parents ∧ n = 1 ∨ d.id = ver ∧ n = 0 := by
    simp [additions, eq_comm]
  have hz : ver ∈ leafVersions ord (appliedChildren ds applied) ↔
      (∃ n, (ver, n) ∈ (applied.filterMap ds.getByID).flatMap additions) ∧
        ∀ n, (ver, n) ∈ (applied.filterMap ds.getByID).flatMap additions → n = 0 := by
    have hmem : ver ∈ leafVersions ord (appliedChildren ds applied) ↔
        (ver, 0) ∈ appliedChildren ds applied := by
      simp [leafVersions_eq, (ord.iterate_perm _).mem_iff]
    rw [hmem, MapEntries.mem_iff_lookup hnd, hlk]
    simp [List.sum_eq_zero_iff_forall_eq_nat]
  rw [hz]
  constructor
  · rintro ⟨⟨n, hn⟩, hall⟩
    obtain ⟨d, hd, hca⟩ := (hadd n).mp hn
    have hno : ∀ d ∈ applied.filterMap ds.getByID, ver ∉ d.parents := fun d hd hp =>
      absurd (hall 1 ((hadd 1).mpr ⟨d, hd, .inl ⟨hp, rfl⟩⟩)) Nat.one_ne_zero
    exact ⟨⟨d, hd, (hca.resolve_left fun h => hno d hd h.1).1⟩, hno⟩
  · rintro ⟨⟨d, hd, hid⟩, hno⟩
    refine ⟨⟨0, (hadd 0).mpr ⟨d, hd, .inr ⟨hid, rfl⟩⟩⟩, fun n hn => ?_⟩
    obtain ⟨e, he, hca⟩ := (hadd n).mp hn
    exact (hca.resolve_left fun h => hno e he h.1).2

theorem leafVersions_nodup : (leafVersions ord (appliedChildren ds applied)).Nodup := by
  have hnd := (foldl_add ((applied.filterMap ds.getByID).flatMap additions)).1
  rw [← appliedChildren_eq] at hnd
  rw [leafVersions_eq]
  exact (((ord.iterate_perm (appliedChildren ds applied)).map Prod.fst).nodup_iff.mpr
    hnd).sublist (filter_sublist.map _)

/-- `last` is the only applied migration without an applied child. -/
structure Last (defs : List Definition) (applied : List ℤ) (last : Definition) : Prop where
  mem : last ∈ defs
  wasApplied : last.id ∈ applied
  childless : ∀ c ∈ defs, c.id ∈ applied → last.id ∉ c.parents
  unique : ∀ d ∈ defs, d.id ∈ applied → (∀ c ∈ defs, c.id ∈ applied → d.id ∉ c.parents) → d = last

section Revert

variable {applied : List ℤ}

theorem mem_appliedDefinitions (h : Ordered defs) :
    d ∈ applied.filterMap (newDefinitions defs).getByID ↔ d ∈ defs ∧ d.id ∈ applied := by
  rw [mem_filterMap]
  constructor
  · rintro ⟨id, hid, hd⟩
    obtain ⟨hmem, rfl⟩ := definitionMap_mem hd
    exact ⟨hmem, hid⟩
  · rintro ⟨hd, hid⟩
    exact ⟨d.id, hid, definitionMap_of_mem h.distinct hd⟩

theorem desugarRevert_eq (h : Ordered defs) (hla : Last defs applied last) :
    desugarRevert ord (newDefinitions defs) applied ope =
      .ok ⟨ope.schemaName, .targetedDown, last.parents⟩ := by
  have hlvs : leafVersions ord (appliedChildren (newDefinitions defs) applied) = [last.id] := by
    refine perm_singleton.mp ((perm_ext_iff_of_nodup leafVersions_nodup
      (nodup_singleton _)).mpr fun ver => ?_)
    rw [mem_leafVersions, mem_singleton]
    simp only [mem_appliedDefinitions h]
    constructor
    · rintro ⟨⟨d, ⟨hd, happ⟩, rfl⟩, hno⟩
      rw [hla.unique d hd happ fun c hc hca => hno c ⟨hc, hca⟩]
    · rintro rfl
      exact ⟨⟨last, ⟨hla.mem, hla.wasApplied⟩, rfl⟩, fun d hd => hla.childless d hd.1 hd.2⟩
  have hget : (newDefinitions defs).getByID last.id = some last :=
    definitionMap_of_mem h.distinct hla.mem
  rw [desugarRevert, hlvs]
  simp [hget]

theorem Last.reachable (h : Ordered defs) (hla : Last defs applied last) :
    ∀ d ∈ defs, d.id ∈ applied → Relation.ReflTransGen (Parent defs) d.id last.id := by
  have hind : ∀ n, ∀ d ∈ defs, d.id ∈ applied → (ids defs).length - (ids defs).idxOf d.id = n →
      Relation.ReflTransGen (Parent defs) d.id last.id := by
    intro n
    induction n using Nat.strongRecOn with
    | ind n ih =>
      intro d hd happ hn
      by_cases hchi : ∃ c ∈ defs, c.id ∈ applied ∧ d.id ∈ c.parents
      · obtain ⟨c, hc, hca, hpr⟩ := hchi
        have hed : Parent defs d.id c.id := ⟨c, hc, rfl, hpr⟩
        have hlt := h.idxOf_lt hed
        have hbd := idxOf_lt_length_of_mem hed.child_mem
        exact (ih _ (by omega) c hc hca rfl).head hed
      have hno : ∀ c ∈ defs, c.id ∈ applied → d.id ∉ c.parents :=
        fun c hc hca hp => hchi ⟨c, hc, hca, hp⟩
      rw [hla.unique d hd happ hno]
  exact fun d hd happ => hind _ d hd happ rfl

theorem ancestor_applied (hcl : ParentClosed defs applied)
    (hpt : Relation.ReflTransGen (Parent defs) a b) (hb : b ∈ applied) : a ∈ applied := by
  induction hpt using Relation.ReflTransGen.head_induction_on with
  | refl => exact hb
  | head hpr _ ih =>
    obtain ⟨d, hd, rfl, hp⟩ := hpr
    exact hcl d hd ih _ hp

theorem filter_eq_singleton_iff (hdis : (ids defs).Nodup) (hla : last ∈ defs) :
    (defs.filter keep).reverse = [last] ↔ ∀ d ∈ defs, keep d = true ↔ d = last := by
  have hnd : defs.Nodup := Nodup.of_map _ hdis
  rw [reverse_eq_iff, reverse_singleton, ← perm_singleton,
    perm_ext_iff_of_nodup (hnd.filter _) (nodup_singleton _)]
  refine forall_congr' fun d => ?_
  rw [mem_filter, mem_singleton]
  by_cases hd : d ∈ defs
  · simp [hd]
  · have hne : d ≠ last := fun h => hd (h ▸ hla)
    simp [hd, hne]

/-- A revert undoes the last migration alone when it has a parent and every migration between two
of its parents is a parent too. -/
theorem revert_undoes_last_iff {defs : List Definition} {applied : List ℤ} {last : Definition}
    (order : MapOrder) (h : Ordered defs) (hclosed : ParentClosed defs applied)
    (hlast : Last defs applied last) (operation : MigrationOperation) :
    (∃ reverted, desugarRevert order (newDefinitions defs) applied operation = .ok reverted ∧
        reverted.operationType = .targetedDown ∧
        Definitions.down (newDefinitions defs) applied reverted.targetVersions = .ok [last]) ↔
      last.parents ≠ [] ∧ ∀ p ∈ last.parents, ∀ q ∈ last.parents, ∀ id,
        Relation.TransGen (Parent defs) p id → Relation.TransGen (Parent defs) id q →
          id ∈ last.parents := by
  have hps : ∀ p ∈ last.parents, p ∈ ids defs := h.closed last hlast.mem
  obtain ⟨keep, hdo, hke⟩ := down_eq h applied hps
  have hpr : ∀ p ∈ last.parents, Parent defs p last.id :=
    fun p hp => ⟨last, hlast.mem, rfl, hp⟩
  rw [desugarRevert_eq h hlast]
  simp only [Except.ok.injEq, exists_eq_left', true_and, hdo]
  rw [filter_eq_singleton_iff h.distinct hlast.mem]
  constructor
  · intro hall
    obtain ⟨-, -, p, hp, -⟩ := (hke last).mp ((hall last hlast.mem).mpr rfl)
    refine ⟨ne_nil_of_mem hp, ?_⟩
    intro p hp q hq id hlow hhi
    by_contra hnot
    obtain ⟨r, -, hed⟩ := Relation.TransGen.tail'_iff.mp hlow
    obtain ⟨d, hd, rfl⟩ := mem_map.mp hed.child_mem
    have happ := ancestor_applied hclosed hhi.to_reflTransGen
      (hclosed last hlast.mem hlast.wasApplied q hq)
    have hd := (hall d hd).mp ((hke d).mpr ⟨happ, hnot, p, hp, hlow⟩)
    rw [hd] at hhi
    exact h.acyclic _ (hhi.tail (hpr q hq))
  · rintro ⟨hne, hbet⟩ d hd
    rw [hke]
    constructor
    · rintro ⟨happ, hnot, p, hp, hlow⟩
      rcases Relation.reflTransGen_iff_eq_or_transGen.mp (hlast.reachable h d hd happ) with
        heq | hpt
      · exact inj_on_of_nodup_map h.distinct hd hlast.mem heq.symm
      obtain ⟨q, hq, hed⟩ := Relation.TransGen.tail'_iff.mp hpt
      rw [parent_iff h.distinct hlast.mem] at hed
      rcases Relation.reflTransGen_iff_eq_or_transGen.mp hq with heq | hhi
      · rw [heq] at hed
        exact absurd hed hnot
      · exact absurd (hbet p hp q hed d.id hlow hhi) hnot
    · rintro rfl
      obtain ⟨p, hp⟩ := exists_mem_of_ne_nil _ hne
      refine ⟨hlast.wasApplied, fun hsf => ?_, p, hp, .single (hpr p hp)⟩
      exact h.acyclic _ (.single (hpr _ hsf))

end Revert

def insertionOrder : MapOrder := ⟨fun l => l, fun l => .refl l⟩

/-- The root is never undone. A migration between two parents of the last one is undone with it,
although one of these parents is its child. -/
theorem revert_undoes_other :
    (desugarRevert insertionOrder (newDefinitions [{ id := 1 }]) [1] ⟨"frontend", .revert, []⟩ =
        .ok ⟨"frontend", .targetedDown, []⟩ ∧
      Definitions.down (newDefinitions [{ id := 1 }]) [1] [] = .ok []) ∧
    desugarRevert insertionOrder (newDefinitions [{ id := 1 }, { id := 2, parents := [1] },
        { id := 3, parents := [2] }, { id := 4, parents := [1, 3] }]) [1, 2, 3, 4]
        ⟨"frontend", .revert, []⟩ = .ok ⟨"frontend", .targetedDown, [1, 3]⟩ ∧
      Definitions.down (newDefinitions [{ id := 1 }, { id := 2, parents := [1] },
        { id := 3, parents := [2] }, { id := 4, parents := [1, 3] }]) [1, 2, 3, 4] [1, 3] =
        .ok [{ id := 4, parents := [1, 3] }, { id := 2, parents := [1] }] :=
  ⟨⟨rfl, rfl⟩, rfl, rfl⟩

theorem revert_undoes_second :
    ∃ reverted, desugarRevert insertionOrder
        (newDefinitions [{ id := 1 }, { id := 2, parents := [1] }]) [1, 2]
        ⟨"frontend", .revert, []⟩ = .ok reverted ∧
      reverted.operationType = .targetedDown ∧
      Definitions.down (newDefinitions [{ id := 1 }, { id := 2, parents := [1] }]) [1, 2]
        reverted.targetVersions = .ok [{ id := 2, parents := [1] }] := by
  have hord : Ordered [{ id := 1 }, { id := 2, parents := [1] }] :=
    (reorderDefinitions_explained [{ id := 1 }, { id := 2, parents := [1] }]).2.2
  refine (revert_undoes_last_iff insertionOrder hord (by unfold ParentClosed; decide)
    ⟨by decide, by decide, by decide, by decide⟩ ⟨"frontend", .revert, []⟩).mpr ⟨by decide, ?_⟩
  intro p hp q hq id hlow hhi
  rw [mem_singleton.mp hp] at hlow
  rw [mem_singleton.mp hq] at hhi
  exact absurd (hlow.trans hhi) (hord.acyclic 1)

end MigrationOperations
