import Sourcegraph.GraphSearch

/-! # Migration definitions

Definitions name their parents. The maps of the source are built entry by entry, so that the last
definition of an identifier wins. -/
namespace MigrationGraph

open List

structure IndexMetadata where
  tableName : String
  indexName : String
  deriving DecidableEq

/-- A definition has metadata of an index exactly when it creates the index concurrently. -/
structure Definition where
  id : ℤ
  privileged : Bool := false
  parents : List ℤ := []
  indexMetadata : Option IndexMetadata := none
  deriving DecidableEq

def definitionMap (defs : List Definition) : ℤ → Option Definition :=
  defs.foldl (fun m d => Function.update m d.id (some d)) fun _ => none

structure Definitions where
  definitions : List Definition
  definitionsMap : ℤ → Option Definition

def newDefinitions (defs : List Definition) : Definitions := ⟨defs, definitionMap defs⟩

def Definitions.getByID (ds : Definitions) (id : ℤ) : Option Definition := ds.definitionsMap id

def addChild (id : ℤ) (m : ℤ → List ℤ) (parent : ℤ) : ℤ → List ℤ :=
  Function.update m parent (m parent ++ [id])

def children (defs : List Definition) : ℤ → List ℤ :=
  defs.foldl (fun m d => d.parents.foldl (addChild d.id) m) fun _ => []

def ids (defs : List Definition) : List ℤ := defs.map Definition.id

def Parent (defs : List Definition) (p c : ℤ) : Prop := ∃ d ∈ defs, d.id = c ∧ p ∈ d.parents

theorem definitionMap_snoc :
    definitionMap (defs ++ [d]) = Function.update (definitionMap defs) d.id (some d) := by
  rw [definitionMap, foldl_append]
  rfl

variable {id p c : ℤ}

theorem definitionMap_mem (h : definitionMap defs id = some d) : d ∈ defs ∧ d.id = id := by
  induction defs using reverseRecOn with
  | nil => cases h
  | append_singleton defs e ih =>
    rw [definitionMap_snoc] at h
    by_cases hid : id = e.id
    · rw [hid, Function.update_self, Option.some_inj] at h
      exact ⟨by simp [h], by rw [← h, hid]⟩
    rw [Function.update_of_ne hid] at h
    exact ⟨mem_append_left _ (ih h).1, (ih h).2⟩

theorem definitionMap_isSome : (definitionMap defs id).isSome = true ↔ id ∈ ids defs := by
  induction defs using reverseRecOn with
  | nil => simp [definitionMap, ids]
  | append_singleton defs e ih =>
    rw [definitionMap_snoc, ids]
    by_cases hid : id = e.id
    · simp [hid]
    rw [Function.update_of_ne hid, ih]
    simp [ids, hid]

theorem definitionMap_of_mem (hdis : (ids defs).Nodup) (hd : d ∈ defs) :
    definitionMap defs d.id = some d := by
  have hso := definitionMap_isSome.mpr (mem_map_of_mem hd : d.id ∈ ids defs)
  obtain ⟨e, he⟩ := Option.isSome_iff_exists.mp hso
  obtain ⟨hmem, hid⟩ := definitionMap_mem he
  rw [he, inj_on_of_nodup_map hdis hmem hd hid]

theorem addChildren_eq (id : ℤ) (par : List ℤ) (m : ℤ → List ℤ) (p : ℤ) :
    par.foldl (addChild id) m p = m p ++ replicate (par.count p) id := by
  induction par generalizing m with
  | nil => simp
  | cons q rest ih =>
    rw [foldl_cons, ih, addChild]
    by_cases hp : p = q
    · subst hp
      simp [replicate_succ]
    · simp [hp, Ne.symm hp]

theorem children_eq :
    children defs p = defs.flatMap fun d => replicate (d.parents.count p) d.id := by
  induction defs using reverseRecOn with
  | nil => rfl
  | append_singleton defs d ih =>
    rw [children, foldl_append, foldl_cons, foldl_nil, addChildren_eq, ← children, ih]
    simp

theorem mem_children : c ∈ children defs p ↔ Parent defs p c := by
  simp only [children_eq, mem_flatMap, mem_replicate, Parent, ne_eq, count_eq_zero, not_not]
  exact exists_congr fun d => and_congr_right fun _ => by rw [and_comm, eq_comm]

theorem Parent.child_mem (h : Parent defs p c) : c ∈ ids defs := by
  obtain ⟨d, hd, rfl, -⟩ := h
  exact mem_map_of_mem hd

structure Ordered (defs : List Definition) : Prop where
  distinct : (ids defs).Nodup
  parents : ∀ before d after, defs = before ++ d :: after → ∀ p ∈ d.parents, p ∈ ids before

def Closed (defs : List Definition) : Prop := ∀ d ∈ defs, ∀ p ∈ d.parents, p ∈ ids defs

def Rooted (defs : List Definition) : Prop := ∃ r, (defs.filter fun d => d.parents = []) = [r]

def Acyclic (defs : List Definition) : Prop := ∀ id, ¬ Relation.TransGen (Parent defs) id id

structure WellFormed (defs : List Definition) : Prop where
  distinct : (ids defs).Nodup
  closed : Closed defs
  rooted : Rooted defs
  acyclic : Acyclic defs

theorem ids_append : ids (a ++ b) = ids a ++ ids b := map_append

variable {after before : List Definition}

theorem Ordered.notMem_before (h : Ordered (before ++ d :: after)) : d.id ∉ ids before := by
  have hdis := h.distinct
  rw [ids_append] at hdis
  exact fun hmem => (nodup_append.mp hdis).2.2 _ hmem d.id (by simp [ids]) rfl

theorem Ordered.closed (h : Ordered defs) : Closed defs := by
  intro d hd p hp
  obtain ⟨before, after, rfl⟩ := append_of_mem hd
  rw [ids_append]
  exact mem_append_left _ (h.parents before d after rfl p hp)

theorem Ordered.idxOf_lt (h : Ordered defs) (hpr : Parent defs p c) :
    (ids defs).idxOf p < (ids defs).idxOf c := by
  obtain ⟨d, hd, rfl, hp⟩ := hpr
  obtain ⟨before, after, rfl⟩ := append_of_mem hd
  have hbef := h.parents before d after rfl p hp
  rw [ids_append, idxOf_append_of_mem hbef, idxOf_append_of_notMem h.notMem_before]
  exact lt_of_lt_of_le (idxOf_lt_length_of_mem hbef) (Nat.le_add_right _ _)

theorem Ordered.transGen_lt (h : Ordered defs) (hpt : Relation.TransGen (Parent defs) a b) :
    (ids defs).idxOf a < (ids defs).idxOf b := by
  induction hpt with
  | single hpr => exact h.idxOf_lt hpr
  | tail _ hpr ih => exact ih.trans (h.idxOf_lt hpr)

theorem Ordered.pairwise (h : Ordered defs) :
    defs.Pairwise fun a b => ¬ Relation.TransGen (Parent defs) b.id a.id := by
  rw [pairwise_iff_getElem]
  intro i j hi hj hlt hpt
  have hidx : ∀ k (hk : k < defs.length), (ids defs).idxOf defs[k].id = k := by
    intro k hk
    have := h.distinct.idxOf_getElem k (by rwa [ids, length_map])
    simpa [ids] using this
  have := h.transGen_lt hpt
  rw [hidx, hidx] at this
  omega

theorem Ordered.acyclic (h : Ordered defs) : Acyclic defs :=
  fun _ hpt => lt_irrefl _ (h.transGen_lt hpt)

theorem parent_iff (hdis : (ids defs).Nodup) (hd : d ∈ defs) :
    Parent defs p d.id ↔ p ∈ d.parents := by
  constructor
  · rintro ⟨e, he, hid, hp⟩
    rwa [← inj_on_of_nodup_map hdis he hd hid]
  · exact fun hp => ⟨d, hd, rfl, hp⟩

theorem Parent.parent_mem (hcl : Closed defs) (h : Parent defs p c) : p ∈ ids defs := by
  obtain ⟨d, hd, -, hp⟩ := h
  exact hcl d hd p hp

theorem Ordered.child_after (h : Ordered defs) {c : Definition}
    (hspl : defs = before ++ d :: after) (hc : c ∈ defs) (hpr : d.id ∈ c.parents) : c ∈ after := by
  have hlt := h.idxOf_lt ⟨c, hc, rfl, hpr⟩
  subst hspl
  rw [ids_append, idxOf_append_of_notMem h.notMem_before] at hlt
  rcases mem_append.mp hc with hc | hc
  · have hmem : c.id ∈ ids before := mem_map_of_mem hc
    rw [idxOf_append_of_mem hmem] at hlt
    have := idxOf_lt_length_of_mem hmem
    omega
  rcases mem_cons.mp hc with rfl | hc
  · rw [idxOf_append_of_notMem h.notMem_before] at hlt
    exact absurd hlt (lt_irrefl _)
  · exact hc

end MigrationGraph
