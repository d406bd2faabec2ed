import Sourcegraph.MigrationOperations

/-! # Dominators of migrations

A squashed migration replaces everything up to the nearest common dominator of the leaves. -/
namespace MigrationDominators

open MigrationGraph List

def intersect (a : List ℤ) (bs : List (List ℤ)) : List ℤ :=
  bs.foldl (fun intersection b => intersection.filter (· ∈ b)) a

def inherited (dominators : ℤ → List ℤ) : List ℤ → List ℤ
  | [] => []
  | p :: ps => intersect (dominators p) (ps.map dominators)

def addDominators (dominators : ℤ → List ℤ) (d : Definition) : ℤ → List ℤ :=
  Function.update dominators d.id (d.id :: inherited dominators d.parents)

def dominators (defs : List Definition) : ℤ → List ℤ := defs.foldl addDominators fun _ => []

def targets (ds : Definitions) (extraIDs : List ℤ) : List ℤ :=
  ids (MigrationOperations.Definitions.leaves ds) ++ extraIDs

def leafDominator (ds : Definitions) (extraIDs : List ℤ) : Option Definition :=
  match (targets ds extraIDs).map (dominators ds.definitions) with
  | [] => none
  | a :: bs =>
    match intersect a bs with
    | [] => none
    | id :: _ => ds.getByID id

/-- The nodes of a path from a root, from its end on. -/
inductive Path (defs : List Definition) : ℤ → List ℤ → Prop where
  | root {d : Definition} (hd : d ∈ defs) (hroot : d.parents = []) : Path defs d.id [d.id]
  | step {p c : ℤ} {l : List ℤ} (hpath : Path defs p l) (hparent : Parent defs p c) :
      Path defs c (c :: l)

def Dominates (defs : List Definition) (d n : ℤ) : Prop := ∀ l, Path defs n l → d ∈ l

theorem Path.mem_self (h : Path defs n l) : n ∈ l := by
  cases h with
  | root hd hrt => exact mem_singleton_self _
  | step hpt hpr => exact mem_cons_self

theorem Path.mem_ids (h : Path defs n l) (hx : x ∈ l) : x ∈ ids defs := by
  induction h with
  | root hd hrt =>
    rw [mem_singleton.mp hx]
    exact mem_map_of_mem hd
  | step hpt hpr ih =>
    rcases mem_cons.mp hx with rfl | hx
    · exact hpr.child_mem
    · exact ih hx

theorem Path.ancestor (h : Path defs n l) (hx : x ∈ l) :
    Relation.ReflTransGen (Parent defs) x n := by
  induction h with
  | root hd hrt => rw [mem_singleton.mp hx]
  | step hpt hpr ih =>
    rcases mem_cons.mp hx with rfl | hx
    · exact .refl
    · exact (ih hx).tail hpr

section Ordered

variable (h : Ordered defs)
include h

theorem exists_path (hn : n ∈ ids defs) : ∃ l, Path defs n l := by
  induction hk : (ids defs).idxOf n using Nat.strongRecOn generalizing n with
  | ind k ih =>
    obtain ⟨d, hd, rfl⟩ := mem_map.mp hn
    cases hps : d.parents with
    | nil => exact ⟨_, .root hd hps⟩
    | cons p ps =>
      have hpr : Parent defs p d.id := ⟨d, hd, rfl, by simp [hps]⟩
      obtain ⟨l, hl⟩ := ih _ (hk ▸ h.idxOf_lt hpr) (hpr.parent_mem h.closed) rfl
      exact ⟨_, hl.step hpr⟩

theorem Dominates.ancestor (hn : n ∈ ids defs) (hx : Dominates defs x n) :
    Relation.ReflTransGen (Parent defs) x n := by
  obtain ⟨l, hl⟩ := exists_path h hn
  exact hl.ancestor (hx l hl)

theorem Dominates.mem_ids (hn : n ∈ ids defs) (hx : Dominates defs x n) : x ∈ ids defs := by
  obtain ⟨l, hl⟩ := exists_path h hn
  exact hl.mem_ids (hx l hl)

theorem Dominates.antisymm (hn : n ∈ ids defs) (hx : Dominates defs x n)
    (hn' : Dominates defs n x) : x = n := by
  rcases Relation.reflTransGen_iff_eq_or_transGen.mp (hx.ancestor h hn) with heq | hup
  · exact heq.symm
  · exact absurd (hup.trans_left (hn'.ancestor h (hx.mem_ids h hn))) (h.acyclic x)

theorem dominates_iff (hd : d ∈ defs) : Dominates defs x d.id ↔
    x = d.id ∨ d.parents ≠ [] ∧ ∀ p ∈ d.parents, Dominates defs x p := by
  constructor
  · intro hx
    by_cases heq : x = d.id
    · exact .inl heq
    refine .inr ⟨fun hrt => heq ?_, fun p hp l hl => ?_⟩
    · exact mem_singleton.mp (hx _ (.root hd hrt))
    · exact (mem_cons.mp (hx _ (hl.step ⟨d, hd, rfl, hp⟩))).resolve_left heq
  · rintro (rfl | ⟨hps, hall⟩) l hl
    · exact hl.mem_self
    · generalize hid : d.id = id at hl
      cases hl with
      | root he hrt =>
        rw [inj_on_of_nodup_map h.distinct hd he hid] at hps
        exact absurd hrt hps
      | step hpt hpr =>
        subst hid
        have hp := (parent_iff h.distinct hd).mp hpr
        exact mem_cons_of_mem _ (hall _ hp _ hpt)

end Ordered

theorem mem_intersect : x ∈ intersect a bs ↔ x ∈ a ∧ ∀ b ∈ bs, x ∈ b := by
  rw [intersect]
  induction bs generalizing a with
  | nil => simp
  | cons b bs ih => simp [ih, and_assoc]

theorem intersect_sublist (a : List ℤ) (bs : List (List ℤ)) : (intersect a bs).Sublist a := by
  induction bs generalizing a with
  | nil => exact .refl a
  | cons b bs ih => exact (ih _).trans filter_sublist

/-- `l` lists the dominators of `n`, from `n` towards the root. -/
structure Lists (defs : List Definition) (n : ℤ) (l : List ℤ) : Prop where
  mem : ∀ d, d ∈ l ↔ Dominates defs d n
  head : l.head? = some n
  nodup : l.Nodup
  inward : l.Pairwise fun a b => Dominates defs b a

section Inherited

variable {m : ℤ → List ℤ} {parents : List ℤ} (hm : ∀ p ∈ parents, Lists defs p (m p))
include hm

theorem mem_inherited : x ∈ inherited m parents ↔
    parents ≠ [] ∧ ∀ p ∈ parents, Dominates defs x p := by
  cases parents with
  | nil => simp [inherited]
  | cons p ps =>
    obtain ⟨hp, hps⟩ := forall_mem_cons.mp hm
    rw [inherited, mem_intersect, hp.mem, forall_mem_map, forall_mem_cons]
    simp only [ne_eq, reduceCtorEq, not_false_eq_true, true_and]
    exact and_congr_right fun _ => forall₂_congr fun q hq => (hps q hq).mem x

omit hm in
theorem inherited_pairwise (hR : ∀ p ∈ parents, (m p).Pairwise R) :
    (inherited m parents).Pairwise R := by
  cases parents with
  | nil => exact .nil
  | cons p ps => exact (hR p mem_cons_self).sublist (intersect_sublist _ _)

end Inherited

theorem addDominators_lists (h : Ordered defs) (hd : d ∈ defs)
    (hm : ∀ p ∈ d.parents, Lists defs p (m p)) : Lists defs d.id (addDominators m d d.id) := by
  have hall : ∀ x, x ∈ d.id :: inherited m d.parents ↔ Dominates defs x d.id := by
    intro x
    rw [mem_cons, mem_inherited hm, dominates_iff h hd]
  rw [addDominators, Function.update_self]
  refine ⟨hall, rfl, nodup_cons.mpr ⟨fun hsf => ?_, ?_⟩, pairwise_cons.mpr ⟨?_, ?_⟩⟩
  · obtain ⟨hps, hsf⟩ := (mem_inherited hm).mp hsf
    obtain ⟨p, hp⟩ := exists_mem_of_ne_nil _ hps
    have hpr : Parent defs p d.id := ⟨d, hd, rfl, hp⟩
    have hup := (hsf p hp).ancestor h (hpr.parent_mem h.closed)
    exact h.acyclic p (Relation.TransGen.head' hpr hup)
  · exact inherited_pairwise fun p hp => (hm p hp).nodup
  · exact fun b hb => (hall b).mp (mem_cons_of_mem _ hb)
  · exact inherited_pairwise fun p hp => (hm p hp).inward

theorem dominators_lists (h : Ordered defs) {post : List Definition}
    (hds : defs = pre ++ post) (hn : n ∈ ids pre) : Lists defs n (dominators pre n) := by
  induction pre using reverseRecOn generalizing post n with
  | nil => cases hn
  | append_singleton pre d ih =>
    rw [append_assoc] at hds
    have hold : ∀ p ∈ ids pre, Lists defs p (dominators pre p) := fun p => ih hds
    have hnot := (hds ▸ h).notMem_before
    rw [dominators, foldl_append]
    rw [ids_append, mem_append] at hn
    rcases hn with hn | hn
    · have hne : n ≠ d.id := fun heq => hnot (heq ▸ hn)
      rw [foldl_cons, foldl_nil, addDominators, Function.update_of_ne hne]
      exact hold n hn
    rw [mem_singleton.mp hn]
    exact addDominators_lists h (by simp [hds]) fun p hp => hold p (h.parents pre d post hds p hp)

structure Nearest (defs : List Definition) (targets : List ℤ) (d : ℤ) : Prop where
  common : ∀ t ∈ targets, Dominates defs d t
  nearest : ∀ d', (∀ t ∈ targets, Dominates defs d' t) → Dominates defs d' d

theorem leaf_exists (h : Ordered defs) (hne : defs ≠ []) :
    MigrationOperations.Definitions.leaves (newDefinitions defs) ≠ [] := by
  obtain ⟨pre, last, rfl⟩ := eq_nil_or_concat' defs |>.resolve_left hne
  refine ne_nil_of_mem (a := last) (mem_filter.mpr ⟨by simp [newDefinitions], ?_⟩)
  rw [decide_eq_true_eq, length_eq_zero_iff, eq_nil_iff_forall_not_mem]
  intro c hc
  obtain ⟨e, he, -, hpr⟩ := mem_children.mp hc
  exact absurd (h.child_after rfl he hpr) not_mem_nil

theorem targets_mem (hext : ∀ id ∈ extr, id ∈ ids defs)
    (ht : t ∈ targets (newDefinitions defs) extr) : t ∈ ids defs := by
  rcases mem_append.mp ht with ht | ht
  · exact (filter_sublist.map _).subset ht
  · exact hext t ht

theorem root_dominates (hrt : (defs.filter fun d => d.parents = []) = [root]) :
    Dominates defs root.id n := by
  intro l hl
  induction hl with
  | root hd hps =>
    have hmem := mem_filter (p := fun d => d.parents = []).mpr ⟨hd, decide_eq_true hps⟩
    rw [hrt, mem_singleton] at hmem
    rw [hmem]
    exact mem_singleton_self _
  | step hpt hpr ih => exact mem_cons_of_mem _ ih

theorem nearest_iff (h : Ordered defs) {ts : List ℤ} (hd : d ∈ ids defs)
    (hnea : Nearest defs ts d) (id : ℤ) : Nearest defs ts id ↔ id = d := by
  constructor
  · intro hid
    exact (hnea.nearest id hid.common).antisymm h hd (hid.nearest d hnea.common)
  · rintro rfl
    exact hnea

/-- The dominators are those of all paths, and the nearest one is returned. -/
theorem leafDominator_nearest (h : Ordered defs) (hrooted : Rooted defs) (extraIDs : List ℤ)
    (hextra : ∀ id ∈ extraIDs, id ∈ ids defs) :
    (∀ n ∈ ids defs, Lists defs n (dominators defs n)) ∧
    ∃ d, leafDominator (newDefinitions defs) extraIDs = some d ∧
      ∀ id, Nearest defs (targets (newDefinitions defs) extraIDs) id ↔ id = d.id := by
  have hls : ∀ n ∈ ids defs, Lists defs n (dominators defs n) :=
    fun n => dominators_lists h (append_nil defs).symm
  refine ⟨hls, ?_⟩
  obtain ⟨root, hrt⟩ := hrooted
  have hne : defs ≠ [] := by
    rintro rfl
    cases hrt
  have hall : ∀ t ∈ targets (newDefinitions defs) extraIDs, t ∈ ids defs :=
    fun t => targets_mem hextra
  rw [leafDominator]
  cases htgt : targets (newDefinitions defs) extraIDs with
  | nil =>
    have hlvs := map_eq_nil_iff.mp (append_eq_nil_iff.mp htgt).1
    exact absurd hlvs (leaf_exists h hne)
  | cons t ts =>
    rw [htgt] at hall
    obtain ⟨ht, hts⟩ := forall_mem_cons.mp hall
    have hcom : ∀ x, x ∈ intersect (dominators defs t) (ts.map (dominators defs)) ↔
        ∀ u ∈ t :: ts, Dominates defs x u := by
      intro x
      rw [mem_intersect, (hls t ht).mem, forall_mem_map, forall_mem_cons]
      exact and_congr_right fun _ => forall₂_congr fun u hu => (hls u (hts u hu)).mem x
    have hinw := (hls t ht).inward.sublist (intersect_sublist _ (ts.map (dominators defs)))
    simp only [map_cons, newDefinitions]
    cases hsm : intersect (dominators defs t) (ts.map (dominators defs)) with
    | nil =>
      have hrt := (hcom root.id).mpr fun u _ => root_dominates hrt
      rw [hsm] at hrt
      cases hrt
    | cons id rest =>
      rw [hsm] at hcom hinw
      have hid := (hcom id).mp mem_cons_self
      have hmem := (hid t mem_cons_self).mem_ids h ht
      obtain ⟨d, hd, rfl⟩ := mem_map.mp hmem
      refine ⟨d, definitionMap_of_mem h.distinct hd, nearest_iff h hmem ⟨hid, fun d' hd' => ?_⟩⟩
      rcases mem_cons.mp ((hcom d').mpr hd') with rfl | hd'
      · exact fun l hl => hl.mem_self
      · exact (pairwise_cons.mp hinw).1 d' hd'

def fork : List Definition :=
  [{ id := 1 }, { id := 2, parents := [1] }, { id := 3, parents := [2] }, { id := 4, parents := [2] }]

theorem fork_dominates : leafDominator (newDefinitions fork) [3] = some { id := 2, parents := [1] } ∧
    Nearest fork (targets (newDefinitions fork) [3]) 2 := by
  have hord : Ordered fork := (MigrationOrder.reorderDefinitions_explained fork).2.2
  obtain ⟨-, d, hd, hnea⟩ := leafDominator_nearest hord ⟨{ id := 1 }, by decide⟩ [3]
    (by decide)
  have htwo : leafDominator (newDefinitions fork) [3] = some { id := 2, parents := [1] } := by decide
  cases htwo.symm.trans hd
  exact ⟨htwo, (hnea 2).mpr rfl⟩

end MigrationDominators
