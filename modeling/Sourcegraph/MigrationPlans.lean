import Sourcegraph.MigrationOrder

/-! # Plans to migrate up and down

A plan is a part of the ordered definitions. What it contains is found by following parents, or
children, from the targets. -/
namespace MigrationPlans

open GraphSearch MigrationGraph MigrationOrder List

def Definitions.traverse (ds : Definitions) (targetIDs : List ℤ) (next : Definition → List ℤ) :
    Except OrderFault (List Definition) :=
  match bfs (fun id => (ds.getByID id).map next) (ds.definitions.length + 1)
    (targetIDs.map (·, none)) [] with
  | .ok visited => .ok (ds.definitions.filter fun d => d.id ∈ visited)
  | .error (.unknown id source) => .error (.error (.unknownMigration id source))
  | .error .outOfFuel => .error .outOfFuel

def Definitions.up (ds : Definitions) (appliedIDs targetIDs : List ℤ) :
    Except OrderFault (List Definition) := do
  let definitions ← Definitions.traverse ds targetIDs Definition.parents
  .ok (definitions.filter fun d => d.id ∉ appliedIDs)

def Definitions.down (ds : Definitions) (appliedIDs targetIDs : List ℤ) :
    Except OrderFault (List Definition) := do
  let childrenMap := children ds.definitions
  let definitions ← Definitions.traverse ds targetIDs fun d => childrenMap d.id
  .ok (definitions.filter fun d => d.id ∉ targetIDs && d.id ∈ appliedIDs).reverse

def ParentClosed (defs : List Definition) (applied : List ℤ) : Prop :=
  ∀ d ∈ defs, d.id ∈ applied → ∀ p ∈ d.parents, p ∈ applied

structure UpPlan (defs : List Definition) (applied targets : List ℤ) (plan : List Definition) :
    Prop where
  members : ∀ d, d ∈ plan ↔ d ∈ defs ∧ d.id ∉ applied ∧
    ∃ t ∈ targets, Relation.ReflTransGen (Parent defs) d.id t
  distinct : (ids plan).Nodup
  safe : ∀ before d after, plan = before ++ d :: after →
    ∀ p ∈ d.parents, p ∈ applied ∨ p ∈ ids before

structure DownPlan (defs : List Definition) (applied targets : List ℤ) (plan : List Definition) :
    Prop where
  members : ∀ d, d ∈ plan ↔ d ∈ defs ∧ d.id ∈ applied ∧
    ∃ t ∈ targets, Relation.TransGen (Parent defs) t d.id
  distinct : (ids plan).Nodup
  safe : ∀ before d after, plan = before ++ d :: after →
    ∀ c ∈ defs, c.id ∈ applied → d.id ∈ c.parents → c.id ∈ ids before
  closed : ∀ before after, plan = before ++ after →
    ParentClosed defs (applied.filter fun id => id ∉ ids before)

theorem traverse_ok {next : Definition → List ℤ} {rel : ℤ → ℤ → Prop}
    (hnx : ∀ d ∈ defs, ∀ id, id ∈ next d ↔ rel d.id id) (hdis : (ids defs).Nodup)
    (hrel : ∀ {a b}, rel a b → a ∈ ids defs ∧ b ∈ ids defs) {ts : List ℤ}
    (htgt : ∀ t ∈ ts, t ∈ ids defs) :
    ∃ vis : List ℤ, Definitions.traverse (newDefinitions defs) ts next =
        .ok (defs.filter fun d => d.id ∈ vis) ∧
      ∀ id, id ∈ vis ↔ ∃ t ∈ ts, Relation.ReflTransGen rel t id := by
  have hlk : ∀ d ∈ defs, (definitionMap defs d.id).map next = some (next d) := by
    intro d hd
    rw [definitionMap_of_mem hdis hd, Option.map_some]
  have hkn : ∀ id ∈ ids defs, ∃ found, (definitionMap defs id).map next = some found ∧
      ∀ c ∈ found, c ∈ ids defs := by
    exact forall_mem_map.mpr fun d hd =>
      ⟨next d, hlk d hd, fun c hc => (hrel ((hnx d hd c).mp hc)).2⟩
  have hed : ∀ a b, Edge (successors fun id => (definitionMap defs id).map next) a b ↔
      rel a b := by
    intro a b
    rw [Edge, successors]
    constructor
    · intro hb
      cases hmap : definitionMap defs a with
      | none =>
        rw [hmap] at hb
        cases hb
      | some d =>
        obtain ⟨hd, rfl⟩ := definitionMap_mem hmap
        rw [hlk d hd] at hb
        exact (hnx d hd b).mp hb
    · intro hab
      obtain ⟨d, hd, rfl⟩ := mem_map.mp (hrel hab).1
      rw [hlk d hd]
      exact (hnx d hd b).mpr hab
  obtain ⟨vis, hrun, hvis⟩ := bfs_reachable hkn htgt
  refine ⟨vis, ?_, fun id => ?_⟩
  · rw [Definitions.traverse]
    have hlen : (newDefinitions defs).definitions.length = (ids defs).length := by
      rw [ids, length_map]
      rfl
    rw [hlen]
    simp [Definitions.getByID, newDefinitions, hrun]
  · rw [hvis, (funext₂ fun a b => propext (hed a b) :
      Edge (successors fun id => (definitionMap defs id).map next) = rel)]

theorem filter_split {post : List Definition} (h : defs.filter keep = pre ++ d :: post) :
    ∃ first last, defs = first ++ d :: last ∧ first.filter keep = pre ∧
      last.filter keep = post := by
  obtain ⟨first, rest, rfl, hf, hrs⟩ := filter_eq_append_iff.mp h
  obtain ⟨ski, last, rfl, hski, -, hla⟩ := filter_eq_cons_iff.mp hrs
  refine ⟨first ++ ski, last, by simp, ?_, hla⟩
  have hno : ski.filter keep = [] := filter_eq_nil_iff.mpr hski
  rw [filter_append, hf, hno, append_nil]

theorem up_plan (h : Ordered defs) (app : List ℤ) (htgt : ∀ t ∈ ts, t ∈ ids defs) :
    ∃ plan, Definitions.up (newDefinitions defs) app ts = .ok plan ∧ UpPlan defs app ts plan := by
  obtain ⟨vis, hrun, hvis⟩ := @traverse_ok defs Definition.parents
    (fun c p => Parent defs p c) (fun d hd p => (parent_iff h.distinct hd).symm) h.distinct
    (fun hpr => ⟨hpr.child_mem, hpr.parent_mem h.closed⟩) ts htgt
  have hrea : ∀ id, id ∈ vis ↔ ∃ t ∈ ts, Relation.ReflTransGen (Parent defs) id t := by
    intro id
    rw [hvis]
    exact exists_congr fun t => and_congr_right fun _ => Relation.reflTransGen_swap
  have hpl : Definitions.up (newDefinitions defs) app ts =
      .ok ((defs.filter fun d => d.id ∈ vis).filter fun d => d.id ∉ app) := by
    rw [Definitions.up, hrun]
    rfl
  have hmem : ∀ d, d ∈ (defs.filter fun d => d.id ∈ vis).filter (fun d => d.id ∉ app) ↔
      d ∈ defs ∧ d.id ∉ app ∧ ∃ t ∈ ts, Relation.ReflTransGen (Parent defs) d.id t := by
    simp only [mem_filter, decide_eq_true_eq, hrea]
    tauto
  refine ⟨_, hpl, hmem, ?_, ?_⟩
  · exact h.distinct.sublist ((filter_sublist.trans filter_sublist).map _)
  · intro pre d post hspl p hp
    have hd := (hmem d).mp (by rw [hspl]; simp)
    by_cases happ : p ∈ app
    · exact .inl happ
    obtain ⟨t, ht, hpt⟩ := hd.2.2
    rw [filter_filter] at hspl
    obtain ⟨first, last, rfl, hf, -⟩ := filter_split hspl
    obtain ⟨e, he, rfl⟩ := mem_map.mp (h.parents first d last rfl p hp)
    have hvi : e.id ∈ vis := (hrea e.id).mpr ⟨t, ht, hpt.head ⟨d, hd.1, rfl, hp⟩⟩
    refine .inr (mem_map_of_mem ?_)
    rw [← hf]
    exact mem_filter.mpr ⟨he, by simp [hvi, happ]⟩

theorem up_targets_known (h : Definitions.up (newDefinitions defs) app ts = .ok plan) :
    ∀ t ∈ ts, t ∈ ids defs := by
  intro t ht
  rw [Definitions.up, Definitions.traverse] at h
  cases hrun : bfs (fun id => ((newDefinitions defs).getByID id).map Definition.parents)
      ((newDefinitions defs).definitions.length + 1) (ts.map (·, none)) [] with
  | error stop =>
    rw [hrun] at h
    cases stop <;> cases h
  | ok vis =>
    have hkn := bfs_targets_known hrun t ht
    rw [Option.isSome_map] at hkn
    exact definitionMap_isSome.mp hkn

/-- What is undone when targets may be above one another. -/
theorem down_eq (h : Ordered defs) (app : List ℤ) (htgt : ∀ t ∈ ts, t ∈ ids defs) :
    ∃ keep : Definition → Bool,
      Definitions.down (newDefinitions defs) app ts = .ok (defs.filter keep).reverse ∧
      ∀ d, keep d = true ↔ d.id ∈ app ∧ d.id ∉ ts ∧
        ∃ t ∈ ts, Relation.TransGen (Parent defs) t d.id := by
  obtain ⟨vis, hrun, hvis⟩ := @traverse_ok defs (fun d => children defs d.id)
    (Parent defs) (fun d hd c => mem_children) h.distinct
    (fun hpr => ⟨hpr.parent_mem h.closed, hpr.child_mem⟩) ts htgt
  refine ⟨fun d => (d.id ∉ ts && d.id ∈ app) && d.id ∈ vis, ?_, fun d => ?_⟩
  · rw [Definitions.down]
    simp only [newDefinitions] at hrun ⊢
    rw [hrun, ← filter_filter]
    rfl
  · simp only [Bool.and_eq_true, decide_eq_true_eq, hvis]
    constructor
    · rintro ⟨⟨hnot, happ⟩, t, ht, hpt⟩
      refine ⟨happ, hnot, t, ht, ?_⟩
      rcases Relation.reflTransGen_iff_eq_or_transGen.mp hpt with heq | hpt
      · rw [heq] at hnot
        exact absurd ht hnot
      · exact hpt
    · rintro ⟨happ, hnot, t, ht, hpt⟩
      exact ⟨⟨hnot, happ⟩, t, ht, hpt.to_reflTransGen⟩

theorem down_plan (h : Ordered defs) (htgt : ∀ t ∈ ts, t ∈ ids defs)
    (hant : ∀ t ∈ ts, ∀ t' ∈ ts, ¬ Relation.TransGen (Parent defs) t t')
    (hcl : ParentClosed defs app) :
    ∃ plan, Definitions.down (newDefinitions defs) app ts = .ok plan ∧
      DownPlan defs app ts plan := by
  obtain ⟨keep, hrun, hke⟩ := down_eq h app htgt
  have hmemb : ∀ d, d ∈ (defs.filter keep).reverse ↔
      d ∈ defs ∧ d.id ∈ app ∧ ∃ t ∈ ts, Relation.TransGen (Parent defs) t d.id := by
    intro d
    rw [mem_reverse, mem_filter, hke]
    constructor
    · rintro ⟨hd, happ, -, hrea⟩
      exact ⟨hd, happ, hrea⟩
    · rintro ⟨hd, happ, t, ht, hpt⟩
      exact ⟨hd, happ, fun hmem => hant t ht d.id hmem hpt, t, ht, hpt⟩
  have hsa : ∀ pre d post, (defs.filter keep).reverse = pre ++ d :: post →
      ∀ c ∈ defs, c.id ∈ app → d.id ∈ c.parents → c.id ∈ ids pre := by
    intro pre d post hspl c hc happ hpr
    obtain ⟨hd, -, t, ht, hpt⟩ := (hmemb d).mp (by rw [hspl]; simp)
    have hme := (hmemb c).mpr ⟨hc, happ, t, ht, hpt.tail ⟨c, hc, rfl, hpr⟩⟩
    have hfw := congrArg reverse hspl
    rw [reverse_reverse, reverse_append, reverse_cons, append_assoc, singleton_append] at hfw
    obtain ⟨first, last, hds, -, hla⟩ := filter_split hfw
    have hmem : c ∈ pre.reverse := by
      rw [← hla]
      exact mem_filter.mpr ⟨h.child_after hds hc hpr, (mem_filter.mp (mem_reverse.mp hme)).2⟩
    exact mem_map_of_mem (mem_reverse.mp hmem)
  refine ⟨_, hrun, hmemb, ?_, hsa, ?_⟩
  · rw [ids, map_reverse]
    exact nodup_reverse.mpr (h.distinct.sublist (filter_sublist.map _))
  · intro pre post hspl d hd hkp p hp
    obtain ⟨happ, hnot⟩ := mem_filter.mp hkp
    rw [decide_eq_true_eq] at hnot
    refine mem_filter.mpr ⟨hcl d hd happ p hp, decide_eq_true fun hin => hnot ?_⟩
    obtain ⟨e, he, rfl⟩ := mem_map.mp hin
    obtain ⟨ear, lat, rfl⟩ := append_of_mem he
    have hsa := hsa ear e (lat ++ post) (by rw [hspl]; simp) d hd happ hp
    rw [ids_append]
    exact mem_append_left _ hsa

/-- Plans contain exactly what is missing, or too much, and are safe after every step. -/
theorem plans_complete_and_safe {defs : List Definition} (h : Ordered defs)
    (applied targets : List ℤ) (htargets : ∀ t ∈ targets, t ∈ ids defs) :
    (∃ plan, Definitions.up (newDefinitions defs) applied targets = .ok plan ∧
      UpPlan defs applied targets plan) ∧
    ((∀ t ∈ targets, ∀ t' ∈ targets, ¬ Relation.TransGen (Parent defs) t t') →
      ParentClosed defs applied →
      ∃ plan, Definitions.down (newDefinitions defs) applied targets = .ok plan ∧
        DownPlan defs applied targets plan) :=
  ⟨up_plan h applied htargets, down_plan h htargets⟩

theorem chain_plans :
    let defs : List Definition :=
      [{ id := 1 }, { id := 2, parents := [1] }, { id := 3, parents := [2] }]
    (∃ plan, Definitions.up (newDefinitions defs) [1] [3] = .ok plan ∧
      ids plan = [2, 3] ∧ UpPlan defs [1] [3] plan) ∧
    ∃ plan, Definitions.down (newDefinitions defs) [1, 2, 3] [1] = .ok plan ∧
      ids plan = [3, 2] ∧ DownPlan defs [1, 2, 3] [1] plan := by
  intro defs
  have hord : Ordered defs := (reorderDefinitions_explained defs).2.2
  have hant : ∀ t ∈ [1], ∀ t' ∈ [1], ¬ Relation.TransGen (Parent defs) t t' := by
    intro t ht t' ht' hpt
    rw [mem_singleton.mp ht, mem_singleton.mp ht'] at hpt
    exact hord.acyclic 1 hpt
  obtain ⟨up, hrun, hup⟩ := (plans_complete_and_safe hord [1] [3] (by decide)).1
  obtain ⟨down, hrun', hdo⟩ := (plans_complete_and_safe hord [1, 2, 3] [1] (by decide)).2 hant
    (by unfold ParentClosed; decide)
  refine ⟨⟨up, hrun, ?_, hup⟩, down, hrun', ?_, hdo⟩
  · cases hrun
    rfl
  · cases hrun'
    rfl

end MigrationPlans
