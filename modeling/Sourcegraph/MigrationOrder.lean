import Sourcegraph.MigrationGraph

/-! # Ordering migration definitions

Definitions are ordered with parents first. The search starts at the only definition without a
parent, and goes on elsewhere to find a cycle for the error. -/
namespace MigrationOrder

open GraphSearch MigrationGraph List

inductive OrderError where
  | unknownMigration (id : ℤ) (source : Option ℤ)
  | noRoots
  | multipleRoots (roots : List ℤ)
  | cycle (walk : List ℤ)
  deriving DecidableEq

inductive OrderFault where
  | error (e : OrderError)
  | panic (message : String)
  | outOfFuel
  deriving DecidableEq

def intsToStrings (ints : List ℤ) : List String := ints.map toString

def root (defs : List Definition) : Except OrderFault ℤ :=
  match ids (defs.filter fun d => d.parents = []) with
  | [] => .error (.error .noRoots)
  | [r] => .ok r
  | roots => .error (.error (.multipleRoots roots))

def descendingChildren (defs : List Definition) (id : ℤ) : List ℤ :=
  (children defs id).insertionSort (· ≥ ·)

def liftStop {α : Type} : Except (Stop ℤ) α → Except OrderFault α
  | .ok a => .ok a
  | .error (.cycle walk) => .error (.error (.cycle walk))
  | .error .unreachable => .error (.panic "unreachable")
  | .error .outOfFuel => .error .outOfFuel

def searchFrom (defs : List Definition) (id : ℤ) (s : Search ℤ) : Except (Stop ℤ) (Search ℤ) :=
  dfs (descendingChildren defs) (defs.length + 1) id [] s

def searchOthers (defs : List Definition) (s : Search ℤ) : Except (Stop ℤ) (Search ℤ) :=
  (ids defs).foldlM (fun s id => if s.marks id = .unvisited then searchFrom defs id s else .ok s) s

def findDefinitionOrder (defs : List Definition) : Except OrderFault (List ℤ) := do
  let root ← root defs
  let s ← liftStop (searchFrom defs root ⟨fun _ => .unvisited, []⟩)
  if s.order.length < defs.length then
    let _ ← liftStop (searchOthers defs s)
    .error (.panic "unreachable")
  else .ok s.order

def fill (m : ℤ → Option Definition) : List Definition → ℕ → List ℤ →
    Except OrderFault (List Definition)
  | defs, _, [] => .ok defs
  | defs, i, id :: rest =>
    if i < defs.length then
      fill m (defs.set (defs.length - 1 - i) ((m id).getD { id := 0 })) (i + 1) rest
    else .error (.panic "index out of range")

def unknownParent (defs : List Definition) : Option (ℤ × ℤ) :=
  defs.findSome? fun d =>
    (d.parents.find? fun p => (definitionMap defs p).isNone).map fun p => (p, d.id)

def reorderDefinitions (defs : List Definition) : Except OrderFault (List Definition) :=
  if defs.length = 0 then .ok defs
  else
    match unknownParent defs with
    | some (parent, id) => .error (.error (.unknownMigration parent (some id)))
    | none => do
      let order ← findDefinitionOrder defs
      fill (definitionMap defs) defs 0 order

/-- The texts of the errors are left out. -/
def NewDefinitions (defs : List Definition) : Except OrderFault Definitions :=
  (reorderDefinitions defs).map newDefinitions

theorem edge_descendingChildren : Edge (descendingChildren defs) p c ↔ Parent defs p c := by
  rw [Edge, descendingChildren, (perm_insertionSort _ _).mem_iff, mem_children]

theorem edge_children : Edge (children defs) p c ↔ Parent defs p c := mem_children

theorem cycle_children (h : Cycle (descendingChildren defs) walk) : Cycle (children defs) walk := by
  obtain ⟨v, rest, hwa, hcha⟩ := h
  refine ⟨v, rest, hwa, hcha.imp fun a b hed => ?_⟩
  exact edge_children.mpr (edge_descendingChildren.mp hed)

theorem not_acyclic_of_cycle (h : Cycle (children defs) walk) : ¬ Acyclic defs := by
  obtain ⟨v, hpt⟩ := h.transGen
  exact fun hacy => hacy v (Relation.TransGen.mono (fun _ _ => edge_children.mp) _ _ hpt)

theorem searchFrom_outcome {id : ℤ} (hid : id ∈ ids defs)
    (hs : Invariant (descendingChildren defs) (ids defs) [] s) :
    Outcome (descendingChildren defs) (ids defs) [] s [id] (searchFrom defs id s) := by
  refine dfs_outcome ?_ _ id [] s (by simp [ids]) ?_ nodup_nil (isChain_singleton id) hs
  · intro v c hc
    exact (edge_descendingChildren.mp hc).child_mem
  · exact forall_mem_singleton.mpr hid

theorem searchOthers_outcome (hs : Invariant (descendingChildren defs) (ids defs) [] s) :
    Outcome (descendingChildren defs) (ids defs) [] s (ids defs) (searchOthers defs s) := by
  refine foldlM_outcome (fun id hid s hs => ?_) hs
  by_cases hmk : s.marks id = .unvisited
  · rw [if_pos hmk]
    exact searchFrom_outcome hid hs
  rw [if_neg hmk]
  refine ⟨hs, forall_mem_singleton.mpr ?_, fun v hv => hv⟩
  cases hca : s.marks id with
  | unvisited => exact absurd hca hmk
  | visiting => cases (hs.visiting id).mp hca
  | visited => exact (hs.visited id).mp hca

theorem acyclic_of_order (hs : Invariant (descendingChildren defs) (ids defs) [] s)
    (hall : ∀ id ∈ ids defs, id ∈ s.order) : Acyclic defs := by
  intro id hpt
  have hmem : id ∈ ids defs := by
    obtain ⟨p, -, hpr⟩ := Relation.TransGen.tail'_iff.mp hpt
    exact hpr.child_mem
  refine hs.postOrder.acyclic hs.nodup (hall id hmem) ?_
  exact Relation.TransGen.mono (fun _ _ => edge_descendingChildren.mpr) _ _ hpt

/-- What the search from the root leaves out is on a cycle or below one. -/
theorem order_complete (hcl : Closed defs) (hrt : ∀ d ∈ defs, d.parents = [] → d.id = r)
    (hs : Invariant (descendingChildren defs) (ids defs) [] s) (hr : r ∈ s.order)
    (hs' : Invariant (descendingChildren defs) (ids defs) [] s')
    (hall : ∀ id ∈ ids defs, id ∈ s'.order) : ∀ id ∈ ids defs, id ∈ s.order := by
  -- Parents are finished after their children.
  have hind : ∀ n id, id ∈ ids defs → s'.order.length - s'.order.idxOf id = n → id ∈ s.order := by
    intro n
    induction n using Nat.strongRecOn with
    | ind n ih =>
      intro id hid hn
      obtain ⟨d, hd, rfl⟩ := mem_map.mp hid
      cases hps : d.parents with
      | nil => rwa [hrt d hd hps]
      | cons p rest =>
        have hp : p ∈ d.parents := by simp [hps]
        have hmem := hcl d hd p hp
        have hed := edge_descendingChildren.mpr ⟨d, hd, rfl, hp⟩
        have hlt := hs'.postOrder.idxOf_lt hs'.nodup (hall p hmem) hed
        have hbd := idxOf_lt_length_of_mem (hall p hmem)
        exact hs.postOrder.mem (ih _ (by omega) p hmem rfl) hed
  intro id hid
  exact hind _ id hid rfl

theorem fill_eq (m : ℤ → Option Definition) (ord : List ℤ) (fr done : List Definition)
    (hlen : fr.length = ord.length) :
    fill m (fr ++ done) done.length ord =
      .ok ((ord.map fun id => (m id).getD { id := 0 }).reverse ++ done) := by
  induction ord generalizing fr done with
  | nil =>
    rw [length_eq_zero_iff.mp hlen]
    rfl
  | cons id rest ih =>
    rcases eq_nil_or_concat fr with rfl | ⟨fr, last, rfl⟩
    · cases hlen
    rw [fill, if_pos (by simp; omega)]
    have hrs := ih fr ((m id).getD { id := 0 } :: done) (by simpa using hlen)
    simpa using hrs

theorem ordered_of_postOrder (hs : Invariant (descendingChildren defs) (ids defs) [] s)
    (hpm : s.order.Perm (ids defs)) (hcl : Closed defs) {loo : ℤ → Definition}
    (hlk : ∀ d ∈ defs, loo d.id = d) :
    ids (s.order.map loo).reverse = s.order.reverse ∧
      (s.order.map loo).reverse.Perm defs ∧ Ordered (s.order.map loo).reverse := by
  have hba : (ids defs).map loo = defs := by
    rw [ids, map_map]
    exact (map_congr_left hlk).trans (map_id defs)
  have hids : ids (s.order.map loo).reverse = s.order.reverse := by
    rw [ids, map_reverse, map_map]
    refine congrArg reverse ((map_congr_left fun id hid => ?_).trans (map_id _))
    obtain ⟨d, hd, rfl⟩ := mem_map.mp (hs.bounded id hid)
    rw [Function.comp_apply, hlk d hd, id]
  have hsrt : (s.order.map loo).reverse.Perm defs := by
    have hmap := hpm.map loo
    rw [hba] at hmap
    exact (reverse_perm _).trans hmap
  refine ⟨hids, hsrt, ?_, ?_⟩
  · rw [hids]
    exact nodup_reverse.mpr hs.nodup
  · intro pre d post hspl p hp
    have hord : s.order = (ids post).reverse ++ d.id :: (ids pre).reverse := by
      rw [hspl] at hids
      rw [← reverse_reverse s.order, ← hids]
      simp [ids]
    have hd : d ∈ defs := by
      rw [← hsrt.mem_iff, hspl]
      simp
    have hmem : p ∈ s.order := hpm.mem_iff.mpr (hcl d hd p hp)
    have hed := edge_descendingChildren.mpr ⟨d, hd, rfl, hp⟩
    have hlt := hs.postOrder.idxOf_lt hs.nodup hmem hed
    have hnot : d.id ∉ (ids post).reverse := by
      have hnd := hs.nodup
      rw [hord] at hnd
      exact fun hin => (nodup_append.mp hnd).2.2 _ hin _ (by simp) rfl
    rw [hord] at hmem hlt
    rcases mem_append.mp hmem with hin | hin
    · rw [idxOf_append_of_notMem hnot, idxOf_append_of_mem hin] at hlt
      have := idxOf_lt_length_of_mem hin
      omega
    rcases mem_cons.mp hin with rfl | hin
    · exact absurd hlt (lt_irrefl _)
    · exact mem_reverse.mp hin

/-- Each answer with what it says about the definitions. -/
def Explained (defs : List Definition) : Except OrderFault (List Definition) → Prop
  | .ok sorted => (defs = [] ∨ WellFormed defs) ∧ sorted.Perm defs ∧ Ordered sorted
  | .error (.error (.unknownMigration _ _)) => ¬ Closed defs
  | .error (.error .noRoots) => defs ≠ [] ∧ ¬ Rooted defs
  | .error (.error (.multipleRoots _)) => defs ≠ [] ∧ ¬ Rooted defs
  | .error (.error (.cycle walk)) => Cycle (children defs) walk
  | .error (.panic _) => Closed defs ∧ Rooted defs ∧ Acyclic defs ∧ ¬ (ids defs).Nodup
  | .error .outOfFuel => False

theorem unknownParent_eq_none : unknownParent defs = none ↔ Closed defs := by
  simp only [unknownParent, findSome?_eq_none_iff, Option.map_eq_none_iff,
    find?_eq_none, Closed, Option.isNone_iff_eq_none, ← definitionMap_isSome,
    Option.isSome_iff_ne_none]

theorem root_cases (hne : defs ≠ []) :
    (∃ flt, root defs = .error flt ∧ Explained defs (.error flt)) ∨
      Rooted defs ∧ ∃ r, root defs = .ok r ∧ r ∈ ids defs ∧
        ∀ d ∈ defs, d.parents = [] → d.id = r := by
  rw [root]
  cases hroo : defs.filter fun d => d.parents = [] with
  | nil => exact .inl ⟨_, rfl, hne, by simp [Rooted, hroo]⟩
  | cons r rest =>
    cases rest with
    | cons r' rest => exact .inl ⟨_, rfl, hne, by simp [Rooted, hroo]⟩
    | nil =>
      have hmem : ∀ d, d ∈ defs ∧ d.parents = [] ↔ d = r := by
        intro d
        have := @List.mem_filter _ (fun d => decide (d.parents = [])) defs d
        rw [hroo, mem_singleton, decide_eq_true_eq] at this
        exact this.symm
      refine .inr ⟨⟨r, hroo⟩, r.id, rfl, mem_map_of_mem ((hmem r).mpr rfl).1, ?_⟩
      intro d hd hps
      rw [(hmem d).mp ⟨hd, hps⟩]

/-- The order found from the root has all identifiers, or it stops with an explanation. -/
theorem findDefinitionOrder_explained (hne : defs ≠ []) (hcl : Closed defs) :
    (∃ flt, findDefinitionOrder defs = .error flt ∧ Explained defs (.error flt)) ∨
      ∃ r s, root defs = .ok r ∧ searchFrom defs r ⟨fun _ => .unvisited, []⟩ = .ok s ∧ Rooted defs ∧
        Invariant (descendingChildren defs) (ids defs) [] s ∧ s.order.Perm (ids defs) := by
  rw [findDefinitionOrder]
  rcases root_cases hne with ⟨flt, hrt, hfau⟩ | ⟨hroo, r, hrt, hr, hon⟩
  · rw [hrt]
    exact .inl ⟨flt, rfl, hfau⟩
  rw [hrt]
  have hst : Invariant (descendingChildren defs) (ids defs) [] ⟨fun _ => .unvisited, []⟩ :=
    ⟨by simp, by simp, nodup_nil, by simp, postOrder_nil⟩
  have hsch := searchFrom_outcome hr hst
  simp only [bind, Except.bind]
  cases hrun : searchFrom defs r ⟨fun _ => .unvisited, []⟩ with
  | error stop =>
    rw [hrun] at hsch
    cases stop with
    | cycle walk => exact .inl ⟨_, rfl, cycle_children hsch⟩
    | unreachable | outOfFuel => exact hsch.elim
  | ok s =>
    rw [hrun] at hsch
    obtain ⟨hs, hfnd, -⟩ := hsch
    simp only [liftStop]
    by_cases hsho : s.order.length < defs.length
    · rw [if_pos hsho]
      have hots := searchOthers_outcome hs
      cases hrs : searchOthers defs s with
      | error stop =>
        rw [hrs] at hots
        cases stop with
        | cycle walk => exact .inl ⟨_, rfl, cycle_children hots⟩
        | unreachable | outOfFuel => exact hots.elim
      | ok s' =>
        rw [hrs] at hots
        obtain ⟨hs', hall, -⟩ := hots
        refine .inl ⟨_, rfl, hcl, hroo, acyclic_of_order hs' hall, fun hdis => ?_⟩
        have hcom := order_complete hcl hon hs (hfnd r (by simp)) hs' hall
        have hle := (subperm_of_subset hdis hcom).length_le
        rw [ids, length_map] at hle
        omega
    · refine .inr ⟨r, s, rfl, hrun, hroo, hs, ?_⟩
      refine (subperm_of_subset hs.nodup hs.bounded).perm_of_length_le ?_
      rw [ids, length_map]
      omega

/-- The definition that `fill` looks up. -/
def lookup (defs : List Definition) (id : ℤ) : Definition := (definitionMap defs id).getD { id := 0 }

theorem lookup_of_mem (hdis : (ids defs).Nodup) (hd : d ∈ defs) : lookup defs d.id = d := by
  rw [lookup, definitionMap_of_mem hdis hd, Option.getD_some]

theorem reorderDefinitions_of_search (hcl : Closed defs) (hrt : root defs = .ok r)
    (hs : searchFrom defs r ⟨fun _ => .unvisited, []⟩ = .ok s)
    (hlen : s.order.length = defs.length) :
    reorderDefinitions defs = .ok (s.order.map (lookup defs)).reverse := by
  have hne : defs.length ≠ 0 := by
    intro hz
    rw [length_eq_zero_iff.mp hz] at hrt
    cases hrt
  have hfi := fill_eq (definitionMap defs) s.order defs [] hlen.symm
  rw [append_nil, append_nil] at hfi
  rw [reorderDefinitions, if_neg hne, unknownParent_eq_none.mpr hcl]
  simp only [findDefinitionOrder, hrt, bind, Except.bind, hs, liftStop, hlen, lt_irrefl, if_false]
  exact hfi

theorem reorderDefinitions_explained (defs : List Definition) :
    Explained defs (reorderDefinitions defs) := by
  by_cases hemp : defs.length = 0
  · obtain rfl := length_eq_zero_iff.mp hemp
    exact ⟨.inl rfl, .refl _, by simp [ids], by simp⟩
  have hne : defs ≠ [] := fun h => hemp (by rw [h, length_nil])
  cases hunknown : unknownParent defs with
  | some unk =>
    rw [reorderDefinitions, if_neg hemp, hunknown]
    intro hcl
    rw [unknownParent_eq_none.mpr hcl] at hunknown
    cases hunknown
  | none =>
    have hcl := unknownParent_eq_none.mp hunknown
    rcases findDefinitionOrder_explained hne hcl with
      ⟨fault, hrun, hexp⟩ | ⟨r, s, hrt, hrun, hroo, hs, hpm⟩
    · rw [reorderDefinitions, if_neg hemp, hunknown]
      simp only [hrun]
      exact hexp
    have hdis : (ids defs).Nodup := hpm.nodup_iff.mp hs.nodup
    have hacy := acyclic_of_order hs fun id hid => hpm.mem_iff.mpr hid
    rw [reorderDefinitions_of_search hcl hrt hrun (by simpa [ids] using hpm.length_eq)]
    exact ⟨.inr ⟨hdis, hcl, hroo, hacy⟩,
      (ordered_of_postOrder hs hpm hcl fun _ => lookup_of_mem hdis).2⟩

/-- Definitions are accepted when their graph is well formed. Otherwise there is an error, in which
a cycle is one of the graph. -/
def Judged (defs : List Definition) : Except OrderFault Definitions → Prop
  | .ok ds => (defs = [] ∨ WellFormed defs) ∧ ds.definitions.Perm defs ∧ Ordered ds.definitions
  | .error (.error e) => ¬ (defs = [] ∨ WellFormed defs) ∧
      ∀ walk, e = .cycle walk → Cycle (children defs) walk
  | .error (.panic _) => False
  | .error .outOfFuel => False

/-- The search from the root counts identifiers and not definitions. -/
theorem newDefinitions_judged_iff (defs : List Definition) :
    Judged defs (NewDefinitions defs) ↔
      (Closed defs → Rooted defs → Acyclic defs → (ids defs).Nodup) := by
  have hexp := reorderDefinitions_explained defs
  have hgo : defs = [] ∨ WellFormed defs →
      Closed defs ∧ (defs ≠ [] → Rooted defs) ∧ Acyclic defs ∧ (ids defs).Nodup := by
    rintro (rfl | hds)
    · refine ⟨by simp [Closed], fun hne => absurd rfl hne, fun id hpt => ?_, nodup_nil⟩
      obtain ⟨p, -, hpr⟩ := Relation.TransGen.tail'_iff.mp hpt
      exact absurd hpr.child_mem (by simp [ids])
    · exact ⟨hds.closed, fun _ => hds.rooted, hds.acyclic, hds.distinct⟩
  rw [NewDefinitions]
  cases hrun : reorderDefinitions defs with
  | ok srt =>
    rw [hrun] at hexp
    exact iff_of_true hexp fun _ _ _ => (hgo hexp.1).2.2.2
  | error flt =>
    rw [hrun] at hexp
    cases flt with
    | panic msg =>
      obtain ⟨hcl, hroo, hacy, hrep⟩ := hexp
      exact iff_of_false id fun h => hrep (h hcl hroo hacy)
    | outOfFuel => exact hexp.elim
    | error e =>
      cases e with
      | unknownMigration id src =>
        exact iff_of_true ⟨fun hds => hexp (hgo hds).1, by simp⟩ fun hcl => absurd hcl hexp
      | noRoots | multipleRoots roo =>
        exact iff_of_true ⟨fun hds => hexp.2 ((hgo hds).2.1 hexp.1), by simp⟩
          fun _ hroo => absurd hroo hexp.2
      | cycle walk =>
        have hcyc := not_acyclic_of_cycle hexp
        refine iff_of_true ⟨fun hds => hcyc (hgo hds).2.2.1, ?_⟩ fun _ _ hacy => absurd hacy hcyc
        intro walk' hwa
        cases hwa
        exact hexp

/-- A repeated identifier is an error in none of the checks. -/
theorem repeated_definition_panics :
    NewDefinitions [{ id := 1 }, { id := 2, parents := [1] }, { id := 2, parents := [1] }] =
      .error (.panic "unreachable") := by
  rfl

/-- Neither of two migrations is an ancestor of the other. -/
def Unrelated (defs : List Definition) (a b : ℤ) : Prop :=
  ¬ Relation.TransGen (Parent defs) a b ∧ ¬ Relation.TransGen (Parent defs) b a

/-- A step to the latest child that is not later than the target. -/
def Toward (defs : List Definition) (target a b : ℤ) : Prop :=
  (descendingChildren defs a).find? (· ≤ target) = some b

theorem ancestor_lt (hup : ∀ p c, Parent defs p c → p < c)
    (h : Relation.TransGen (Parent defs) a b) : a < b :=
  h.trans_induction_on (hup _ _) fun _ _ => lt_trans

theorem parent_perm (h : defs.Perm defs') : Parent defs = Parent defs' := by
  funext p c
  simp [Parent, h.mem_iff]

theorem descendingChildren_perm (h : defs.Perm defs') :
    descendingChildren defs = descendingChildren defs' := by
  funext p
  refine Perm.eq_of_pairwise' (pairwise_insertionSort _ _) (pairwise_insertionSort _ _) ?_
  refine (perm_insertionSort _ _).trans (.trans ?_ (perm_insertionSort _ _).symm)
  rw [children_eq, children_eq]
  exact h.flatMap_right _

theorem root_perm (h : defs.Perm defs') (hrt : root defs = .ok r) : root defs' = .ok r := by
  rw [root] at hrt ⊢
  split at hrt
  · cases hrt
  · rename_i hids
    have := ((h.filter fun d => d.parents = []).map Definition.id)
    rw [← ids, hids, singleton_perm] at this
    rw [ids, ← this]
    exact hrt
  · cases hrt

theorem reorderDefinitions_perm (h : defs.Perm defs') (hcl : Closed defs)
    (hdis : (ids defs).Nodup) (hrt : root defs = .ok r)
    (hs : searchFrom defs r ⟨fun _ => .unvisited, []⟩ = .ok s) (hpm : s.order.Perm (ids defs)) :
    reorderDefinitions defs' = .ok (s.order.map (lookup defs)).reverse := by
  have hcl' : Closed defs' := fun d hd p hp =>
    (h.map Definition.id).mem_iff.mp (hcl d (h.mem_iff.mpr hd) p hp)
  have hs' : searchFrom defs' r ⟨fun _ => .unvisited, []⟩ = .ok s := by
    rw [searchFrom, ← descendingChildren_perm h, ← h.length_eq]
    exact hs
  rw [reorderDefinitions_of_search hcl' (root_perm h hrt) hs'
    (by simpa [ids, h.length_eq] using hpm.length_eq)]
  congr 2
  refine map_congr_left fun id hid => ?_
  obtain ⟨d, hd, rfl⟩ := mem_map.mp (hpm.mem_iff.mp hid)
  rw [lookup_of_mem hdis hd,
    lookup_of_mem ((h.map Definition.id).nodup_iff.mp hdis) (h.mem_iff.mp hd)]

theorem Explained.not_wellFormed (h : Explained defs (.error flt)) : ¬ WellFormed defs := by
  intro hds
  cases flt with
  | error e =>
    cases e with
    | unknownMigration id src => exact h hds.closed
    | noRoots | multipleRoots roo => exact h.2 hds.rooted
    | cycle walk => exact not_acyclic_of_cycle h hds.acyclic
  | panic msg => exact h.2.2.2 hds.distinct
  | outOfFuel => exact h

/-- Unrelated migrations are ordered by version when, from the root, every migration is found by
going to the latest child that is not later. -/
theorem unrelated_ordered_iff (h : WellFormed defs) (hup : ∀ p c, Parent defs p c → p < c) :
    ∃ r sorted, root defs = .ok r ∧
      (∀ defs', defs.Perm defs' → reorderDefinitions defs' = .ok sorted) ∧
      (sorted.Pairwise (fun a b => Unrelated defs a.id b.id → a.id < b.id) ↔
        ∀ u ∈ ids defs, Relation.ReflTransGen (Toward defs u) r u) := by
  have hne : defs ≠ [] := by
    rintro rfl
    obtain ⟨r, hr⟩ := h.rooted
    cases hr
  rcases findDefinitionOrder_explained hne h.closed with
    ⟨fault, hrun, hexp⟩ | ⟨r, s, hrt, hrun, -, hs, hpm⟩
  · exact (hexp.not_wellFormed h).elim
  obtain ⟨hids, hsrt, hord⟩ :=
    ordered_of_postOrder hs hpm h.closed fun _ => lookup_of_mem h.distinct
  refine ⟨r, _, hrt, fun defs' hds' =>
    reorderDefinitions_perm hds' h.closed h.distinct hrt hrun hpm, ?_⟩
  have hprs := hord.pairwise
  rw [parent_perm hsrt] at hprs
  have hver : (s.order.map (lookup defs)).reverse.Pairwise
      (fun a b => Unrelated defs a.id b.id → a.id < b.id) ↔ s.order.Pairwise (· > ·) := by
    have hrev : s.order.Pairwise (· > ·) ↔
        (ids (s.order.map (lookup defs)).reverse).Pairwise (· < ·) := by
      rw [hids, pairwise_reverse]
    rw [hrev, ids, pairwise_map]
    refine ⟨fun hunr => (hunr.and hprs).imp ?_, Pairwise.imp ?_⟩
    · rintro a b ⟨hab, hnot⟩
      by_cases hpt : Relation.TransGen (Parent defs) a.id b.id
      · exact ancestor_lt hup hpt
      · exact hab ⟨hpt, hnot⟩
    · exact fun hab _ => hab
  obtain ⟨-, -, -, added, hor, htra⟩ := dfs_descends _ (by simp) hrun
  have hbel := htra.sorted_iff (fun v c hc => hup v c (edge_descendingChildren.mp hc))
    (hor ▸ hs.nodup) (fun v c hc => hor ▸
      hpm.mem_iff.mpr (edge_descendingChildren.mp hc).child_mem) (by simp)
  obtain rfl : s.order = added := hor
  rw [hver, hbel]
  simp only [hpm.mem_iff]
  rfl

theorem wellFormed_of_up (hdis : (ids defs).Nodup) (hroo : Rooted defs)
    (hcl : ∀ d ∈ defs, ∀ p ∈ d.parents, p ∈ ids defs ∧ p < d.id) :
    WellFormed defs ∧ ∀ p c, Parent defs p c → p < c := by
  have hup : ∀ p c, Parent defs p c → p < c := by
    rintro p c ⟨d, hd, rfl, hp⟩
    exact (hcl d hd p hp).2
  exact ⟨⟨hdis, fun d hd p hp => (hcl d hd p hp).1, hroo, fun id hpt =>
    lt_irrefl id (ancestor_lt hup hpt)⟩, hup⟩

theorem siblings_ordered :
    let defs : List Definition := [{ id := 1 }, { id := 2, parents := [1] }, { id := 3, parents := [1] }]
    ∃ sorted, reorderDefinitions defs = .ok sorted ∧
      sorted.Pairwise fun a b => Unrelated defs a.id b.id → a.id < b.id := by
  intro defs
  obtain ⟨hds, hup⟩ := @wellFormed_of_up defs (by decide) ⟨_, rfl⟩ (by decide)
  obtain ⟨r, sorted, hrt, hrun, hiff⟩ := unrelated_ordered_iff hds hup
  obtain rfl : 1 = r := Except.ok.inj hrt
  refine ⟨sorted, hrun defs (.refl _), hiff.mpr ?_⟩
  refine forall_mem_cons.mpr ⟨.refl, forall_mem_cons.mpr ⟨.single rfl, ?_⟩⟩
  exact forall_mem_singleton.mpr (.single rfl)

/-- Migration 4 is a child of 2 and not related to 3, but the search leaves 3 before 2. -/
theorem cousin_misplaced : let defs : List Definition :=
      [{ id := 1 }, { id := 2, parents := [1] }, { id := 3, parents := [1] }, { id := 4, parents := [2] }]
    (WellFormed defs ∧ ∀ p c, Parent defs p c → p < c) ∧ Unrelated defs 4 3 ∧
      (reorderDefinitions defs).map ids = .ok [1, 2, 4, 3] := by
  intro defs
  have hds := @wellFormed_of_up defs (by decide) ⟨_, rfl⟩ (by decide)
  refine ⟨hds, ⟨fun h => absurd (ancestor_lt hds.2 h) (by decide), fun h => ?_⟩, rfl⟩
  obtain ⟨p, hpt, hpr⟩ := Relation.TransGen.tail'_iff.mp h
  obtain rfl : p = 2 := by simpa [Parent, defs] using hpr
  rcases Relation.reflTransGen_iff_eq_or_transGen.mp hpt with h | h
  · cases h
  · exact absurd (ancestor_lt hds.2 h) (by decide)

end MigrationOrder
