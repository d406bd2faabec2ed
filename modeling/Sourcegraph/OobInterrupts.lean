import Sourcegraph.GoStrings
import Sourcegraph.MapEntries
import Sourcegraph.OobVersions

/-! # Interrupts of an upgrade

An upgrade stops at versions at which out-of-band migrations have to finish. The versions are
chosen greedily, and then every migration is assigned to one of them. -/
namespace OobInterrupts

open GoStrings OobVersions
open List hiding set

/-- The fields of `yamlMigration` that bound a migration. -/
structure YamlMigration where
  id : ℤ
  introduced : Int64 × Int64
  deprecated : Option (Int64 × Int64)
  deriving DecidableEq

structure MigrationInterval where
  id : ℤ
  introduced : Version
  deprecated : Version
  deriving DecidableEq

structure MigrationInterrupt where
  version : Version
  migrationIDs : List ℤ
  deriving DecidableEq

/-- What the Go runtime leaves open: the order of equal elements under `sort.Slice`, and of a
map. -/
structure Runtime where
  sortSlice : {α : Type} → (less : α → α → Bool) → List α → List α
  sortSlice_perm : ∀ {α : Type} (less : α → α → Bool) (l : List α), (sortSlice less l).Perm l
  sortSlice_ordered : ∀ {α : Type} (less : α → α → Bool) (l : List α),
    (∀ a b, less a b = true → less b a = false) →
    (∀ a b c, less a b = false → less b c = false → less a c = false) →
    (sortSlice less l).Pairwise fun a b => less b a = false
  iterate : {α : Type} → List α → List α
  iterate_perm : ∀ {α : Type} (l : List α), (iterate l).Perm l

def before (a b : Version) : Bool := compareVersions a b = .before

def interval (m : YamlMigration) : Option MigrationInterval :=
  m.deprecated.map fun deprecated =>
    ⟨m.id, newVersion m.introduced.1 m.introduced.2, newVersion deprecated.1 deprecated.2⟩

def upgradeIntervals (source target : Version) (migrations : List YamlMigration) :
    List MigrationInterval :=
  (migrations.filterMap interval).filter fun i =>
    before source i.deprecated && compareVersions i.deprecated target ≠ .after

def upgradePoints : List Version → List MigrationInterval → Except Fault (List Version)
  | points, [] => .ok points
  | points, i :: rest =>
    if points.getLast?.all fun last => before last i.introduced then
      match i.deprecated.previous with
      | none => .error (.error ("cannot determine version prior to " ++ i.deprecated.string))
      | some v => upgradePoints (points ++ [v]) rest
    else upgradePoints points rest

abbrev CoveringSet := List (Version × List ℤ)

/-- `coveringSet[point] = append(coveringSet[point], id)`. -/
def CoveringSet.add (v : Version) (id : ℤ) : CoveringSet → CoveringSet
  | [] => [(v, [id])]
  | (w, ids) :: rest =>
    if w = v then (w, ids ++ [id]) :: rest else (w, ids) :: CoveringSet.add v id rest

def cover (points : List Version) (i : MigrationInterval) : Option Version :=
  points.find? (pointIntersectsInterval i.introduced i.deprecated)

def coverAll (points : List Version) :
    CoveringSet → List MigrationInterval → Except Fault CoveringSet
  | set, [] => .ok set
  | set, i :: rest =>
    match cover points i with
    | some point => coverAll points (set.add point i.id) rest
    | none => .error (.panic "unreachable: input interval not covered in output")

def makeCoveringSet (rt : Runtime) (intervals : List MigrationInterval) (points : List Version) :
    Except Fault (List MigrationInterrupt) :=
  (coverAll points.reverse [] intervals).map fun set =>
    (rt.iterate set).map fun entry => ⟨entry.1, rt.sortSlice (fun a b => decide (a < b)) entry.2⟩

def sortIntervals (rt : Runtime) (intervals : List MigrationInterval) : List MigrationInterval :=
  rt.sortSlice (fun a b => before a.deprecated b.deprecated) intervals

def scheduleUpgrade (rt : Runtime) (source target : Version) (migrations : List YamlMigration) :
    Except Fault (List MigrationInterrupt) := do
  let intervals := sortIntervals rt (upgradeIntervals source target migrations)
  let points ← upgradePoints [] intervals
  let interrupts ← makeCoveringSet rt intervals points
  .ok (rt.sortSlice (fun a b => before a.version b.version) interrupts)

/-- Every migration waits, exactly once, at a version on which it is active, and the versions are
as few as possible. -/
structure Timely (source : Version) (intervals : List MigrationInterval)
    (interrupts : List MigrationInterrupt) : Prop where
  ascending : interrupts.Pairwise fun a b => a.version.key < b.version.key
  assigned : ∃ assignment : List (MigrationInterval × Version),
    (assignment.map Prod.fst).Perm intervals ∧
    (interrupts.flatMap fun e => e.migrationIDs.map fun id => (id, e.version)).Perm
      (assignment.map fun a => (a.1.id, a.2)) ∧
    ∀ a ∈ assignment, a.1.introduced.key ≤ a.2.key ∧ a.2.key < a.1.deprecated.key ∧
      source.key ≤ a.2.key
  least : ∀ choice : MigrationInterval → Version,
    (∀ i ∈ intervals, i.introduced.key ≤ (choice i).key ∧ (choice i).key < i.deprecated.key ∧
      source.key ≤ (choice i).key) →
    interrupts.length ≤ (intervals.map choice).toFinset.card

def Scheduled (source : Version) (intervals : List MigrationInterval) :
    Except Fault (List MigrationInterrupt) → Prop
  | .ok interrupts => Timely source intervals interrupts
  | .error (.error _) => True
  | .error (.panic _) => False

/-- The version before a deprecation is the last of all versions of the input before it. It is not
where the input names a version after the last one that is listed for a major release. -/
def Adjacent (source : Version) (intervals : List MigrationInterval) : Prop :=
  ∀ i ∈ intervals, ∀ p ∈ i.deprecated.previous, p.key < i.deprecated.key ∧
    ∀ v ∈ source :: intervals.map MigrationInterval.introduced,
      v.key < i.deprecated.key → v.key ≤ p.key

def Disjoint (family : List MigrationInterval) : Prop :=
  family.Pairwise fun a b => a.deprecated.key ≤ b.introduced.key

/-- The greatest number of disjoint intervals grows with those that end at `d`. -/
def Grows (intervals : List MigrationInterval) (d : Version) : Prop :=
  ∃ family ⊆ intervals, Disjoint family ∧ (∀ a ∈ family, a.deprecated.key ≤ d.key) ∧
    ∀ other ⊆ intervals, Disjoint other → (∀ a ∈ other, a.deprecated.key < d.key) →
      other.length < family.length

instance (source : Version) (intervals : List MigrationInterval) :
    Decidable (Adjacent source intervals) :=
  inferInstanceAs (Decidable (∀ i ∈ intervals, ∀ p ∈ i.deprecated.previous, _ ∧ ∀ v ∈ _, _))

structure Bounded (source : Version) (i : MigrationInterval) : Prop where
  active : i.introduced.key < i.deprecated.key
  source : source.key < i.deprecated.key
  dev : i.deprecated.dev = false

section Ordered

variable {α β : Type} {l : List α}

theorem forall_of_getLast (h : l.Pairwise R) {P : α → Prop} (hla : ∀ x ∈ l.getLast?, P x)
    (hba : ∀ x y, R x y → P y → P x) : ∀ x ∈ l, P x := by
  rcases eq_nil_or_concat l with rfl | ⟨fr, last, rfl⟩
  · simp
  rw [concat_eq_append] at h hla ⊢
  have hP : P last := hla last (by simp)
  exact forall_mem_append.mpr ⟨fun x hx => hba x last
    ((pairwise_append.mp h).2.2 x hx last (by simp)) hP, forall_mem_singleton.mpr hP⟩

theorem pairwise_snoc : (l ++ [a]).Pairwise R ↔ l.Pairwise R ∧ ∀ b ∈ l, R b a := by
  simp [pairwise_append]

theorem rel_find_reverse (hr : ∀ a, R a a) (h : l.Pairwise R)
    (hv : l.reverse.find? p = some v) (hx : x ∈ l) (hp : p x = true) : R x v := by
  obtain ⟨-, lat, ear, hspl, hno⟩ := find?_eq_some_iff_append.mp hv
  have hmem : x ∈ lat ++ v :: ear := hspl ▸ mem_reverse.mpr hx
  have hord : (lat ++ v :: ear).Pairwise fun a b => R b a := by
    rw [← hspl, pairwise_reverse]
    exact h
  rcases mem_append.mp hmem with hmem | hmem
  · exact absurd hp (by simpa using hno x hmem)
  rcases mem_cons.mp hmem with rfl | hmem
  · exact hr x
  · exact (pairwise_cons.mp (pairwise_append.mp hord).2.1).1 x hmem

theorem filter_length_lt {p q : α → Bool} (h : ∀ x, p x = true → q x = true) (hx : x ∈ l)
    (hq : q x = true) (hp : p x = false) : (l.filter p).length < (l.filter q).length := by
  have hsub : (l.filter p).Sublist (l.filter q) := monotone_filter_right l h
  refine lt_of_le_of_ne hsub.length_le fun he => ?_
  have hmem : x ∈ l.filter q := mem_filter.mpr ⟨hx, hq⟩
  rw [← hsub.eq_of_length he, mem_filter, hp] at hmem
  exact absurd hmem.2 Bool.false_ne_true

theorem length_le_card [DecidableEq β] {ch seen : List α} {f : α → β} (hsub : ch ⊆ seen)
    (h : ch.Pairwise fun a b => f a ≠ f b) : ch.length ≤ (seen.map f).toFinset.card := by
  have hca := Finset.card_le_card (show (ch.map f).toFinset ⊆ (seen.map f).toFinset from fun v hv =>
      mem_toFinset.mpr (map_subset f hsub (mem_toFinset.mp hv)))
  rwa [toFinset_card_of_nodup (pairwise_map.mpr h), length_map] at hca

end Ordered

/-- The points chosen for the intervals seen so far, each with the interval that required it. -/
structure Greedy (points : List Version) (seen : List MigrationInterval)
    (chosen : List (MigrationInterval × Version)) : Prop where
  points_eq : points = chosen.map Prod.snd
  created : ∀ c ∈ chosen, c.1 ∈ seen ∧ c.1.deprecated.previous = some c.2
  disjoint : Disjoint (chosen.map Prod.fst)
  ascending : points.Pairwise fun a b => a.key < b.key
  covered : ∀ i ∈ seen, ∃ c ∈ chosen, c.1.deprecated.key ≤ i.deprecated.key ∧
    i.introduced.key ≤ c.2.key ∧ c.2.key < i.deprecated.key

theorem before_iff : before a b = true ↔ a.key < b.key := by
  rw [before, decide_eq_true_eq, compareVersions_before]

variable {v source : Version} {chosen : List (MigrationInterval × Version)}
  {all seen : List MigrationInterval} {points : List Version}

theorem Adjacent.introduced_le (h : Adjacent source all) (hi : i ∈ all)
    (hp : i.deprecated.previous = some p) (hj : j ∈ all)
    (hlt : j.introduced.key < i.deprecated.key) : j.introduced.key ≤ p.key :=
  (h i hi p hp).2 _ (mem_cons_of_mem _ (mem_map_of_mem hj)) hlt

theorem Adjacent.source_le (h : Adjacent source all) (hi : i ∈ all)
    (hp : i.deprecated.previous = some p) (hlt : source.key < i.deprecated.key) :
    source.key ≤ p.key :=
  (h i hi p hp).2 _ mem_cons_self hlt

theorem Greedy.point_mem (h : Greedy points seen chosen) (hc : c ∈ chosen) : c.2 ∈ points := by
  rw [h.points_eq]
  exact mem_map_of_mem hc

theorem Greedy.apart (h : Greedy points seen chosen) (hadjacent : Adjacent source all)
    (hseen : seen ⊆ all) (hi : i ∈ all)
    (hlast : ∀ last ∈ points.getLast?, last.key < i.introduced.key) :
    ∀ c ∈ chosen, c.1.deprecated.key ≤ i.introduced.key := by
  have hbefore : ∀ p ∈ points, p.key < i.introduced.key :=
    forall_of_getLast h.ascending hlast fun _ _ hlt => lt_trans hlt
  intro c hc
  by_contra hlt
  obtain ⟨hmem, hprevious⟩ := h.created c hc
  have hle := hadjacent.introduced_le (hseen hmem) hprevious hi (not_le.mp hlt)
  exact absurd (hbefore c.2 (h.point_mem hc)) (not_lt.mpr hle)

theorem disjoint_snoc {family : List MigrationInterval} :
    Disjoint (family ++ [i]) ↔
      Disjoint family ∧ ∀ a ∈ family, a.deprecated.key ≤ i.introduced.key :=
  pairwise_snoc

theorem Greedy.push (h : Greedy points seen chosen) (hadjacent : Adjacent source all)
    (hseen : seen ⊆ all) (hi : i ∈ all) (hactive : i.introduced.key < i.deprecated.key)
    (hlast : ∀ last ∈ points.getLast?, last.key < i.introduced.key)
    (hv : i.deprecated.previous = some v) :
    Greedy (points ++ [v]) (seen ++ [i]) (chosen ++ [(i, v)]) := by
  have hbefore : ∀ p ∈ points, p.key < i.introduced.key :=
    forall_of_getLast h.ascending hlast fun _ _ hlt => lt_trans hlt
  have hiv : i.introduced.key ≤ v.key := hadjacent.introduced_le hi hv hi hactive
  refine ⟨by rw [h.points_eq, map_append]; rfl, ?_, ?_, ?_, ?_⟩
  · refine forall_mem_append.mpr ⟨fun c hc => ?_, forall_mem_singleton.mpr ⟨by simp, hv⟩⟩
    exact (h.created c hc).imp_left (mem_append_left _)
  · rw [map_append]
    refine disjoint_snoc.mpr ⟨h.disjoint, forall_mem_map.mpr ?_⟩
    exact h.apart hadjacent hseen hi hlast
  · exact pairwise_snoc.mpr ⟨h.ascending, fun p hp => lt_of_lt_of_le (hbefore p hp) hiv⟩
  · refine forall_mem_append.mpr ⟨fun j hj => ?_, forall_mem_singleton.mpr
      ⟨(i, v), by simp, le_refl _, hiv, (hadjacent i hi v hv).1⟩⟩
    obtain ⟨c, hc, hbounds⟩ := h.covered j hj
    exact ⟨c, mem_append_left _ hc, hbounds⟩

theorem Greedy.skip (h : Greedy points seen chosen) (hadjacent : Adjacent source all)
    (hseen : seen ⊆ all) (hsorted : ∀ j ∈ seen, j.deprecated.key ≤ i.deprecated.key)
    (hlast : last ∈ points) (hle : i.introduced.key ≤ last.key) :
    Greedy points (seen ++ [i]) chosen := by
  refine { h with
    created := fun c hc => (h.created c hc).imp_left (mem_append_left _)
    covered := forall_mem_append.mpr ⟨h.covered, forall_mem_singleton.mpr ?_⟩ }
  rw [h.points_eq] at hlast
  obtain ⟨c, hc, rfl⟩ := mem_map.mp hlast
  obtain ⟨hmem, hprevious⟩ := h.created c hc
  have hlt := (hadjacent c.1 (hseen hmem) c.2 hprevious).1
  exact ⟨c, hc, hsorted c.1 hmem, hle, lt_of_lt_of_le hlt (hsorted c.1 hmem)⟩

/-- Disjoint intervals are covered by different points, chosen for intervals that end no later. -/
theorem Greedy.length_le (h : Greedy points seen chosen) {P : ℤ ×ₗ ℤ → Bool}
    (hP : ∀ x y, x ≤ y → P y = true → P x = true) {family : List MigrationInterval}
    (hsub : family ⊆ seen) (hdisjoint : Disjoint family)
    (hfamily : ∀ a ∈ family, P a.deprecated.key = true) :
    family.length ≤ (chosen.filter fun c => P c.1.deprecated.key).length := by
  have hcover : ∀ a, ∃ c, a ∈ family → c ∈ chosen ∧ c.1.deprecated.key ≤ a.deprecated.key ∧
      a.introduced.key ≤ c.2.key ∧ c.2.key < a.deprecated.key := by
    intro a
    by_cases ha : a ∈ family
    · obtain ⟨c, hc⟩ := h.covered a (hsub ha)
      exact ⟨c, fun _ => hc⟩
    · exact ⟨(a, a.introduced), fun hmem => absurd hmem ha⟩
  choose cover hcover using hcover
  have hnodup : (family.map cover).Nodup := by
    refine pairwise_map.mpr (hdisjoint.imp_of_mem fun {a b} ha hb hle he => ?_)
    have hlt := (hcover a ha).2.2.2
    have hge := (hcover b hb).2.2.1
    rw [he] at hlt
    exact absurd (lt_of_lt_of_le hlt (hle.trans hge)) (lt_irrefl _)
  have hmem : family.map cover ⊆ chosen.filter fun c => P c.1.deprecated.key := by
    refine forall_mem_map.mpr fun a ha => mem_filter.mpr ⟨(hcover a ha).1, ?_⟩
    exact hP _ _ (hcover a ha).2.1 (hfamily a ha)
  have hle := (subperm_of_subset hnodup hmem).length_le
  rwa [length_map] at hle

/-- The chosen intervals that end early are a family of their own. -/
theorem Greedy.family (h : Greedy points seen chosen) (P : MigrationInterval × Version → Bool) :
    (chosen.filter P).map Prod.fst ⊆ seen ∧ Disjoint ((chosen.filter P).map Prod.fst) := by
  refine ⟨forall_mem_map.mpr fun c hc => (h.created c (mem_filter.mp hc).1).1, ?_⟩
  exact h.disjoint.sublist (filter_sublist.map Prod.fst)

theorem Greedy.grows_iff (h : Greedy points seen chosen) :
    Grows seen d ↔ ∃ c ∈ chosen, c.1.deprecated.key = d.key := by
  constructor
  · rintro ⟨family, hsub, hdisjoint, hle, hmore⟩
    by_contra hnone
    push Not at hnone
    have hmost := h.length_le (P := fun x => decide (x ≤ d.key))
      (fun x y hxy hy => decide_eq_true (hxy.trans (of_decide_eq_true hy))) hsub hdisjoint
      fun a ha => decide_eq_true (hle a ha)
    obtain ⟨hmem, hapart⟩ := h.family fun c => decide (c.1.deprecated.key ≤ d.key)
    have hless := hmore _ hmem hapart <| forall_mem_map.mpr fun c hc => by
      obtain ⟨hc, hkey⟩ := mem_filter.mp hc
      exact lt_of_le_of_ne (of_decide_eq_true hkey) (hnone c hc)
    rw [length_map] at hless
    omega
  · rintro ⟨c, hc, hd⟩
    obtain ⟨hmem, hapart⟩ := h.family fun c => decide (c.1.deprecated.key ≤ d.key)
    refine ⟨_, hmem, hapart, forall_mem_map.mpr fun c hc => ?_, fun other hsub hother hlt => ?_⟩
    · exact of_decide_eq_true (mem_filter.mp hc).2
    · have hmost := h.length_le (P := fun x => decide (x < d.key))
        (fun x y hxy hy => decide_eq_true (lt_of_le_of_lt hxy (of_decide_eq_true hy))) hsub hother
        fun a ha => decide_eq_true (hlt a ha)
      rw [length_map]
      refine lt_of_le_of_lt hmost (filter_length_lt (fun e he => ?_) hc ?_ ?_)
      · exact decide_eq_true (le_of_lt (of_decide_eq_true he))
      · exact decide_eq_true (le_of_eq hd)
      · exact decide_eq_false (not_lt.mpr (ge_of_eq hd))

/-- An interval without a known version before its end is only looked at if it is disjoint from all
that are chosen. -/
theorem Greedy.grows_unknown (h : Greedy points seen chosen)
    (hsorted : (seen ++ i :: rest).Pairwise fun a b => a.deprecated.key ≤ b.deprecated.key)
    (hapart : ∀ c ∈ chosen, c.1.deprecated.key ≤ i.introduced.key) :
    Grows (seen ++ i :: rest) i.deprecated := by
  obtain ⟨-, hrest, hbefore⟩ := pairwise_append.mp hsorted
  refine ⟨chosen.map Prod.fst ++ [i], ?_, ?_, ?_, fun other hsub hother hlt => ?_⟩
  · refine forall_mem_append.mpr ⟨forall_mem_map.mpr fun c hc => ?_, by simp⟩
    exact mem_append_left _ (h.created c hc).1
  · exact disjoint_snoc.mpr ⟨h.disjoint, forall_mem_map.mpr hapart⟩
  · refine forall_mem_append.mpr ⟨forall_mem_map.mpr fun c hc => ?_, by simp⟩
    exact hbefore c.1 (h.created c hc).1 i (by simp)
  · have hseen : other ⊆ seen := by
      intro a ha
      rcases mem_append.mp (hsub ha) with hmem | hmem
      · exact hmem
      rcases mem_cons.mp hmem with rfl | hmem
      · exact absurd (hlt a ha) (lt_irrefl _)
      · exact absurd (hlt a ha) (not_lt.mpr ((pairwise_cons.mp hrest).1 a hmem))
    have hmost := h.length_le (P := fun _ => true) (fun _ _ _ _ => rfl) hseen hother
      fun _ _ => rfl
    rw [filter_true] at hmost
    rw [length_append, length_map, length_singleton]
    omega

theorem upgradePoints_greedy (hadjacent : Adjacent source (seen ++ rest))
    (hactive : ∀ i ∈ rest, i.introduced.key < i.deprecated.key)
    (hsorted : (seen ++ rest).Pairwise fun a b => a.deprecated.key ≤ b.deprecated.key)
    (h : Greedy points seen chosen) :
    (∃ message, upgradePoints points rest = .error (.error message) ∧
      ∃ k ∈ seen ++ rest, k.deprecated.previous = none ∧ Grows (seen ++ rest) k.deprecated) ∨
      ∃ points' chosen', upgradePoints points rest = .ok points' ∧
        Greedy points' (seen ++ rest) chosen' := by
  induction rest generalizing points seen chosen with
  | nil => exact .inr ⟨points, chosen, rfl, by rwa [append_nil]⟩
  | cons i rest ih =>
    have hassoc : seen ++ i :: rest = seen ++ [i] ++ rest := by simp
    have hseen : seen ⊆ seen ++ i :: rest := subset_append_left _ _
    have hi : i ∈ seen ++ i :: rest := by simp
    have hrest := (forall_mem_cons.mp hactive).2
    rw [upgradePoints]
    by_cases hlast : (points.getLast?.all fun last => before last i.introduced) = true
    · have hbefore : ∀ last ∈ points.getLast?, last.key < i.introduced.key := by
        intro last hmem
        rw [hmem, Option.all_some, before_iff] at hlast
        exact hlast
      rw [if_pos hlast]
      cases hv : i.deprecated.previous with
      | none =>
        refine .inl ⟨_, rfl, i, hi, hv, h.grows_unknown hsorted ?_⟩
        exact h.apart hadjacent hseen hi hbefore
      | some v =>
        have hpush := h.push hadjacent hseen hi (hactive i (by simp)) hbefore hv
        rw [hassoc] at hadjacent hsorted ⊢
        exact ih hadjacent hrest hsorted hpush
    · rw [if_neg hlast]
      cases hl : points.getLast? with
      | none => rw [hl] at hlast; simp at hlast
      | some last =>
        rw [hl, Option.all_some, before_iff, not_lt] at hlast
        have hskip := h.skip hadjacent hseen
          (fun j hj => (pairwise_append.mp hsorted).2.2 j hj i (by simp)) (mem_of_getLast? hl) hlast
        rw [hassoc] at hadjacent hsorted ⊢
        exact ih hadjacent hrest hsorted hskip

/-- No assignment needs fewer versions than there are points. -/
theorem Greedy.least (h : Greedy points seen chosen) (choice : MigrationInterval → Version)
    (hchoice : ∀ i ∈ seen, i.introduced.key ≤ (choice i).key ∧
      (choice i).key < i.deprecated.key) :
    points.length ≤ (seen.map choice).toFinset.card := by
  have hsub : chosen.map Prod.fst ⊆ seen := by
    exact forall_mem_map.mpr fun c hc => (h.created c hc).1
  have hle := @length_le_card _ _ _ (chosen.map Prod.fst) seen choice hsub <| by
    refine h.disjoint.imp_of_mem fun {c d} hc hd hle he => ?_
    have hlt := (hchoice c (hsub hc)).2
    have hge := (hchoice d (hsub hd)).1
    rw [he] at hlt
    exact absurd (lt_of_lt_of_le hlt (le_trans hle hge)) (lt_irrefl _)
  rwa [h.points_eq, length_map, ← @length_map _ _ chosen Prod.fst]

def CoveringSet.pairs (set : CoveringSet) : List (ℤ × Version) :=
  set.flatMap fun entry => entry.2.map fun id => (id, entry.1)

theorem add_pairs (id : ℤ) (set : CoveringSet) :
    (set.add v id).pairs.Perm ((id, v) :: set.pairs) := by
  induction set with
  | nil => exact .refl _
  | cons en rest ih =>
    obtain ⟨w, ids⟩ := en
    by_cases hw : w = v
    · subst hw
      rw [CoveringSet.add, if_pos rfl]
      simp only [CoveringSet.pairs, flatMap_cons, map_append, map_cons, map_nil,
        append_assoc, singleton_append]
      exact perm_middle
    rw [CoveringSet.add, if_neg hw]
    have := ih.append_left (ids.map fun id => (id, w))
    exact this.trans perm_middle

theorem add_eq_update (v : Version) (id : ℤ) (set : CoveringSet) :
    set.add v id = MapEntries.update v (fun ids => ids.getD [] ++ [id]) set := by
  induction set with
  | nil => rfl
  | cons en rest ih => simp [CoveringSet.add, MapEntries.update, ih]

structure Keyed (points : List Version) (set : CoveringSet) : Prop where
  nodup : (set.map Prod.fst).Nodup
  subset : ∀ v ∈ set.map Prod.fst, v ∈ points

theorem Keyed.add {set : CoveringSet} (h : Keyed points set) (hv : v ∈ points) (id : ℤ) :
    Keyed points (set.add v id) := by
  rw [add_eq_update]
  refine ⟨MapEntries.nodup_update _ _ h.nodup, fun w hw => ?_⟩
  rcases (MapEntries.mem_keys_update _ _ _).mp hw with hw | rfl
  · exact h.subset w hw
  · exact hv

section Covering

theorem cover_mem (h : cover points.reverse i = some v) :
    v ∈ points ∧ i.introduced.key ≤ v.key ∧ v.key ≤ i.deprecated.key :=
  ⟨mem_reverse.mp (mem_of_find?_eq_some h), pointIntersectsInterval_iff.mp (find?_some h)⟩

theorem cover_some (hp : p ∈ points) (hlow : i.introduced.key ≤ p.key)
    (hhi : p.key ≤ i.deprecated.key) :
    cover points.reverse i = some ((cover points.reverse i).getD i.introduced) := by
  have hso : (cover points.reverse i).isSome = true := by
    rw [cover, find?_isSome]
    exact ⟨p, mem_reverse.mpr hp, pointIntersectsInterval_iff.mpr ⟨hlow, hhi⟩⟩
  obtain ⟨v, hv⟩ := Option.isSome_iff_exists.mp hso
  rw [hv, Option.getD_some]

theorem cover_greatest (hpts : points.Pairwise fun a b => a.key < b.key)
    (h : cover points.reverse i = some v) (hp : p ∈ points) (hlow : i.introduced.key ≤ p.key)
    (hhi : p.key ≤ i.deprecated.key) : p.key ≤ v.key := by
  exact rel_find_reverse (R := fun a b => a.key ≤ b.key) (fun _ => le_refl _)
    (hpts.imp le_of_lt) h hp (pointIntersectsInterval_iff.mpr ⟨hlow, hhi⟩)

theorem coverAll_ok {cov : MigrationInterval → Version} {set : CoveringSet}
    (hcov : ∀ i ∈ ivs, cover points.reverse i = some (cov i)) (hset : Keyed points set) :
    ∃ set', coverAll points.reverse set ivs = .ok set' ∧ Keyed points set' ∧
      set'.pairs.Perm (set.pairs ++ ivs.map fun i => (i.id, cov i)) := by
  induction ivs generalizing set with
  | nil => exact ⟨set, rfl, hset, by simp⟩
  | cons i rest ih =>
    have hi := hcov i (by simp)
    obtain ⟨set', hrun, hkey, hprs⟩ := ih (forall_mem_cons.mp hcov).2
      (hset.add (cover_mem hi).1 i.id)
    refine ⟨set', by rw [coverAll, hi]; exact hrun, hkey, hprs.trans ?_⟩
    exact ((add_pairs i.id set).append_right _).trans perm_middle.symm

end Covering

theorem sort_ordered {α K : Type} [LinearOrder K] (rt : Runtime) {less : α → α → Bool} {f : α → K}
    (hle : ∀ a b, less a b = true ↔ f a < f b) (l : List α) :
    (rt.sortSlice less l).Pairwise fun a b => f a ≤ f b := by
  have hnot : ∀ a b, less a b = false ↔ f b ≤ f a := fun a b => by
    rw [Bool.eq_false_iff, ne_eq, hle, not_lt]
  refine (rt.sortSlice_ordered _ l ?_ ?_).imp fun {a b} h => (hnot b a).mp h
  · exact fun a b h => (hnot b a).mpr (le_of_lt ((hle a b).mp h))
  · exact fun a b c hab hbc => (hnot a c).mpr (((hnot b c).mp hbc).trans ((hnot a b).mp hab))

theorem sort_by_key (rt : Runtime) (f : α → Version) (l : List α) :
    (rt.sortSlice (fun a b => before (f a) (f b)) l).Pairwise fun a b => (f a).key ≤ (f b).key :=
  @sort_ordered α _ _ rt _ (fun a => (f a).key) (fun _ _ => before_iff) l

def pairsOf (interrupts : List MigrationInterrupt) : List (ℤ × Version) :=
  interrupts.flatMap fun e => e.migrationIDs.map fun id => (id, e.version)

theorem pairsOf_perm (h : l.Perm l') : (pairsOf l).Perm (pairsOf l') := h.flatMap_right _

theorem version_of_pair {id : ℤ} (h : (id, v) ∈ pairsOf ints) : ∃ e ∈ ints, e.version = v := by
  obtain ⟨e, he, hin⟩ := mem_flatMap.mp h
  obtain ⟨_, -, hid⟩ := mem_map.mp hin
  exact ⟨e, he, (Prod.mk.inj hid).2⟩

theorem pairsOf_iterate (rt : Runtime) (set : CoveringSet) :
    (pairsOf ((rt.iterate set).map fun en =>
      ⟨en.1, rt.sortSlice (fun a b => decide (a < b)) en.2⟩)).Perm set.pairs := by
  rw [pairsOf, flatMap_map]
  refine Perm.trans ?_ ((rt.iterate_perm set).flatMap_right _)
  exact Perm.flatMap_left _ fun en _ => (rt.sortSlice_perm _ en.2).map _

structure Listed (points : List Version) (intervals : List MigrationInterval)
    (covering : MigrationInterval → Version) (interrupts : List MigrationInterrupt) : Prop where
  nodup : (interrupts.map MigrationInterrupt.version).Nodup
  pairs : (pairsOf interrupts).Perm (intervals.map fun i => (i.id, covering i))
  versions : ∀ e ∈ interrupts, e.version ∈ points

theorem makeCoveringSet_listed (rt : Runtime)
    (hcov : ∀ i ∈ ivs, cover points.reverse i = some (cov i)) :
    ∃ ints, makeCoveringSet rt ivs points = .ok ints ∧ Listed points ivs cov ints := by
  obtain ⟨set, hrun, hkey, hprs⟩ :=
    @coverAll_ok points ivs cov [] hcov ⟨nodup_nil, by simp⟩
  obtain ⟨raw, hraw⟩ : ∃ raw : List MigrationInterrupt, ((rt.iterate set).map fun en =>
    ⟨en.1, rt.sortSlice (fun a b => decide (a < b)) en.2⟩) = raw := ⟨_, rfl⟩
  have hver : (raw.map MigrationInterrupt.version).Perm (set.map Prod.fst) := by
    rw [← hraw, map_map]
    exact (rt.iterate_perm set).map Prod.fst
  refine ⟨raw, by rw [makeCoveringSet, hrun, ← hraw]; rfl, ?_, ?_, ?_⟩
  · exact hver.nodup_iff.mpr hkey.nodup
  · rw [← hraw]
    exact (pairsOf_iterate rt set).trans hprs
  · intro e he
    exact hkey.subset _ (hver.mem_iff.mp (mem_map_of_mem he))

theorem Listed.perm {ints' : List MigrationInterrupt}
    (h : Listed points ivs cov ints) (hpm : ints'.Perm ints) : Listed points ivs cov ints' where
  nodup := (hpm.map _).nodup_iff.mpr h.nodup
  pairs := (pairsOf_perm hpm).trans h.pairs
  versions e he := h.versions e (hpm.mem_iff.mp he)

structure Assigned (points : List Version) (intervals : List MigrationInterval)
    (covering : MigrationInterval → Version) (interrupts : List MigrationInterrupt) : Prop where
  ascending : interrupts.Pairwise fun a b => a.version.key < b.version.key
  pairs : (pairsOf interrupts).Perm (intervals.map fun i => (i.id, covering i))
  versions : ∀ e ∈ interrupts, e.version ∈ points
  length : interrupts.length ≤ points.length

theorem key_inj_of_ascending (h : points.Pairwise fun a b => a.key < b.key) (ha : a ∈ points)
    (hb : b ∈ points) (he : a.key = b.key) : a = b := by
  have hnd : (points.map Version.key).Nodup :=
    pairwise_map.mpr (h.imp fun hlt => ne_of_lt hlt)
  exact inj_on_of_nodup_map hnd ha hb he

theorem makeCoveringSet_assigned (rt : Runtime) (hpts : points.Pairwise fun a b => a.key < b.key)
    (hcov : ∀ i ∈ ivs, cover points.reverse i = some (cov i)) :
    ∃ ints, makeCoveringSet rt ivs points = .ok ints ∧
      Assigned points ivs cov (rt.sortSlice (fun a b => before a.version b.version) ints) := by
  obtain ⟨raw, hrun, hlst⟩ := makeCoveringSet_listed rt hcov
  have hsrt := hlst.perm (rt.sortSlice_perm (fun a b => before a.version b.version) raw)
  refine ⟨raw, hrun, ?_, hsrt.pairs, hsrt.versions, ?_⟩
  · refine ((sort_by_key rt _ raw).and (pairwise_map.mp hsrt.nodup)).imp_of_mem ?_
    intro a b ha hb hab
    refine lt_of_le_of_ne hab.1 fun he => hab.2 ?_
    exact key_inj_of_ascending hpts (hsrt.versions a ha) (hsrt.versions b hb) he
  · have hsub : (rt.sortSlice (fun a b => before a.version b.version) raw).map
        MigrationInterrupt.version ⊆ points := by
      exact forall_mem_map.mpr fun e he => hsrt.versions e he
    have hle := (subperm_of_subset hsrt.nodup hsub).length_le
    rwa [length_map] at hle

theorem Assigned.timely (hgreedy : Greedy points intervals chosen)
    (hadjacent : Adjacent source intervals) (hsource : ∀ i ∈ intervals, Bounded source i)
    (hcover : ∀ i ∈ intervals, cover points.reverse i = some (covering i))
    (hclash : ∀ i ∈ intervals, ∀ p ∈ points, p.key ≠ i.deprecated.key)
    (h : Assigned points intervals covering interrupts) : Timely source intervals interrupts where
  ascending := h.ascending
  assigned := by
    refine ⟨intervals.map fun i => (i, covering i), by simp [Function.comp_def], ?_, ?_⟩
    · rw [map_map]
      exact h.pairs
    · refine forall_mem_map.mpr fun i hi => ?_
      obtain ⟨hmem, hlow, hhigh⟩ := cover_mem (hcover i hi)
      refine ⟨hlow, lt_of_le_of_ne hhigh (hclash i hi _ hmem), ?_⟩
      rw [hgreedy.points_eq] at hmem
      obtain ⟨c, hc, hcv⟩ := mem_map.mp hmem
      obtain ⟨hc, hprevious⟩ := hgreedy.created c hc
      rw [← hcv]
      exact hadjacent.source_le hc hprevious (hsource c.1 hc).source
  least choice hchoice := by
    refine h.length.trans (hgreedy.least choice fun i hi => ?_)
    exact ⟨(hchoice i hi).1, (hchoice i hi).2.1⟩

def rank (points : List Version) (v : Version) : ℕ :=
  (points.filter fun p => p.key < v.key).length

theorem filter_key_sublist (points : List Version) {w : Version} (h : v.key ≤ w.key) :
    (points.filter fun p => p.key < v.key).Sublist (points.filter fun p => p.key < w.key) := by
  refine monotone_filter_right points fun p hp => ?_
  rw [decide_eq_true_eq] at hp ⊢
  exact lt_of_lt_of_le hp h

theorem rank_lt (hv : v ∈ points) (h : v.key < w.key) : rank points v < rank points w := by
  refine filter_length_lt (fun p hp => ?_) hv (decide_eq_true h) (decide_eq_false (lt_irrefl _))
  exact decide_eq_true (lt_trans (of_decide_eq_true hp) h)

/-- Every migration is assigned to the last point of its closed interval. No other assignment to
the same versions is timely, so a timely schedule has no interval that ends at a point. -/
theorem Assigned.no_clash (hpts : points.Pairwise fun a b => a.key < b.key)
    (hcov : ∀ i ∈ ivs, cover points.reverse i = some (cov i))
    (hact : ∀ i ∈ ivs, i.introduced.key < i.deprecated.key) (h : Assigned points ivs cov ints)
    (htim : Timely src ivs ints) : ∀ i ∈ ivs, ∀ p ∈ points, p.key ≠ i.deprecated.key := by
  obtain ⟨asg, hmig, hprs, hbds⟩ := htim.assigned
  have hver : (asg.map Prod.snd).Perm (asg.map fun a => cov a.1) := by
    have hone := (hprs.symm.trans h.pairs).map Prod.snd
    have htwo := (hmig.map cov).symm
    rw [map_map] at hone htwo
    rw [map_map] at hone
    exact hone.trans htwo
  have hmem : ∀ a ∈ asg, a.1 ∈ ivs ∧ a.2 ∈ points := by
    intro a ha
    obtain ⟨e, he, hve⟩ := version_of_pair (hprs.mem_iff.mpr (mem_map_of_mem ha))
    refine ⟨hmig.mem_iff.mp (mem_map_of_mem ha), ?_⟩
    rw [← hve]
    exact h.versions e he
  have hle : ∀ a ∈ asg, rank points a.2 ≤ rank points (cov a.1) := by
    intro a ha
    obtain ⟨hlow, hhi, -⟩ := hbds a ha
    exact (filter_key_sublist points (cover_greatest hpts (hcov a.1 (hmem a ha).1)
      (hmem a ha).2 hlow (le_of_lt hhi))).length_le
  intro i hi p hp he
  obtain ⟨a, ha, rfl⟩ := mem_map.mp (hmig.mem_iff.mpr hi)
  have hgre := cover_greatest hpts (hcov a.1 hi) hp
    (by rw [he]; exact le_of_lt (hact a.1 hi)) (le_of_eq he)
  rw [he] at hgre
  have hlt : rank points a.2 < rank points (cov a.1) :=
    rank_lt (hmem a ha).2 (lt_of_lt_of_le (hbds a ha).2.1 hgre)
  have hsum : (asg.map fun a => rank points a.2).sum <
      (asg.map fun a => rank points (cov a.1)).sum := by
    apply sum_lt_sum
    · exact hle
    · exact ⟨a, ha, hlt⟩
  have heq := (hver.map (rank points)).sum_eq
  rw [map_map, map_map, Function.comp_def, Function.comp_def] at heq
  exact absurd heq (ne_of_lt hsum)

theorem Timely.perm {ivs' : List MigrationInterval}
    (h : Timely src ivs ints) (hpm : ivs.Perm ivs') : Timely src ivs' ints where
  ascending := h.ascending
  assigned := by
    obtain ⟨asg, hmig, hrs⟩ := h.assigned
    exact ⟨asg, hmig.trans hpm, hrs⟩
  least choice hch := by
    have hle := h.least choice fun i hi => hch i (hpm.mem_iff.mp hi)
    rwa [toFinset_eq_of_perm _ _ (hpm.map choice)] at hle

theorem bounded_upgradeIntervals {source target : Version} {migrations : List YamlMigration}
    (h : ∀ i ∈ migrations.filterMap interval, i.introduced.key < i.deprecated.key) :
    ∀ i ∈ upgradeIntervals source target migrations, Bounded source i := by
  intro i hi
  obtain ⟨hmem, hrange⟩ := mem_filter.mp hi
  rw [Bool.and_eq_true, before_iff] at hrange
  obtain ⟨m, -, hm⟩ := mem_filterMap.mp hmem
  obtain ⟨d, -, rfl⟩ := Option.map_eq_some_iff.mp hm
  exact ⟨h _ hmem, hrange.1, rfl⟩

theorem Greedy.cover_eq (h : Greedy points intervals chosen) : ∀ i ∈ intervals,
    cover points.reverse i = some ((cover points.reverse i).getD i.introduced) := by
  intro i hi
  obtain ⟨c, hc, -, hlow, hhigh⟩ := h.covered i hi
  exact cover_some (h.point_mem hc) hlow (le_of_lt hhigh)

/-- A migration is deprecated at a point if the point is before the end of an interval that makes
the number of disjoint intervals grow. -/
theorem Greedy.clash_iff (h : Greedy points intervals chosen)
    (hbounded : ∀ i ∈ intervals, Bounded source i) :
    (∀ i ∈ intervals, ∀ p ∈ points, p.key ≠ i.deprecated.key) ↔
      ∀ i ∈ intervals, ∀ j ∈ intervals, j.deprecated.previous = some i.deprecated →
        ¬ Grows intervals j.deprecated := by
  constructor
  · intro hne i hi j hj hprevious hgrows
    obtain ⟨c, hc, he⟩ := h.grows_iff.mp hgrows
    obtain ⟨hmem, hpoint⟩ := h.created c hc
    have hend : c.1.deprecated = j.deprecated :=
      key_injective he (by rw [(hbounded c.1 hmem).dev, (hbounded j hj).dev])
    rw [hend, hprevious] at hpoint
    refine hne i hi c.2 (h.point_mem hc) ?_
    rw [Option.some.inj hpoint]
  · intro hnone i hi p hp he
    rw [h.points_eq] at hp
    obtain ⟨c, hc, rfl⟩ := mem_map.mp hp
    obtain ⟨hmem, hpoint⟩ := h.created c hc
    have hend : c.2 = i.deprecated :=
      key_injective he (by rw [previous_dev hpoint, (hbounded i hi).dev])
    exact hnone i hi c.1 hmem (hend ▸ hpoint) (h.grows_iff.mpr ⟨c, hc, rfl⟩)

theorem Greedy.known (h : Greedy points intervals chosen)
    (hbounded : ∀ i ∈ intervals, Bounded source i) :
    ¬ ∃ k ∈ intervals, k.deprecated.previous = none ∧ Grows intervals k.deprecated := by
  rintro ⟨k, hk, hnone, hgrows⟩
  obtain ⟨c, hc, he⟩ := h.grows_iff.mp hgrows
  obtain ⟨hmem, hpoint⟩ := h.created c hc
  rw [key_injective he (by rw [(hbounded c.1 hmem).dev, (hbounded k hk).dev]), hnone] at hpoint
  cases hpoint

def stableRuntime : Runtime where
  sortSlice less l := l.insertionSort fun a b => less b a = false
  sortSlice_perm less l := perm_insertionSort _ l
  sortSlice_ordered less l hasymm htrans := by
    have : Std.Total fun a b => less b a = false := ⟨fun a b => by
      cases h : less b a with
      | false => exact .inl rfl
      | true => exact .inr (hasymm _ _ h)⟩
    have : IsTrans _ fun a b => less b a = false := ⟨fun a b c hab hbc => htrans c b a hbc hab⟩
    exact pairwise_insertionSort _ l
  iterate l := l
  iterate_perm l := .refl l

end OobInterrupts
