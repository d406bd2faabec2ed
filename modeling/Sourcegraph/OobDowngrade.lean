import Sourcegraph.OobInterrupts

/-! # Interrupts of a downgrade

A downgrade stops at versions at which out-of-band migrations have to be undone. The versions are
chosen greedily from the newest migration on. A migration that is not deprecated is bounded by the
version after the target. -/
namespace OobDowngrade

open GoStrings OobVersions OobInterrupts List

/-- The interval of a migration, with a bound for one that is not deprecated. -/
def downgradeInterval (bound : Version) (m : YamlMigration) : MigrationInterval :=
  let deprecated := m.deprecated.getD (bound.major, bound.minor)
  ⟨m.id, newVersion m.introduced.1 m.introduced.2, newVersion deprecated.1 deprecated.2⟩

def downgradeIntervals (bound source target : Version) (migrations : List YamlMigration) :
    List MigrationInterval :=
  (migrations.map (downgradeInterval bound)).filter fun i =>
    compareVersions target i.introduced ≠ .after && before i.introduced source

def sortDescending (rt : Runtime) (intervals : List MigrationInterval) : List MigrationInterval :=
  rt.sortSlice (fun a b => before b.introduced a.introduced) intervals

def downgradePoints : List Version → List MigrationInterval → List Version
  | points, [] => points
  | points, i :: rest =>
    if points.getLast?.all fun last => compareVersions i.deprecated last ≠ .after then
      downgradePoints (points ++ [i.introduced]) rest
    else downgradePoints points rest

def scheduleDowngrade (rt : Runtime) (source target : Version) (migrations : List YamlMigration) :
    Except Fault (List MigrationInterrupt) := do
  let intervals := sortDescending rt (downgradeIntervals target.next source target migrations)
  let interrupts ← makeCoveringSet rt intervals (downgradePoints [] intervals)
  .ok (rt.sortSlice (fun a b => before b.version a.version) interrupts)

/-- Every migration is undone, exactly once, at a version on which it is active, and the versions
are as few as possible. -/
structure Undone (source : Version) (intervals : List MigrationInterval)
    (interrupts : List MigrationInterrupt) : Prop where
  descending : interrupts.Pairwise fun a b => b.version.key < a.version.key
  assigned : ∃ assignment : List (MigrationInterval × Version),
    (assignment.map Prod.fst).Perm intervals ∧
    (pairsOf interrupts).Perm (assignment.map fun a => (a.1.id, a.2)) ∧
    ∀ a ∈ assignment, a.1.introduced.key ≤ a.2.key ∧ a.2.key < a.1.deprecated.key ∧
      a.2.key < source.key
  least : ∀ choice : MigrationInterval → Version,
    (∀ i ∈ intervals, i.introduced.key ≤ (choice i).key ∧ (choice i).key < i.deprecated.key ∧
      (choice i).key < source.key) →
    interrupts.length ≤ (intervals.map choice).toFinset.card

/-- Intervals in descending order, each of which ends before the one before it begins. -/
def Separate (family : List MigrationInterval) : Prop :=
  family.Pairwise fun a b =>
    b.deprecated.key ≤ a.introduced.key ∧ b.introduced.key < a.introduced.key

def Undoes (source : Version) (intervals : List MigrationInterval) :
    Except Fault (List MigrationInterrupt) → Prop
  | .ok interrupts => Undone source intervals interrupts
  | .error _ => False

/-- The points chosen for the intervals seen so far, with the intervals that required them. An
interval whose bounds coincide is a single point. -/
structure Descent (points : List Version) (seen chosen : List MigrationInterval) : Prop where
  points_eq : points = chosen.map MigrationInterval.introduced
  created : ∀ c ∈ chosen, c ∈ seen
  disjoint : chosen.Pairwise fun c d => d.deprecated.key ≤ c.introduced.key
  descending : points.Pairwise fun a b => b.key ≤ a.key
  covered : ∀ i ∈ seen, i.introduced.key ≤ i.deprecated.key → ∃ p ∈ points,
    i.introduced.key ≤ p.key ∧ p.key ≤ i.deprecated.key ∧
      (i.introduced.key < i.deprecated.key → p.key < i.deprecated.key)

section Points

variable {points : List Version}

theorem Descent.point_seen (h : Descent points seen ch) (hp : p ∈ points) :
    ∃ c ∈ seen, c.introduced = p := by
  rw [h.points_eq] at hp
  obtain ⟨c, hc, rfl⟩ := mem_map.mp hp
  exact ⟨c, h.created c hc, rfl⟩

theorem Descent.push (h : Descent points seen ch)
    (hsrt : ∀ j ∈ seen, i.introduced.key ≤ j.introduced.key)
    (hla : ∀ last ∈ points.getLast?, i.deprecated.key ≤ last.key) :
    Descent (points ++ [i.introduced]) (seen ++ [i]) (ch ++ [i]) := by
  have habo : ∀ p ∈ points, i.deprecated.key ≤ p.key :=
    forall_of_getLast h.descending hla fun _ _ hle hla => hla.trans hle
  refine ⟨by rw [h.points_eq, map_append]; rfl, ?_, ?_, ?_, ?_⟩
  · exact forall_mem_append.mpr ⟨fun c hc => mem_append_left _ (h.created c hc),
      fun c hc => mem_append_right _ hc⟩
  · refine pairwise_snoc.mpr ⟨h.disjoint, fun c hc => habo c.introduced ?_⟩
    rw [h.points_eq]
    exact mem_map_of_mem hc
  · refine pairwise_snoc.mpr ⟨h.descending, fun p hp => ?_⟩
    obtain ⟨c, hc, rfl⟩ := h.point_seen hp
    exact hsrt c hc
  · refine forall_mem_append.mpr ⟨fun j hj hle => ?_, forall_mem_singleton.mpr fun hle =>
      ⟨i.introduced, by simp, le_refl _, hle, id⟩⟩
    obtain ⟨p, hp, hbds⟩ := h.covered j hj hle
    exact ⟨p, mem_append_left _ hp, hbds⟩

theorem Descent.skip (h : Descent points seen ch)
    (hsrt : ∀ j ∈ seen, i.introduced.key ≤ j.introduced.key) (hla : last ∈ points)
    (hlt : last.key < i.deprecated.key) : Descent points (seen ++ [i]) ch := by
  refine { h with
    created := fun c hc => mem_append_left _ (h.created c hc)
    covered := forall_mem_append.mpr ⟨h.covered, forall_mem_singleton.mpr fun _ => ?_⟩ }
  obtain ⟨c, hc, rfl⟩ := h.point_seen hla
  exact ⟨c.introduced, hla, hsrt c hc, le_of_lt hlt, fun _ => hlt⟩

theorem downgradePoints_descent
    (hsrt : (seen ++ rest).Pairwise fun a b => b.introduced.key ≤ a.introduced.key)
    (h : Descent points seen ch) :
    ∃ ch', Descent (downgradePoints points rest) (seen ++ rest) ch' := by
  induction rest generalizing points seen ch with
  | nil => exact ⟨ch, by rwa [append_nil]⟩
  | cons i rest ih =>
    have hass : seen ++ i :: rest = seen ++ [i] ++ rest := by simp
    rw [hass] at hsrt ⊢
    have hse : ∀ j ∈ seen, i.introduced.key ≤ j.introduced.key := by
      intro j hj
      have hpa := (pairwise_append.mp hsrt).1
      exact (pairwise_append.mp hpa).2.2 j hj i (by simp)
    rw [downgradePoints]
    by_cases hla : (points.getLast?.all fun last =>
        compareVersions i.deprecated last ≠ .after) = true
    · rw [if_pos hla]
      refine ih hsrt (h.push hse fun last hmem => ?_)
      rw [hmem, Option.all_some, decide_eq_true_eq, ne_eq, compareVersions_after, not_lt] at hla
      exact hla
    rw [if_neg hla]
    cases hl : points.getLast? with
    | none => rw [hl] at hla; simp at hla
    | some last =>
      rw [hl, Option.all_some, decide_eq_true_eq, not_not, compareVersions_after] at hla
      exact ih hsrt (h.skip hse (mem_of_getLast? hl) hla)

/-- No assignment needs fewer versions than there are points. -/
theorem Descent.least (h : Descent points seen ch) (chc : MigrationInterval → Version)
    (hch : ∀ i ∈ seen, i.introduced.key ≤ (chc i).key ∧ (chc i).key < i.deprecated.key) :
    points.length ≤ (seen.map chc).toFinset.card := by
  rw [h.points_eq, length_map]
  refine length_le_card h.created (h.disjoint.imp_of_mem fun {c d} hc hd hle he => ?_)
  have hge := (hch c (h.created c hc)).1
  have hlt := (hch d (h.created d hd)).2
  rw [he] at hge
  exact absurd (lt_of_lt_of_le hlt (hle.trans hge)) (lt_irrefl _)

theorem Descent.enough (h : Descent points seen ch)
    (hact : ∀ i ∈ seen, i.introduced.key < i.deprecated.key) :
    ∃ chc : MigrationInterval → Version,
      (∀ i ∈ seen, chc i ∈ points ∧ i.introduced.key ≤ (chc i).key ∧
        (chc i).key < i.deprecated.key) ∧
      (seen.map chc).toFinset.card ≤ points.length := by
  have hpi : ∀ i, ∃ v, i ∈ seen →
      v ∈ points ∧ i.introduced.key ≤ v.key ∧ v.key < i.deprecated.key := by
    intro i
    by_cases hi : i ∈ seen
    · obtain ⟨p, hp, hlow, -, hhi⟩ := h.covered i hi (le_of_lt (hact i hi))
      exact ⟨p, fun _ => ⟨hp, hlow, hhi (hact i hi)⟩⟩
    · exact ⟨i.introduced, fun hmem => absurd hmem hi⟩
  choose chc hch using hpi
  refine ⟨chc, hch, ?_⟩
  refine (Finset.card_le_card fun v hv => ?_).trans (toFinset_card_le points)
  obtain ⟨i, hi, rfl⟩ := mem_map.mp (mem_toFinset.mp hv)
  exact mem_toFinset.mpr (hch i hi).1

/-- Separate intervals are covered by different points. -/
theorem Descent.length_le (h : Descent points seen chosen)
    (hle : ∀ i ∈ seen, i.introduced.key ≤ i.deprecated.key) (hsub : family ⊆ seen)
    (hfamily : Separate family) : family.length ≤ points.dedup.length := by
  have hcover : ∀ i, ∃ p, i ∈ family → p ∈ points ∧ i.introduced.key ≤ p.key ∧
      p.key ≤ i.deprecated.key ∧
        (i.introduced.key < i.deprecated.key → p.key < i.deprecated.key) := by
    intro i
    by_cases hi : i ∈ family
    · obtain ⟨p, hp⟩ := h.covered i (hsub hi) (hle i (hsub hi))
      exact ⟨p, fun _ => hp⟩
    · exact ⟨i.introduced, fun hmem => absurd hmem hi⟩
  choose cover hcover using hcover
  have hnodup : (family.map cover).Nodup := by
    refine pairwise_map.mpr (hfamily.imp_of_mem fun {a b} ha hb hab he => ?_)
    obtain ⟨-, hlow, -, -⟩ := hcover a ha
    obtain ⟨-, -, hend, hlt⟩ := hcover b hb
    rw [he] at hlow
    -- An interval of one point is covered by its beginning, any other one before its end.
    rcases (hle b (hsub hb)).lt_or_eq with hactive | hpoint
    · exact absurd (lt_of_lt_of_le (hlt hactive) (hab.1.trans hlow)) (lt_irrefl _)
    · rw [← hpoint] at hend
      exact absurd (lt_of_le_of_lt hend (lt_of_lt_of_le hab.2 hlow)) (lt_irrefl _)
  have hmem : family.map cover ⊆ points.dedup :=
    forall_mem_map.mpr fun i hi => mem_dedup.mpr (hcover i hi).1
  have hlength := (subperm_of_subset hnodup hmem).length_le
  rwa [length_map] at hlength

theorem Descent.family (h : Descent points seen chosen)
    (hdev : ∀ i ∈ seen, i.introduced.dev = false) :
    ∃ family ⊆ seen, Separate family ∧ family.length = points.dedup.length := by
  have hsub := pwFilter_sublist (R := fun a b : MigrationInterval => a.introduced ≠ b.introduced)
    chosen
  refine ⟨_, fun c hc => h.created c (hsub.subset hc), ?_, ?_⟩
  · have hdescending := h.descending
    rw [h.points_eq, pairwise_map] at hdescending
    refine (((h.disjoint.and hdescending).sublist hsub).and (pairwise_pwFilter _)).imp_of_mem ?_
    rintro a b ha hb ⟨⟨hdisjoint, hle⟩, hne⟩
    refine ⟨hdisjoint, lt_of_le_of_ne hle fun he => hne (key_injective he.symm ?_)⟩
    rw [hdev a (h.created a (hsub.subset ha)), hdev b (h.created b (hsub.subset hb))]
  · rw [h.points_eq, dedup, pwFilter_map, length_map]

theorem Descent.separate (h : Descent points seen chosen)
    (hactive : ∀ i ∈ seen, i.introduced.key < i.deprecated.key) : Separate chosen := by
  refine h.disjoint.imp_of_mem fun {a b} _ hb hle => ⟨hle, ?_⟩
  exact lt_of_lt_of_le (hactive b (h.created b hb)) hle

theorem cover_least (h : points.Pairwise fun a b => b.key ≤ a.key)
    (hcov : cover points.reverse i = some v) (hp : p ∈ points) (hlow : i.introduced.key ≤ p.key)
    (hhi : p.key ≤ i.deprecated.key) : v.key ≤ p.key := by
  exact rel_find_reverse (R := fun a b => b.key ≤ a.key) (fun _ => le_refl _) h hcov hp
    (pointIntersectsInterval_iff.mpr ⟨hlow, hhi⟩)

end Points

theorem sort_descending (rt : Runtime) (f : α → Version) (l : List α) :
    (rt.sortSlice (fun a b => before (f b) (f a)) l).Pairwise fun a b => (f b).key ≤ (f a).key :=
  @sort_ordered α _ _ rt _ (fun a => OrderDual.toDual (f a).key) (fun _ _ => before_iff) l

def chosenPoints (rt : Runtime) (bound source target : Version)
    (migrations : List YamlMigration) : List Version :=
  downgradePoints [] (sortDescending rt (downgradeIntervals bound source target migrations))

section Schedule

variable (rt : Runtime) (bound source target : Version) (migrations : List YamlMigration)

def inRange : List YamlMigration :=
  migrations.filter fun m =>
    compareVersions target (newVersion m.introduced.1 m.introduced.2) ≠ .after &&
      before (newVersion m.introduced.1 m.introduced.2) source

theorem downgradeIntervals_eq : downgradeIntervals bound source target migrations =
    (inRange source target migrations).map (downgradeInterval bound) := by
  rw [downgradeIntervals, filter_map]
  rfl

theorem sorted_perm : (sortDescending rt (downgradeIntervals bound source target migrations)).Perm
    (downgradeIntervals bound source target migrations) := rt.sortSlice_perm _ _

theorem chosen_descent : ∃ ch, Descent (chosenPoints rt bound source target migrations)
    (sortDescending rt (downgradeIntervals bound source target migrations)) ch := by
  have hst : Descent [] [] [] :=
    ⟨rfl, by simp, Pairwise.nil, Pairwise.nil, by simp⟩
  exact downgradePoints_descent (sort_descending rt MigrationInterval.introduced _) hst

variable {bound source target migrations}

theorem introduced_lt (hi : i ∈ downgradeIntervals bound source target migrations) :
    i.introduced.key < source.key ∧ i.introduced.dev = false := by
  obtain ⟨hmem, hrng⟩ := mem_filter.mp hi
  obtain ⟨m, -, rfl⟩ := mem_map.mp hmem
  have hbef := (Bool.and_eq_true _ _ ▸ hrng).2
  rw [before_iff] at hbef
  exact ⟨hbef, rfl⟩

theorem point_lt (hp : p ∈ chosenPoints rt bound source target migrations) :
    p.key < source.key ∧ p.dev = false := by
  obtain ⟨ch, hdsc⟩ := chosen_descent rt bound source target migrations
  obtain ⟨c, hc, rfl⟩ := hdsc.point_seen hp
  exact introduced_lt ((sorted_perm rt bound source target migrations).mem_iff.mp hc)

def undoneAt (rt : Runtime) (bound source target : Version) (migrations : List YamlMigration)
    (i : MigrationInterval) : Version :=
  (cover (chosenPoints rt bound source target migrations).reverse i).getD i.introduced

theorem cover_undoneAt
    (h : ∀ i ∈ downgradeIntervals bound source target migrations,
      i.introduced.key ≤ i.deprecated.key) :
    ∀ i ∈ sortDescending rt (downgradeIntervals bound source target migrations),
      cover (chosenPoints rt bound source target migrations).reverse i =
        some (undoneAt rt bound source target migrations i) := by
  intro i hi
  obtain ⟨ch, hdsc⟩ := chosen_descent rt bound source target migrations
  have hle := h i ((sorted_perm rt bound source target migrations).mem_iff.mp hi)
  obtain ⟨p, hp, hlow, hhi, -⟩ := hdsc.covered i hi hle
  exact cover_some hp hlow hhi

theorem undoneAt_introduced (hi : i ∈ downgradeIntervals bound source target migrations)
    (hle : i.introduced.key ≤ i.deprecated.key)
    (hp : i.introduced ∈ chosenPoints rt bound source target migrations)
    (hcov : cover (chosenPoints rt bound source target migrations).reverse i =
      some (undoneAt rt bound source target migrations i)) :
    undoneAt rt bound source target migrations i = i.introduced := by
  obtain ⟨ch, hdsc⟩ := chosen_descent rt bound source target migrations
  obtain ⟨hmem, hlow, -⟩ := cover_mem hcov
  have hhi := cover_least hdsc.descending hcov hp (le_refl _) hle
  refine key_injective (le_antisymm hhi hlow) ?_
  rw [(point_lt rt hmem).2, (introduced_lt hi).2]

end Schedule

/-- An interval that no point hits is reported by a panic. -/
theorem coverAll_covers {set : CoveringSet} (h : coverAll points set ivs = .ok set') :
    ∀ i ∈ ivs, (cover points i).isSome = true := by
  induction ivs generalizing set with
  | nil => simp
  | cons i rest ih =>
    rw [coverAll] at h
    cases hi : cover points i with
    | none =>
      rw [hi] at h
      cases h
    | some poi =>
      rw [hi] at h
      exact forall_mem_cons.mpr ⟨by rw [hi]; rfl, ih h⟩

theorem makeCoveringSet_nonempty (h : makeCoveringSet rt ivs points = .ok ints) :
    ∀ i ∈ ivs, i.introduced.key ≤ i.deprecated.key := by
  rw [makeCoveringSet] at h
  cases hrun : coverAll points.reverse [] ivs with
  | error e =>
    rw [hrun] at h
    cases h
  | ok set =>
    intro i hi
    obtain ⟨v, hv⟩ := Option.isSome_iff_exists.mp (coverAll_covers hrun i hi)
    obtain ⟨-, hlow, hhi⟩ := cover_mem hv
    exact hlow.trans hhi

theorem Listed.length_eq (hle : ∀ i ∈ downgradeIntervals bound source target migrations,
      i.introduced.key ≤ i.deprecated.key)
    (h : Listed (chosenPoints rt bound source target migrations)
      (sortDescending rt (downgradeIntervals bound source target migrations))
      (undoneAt rt bound source target migrations) ints) :
    ints.length = (chosenPoints rt bound source target migrations).dedup.length := by
  have hpm : (ints.map MigrationInterrupt.version).Perm
      (chosenPoints rt bound source target migrations).dedup := by
    refine (perm_ext_iff_of_nodup h.nodup (nodup_dedup _)).mpr fun v => ?_
    rw [mem_dedup]
    refine ⟨forall_mem_map.mpr h.versions v, fun hv => ?_⟩
    obtain ⟨ch, hdsc⟩ := chosen_descent rt bound source target migrations
    obtain ⟨i, hi, rfl⟩ := hdsc.point_seen hv
    have hmem := (sorted_perm rt bound source target migrations).mem_iff.mp hi
    have hat := undoneAt_introduced rt hmem (hle i hmem) hv (cover_undoneAt rt hle i hi)
    have hpa : (i.id, i.introduced) ∈ pairsOf ints := by
      refine h.pairs.mem_iff.mpr (mem_map.mpr ⟨i, hi, ?_⟩)
      rw [hat]
    exact mem_map.mpr (version_of_pair hpa)
  rw [← hpm.length_eq, length_map]

theorem scheduleDowngrade_listed (rt : Runtime)
    (hle : ∀ i ∈ downgradeIntervals target.next source target migrations,
      i.introduced.key ≤ i.deprecated.key) :
    ∃ ints, scheduleDowngrade rt source target migrations = .ok ints ∧
      Listed (chosenPoints rt target.next source target migrations)
        (sortDescending rt (downgradeIntervals target.next source target migrations))
        (undoneAt rt target.next source target migrations) ints ∧
      ints.Pairwise fun a b => b.version.key < a.version.key := by
  obtain ⟨raw, hrun, hlst⟩ := makeCoveringSet_listed rt (cover_undoneAt rt hle)
  have hsrt := hlst.perm (rt.sortSlice_perm (fun a b => before b.version a.version) raw)
  refine ⟨_, ?_, hsrt, ?_⟩
  · show (makeCoveringSet rt _ (chosenPoints rt target.next source target migrations)).bind _ = _
    rw [hrun]
    rfl
  · refine ((sort_descending rt _ raw).and (pairwise_map.mp hsrt.nodup)).imp_of_mem ?_
    intro a b ha hb hab
    refine lt_of_le_of_ne hab.1 fun he => hab.2 ?_
    refine key_injective he.symm ?_
    rw [(point_lt rt (hsrt.versions a ha)).2, (point_lt rt (hsrt.versions b hb)).2]

theorem undoneAt_bounds (rt : Runtime)
    (hcl : ∀ i ∈ migrations.filterMap interval, i.introduced.key < i.deprecated.key)
    (hle : ∀ i ∈ downgradeIntervals target.next source target migrations,
      i.introduced.key ≤ i.deprecated.key)
    {m : YamlMigration} (hm : m ∈ inRange source target migrations) :
    let v := undoneAt rt target.next source target migrations (downgradeInterval target.next m)
    (downgradeInterval source m).introduced.key ≤ v.key ∧
      v.key < (downgradeInterval source m).deprecated.key ∧ v.key < source.key := by
  intro v
  have hi : downgradeInterval target.next m ∈
      downgradeIntervals target.next source target migrations := by
    rw [downgradeIntervals_eq]
    exact mem_map_of_mem hm
  have hsrt := (sorted_perm rt target.next source target migrations).mem_iff.mpr hi
  have hcov := cover_undoneAt rt hle _ hsrt
  obtain ⟨hmem, hlow, -⟩ := cover_mem hcov
  have hsrc : v.key < source.key := (point_lt rt hmem).1
  refine ⟨hlow, ?_, hsrc⟩
  cases hd : m.deprecated with
  | none =>
    rw [downgradeInterval, hd]
    exact hsrc
  | some d =>
    obtain ⟨chosen, hdsc⟩ := chosen_descent rt target.next source target migrations
    have hbd : ∀ bound, (downgradeInterval bound m).deprecated = newVersion d.1 d.2 := by
      intro bound
      rw [downgradeInterval, hd]
      rfl
    have hact : (downgradeInterval target.next m).introduced.key <
        (downgradeInterval target.next m).deprecated.key := by
      rw [hbd]
      exact hcl _ (mem_filterMap.mpr ⟨m, (mem_filter.mp hm).1, by rw [interval, hd]; rfl⟩)
    obtain ⟨p, hp, hpl, hphi, hpst⟩ := hdsc.covered _ hsrt (le_of_lt hact)
    have hvp := cover_least hdsc.descending hcov hp hpl hphi
    have hlt := lt_of_le_of_lt hvp (hpst hact)
    rw [hbd] at hlt ⊢
    exact hlt

theorem scheduleDowngrade_nonempty
    (h : scheduleDowngrade rt source target migrations = .ok ints) :
    ∀ i ∈ downgradeIntervals target.next source target migrations,
      i.introduced.key ≤ i.deprecated.key := by
  rw [scheduleDowngrade] at h
  cases hrun : makeCoveringSet rt
      (sortDescending rt (downgradeIntervals target.next source target migrations))
      (downgradePoints [] (sortDescending rt
        (downgradeIntervals target.next source target migrations))) with
  | error e =>
    simp only [hrun, bind, Except.bind] at h
    cases h
  | ok raw =>
    intro i hi
    exact makeCoveringSet_nonempty hrun i
      ((sorted_perm rt target.next source target migrations).mem_iff.mpr hi)

theorem active_intervals
    (hcl : ∀ i ∈ migrations.filterMap interval, i.introduced.key < i.deprecated.key) :
    ∀ i ∈ downgradeIntervals source source target migrations,
      i.introduced.key < i.deprecated.key := by
  intro i hi
  have hlt := (introduced_lt hi).1
  obtain ⟨m, hm, rfl⟩ := mem_map.mp (mem_filter.mp hi).1
  cases hd : m.deprecated with
  | none =>
    rw [downgradeInterval, hd] at hlt ⊢
    exact hlt
  | some d =>
    rw [downgradeInterval, hd]
    exact hcl _ (mem_filterMap.mpr ⟨m, hm, by rw [interval, hd]; rfl⟩)

theorem length_le_iff_families (rt : Runtime)
    (hclosed : ∀ i ∈ migrations.filterMap interval, i.introduced.key < i.deprecated.key)
    (hle : ∀ i ∈ downgradeIntervals bound source target migrations,
      i.introduced.key ≤ i.deprecated.key) :
    (chosenPoints rt bound source target migrations).dedup.length ≤
        (chosenPoints rt source source target migrations).length ↔
      ∀ family ⊆ downgradeIntervals bound source target migrations, Separate family →
        ∃ wider ⊆ downgradeIntervals source source target migrations,
          Separate wider ∧ family.length ≤ wider.length := by
  obtain ⟨early, hearly⟩ := chosen_descent rt bound source target migrations
  obtain ⟨late, hlate⟩ := chosen_descent rt source source target migrations
  have hperm := sorted_perm rt bound source target migrations
  have hperm' := sorted_perm rt source source target migrations
  have hactive : ∀ i ∈ sortDescending rt (downgradeIntervals source source target migrations),
      i.introduced.key < i.deprecated.key :=
    fun i hi => active_intervals hclosed i (hperm'.mem_iff.mp hi)
  constructor
  · intro hlength family hsub hfamily
    refine ⟨late, fun i hi => hperm'.mem_iff.mp (hlate.created i hi), hlate.separate hactive, ?_⟩
    have hmost := hearly.length_le (fun i hi => hle i (hperm.mem_iff.mp hi))
      (fun i hi => hperm.mem_iff.mpr (hsub hi)) hfamily
    rw [hlate.points_eq, length_map] at hlength
    exact hmost.trans hlength
  · intro hfamilies
    obtain ⟨family, hsub, hfamily, hlength⟩ := hearly.family fun i hi =>
      (introduced_lt (hperm.mem_iff.mp hi)).2
    obtain ⟨wider, hwider, hseparate, hmore⟩ := hfamilies family
      (fun i hi => hperm.mem_iff.mp (hsub hi)) hfamily
    have hmost := hlate.length_le (fun i hi => le_of_lt (hactive i hi))
      (fun i hi => hperm'.mem_iff.mpr (hwider hi)) hseparate
    rw [hlength] at hmore
    exact hmore.trans (hmost.trans (dedup_sublist _).length_le)

/-- The schedule undoes every migration unless an open one is introduced after the version that
follows the target, or more of the intervals are separate when the open ones end at that version
than when they end with the source. -/
theorem downgrade_undone_iff (rt : Runtime) (source target : Version)
    (migrations : List YamlMigration)
    (hclosed : ∀ i ∈ migrations.filterMap interval, i.introduced.key < i.deprecated.key) :
    Undoes source (downgradeIntervals source source target migrations)
        (scheduleDowngrade rt source target migrations) ↔
      (∀ i ∈ downgradeIntervals target.next source target migrations,
        i.introduced.key ≤ i.deprecated.key) ∧
      ∀ family ⊆ downgradeIntervals target.next source target migrations, Separate family →
        ∃ wider ⊆ downgradeIntervals source source target migrations,
          Separate wider ∧ family.length ≤ wider.length := by
  rw [and_congr_right fun hle => (length_le_iff_families rt hclosed hle).symm]
  obtain ⟨chosen, hdsc⟩ := chosen_descent rt source source target migrations
  have hpm := sorted_perm rt source source target migrations
  have hact : ∀ i ∈ sortDescending rt (downgradeIntervals source source target migrations),
      i.introduced.key < i.deprecated.key :=
    fun i hi => active_intervals hclosed i (hpm.mem_iff.mp hi)
  constructor
  · intro h
    cases hrun : scheduleDowngrade rt source target migrations with
    | error e =>
      rw [hrun] at h
      exact h.elim
    | ok interrupts =>
      rw [hrun] at h
      have hle := scheduleDowngrade_nonempty hrun
      refine ⟨hle, ?_⟩
      obtain ⟨interrupts', hrun', hlst, -⟩ := scheduleDowngrade_listed rt hle
      obtain rfl : interrupts = interrupts' := Except.ok.inj (hrun.symm.trans hrun')
      obtain ⟨choice, hch, hca⟩ := hdsc.enough hact
      have hlea := h.least choice fun i hi => by
        obtain ⟨hmem, hlow, hhi⟩ := hch i (hpm.mem_iff.mpr hi)
        exact ⟨hlow, hhi, (point_lt rt hmem).1⟩
      rw [toFinset_eq_of_perm _ _ (hpm.map choice).symm] at hlea
      rw [← Listed.length_eq hle hlst]
      exact hlea.trans hca
  · rintro ⟨hle, hlen⟩
    obtain ⟨interrupts, hrun, hlst, hdes⟩ := scheduleDowngrade_listed rt hle
    rw [hrun]
    refine ⟨hdes, ?_, ?_⟩
    · refine ⟨(inRange source target migrations).map fun m => (downgradeInterval source m,
        undoneAt rt target.next source target migrations (downgradeInterval target.next m)), ?_⟩
      refine ⟨?_, ?_, ?_⟩
      · rw [map_map, downgradeIntervals_eq]
        exact .refl _
      · have hprs := hlst.pairs.trans ((sorted_perm rt target.next source target migrations).map _)
        rw [downgradeIntervals_eq, map_map] at hprs
        rw [map_map]
        exact hprs
      · exact forall_mem_map.mpr fun m hm => undoneAt_bounds rt hclosed hle hm
    · intro choice hch
      rw [Listed.length_eq hle hlst]
      refine hlen.trans ?_
      rw [toFinset_eq_of_perm _ _ (hpm.map choice).symm]
      refine hdsc.least choice fun i hi => ?_
      have hi' := hch i (hpm.mem_iff.mp hi)
      exact ⟨hi'.1, hi'.2.1⟩

/-- An open migration introduced two versions after the target is not covered. One introduced at the
target costs a version of its own. -/
theorem downgrade_open_lost :
    scheduleDowngrade stableRuntime (newVersion 3 36) (newVersion 3 32) [⟨1, (3, 34), none⟩] =
      .error (.panic "unreachable: input interval not covered in output") ∧
    scheduleDowngrade stableRuntime (newVersion 3 36) (newVersion 3 32)
        [⟨1, (3, 32), none⟩, ⟨2, (3, 34), some (3, 35)⟩] =
      .ok [⟨newVersion 3 34, [2]⟩, ⟨newVersion 3 32, [1]⟩] ∧
    ¬ Undoes (newVersion 3 36)
      (downgradeIntervals (newVersion 3 36).next (newVersion 3 36) (newVersion 3 32)
        [⟨1, (3, 32), none⟩, ⟨2, (3, 34), some (3, 35)⟩])
      (scheduleDowngrade stableRuntime (newVersion 3 36) (newVersion 3 32)
        [⟨1, (3, 32), none⟩, ⟨2, (3, 34), some (3, 35)⟩]) := by
  have hrun : scheduleDowngrade stableRuntime (newVersion 3 36) (newVersion 3 32)
      [⟨1, (3, 32), none⟩, ⟨2, (3, 34), some (3, 35)⟩] =
      .ok [⟨newVersion 3 34, [2]⟩, ⟨newVersion 3 32, [1]⟩] := by decide +kernel
  refine ⟨by decide +kernel, hrun, ?_⟩
  rw [hrun]
  intro h
  have hleast := h.least (fun _ => newVersion 3 34) (by decide +kernel)
  revert hleast
  decide +kernel

theorem downgrade_undone_two : Undoes (newVersion 3 36)
      (downgradeIntervals (newVersion 3 36) (newVersion 3 36) (newVersion 3 32)
        [⟨1, (3, 33), none⟩, ⟨2, (3, 33), some (3, 35)⟩, ⟨3, (3, 32), some (3, 34)⟩])
      (scheduleDowngrade stableRuntime (newVersion 3 36) (newVersion 3 32)
        [⟨1, (3, 33), none⟩, ⟨2, (3, 33), some (3, 35)⟩, ⟨3, (3, 32), some (3, 34)⟩]) := by
  refine (downgrade_undone_iff stableRuntime (newVersion 3 36) (newVersion 3 32)
    [⟨1, (3, 33), none⟩, ⟨2, (3, 33), some (3, 35)⟩, ⟨3, (3, 32), some (3, 34)⟩]
    (by decide +kernel)).mpr ⟨by decide +kernel, ?_⟩
  exact (length_le_iff_families stableRuntime (by decide +kernel) (by decide +kernel)).mp
    (by decide +kernel)

end OobDowngrade
