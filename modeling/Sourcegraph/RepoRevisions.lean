import Sourcegraph.QueryPipeline
import Sourcegraph.OobInterrupts

/-! # Revisions of the repositories of a search

A repository that several repo filters with revisions match is searched at those that occur in all
of them. The intersection is computed by counting how often a revision occurs. -/
namespace RepoRevisions

open QueryPredicates QueryValidate OobInterrupts
open List hiding count beq_eq_decide

def RevisionSpecifier.less (r₁ r₂ : RevisionSpecifier) : Bool :=
  if r₁.revSpec ≠ r₂.revSpec then decide (r₁.revSpec < r₂.revSpec)
  else if r₁.refGlob ≠ r₂.refGlob then decide (r₁.refGlob < r₂.refGlob)
  else decide (r₁.excludeRefGlob < r₂.excludeRefGlob)

structure PatternRevspec (Regexp : Type) where
  includePattern : Regexp
  revs : List RevisionSpecifier

/-- `strings.ReplaceAll`, with the characters of the occurrence that are still to be skipped. -/
def replaceAllFrom (old new : List Char) : ℕ → List Char → List Char
  | _, [] => []
  | skip + 1, _ :: rest => replaceAllFrom old new skip rest
  | 0, c :: rest =>
    if old.isPrefixOf (c :: rest) then new ++ replaceAllFrom old new (old.length - 1) rest
    else c :: replaceAllFrom old new 0 rest

def optimizeRepoPatternWithHeuristics (sourcegraphDotComMode : Bool) (repoPattern : String) :
    String :=
  let pattern := repoPattern.toList
  let anchored := sourcegraphDotComMode &&
    ("github.com".toList.isPrefixOf pattern || "github\\.com".toList.isPrefixOf pattern)
  String.ofList (replaceAllFrom "github.com".toList "github\\.com".toList 0
    (if anchored then '^' :: pattern else pattern))

def findPatternRevs {P : Packages} (sourcegraphDotComMode : Bool) :
    List (ParsedRepoFilter P) → List String × List (PatternRevspec P.Regexp)
  | [] => ([], [])
  | pattern :: rest =>
    let (outputPatterns, includePatternRevs) := findPatternRevs sourcegraphDotComMode rest
    (optimizeRepoPatternWithHeuristics sourcegraphDotComMode pattern.repo :: outputPatterns,
      if pattern.revs.length > 0 then ⟨pattern.repoRegex, pattern.revs⟩ :: includePatternRevs
      else includePatternRevs)

abbrev RevCounts := List (RevisionSpecifier × ℕ)

def RevCounts.get : RevCounts → RevisionSpecifier → ℕ
  | [], _ => 0
  | (key, count) :: rest, rev => if key = rev then count else RevCounts.get rest rev

/-- `revCounts[rev] += 1`. -/
def RevCounts.increment (rev : RevisionSpecifier) : RevCounts → RevCounts
  | [] => [(rev, 1)]
  | (key, count) :: rest =>
    if key = rev then (key, count + 1) :: rest
    else (key, count) :: RevCounts.increment rev rest

/-- The loop over the revisions of the list at index `i`, with the value of `aliveCount`. -/
def countRevs (i : ℕ) : RevCounts → ℕ → List RevisionSpecifier → RevCounts × ℕ
  | counts, aliveCount, [] => (counts, aliveCount)
  | counts, aliveCount, rev :: rest =>
    countRevs i (counts.increment rev) (if counts.get rev = i then aliveCount + 1 else aliveCount)
      rest

def countLists : ℕ → RevCounts → ℕ → List (List RevisionSpecifier) → RevCounts × ℕ
  | _, counts, aliveCount, [] => (counts, aliveCount)
  | i, counts, _, revList :: rest =>
    let (counts', aliveCount') := countRevs i counts 0 revList
    countLists (i + 1) counts' aliveCount' rest

def matchingLists {Regexp : Type} (matchString : Regexp → String → Bool) (repo : String)
    (pats : List (PatternRevspec Regexp)) : List (List RevisionSpecifier) :=
  (pats.filter fun pat => matchString pat.includePattern repo).map PatternRevspec.revs

def getRevsForMatchedRepo {Regexp : Type} (rt : Runtime) (matchString : Regexp → String → Bool)
    (repo : String) (pats : List (PatternRevspec Regexp)) :
    List RevisionSpecifier × List RevisionSpecifier :=
  match matchingLists matchString repo pats with
  | [revList] => (revList, [])
  | [] => ([{ revSpec := "" }], [])
  | revLists =>
    let (revCounts, aliveCount) := countLists 0 [] 0 revLists
    if aliveCount > 0 then
      let matched := (rt.iterate revCounts).filter fun entry => entry.2 = revLists.length
      (rt.sortSlice RevisionSpecifier.less (matched.map Prod.fst), [])
    else ([], rt.sortSlice RevisionSpecifier.less ((rt.iterate revCounts).map Prod.fst))

def Common (lists : List (List RevisionSpecifier)) (rev : RevisionSpecifier) : Prop :=
  ∀ revList ∈ lists, rev ∈ revList

/-- The matched revisions are the intersection of the lists. If it is empty, then the union of
the lists is reported instead. -/
structure Intersects (lists : List (List RevisionSpecifier))
    (result : List RevisionSpecifier × List RevisionSpecifier) : Prop where
  default : lists = [] → ∀ rev, rev ∈ result.1 ↔ rev = { revSpec := "" }
  matched : lists ≠ [] → ∀ rev, rev ∈ result.1 ↔ Common lists rev
  clashing : result.2 ≠ [] ↔ lists ≠ [] ∧ ∀ rev, ¬ Common lists rev
  union : result.2 ≠ [] → ∀ rev, rev ∈ result.2 ↔ ∃ revList ∈ lists, rev ∈ revList
  kept : result.1 ≠ [] ∨ result.2 ≠ []

/-- Repeated revisions do not disturb the counters. -/
structure Undisturbed (lists : List (List RevisionSpecifier)) : Prop where
  common : (∃ rev, Common lists rev) →
    ∀ rev, lists.flatten.count rev = lists.length ↔ Common lists rev
  clash : (∀ rev, ¬ Common lists rev) → ∀ rev, lists.length ≤ lists.flatten.count rev →
    lists.length ≤ lists.dropLast.flatten.count rev

theorem get_eq_lookup (counts : RevCounts) (rev : RevisionSpecifier) :
    counts.get rev = (counts.lookup rev).getD 0 := by
  induction counts with
  | nil => rfl
  | cons en rest ih =>
    obtain ⟨key, cnt⟩ := en
    by_cases hkey : rev = key
    · simp [RevCounts.get, hkey]
    · simp [RevCounts.get, lookup_cons, beq_eq_decide, hkey, Ne.symm hkey, ih]

theorem increment_eq_update (counts : RevCounts) (rev : RevisionSpecifier) :
    counts.increment rev = MapEntries.update rev (fun cnt => cnt.getD 0 + 1) counts := by
  induction counts with
  | nil => rfl
  | cons en rest ih => simp [RevCounts.increment, MapEntries.update, ih]

structure Counted (seen : List RevisionSpecifier) (counts : RevCounts) : Prop where
  nodup : (counts.map Prod.fst).Nodup
  keys : ∀ rev, rev ∈ counts.map Prod.fst ↔ rev ∈ seen
  get : ∀ rev, counts.get rev = seen.count rev

variable {counts : RevCounts}

theorem Counted.increment (h : Counted seen counts) (rev : RevisionSpecifier) :
    Counted (seen ++ [rev]) (counts.increment rev) := by
  rw [increment_eq_update]
  refine ⟨MapEntries.nodup_update _ _ h.nodup, fun r => ?_, fun r => ?_⟩
  · rw [MapEntries.mem_keys_update, h.keys, mem_append, mem_singleton]
  · rw [get_eq_lookup, MapEntries.lookup_update, count_append, ← h.get,
      get_eq_lookup]
    by_cases hr : r = rev
    · simp [hr]
    · simp [hr, Ne.symm hr]

theorem countRevs_counted (i : ℕ) (h : Counted seen counts) (alv : ℕ)
    (rl : List RevisionSpecifier) : Counted (seen ++ rl) (countRevs i counts alv rl).1 := by
  induction rl generalizing seen counts alv with
  | nil => rwa [append_nil]
  | cons rev rest ih =>
    rw [append_cons]
    exact ih (h.increment rev) _

/-- A revision is counted as alive if its counter passes through `i` in the list. -/
theorem countRevs_alive (i : ℕ) (h : Counted seen counts) (alv : ℕ)
    (rl : List RevisionSpecifier) :
    0 < (countRevs i counts alv rl).2 ↔
      0 < alv ∨ ∃ rev, seen.count rev ≤ i ∧ i < (seen ++ rl).count rev := by
  induction rl generalizing seen counts alv with
  | nil =>
    rw [countRevs, append_nil]
    omega
  | cons rev rest ih =>
    have hcn : ∀ r, (seen ++ [rev]).count r = seen.count r + if rev = r then 1 else 0 := by
      intro r
      rw [count_append, count_singleton]
      simp
    have hgr := (sublist_append_left (seen ++ [rev]) rest).count_le rev
    rw [hcn, if_pos rfl] at hgr
    rw [countRevs, append_cons, ih (h.increment rev), h.get]
    constructor
    · rintro (hal | ⟨r, hle, hlt⟩)
      · split at hal
        · exact .inr ⟨rev, by omega, by omega⟩
        · exact .inl hal
      · rw [hcn] at hle
        exact .inr ⟨r, by omega, hlt⟩
    · rintro (hal | ⟨r, hle, hlt⟩)
      · split <;> omega
      · by_cases hlat : (seen ++ [rev]).count r ≤ i
        · exact .inr ⟨r, hlat, hlt⟩
        · left
          rw [hcn] at hlat
          split at hlat
          · subst r
            rw [if_pos (by omega)]
            exact Nat.succ_pos _
          · omega

/-- Only the last list decides whether a revision is alive. -/
theorem countLists_spec (i : ℕ) {seen : List RevisionSpecifier} {counts : RevCounts}
    (h : Counted seen counts) (alv : ℕ) {ls : List (List RevisionSpecifier)}
    (hls : ls ≠ []) :
    Counted (seen ++ ls.flatten) (countLists i counts alv ls).1 ∧
      (0 < (countLists i counts alv ls).2 ↔
        ∃ rev, (seen ++ ls.dropLast.flatten).count rev < i + ls.length ∧
          i + ls.length ≤ (seen ++ ls.flatten).count rev) := by
  induction ls generalizing i seen counts alv with
  | nil => exact absurd rfl hls
  | cons rl rest ih =>
    have hcnt := countRevs_counted i h 0 rl
    by_cases hrs : rest = []
    · subst hrs
      have hal := countRevs_alive i h 0 rl
      simp only [Nat.lt_irrefl, false_or] at hal
      simp only [countLists, flatten_cons, flatten_nil, append_nil,
        dropLast_singleton, length_singleton]
      refine ⟨hcnt, hal.trans (exists_congr fun rev => ?_)⟩
      rw [Nat.lt_succ_iff]
      rfl
    · obtain ⟨hcts, hal⟩ := ih (i + 1) hcnt (countRevs i counts 0 rl).2 hrs
      rw [append_assoc, ← flatten_cons] at hcts hal
      have hla : (rl :: rest).dropLast = rl :: rest.dropLast :=
        dropLast_cons_of_ne_nil hrs
      have hlen : i + 1 + rest.length = i + (rl :: rest).length := by
        rw [length_cons]
        omega
      rw [append_assoc, ← hla, hlen] at hal
      exact ⟨hcts, hal⟩

theorem get_of_mem (h : (counts.map Prod.fst).Nodup) (hent : en ∈ counts) :
    counts.get en.1 = en.2 := by
  rw [get_eq_lookup, (MapEntries.mem_iff_lookup h).mp hent, Option.getD_some]

section Intersection

variable {Regexp : Type} (rt : Runtime) (matchString : Regexp → String → Bool) (repo : String)

/-- What is returned for at least two lists. A revision is alive if it reaches the number of
lists in the last one. -/
theorem getRevsForMatchedRepo_many (hls : matchingLists matchString repo pats = ls)
    (htwo : 2 ≤ ls.length) :
    ((∃ rev, ls.dropLast.flatten.count rev < ls.length ∧
        ls.length ≤ ls.flatten.count rev) ∧
      (∀ rev, rev ∈ (getRevsForMatchedRepo rt matchString repo pats).1 ↔
        ls.flatten.count rev = ls.length) ∧
      (getRevsForMatchedRepo rt matchString repo pats).2 = []) ∨
    ((¬ ∃ rev, ls.dropLast.flatten.count rev < ls.length ∧
        ls.length ≤ ls.flatten.count rev) ∧
      (getRevsForMatchedRepo rt matchString repo pats).1 = [] ∧
      ∀ rev, rev ∈ (getRevsForMatchedRepo rt matchString repo pats).2 ↔ rev ∈ ls.flatten) := by
  match ls, htwo with
  | first :: sec :: rest, _ =>
    obtain ⟨hcnt, hal⟩ := @countLists_spec 0 [] [] ⟨nodup_nil, by simp, fun _ => rfl⟩ 0
      (first :: sec :: rest) (by simp)
    rw [nil_append] at hcnt
    simp only [nil_append, Nat.zero_add] at hal
    rw [getRevsForMatchedRepo, hls]
    simp only
    generalize countLists 0 [] 0 (first :: sec :: rest) = res at hcnt hal ⊢
    by_cases hpos : res.2 > 0
    · left
      rw [if_pos hpos]
      refine ⟨hal.mp hpos, fun rev => ?_, rfl⟩
      rw [(rt.sortSlice_perm _ _).mem_iff]
      constructor
      · intro hmem
        obtain ⟨en, hent, rfl⟩ := mem_map.mp hmem
        obtain ⟨hite, hcn⟩ := mem_filter.mp hent
        rw [decide_eq_true_eq] at hcn
        rw [← hcnt.get, ← hcn]
        exact get_of_mem hcnt.nodup ((rt.iterate_perm _).mem_iff.mp hite)
      · intro hcn
        have hmem : rev ∈ res.1.map Prod.fst := by
          rw [hcnt.keys, ← count_pos_iff]
          omega
        obtain ⟨en, hent, rfl⟩ := mem_map.mp hmem
        refine mem_map_of_mem (mem_filter.mpr ⟨?_, ?_⟩)
        · exact (rt.iterate_perm _).mem_iff.mpr hent
        · rw [decide_eq_true_eq, ← get_of_mem hcnt.nodup hent, hcnt.get, hcn]
    · right
      rw [if_neg hpos]
      refine ⟨fun h => hpos (hal.mpr h), rfl, fun rev => ?_⟩
      rw [(rt.sortSlice_perm _ _).mem_iff, ((rt.iterate_perm _).map Prod.fst).mem_iff, hcnt.keys]

theorem length_le_count (h : Common ls rev) : ls.length ≤ ls.flatten.count rev := by
  induction ls with
  | nil => exact Nat.zero_le _
  | cons rl rest ih =>
    have hrs := ih (forall_mem_cons.mp h).2
    have hf : 0 < rl.count rev := count_pos_iff.mpr (h rl (by simp))
    rw [length_cons, flatten_cons, count_append]
    omega

theorem count_dropLast_lt (hne : ls ≠ []) (h : Common ls rev) :
    ls.dropLast.flatten.count rev < ls.flatten.count rev := by
  have hla : 0 < (ls.getLast hne).count rev :=
    count_pos_iff.mpr (h _ (getLast_mem hne))
  have hspl : ls.flatten.count rev = (ls.dropLast ++ [ls.getLast hne]).flatten.count rev := by
    rw [dropLast_append_getLast hne]
  rw [flatten_append, count_append, flatten_singleton] at hspl
  omega

theorem intersects_many (hls : matchingLists matchString repo pats = ls)
    (htwo : 2 ≤ ls.length) (hnon : ∀ rl ∈ ls, rl ≠ []) :
    Intersects ls (getRevsForMatchedRepo rt matchString repo pats) ↔ Undisturbed ls := by
  have hne : ls ≠ [] := ne_nil_of_length_pos (by omega)
  rcases getRevsForMatchedRepo_many rt matchString repo hls htwo with
    ⟨⟨rev, hlt, hle⟩, hmat, hcla⟩ | ⟨hde, hmat, hcla⟩
  · constructor
    · intro h
      refine ⟨fun _ r => (hmat r).symm.trans (h.matched hne r), fun hno => ?_⟩
      exact absurd hcla (h.clashing.mpr ⟨hne, hno⟩)
    · intro h
      have hso : ∃ r, Common ls r := by
        by_contra hno
        rw [not_exists] at hno
        have := h.clash hno rev hle
        omega
      refine ⟨fun hnil => absurd hnil hne, ?_, ?_, ?_, ?_⟩
      · exact fun _ r => (hmat r).trans (h.common hso r)
      · refine iff_of_false (fun hcl => hcl hcla) fun hno => ?_
        exact hso.elim hno.2
      · exact fun hcl => absurd hcla hcl
      · obtain ⟨r, hr⟩ := hso
        exact .inl (ne_nil_of_mem ((hmat r).mpr ((h.common ⟨r, hr⟩ r).mpr hr)))
  · constructor
    · intro h
      have hno : ∀ r, ¬ Common ls r := by
        intro r hr
        have := (h.matched hne r).mpr hr
        rw [hmat] at this
        cases this
      refine ⟨fun hso => hso.elim fun r hr => absurd hr (hno r), fun _ r hr => ?_⟩
      by_contra hlt
      exact hde ⟨r, not_le.mp hlt, hr⟩
    · intro h
      have hno : ∀ r, ¬ Common ls r := by
        intro r hr
        have hcn := (h.common ⟨r, hr⟩ r).mpr hr
        refine hde ⟨r, ?_, le_of_eq hcn.symm⟩
        rw [← hcn]
        exact count_dropLast_lt hne hr
      have huni : (getRevsForMatchedRepo rt matchString repo pats).2 ≠ [] := by
        obtain ⟨rl, hmem⟩ := exists_mem_of_ne_nil ls hne
        obtain ⟨r, hr⟩ := exists_mem_of_ne_nil rl (hnon rl hmem)
        exact ne_nil_of_mem ((hcla r).mpr (mem_flatten.mpr ⟨rl, hmem, hr⟩))
      refine ⟨fun hnil => absurd hnil hne, ?_, ?_, ?_, .inr huni⟩
      · intro _ r
        rw [hmat]
        exact iff_of_false not_mem_nil (hno r)
      · exact iff_of_true huni ⟨hne, hno⟩
      · intro _ r
        rw [hcla, mem_flatten]

end Intersection

theorem findPatternRevs_nonempty : ∀ pat ∈ (findPatternRevs mode fil).2, pat.revs ≠ [] := by
  fun_induction findPatternRevs mode fil with
  | case1 => simp
  | case2 _ _ _ _ hrs ih =>
    rw [hrs] at ih
    split
    · exact forall_mem_cons.mpr ⟨ne_nil_of_length_pos ‹_›, ih⟩
    · exact ih

theorem undisturbed_of_nodup (h : ∀ rl ∈ ls, rl.Nodup) : Undisturbed ls := by
  have hle : ∀ (ls : List (List RevisionSpecifier)), (∀ rl ∈ ls, rl.Nodup) →
      ∀ rev, ls.flatten.count rev ≤ ls.length ∧
        (ls.flatten.count rev = ls.length → Common ls rev) := by
    intro ls
    induction ls with
    | nil => exact fun _ rev => ⟨le_refl _, fun _ l hl => by cases hl⟩
    | cons rl rest ih =>
      intro hnd rev
      obtain ⟨hle, hcom⟩ := ih (forall_mem_cons.mp hnd).2 rev
      have hone := nodup_iff_count_le_one.mp (hnd rl (by simp)) rev
      rw [flatten_cons, count_append, length_cons]
      refine ⟨by omega, fun heq l hl => ?_⟩
      rcases mem_cons.mp hl with rfl | hl
      · exact count_pos_iff.mp (by omega)
      · exact hcom (by omega) l hl
  constructor
  · intro _ rev
    refine ⟨(hle ls h rev).2, fun hcom => ?_⟩
    exact le_antisymm (hle ls h rev).1 (length_le_count hcom)
  · intro hno rev hcn
    exact absurd ((hle ls h rev).2 (le_antisymm (hle ls h rev).1 hcn)) (hno rev)

/-- The revisions of a repository are the intersection of the lists of the filters that match it,
unless there are several lists and repeated revisions disturb the counters. -/
theorem matched_revs_iff {P : Packages} (rt : Runtime) (mode : Bool)
    (matchString : P.Regexp → String → Bool) (repo : String)
    (filters : List (ParsedRepoFilter P)) :
    (Intersects (matchingLists matchString repo (findPatternRevs mode filters).2)
        (getRevsForMatchedRepo rt matchString repo (findPatternRevs mode filters).2) ↔
      (2 ≤ (matchingLists matchString repo (findPatternRevs mode filters).2).length →
        Undisturbed (matchingLists matchString repo (findPatternRevs mode filters).2))) ∧
    ((∀ revList ∈ matchingLists matchString repo (findPatternRevs mode filters).2,
        revList.Nodup) →
      Undisturbed (matchingLists matchString repo (findPatternRevs mode filters).2)) := by
  refine ⟨?_, undisturbed_of_nodup⟩
  have hnon : ∀ revList ∈ matchingLists matchString repo (findPatternRevs mode filters).2,
      revList ≠ [] := by
    exact forall_mem_map.mpr fun pat hpat =>
      findPatternRevs_nonempty pat (mem_filter.mp hpat).1
  obtain ⟨ls, hls⟩ : ∃ ls,
    matchingLists matchString repo (findPatternRevs mode filters).2 = ls := ⟨_, rfl⟩
  by_cases htwo : 2 ≤ ls.length
  · rw [hls] at hnon ⊢
    rw [intersects_many rt matchString repo hls htwo hnon, imp_iff_right htwo]
  rw [hls] at hnon ⊢
  refine iff_of_true ?_ fun h => absurd h htwo
  rw [getRevsForMatchedRepo, hls]
  match ls with
  | first :: sec :: rest => exact absurd (by simp) htwo
  | [] =>
    exact ⟨fun _ rev => mem_singleton, fun h => absurd rfl h,
      ⟨fun h => absurd rfl h, fun h => absurd rfl h.1⟩, fun h => absurd rfl h, .inl (by simp)⟩
  | [revList] =>
    have hne := hnon revList (by simp)
    have hcom : ∀ rev, Common [revList] rev ↔ rev ∈ revList := by
      intro rev
      rw [Common, forall_mem_singleton]
    refine ⟨fun h => by simp at h, fun _ rev => (hcom rev).symm, ?_, fun h => absurd rfl h,
      .inl hne⟩
    refine iff_of_false (fun h => absurd rfl h) fun h => ?_
    obtain ⟨rev, hrev⟩ := exists_mem_of_ne_nil revList hne
    exact h.2 rev ((hcom rev).mpr hrev)

/-- A revision that is repeated in a filter clashes although both filters list it, is matched
although only one filter lists it, or is lost without a clash. -/
theorem repeated_revs_disturb :
    let a : RevisionSpecifier := { revSpec := "a" }
    let b : RevisionSpecifier := { revSpec := "b" }
    let revs (lists : List (List RevisionSpecifier)) :=
      getRevsForMatchedRepo stableRuntime (fun _ _ => true) "repo"
        (@findPatternRevs QueryPipeline.permissive false
          (lists.map fun revList => ⟨"repo", "(?i)repo", revList⟩)).2
    revs [[a, a], [a]] = ([], [a]) ∧ revs [[a, a, b], [b]] = ([a, b], []) ∧
      revs [[a], [a, a]] = ([], []) ∧
    ¬ Intersects [[a, a], [a]] (revs [[a, a], [a]]) := by
  intro a b revs
  have hrun : revs [[a, a], [a]] = ([], [a]) := by decide +kernel
  refine ⟨hrun, by decide +kernel, by decide +kernel, fun h => ?_⟩
  have hcla := h.clashing.mp (by rw [hrun]; simp)
  exact hcla.2 a (by simp [Common])

end RepoRevisions
