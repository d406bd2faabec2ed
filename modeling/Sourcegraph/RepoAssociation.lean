import Sourcegraph.RepoRevisions
import Sourcegraph.SliceStable

/-! # Repositories with clashing revisions

The repositories of a search are associated with their revisions. Those whose filters allow no
common one are set aside by a sort, whose comparison reads the flags of the positions before it. -/
namespace RepoAssociation

open QueryValidate OobInterrupts RepoRevisions SliceStable
open List hiding insertionSort swap

abbrev RepoID := Int32

structure MinimalRepo where
  id : RepoID
  name : String
  stars : ℤ
  deriving DecidableEq

structure RepoRevSpecs where
  repo : MinimalRepo
  revs : List RevisionSpecifier
  deriving DecidableEq

section Association

variable {Regexp : Type} (rt : Runtime) (matchString : Regexp → String → Bool)
  (searchContextRepoRevs : List (RepoID × RepoRevSpecs))
  (includePatternRevs : List (PatternRevspec Regexp))

def associate (repo : MinimalRepo) : RepoRevSpecs × Bool :=
  let contextRevs :=
    if searchContextRepoRevs.length > 0 then
      ((searchContextRepoRevs.lookup repo.id).map RepoRevSpecs.revs).getD []
    else []
  if contextRevs.length = 0 then
    let (revs, clashingRevs) := getRevsForMatchedRepo rt matchString repo.name includePatternRevs
    if revs.length = 0 && clashingRevs.length ≠ 0 then (⟨repo, clashingRevs⟩, true)
    else (⟨repo, revs⟩, false)
  else (⟨repo, contextRevs⟩, false)

/-- The closure reads `revsAreMissing`, whose elements are not swapped. -/
def missingLess {α : Type} (revsAreMissing : List Bool) : Less α :=
  fun _ i j => !revsAreMissing.getD i false && revsAreMissing.getD j false

def associateReposWithRevs (repos : List MinimalRepo) : List RepoRevSpecs × List RepoRevSpecs :=
  let entries := repos.map (associate rt matchString searchContextRepoRevs includePatternRevs)
  let associatedRevs := entries.map Prod.fst
  let revsAreMissing := entries.map Prod.snd
  let sorted := sliceStable (missingLess revsAreMissing) associatedRevs
  let notMissingCount := revsAreMissing.countP fun isMissing => !isMissing
  (sorted.take notMissingCount, sorted.drop notMissingCount)

/-- The repositories without a clash are kept in their order, the others are set aside. -/
structure SetAside (repos : List MinimalRepo)
    (result : List RepoRevSpecs × List RepoRevSpecs) : Prop where
  kept : result.1 =
    ((repos.map (associate rt matchString searchContextRepoRevs includePatternRevs)).filter
      fun entry => !entry.2).map Prod.fst
  aside : result.2.Perm
    (((repos.map (associate rt matchString searchContextRepoRevs includePatternRevs)).filter
      fun entry => entry.2).map Prod.fst)

end Association

/-- An entry whose flag is set changes places with one directly behind it whose flag is not. -/
def swapDescents {α : Type} : List (α × Bool) → List (α × Bool)
  | (x, true) :: (y, false) :: entries => (y, false) :: (x, true) :: swapDescents entries
  | entry :: entries => entry :: swapDescents entries
  | [] => []

theorem swap_at : swap (pre ++ x :: y :: ys) (pre.length + 1) pre.length = pre ++ y :: x :: ys := by
  have hx : (pre ++ x :: y :: ys)[pre.length]? = some x := by simp
  have hy : (pre ++ x :: y :: ys)[pre.length + 1]? = some y := by simp
  rw [swap, hx, hy]
  simp only
  rw [set_append_right _ _ (by omega), set_append_right _ _ (by omega),
    Nat.sub_self, Nat.add_sub_cancel_left]
  rfl

/-- An element moves by one position at most: the flag of the position it moves to is set, and
no position with such a flag is less than another one. -/
theorem insertAt_missing (fls : List Bool) (j : ℕ) (xs : List α) :
    insertAt (missingLess fls) 0 (j + 1) xs =
      if fls.getD j false && !fls.getD (j + 1) false then swap xs (j + 1) j else xs := by
  rw [insertAt, missingLess, Bool.and_comm (fls.getD j false)]
  cases hj : fls.getD j false with
  | false => simp
  | true =>
    have hsp : ∀ ys : List α, insertAt (missingLess fls) 0 j ys = ys := by
      intro ys
      cases j with
      | zero => rfl
      | succ k => rw [insertAt, missingLess, hj, Bool.not_true, Bool.false_and, Bool.and_false,
          if_neg Bool.false_ne_true]
    rw [hsp, decide_eq_true (Nat.succ_pos j), Bool.true_and]

theorem foldl_insertAt {α : Type} (fls : List Bool) {pre : List α} {x : α} {flag : Bool}
    {entries : List (α × Bool)}
    (hfla : ∀ t, fls.getD (pre.length + t) false = (flag :: entries.map Prod.snd).getD t false) :
    (range' (pre.length + 1) entries.length).foldl
        (fun xs i => insertAt (missingLess fls) 0 i xs) (pre ++ x :: entries.map Prod.fst) =
      pre ++ (swapDescents ((x, flag) :: entries)).map Prod.fst := by
  -- The flags stay where they are, so the element that is passed on takes the flag of its place.
  induction entries generalizing pre x flag with
  | nil => cases flag <;> rfl
  | cons sec entries ih =>
    obtain ⟨y, flag'⟩ := sec
    have hz : fls.getD pre.length false = flag := hfla 0
    have hone : fls.getD (pre.length + 1) false = flag' := hfla 1
    have hrs : ∀ y x, (range' (pre.length + 1 + 1) entries.length).foldl
        (fun xs i => insertAt (missingLess fls) 0 i xs) (pre ++ y :: x :: entries.map Prod.fst) =
        pre ++ y :: (swapDescents ((x, flag') :: entries)).map Prod.fst := by
      intro y x
      have hlen : (pre ++ [y]).length = pre.length + 1 := by simp
      have hnx := @ih (pre ++ [y]) x flag' fun t => by
        rw [hlen, Nat.add_assoc, Nat.add_comm 1 t]
        exact hfla (t + 1)
      rwa [hlen, append_assoc, append_assoc] at hnx
    rw [length_cons, range'_succ, foldl_cons, insertAt_missing, hz, hone, map_cons]
    cases flag <;> cases flag'
    · exact hrs x y
    · exact hrs x y
    · rw [swap_at]
      exact hrs y x
    · exact hrs x y

def Ordered {α : Type} (entries : List (α × Bool)) : Prop :=
  entries.Pairwise fun earlier later => earlier.2 = true → later.2 = true

def Exchanged {α : Type} (entries : List (α × Bool)) : Prop :=
  ∃ a b, entries.map Prod.snd = replicate a false ++ true :: false :: replicate b true

section Order

variable {α : Type} {entries : List (α × Bool)}

theorem ordered_split (h : Ordered entries) :
    entries.filter (fun en => !en.2) ++ entries.filter (fun en => en.2) = entries := by
  induction entries with
  | nil => rfl
  | cons en entries ih =>
    obtain ⟨hf, hrs⟩ := pairwise_cons.mp h
    cases hfl : en.2 with
    | false => simp [hfl, ih hrs]
    | true =>
      have hall : ∀ lat ∈ entries, lat.2 = true := fun lat hl => hf lat hl hfl
      have hno : entries.filter (fun en => !en.2) = [] := filter_eq_nil_iff.mpr (by simpa using hall)
      simp [hfl, hno, filter_eq_self.mpr hall]

theorem filter_swapDescents (flag : Bool) (entries : List (α × Bool)) :
    (swapDescents entries).filter (fun en => en.2 == flag) =
      entries.filter fun en => en.2 == flag := by
  fun_induction swapDescents entries with
  | case1 x y entries ih =>
    cases flag with
    | false | true => simpa using ih
  | case2 en entries hnot ih => rw [filter_cons, filter_cons, ih]
  | case3 => rfl

theorem ordered_of_all (h : ∀ en ∈ entries, en.2 = true) : Ordered entries :=
  pairwise_of_forall_mem_list fun _ _ lat hl _ => h lat hl

theorem swapDescents_all :
    (∀ en ∈ swapDescents entries, en.2 = true) ↔ ∀ en ∈ entries, en.2 = true := by
  have hfil := filter_swapDescents false entries
  have hiff : ∀ es : List (α × Bool),
      (es.filter fun en => en.2 == false) = [] ↔ ∀ en ∈ es, en.2 = true := by
    simp
  rw [← hiff, ← hiff, hfil]

theorem all_true_iff : (∀ en ∈ entries, en.2 = true) ↔
    ∃ b, entries.map Prod.snd = replicate b true := by
  constructor
  · intro h
    refine ⟨entries.length, eq_replicate_iff.mpr ⟨length_map _, ?_⟩⟩
    exact forall_mem_map.mpr h
  · rintro ⟨b, hb⟩ en hent
    exact eq_of_mem_replicate (hb ▸ mem_map_of_mem hent)

theorem ordered_cons_true (h : en.2 = true) :
    Ordered (en :: entries) ↔ ∀ lat ∈ entries, lat.2 = true := by
  rw [Ordered, pairwise_cons]
  exact ⟨fun hbo lat hl => hbo.1 lat hl h,
    fun hall => ⟨fun lat hl _ => hall lat hl, ordered_of_all hall⟩⟩

theorem ordered_cons_false (h : en.2 = false) : Ordered (en :: entries) ↔ Ordered entries := by
  rw [Ordered, pairwise_cons, h]
  exact ⟨And.right, fun hrs => ⟨fun _ _ hset => absurd hset Bool.false_ne_true, hrs⟩⟩

theorem exchanged_cons_false (h : en.2 = false) :
    Exchanged (en :: entries) ↔ Exchanged entries := by
  constructor
  · rintro ⟨a, b, heq⟩
    rw [map_cons, h] at heq
    cases a with
    | zero => cases heq
    | succ a => exact ⟨a, b, (cons.inj heq).2⟩
  · rintro ⟨a, b, heq⟩
    exact ⟨a + 1, b, by rw [map_cons, h, heq]; rfl⟩

theorem exchanged_cons_true (h : en.2 = true) :
    Exchanged (en :: entries) ↔ ∃ b, entries.map Prod.snd = false :: replicate b true := by
  constructor
  · rintro ⟨a, b, heq⟩
    rw [map_cons, h] at heq
    cases a with
    | zero => exact ⟨b, (cons.inj heq).2⟩
    | succ a => cases heq
  · rintro ⟨b, heq⟩
    exact ⟨0, b, by rw [map_cons, h, heq]; rfl⟩

/-- Exchanging neighbours once orders the entries if they were in order, or out of order at one
place only. -/
theorem ordered_swapDescents :
    Ordered (swapDescents entries) ↔ Ordered entries ∨ Exchanged entries := by
  fun_induction swapDescents entries with
  | case1 x y entries ih =>
    rw [ordered_cons_false rfl, ordered_cons_true rfl, swapDescents_all, ordered_cons_true rfl,
      exchanged_cons_true rfl, all_true_iff]
    constructor
    · rintro ⟨b, hb⟩
      exact .inr ⟨b, by rw [map_cons, hb]⟩
    · rintro (hall | ⟨b, hb⟩)
      · exact absurd (hall (y, false) (by simp)) Bool.false_ne_true
      · exact ⟨b, (cons.inj hb).2⟩
  | case2 en entries hnot ih =>
    cases hfl : en.2 with
    | false =>
      rw [ordered_cons_false hfl, ordered_cons_false hfl, exchanged_cons_false hfl, ih]
    | true =>
      rw [ordered_cons_true hfl, ordered_cons_true hfl, exchanged_cons_true hfl,
        swapDescents_all, iff_self_or]
      rintro ⟨b, hb⟩
      cases entries with
      | nil => cases hb
      | cons sec entries =>
        obtain ⟨hsnd, -⟩ := cons.inj hb
        exact (hnot en.1 sec.1 entries (Prod.ext rfl hfl)
          (congrArg (· :: entries) (Prod.ext rfl hsnd))).elim
  | case3 => exact iff_of_true .nil (.inl .nil)

theorem missingLess_ordered (h : Ordered entries) (hij : j < i) (hi : i < entries.length) :
    missingLess (entries.map Prod.snd) xs i j = false := by
  have hj : j < entries.length := hij.trans hi
  have hlat := pairwise_iff_getElem.mp h j i hj hi hij
  have hget : ∀ k (hk : k < entries.length),
      (entries.map Prod.snd).getD k false = entries[k].2 := by
    intro k hk
    rw [getD_eq_getElem?_getD, getElem?_map, getElem?_eq_getElem hk]
    rfl
  rw [missingLess, hget i hi, hget j hj]
  cases hfl : entries[j].2 with
  | false => rw [Bool.and_false]
  | true => rw [hlat hfl]; rfl

end Order

theorem sliceStable_ordered (h : Ordered entries) :
    sliceStable (missingLess (entries.map Prod.snd)) (entries.map Prod.fst) =
      entries.map Prod.fst := by
  refine sliceStable_eq_self fun ys i j hij hi => missingLess_ordered h hij ?_
  rwa [length_map] at hi

theorem sliceStable_block {entries : List (α × Bool)} (h : entries.length ≤ 20) :
    sliceStable (missingLess (entries.map Prod.snd)) (entries.map Prod.fst) =
      (swapDescents entries).map Prod.fst := by
  rw [sliceStable_eq_insertionSort _ (by rwa [length_map]), length_map]
  cases entries with
  | nil => rfl
  | cons first entries =>
    refine @foldl_insertAt α ((first :: entries).map Prod.snd) [] _ _ entries fun t => ?_
    rw [length_nil, Nat.zero_add]
    rfl

theorem count_unset (entries : List (α × Bool)) :
    (entries.map Prod.snd).countP (fun isM => !isM) =
      (entries.filter fun en => !en.2).length := by
  rw [countP_map, countP_eq_length_filter]
  rfl

theorem ordered_of_take {entries : List (α × Bool)}
    (huns : srt.filter (fun e => e.2 == false) = entries.filter fun e => e.2 == false)
    (hf : ∀ e ∈ srt.take (entries.filter fun e => !e.2).length, e.2 = false) : Ordered srt := by
  simp only [beq_false] at huns
  obtain ⟨k, hk⟩ : ∃ k, (entries.filter fun e => !e.2).length = k := ⟨_, rfl⟩
  rw [hk] at hf
  have hcn : srt.countP (fun e => !e.2) = k := by rw [countP_eq_length_filter, huns, hk]
  have htk : (srt.take k).countP (fun e => !e.2) = (srt.take k).length := by
    refine countP_eq_length.mpr fun e he => ?_
    rw [hf e he]
    rfl
  have hla : ∀ e ∈ srt.drop k, e.2 = true := by
    have hle : k ≤ srt.length := hcn ▸ countP_le_length
    have hsum := hcn
    rw [← take_append_drop k srt, countP_append, htk, length_take] at hsum
    have hno : (srt.drop k).countP (fun e => !e.2) = 0 := by omega
    simpa using hno
  rw [← take_append_drop k srt]
  refine pairwise_append.mpr ⟨?_, ordered_of_all hla, fun _ _ e he _ => hla e he⟩
  refine pairwise_of_forall_mem_list fun e he _ _ hset => ?_
  rw [hf e he] at hset
  cases hset

section Association

variable {Regexp : Type} (rt : Runtime) (matchString : Regexp → String → Bool)
  (searchContextRepoRevs : List (RepoID × RepoRevSpecs))
  (includePatternRevs : List (PatternRevspec Regexp))

theorem associate_repo :
    (associate rt matchString searchContextRepoRevs includePatternRevs repo).1.repo = repo := by
  simp only [associate]
  split_ifs <;> rfl

variable {repos : List MinimalRepo}

variable (hentries :
  repos.map (associate rt matchString searchContextRepoRevs includePatternRevs) = entries)

include hentries

theorem flag_eq_of_spec_eq (he : e ∈ entries) (hf : f ∈ entries) (h : e.1 = f.1) : e.2 = f.2 := by
  subst hentries
  obtain ⟨r, -, rfl⟩ := mem_map.mp he
  obtain ⟨r', -, rfl⟩ := mem_map.mp hf
  have hrp := congrArg RepoRevSpecs.repo h
  rw [associate_repo, associate_repo] at hrp
  rw [hrp]

theorem setAside_iff
    (hrun : sliceStable (missingLess (entries.map Prod.snd)) (entries.map Prod.fst) =
      srt.map Prod.fst)
    (hfil : ∀ flag, srt.filter (fun e => e.2 == flag) =
      entries.filter fun e => e.2 == flag) :
    SetAside rt matchString searchContextRepoRevs includePatternRevs repos
        (associateReposWithRevs rt matchString searchContextRepoRevs includePatternRevs repos) ↔
      Ordered srt := by
  have hres : associateReposWithRevs rt matchString searchContextRepoRevs includePatternRevs
      repos = ((srt.map Prod.fst).take (entries.filter fun en => !en.2).length,
        (srt.map Prod.fst).drop (entries.filter fun en => !en.2).length) := by
    rw [← count_unset, ← hrun, ← hentries]
    rfl
  rw [hres]
  constructor
  · intro h
    have hkp := h.kept
    rw [hentries] at hkp
    refine ordered_of_take (hfil false) fun e he => ?_
    rw [← map_take] at hkp
    have hmem : e.1 ∈ (entries.filter fun en => !en.2).map Prod.fst := by
      rw [← hkp]
      exact mem_map_of_mem he
    obtain ⟨f, hf, hfe⟩ := mem_map.mp hmem
    obtain ⟨hfin, huns⟩ := mem_filter.mp hf
    have hein : e ∈ entries := by
      have : e ∈ srt.filter fun d => d.2 == e.2 :=
        mem_filter.mpr ⟨mem_of_mem_take he, beq_self_eq_true _⟩
      rw [hfil] at this
      exact (mem_filter.mp this).1
    rw [← flag_eq_of_spec_eq rt _ _ _ hentries hfin hein hfe]
    simpa using huns
  · intro h
    have hspl := ordered_split h
    have huns := hfil false
    have hset := hfil true
    simp only [beq_false, beq_true] at huns hset
    rw [huns, hset] at hspl
    rw [← hspl, map_append]
    constructor
    · rw [hentries, take_left' (length_map _)]
    · rw [hentries, drop_left' (length_map _)]

omit hentries

/-- Repositories with clashing revisions are set aside if they stand last. Among at most twenty, one
block of the sort, also if one stands directly before the last without a clash, and never else. -/
theorem clashes_set_aside (repos : List MinimalRepo) :
    (Ordered (repos.map (associate rt matchString searchContextRepoRevs includePatternRevs)) →
      SetAside rt matchString searchContextRepoRevs includePatternRevs repos
        (associateReposWithRevs rt matchString searchContextRepoRevs includePatternRevs repos)) ∧
    (repos.length ≤ 20 →
      (SetAside rt matchString searchContextRepoRevs includePatternRevs repos
        (associateReposWithRevs rt matchString searchContextRepoRevs includePatternRevs repos) ↔
      Ordered (repos.map (associate rt matchString searchContextRepoRevs includePatternRevs)) ∨
      Exchanged
        (repos.map (associate rt matchString searchContextRepoRevs includePatternRevs)))) := by
  constructor
  · intro h
    exact (setAside_iff rt matchString searchContextRepoRevs includePatternRevs rfl
      (sliceStable_ordered h) fun _ => rfl).mpr h
  · intro h
    rw [← ordered_swapDescents]
    refine setAside_iff rt matchString searchContextRepoRevs includePatternRevs rfl
      (sliceStable_block ?_) fun flag => filter_swapDescents flag _
    rwa [length_map]

end Association

/-- Both filters list a revision of their own and match the first repository. It is kept, and the
last one is set aside. -/
theorem clash_kept :
    let a : RevisionSpecifier := { revSpec := "a" }
    let b : RevisionSpecifier := { revSpec := "b" }
    let repo (name : String) : MinimalRepo := ⟨0, name, 0⟩
    let pats : List (PatternRevspec String) := [⟨"x", [a]⟩, ⟨"y", [b]⟩]
    let matchString (pattern name : String) : Bool := name.toList.contains (pattern.toList.headD ' ')
    associateReposWithRevs stableRuntime matchString [] pats [repo "xy", repo "x", repo "y"] =
        ([⟨repo "x", [a]⟩, ⟨repo "xy", [a, b]⟩], [⟨repo "y", [b]⟩]) ∧
      ¬ SetAside stableRuntime matchString [] pats [repo "xy", repo "x", repo "y"]
        (associateReposWithRevs stableRuntime matchString [] pats
          [repo "xy", repo "x", repo "y"]) := by
  intro a b repo pats matchString
  have hrun : associateReposWithRevs stableRuntime matchString [] pats
      [repo "xy", repo "x", repo "y"] =
      ([⟨repo "x", [a]⟩, ⟨repo "xy", [a, b]⟩], [⟨repo "y", [b]⟩]) := by decide +kernel
  refine ⟨hrun, fun h => ?_⟩
  have hkp := h.kept
  revert hkp
  decide +kernel

/-- Between its neighbours the repository with the clash is found. -/
theorem clash_set_aside_between :
    let a : RevisionSpecifier := { revSpec := "a" }
    let b : RevisionSpecifier := { revSpec := "b" }
    let repo (name : String) : MinimalRepo := ⟨0, name, 0⟩
    let pats : List (PatternRevspec String) := [⟨"x", [a]⟩, ⟨"y", [b]⟩]
    let matchString (pattern name : String) : Bool := name.toList.contains (pattern.toList.headD ' ')
    SetAside stableRuntime matchString [] pats [repo "x", repo "xy", repo "y"]
      (associateReposWithRevs stableRuntime matchString [] pats
        [repo "x", repo "xy", repo "y"]) := by
  intro a b repo pats matchString
  exact ((clashes_set_aside stableRuntime matchString [] pats
    [repo "x", repo "xy", repo "y"]).2 (by decide)).mpr (.inr ⟨1, 0, by decide +kernel⟩)

end RepoAssociation
