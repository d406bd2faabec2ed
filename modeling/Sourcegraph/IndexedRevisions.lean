import Sourcegraph.RepoAssociation

/-! # Indexed revisions

The requested revisions of a repository are split by whether the index has a branch for them, found
by its name or an abbreviation of its version. For a file match the revisions are worked out from
the branches of the file and a single version. -/
namespace IndexedRevisions

open GoStrings RepoAssociation List

structure RepositoryBranch where
  name : String
  version : String
  deriving DecidableEq

structure MinimalRepoListEntry where
  hasSymbols : Bool
  branches : List RepositoryBranch
  deriving DecidableEq

structure RepositoryRevisions where
  repo : MinimalRepo
  revs : List String
  deriving DecidableEq

/-- The maps `RepoRevs` and `branchRepos`, the latter with the repositories of each branch. -/
structure IndexedRepoRevs where
  repoRevs : List (RepoID × RepositoryRevisions) := []
  branchRepos : List (String × List UInt32) := []
  deriving DecidableEq

structure FileMatch where
  repositoryID : UInt32
  repository : String
  version : String
  branches : List String
  deriving DecidableEq

def abbreviates (rev version : String) : Bool :=
  4 ≤ (bytes rev).length && (bytes rev).isPrefixOf (bytes version)

/-- The empty revision means HEAD. -/
def explicit (rev : String) : String := if rev = "" then "HEAD" else rev

def findBranch (branches : List RepositoryBranch) (inputRev : String) : Option RepositoryBranch :=
  branches.find? fun branch =>
    branch.name = explicit inputRev || abbreviates (explicit inputRev) branch.version

/-- The loop over the revisions in `add`: the names of the branches, the indexed and the unindexed
revisions. -/
def splitRevs (branches : List RepositoryBranch) :
    List String → List String × List String × List String
  | [] => ([], [], [])
  | inputRev :: rest =>
    let (names, indexed, unindexed) := splitRevs branches rest
    match findBranch branches inputRev with
    | some branch => (branch.name :: names, inputRev :: indexed, unindexed)
    | none => (names, indexed, inputRev :: unindexed)

/-- `br.Repos.Add(id)` for the entry of a branch, which is created if it is missing. -/
def addBranchRepo (id : UInt32) : List (String × List UInt32) → String → List (String × List UInt32)
  | [], branch => [(branch, [id])]
  | (key, ids) :: rest, branch =>
    if key = branch then (key, if id ∈ ids then ids else ids ++ [id]) :: rest
    else (key, ids) :: addBranchRepo id rest branch

/-- The revisions that cannot be added are returned. -/
def IndexedRepoRevs.add (rb : IndexedRepoRevs) (reporev : RepositoryRevisions)
    (repo : MinimalRepoListEntry) : IndexedRepoRevs × List String :=
  if (rb.repoRevs.lookup reporev.repo.id).isSome then (rb, reporev.revs)
  else
    let (branches, indexed, unindexed) := splitRevs repo.branches reporev.revs
    if indexed.length > 0 then
      (⟨(reporev.repo.id, ⟨reporev.repo, indexed⟩) :: rb.repoRevs,
        branches.foldl (addBranchRepo reporev.repo.id.toUInt32) rb.branchRepos⟩, unindexed)
    else (rb, unindexed)

def indexedRepos (indexedSet : UInt32 → Option MinimalRepoListEntry)
    (filter : Option (MinimalRepoListEntry → Bool)) :
    IndexedRepoRevs → List RepositoryRevisions → IndexedRepoRevs × List RepositoryRevisions
  | indexed, [] => (indexed, [])
  | indexed, reporev :: rest =>
    match (indexedSet reporev.repo.id.toUInt32).filter fun repo => filter.all (· repo) with
    | none =>
      let (indexed', unindexed) := indexedRepos indexedSet filter indexed rest
      (indexed', reporev :: unindexed)
    | some repo =>
      let (indexed', unindexedRevs) := indexed.add reporev repo
      let (indexed'', unindexed) := indexedRepos indexedSet filter indexed' rest
      (indexed'',
        if unindexedRevs.length > 0 then ⟨reporev.repo, unindexedRevs⟩ :: unindexed else unindexed)

def zoektIndexedRepos (indexedSet : UInt32 → Option MinimalRepoListEntry)
    (revs : List RepositoryRevisions) (filter : Option (MinimalRepoListEntry → Bool)) :
    IndexedRepoRevs × List RepositoryRevisions :=
  indexedRepos indexedSet filter {} revs

def tracesTo (file : FileMatch) (rev : String) : Bool :=
  file.branches.contains (explicit rev) || abbreviates rev file.version

def IndexedRepoRevs.getRepoInputRev (rb : IndexedRepoRevs) (file : FileMatch) :
    MinimalRepo × List String :=
  match rb.repoRevs.lookup (Int32.ofUInt32 file.repositoryID) with
  | none => (⟨Int32.ofUInt32 file.repositoryID, file.repository, 0⟩, [file.version])
  | some repoRev =>
    let inputRevs := repoRev.revs.filter (tracesTo file)
    (repoRev.repo, if inputRevs.length = 0 then [file.version] else inputRevs)

section Spec

variable (indexedSet : UInt32 → Option MinimalRepoListEntry)
  (filter : Option (MinimalRepoListEntry → Bool))

def listed (reporev : RepositoryRevisions) : Option MinimalRepoListEntry :=
  (indexedSet reporev.repo.id.toUInt32).filter fun repo => filter.all (· repo)

def IndexedRepoRevs.revsOf (rb : IndexedRepoRevs) (id : RepoID) : List String :=
  ((rb.repoRevs.lookup id).map RepositoryRevisions.revs).getD []

def unindexedRevsOf (unindexed : List RepositoryRevisions) (id : RepoID) : List String :=
  (unindexed.filter fun reporev => reporev.repo.id = id).flatMap RepositoryRevisions.revs

def IndexedRepoRevs.reposOf (rb : IndexedRepoRevs) (branch : String) : List UInt32 :=
  (rb.branchRepos.lookup branch).getD []

structure SearchedOn (rb : IndexedRepoRevs) (reporev : RepositoryRevisions)
    (branches : List RepositoryBranch) (rev : String) (branch : RepositoryBranch) : Prop where
  mapped : findBranch branches rev = some branch
  searched : reporev.repo.id.toUInt32 ∈ rb.reposOf branch.name

/-- Every revision is searched once, on the right branch, and it is found again from the files. -/
structure Covered (revs : List RepositoryRevisions) (files : List FileMatch)
    (result : IndexedRepoRevs × List RepositoryRevisions) : Prop where
  once : ∀ reporev ∈ revs,
    (result.1.revsOf reporev.repo.id ++ unindexedRevsOf result.2 reporev.repo.id).Perm
        reporev.revs ∧
      ∀ rev ∈ result.1.revsOf reporev.repo.id, rev ∉ unindexedRevsOf result.2 reporev.repo.id
  named : ∀ reporev ∈ revs, ∀ repo ∈ listed indexedSet filter reporev, ∀ rev ∈ reporev.revs,
    explicit rev ∈ repo.branches.map RepositoryBranch.name →
    ∃ branch, SearchedOn result.1 reporev repo.branches rev branch ∧ branch.name = explicit rev
  abbreviated : ∀ reporev ∈ revs, ∀ repo ∈ listed indexedSet filter reporev,
    ∀ rev ∈ reporev.revs, explicit rev ∉ repo.branches.map RepositoryBranch.name →
    (∃ branch ∈ repo.branches, abbreviates rev branch.version) →
    ∃ branch, SearchedOn result.1 reporev repo.branches rev branch ∧ abbreviates rev branch.version
  inverse : ∀ file ∈ files, ∀ reporev ∈ revs, reporev.repo.id.toUInt32 = file.repositoryID →
    ∀ repo ∈ listed indexedSet filter reporev, ∀ rev,
      rev ∈ (result.1.getRepoInputRev file).2 ↔ rev ∈ reporev.revs ∧
        ∃ branch, findBranch repo.branches rev = some branch ∧ branch.name ∈ file.branches

structure Returned (rb : IndexedRepoRevs) (file : FileMatch) : Prop where
  branch : ∃ branch ∈ file.branches, file.repositoryID ∈ rb.reposOf branch
  version : file.version ≠ ""

end Spec

/-- No branch before the one that is named by a revision has a version that it abbreviates. -/
def Foremost (branches : List RepositoryBranch) (rev : String) : Prop :=
  ∀ earlier branch later, branches = earlier ++ branch :: later →
    rev ∈ later.map RepositoryBranch.name → abbreviates rev branch.version = true →
    rev ∈ (earlier ++ [branch]).map RepositoryBranch.name

theorem findBranch_some (h : findBranch brs rev = some br) :
    br ∈ brs ∧ (br.name = explicit rev ∨ abbreviates (explicit rev) br.version = true) := by
  refine ⟨mem_of_find?_eq_some h, ?_⟩
  have := find?_some h
  rwa [Bool.or_eq_true, decide_eq_true_eq] at this

theorem findBranch_isSome {br : RepositoryBranch} (hmem : br ∈ brs)
    (h : br.name = explicit rev ∨ abbreviates (explicit rev) br.version = true) :
    ∃ first, findBranch brs rev = some first := by
  refine Option.isSome_iff_exists.mp (find?_isSome.mpr ⟨br, hmem, ?_⟩)
  rwa [Bool.or_eq_true, decide_eq_true_eq]

theorem foremost_iff (hnm : explicit rev ∈ brs.map RepositoryBranch.name) :
    (∃ br, findBranch brs rev = some br ∧ br.name = explicit rev) ↔
      Foremost brs (explicit rev) := by
  constructor
  · rintro ⟨br, hbr, hrt⟩ ear b lat heq hlat habb
    -- The first hit stands at or before the branch that is abbreviated.
    obtain ⟨first, hf⟩ := findBranch_isSome
      (mem_append_right ear (mem_singleton_self b)) (.inr habb)
    have hfi : findBranch brs rev = some first := by
      rw [heq, append_cons, findBranch, find?_append, ← findBranch, hf, Option.some_or]
    obtain rfl : br = first := Option.some.inj (hbr.symm.trans hfi)
    rw [← hrt]
    exact mem_map_of_mem (findBranch_some hf).1
  · intro h
    obtain ⟨nam, hmem, hna⟩ := mem_map.mp hnm
    obtain ⟨first, hf⟩ := findBranch_isSome hmem (.inl hna)
    obtain ⟨-, pre, post, hspl, hbef⟩ := find?_eq_some_iff_append.mp hf
    refine ⟨first, hf, ?_⟩
    have hhd : explicit rev ∈ (pre ++ [first]).map RepositoryBranch.name →
        first.name = explicit rev := by
      intro hin
      obtain ⟨b, hb, hbna⟩ := mem_map.mp hin
      rcases mem_append.mp hb with hb | hb
      · exact absurd (hbef b hb) (by simp [hbna])
      · rwa [← mem_singleton.mp hb]
    rw [hspl, append_cons, map_append, mem_append] at hnm
    rcases hnm with hin | hin
    · exact hhd hin
    rcases (findBranch_some hf).2 with hna | habb
    · exact hna
    · exact hhd (h pre first post hspl hin habb)

theorem foremost_of_not_named (h : rev ∉ brs.map RepositoryBranch.name) : Foremost brs rev := by
  intro ear br lat heq hlat
  refine absurd ?_ h
  rw [heq, map_append]
  exact mem_append_right _ (mem_cons_of_mem _ hlat)

def hits (branches : List RepositoryBranch) (revs : List String) : List String :=
  revs.filter fun rev => (findBranch branches rev).isSome

def misses (branches : List RepositoryBranch) (revs : List String) : List String :=
  revs.filter fun rev => !(findBranch branches rev).isSome

theorem splitRevs_eq :
    splitRevs brs revs =
      ((revs.filterMap (findBranch brs)).map RepositoryBranch.name,
        hits brs revs, misses brs revs) := by
  induction revs with
  | nil => rfl
  | cons rev rest ih =>
    rw [splitRevs, ih]
    cases hfi : findBranch brs rev with
    | none | some br => simp [hits, misses, hfi]

theorem hits_append_misses (brs : List RepositoryBranch) (revs : List String) :
    (hits brs revs ++ misses brs revs).Perm revs :=
  filter_append_perm _ _

theorem addBranchRepo_eq_update (id : UInt32)
    : addBranchRepo id tb br = MapEntries.update br
      (fun ids => if id ∈ ids.getD [] then ids.getD [] else ids.getD [] ++ [id]) tb := by
  induction tb with
  | nil => rfl
  | cons en rest ih => simp [addBranchRepo, MapEntries.update, ih]

theorem lookup_addBranchRepo (id : UInt32) (br name : String) :
    other ∈ ((addBranchRepo id tb br).lookup name).getD [] ↔
      other ∈ (tb.lookup name).getD [] ∨ (other = id ∧ name = br) := by
  rw [addBranchRepo_eq_update, MapEntries.lookup_update]
  by_cases hnm : name = br
  · subst hnm
    rw [if_pos rfl, Option.getD_some]
    split
    · rw [or_iff_left_of_imp]
      rintro ⟨rfl, -⟩
      assumption
    · rw [mem_append, mem_singleton, and_iff_left rfl]
  · rw [if_neg hnm, or_iff_left fun h => hnm h.2]

theorem lookup_foldl_addBranchRepo (id : UInt32) (nam : List String)
    (tb : List (String × List UInt32)) (name : String) (other : UInt32) :
    other ∈ ((nam.foldl (addBranchRepo id) tb).lookup name).getD [] ↔
      other ∈ (tb.lookup name).getD [] ∨ (other = id ∧ name ∈ nam) := by
  induction nam generalizing tb with
  | nil => simp
  | cons first rest ih =>
    rw [foldl_cons, ih, lookup_addBranchRepo, mem_cons, or_assoc]
    rw [and_or_left]

section Add

variable {rb : IndexedRepoRevs} {reporev : RepositoryRevisions} (repo : MinimalRepoListEntry)
  (hnone : rb.repoRevs.lookup reporev.repo.id = none)

include hnone

theorem lookup_add (id : RepoID) : (rb.add reporev repo).1.repoRevs.lookup id =
    if id = reporev.repo.id then
      if (hits repo.branches reporev.revs).length > 0 then
        some ⟨reporev.repo, hits repo.branches reporev.revs⟩
      else none
    else rb.repoRevs.lookup id := by
  rw [IndexedRepoRevs.add, hnone, Option.isSome_none, if_neg Bool.false_ne_true, splitRevs_eq]
  simp only
  by_cases hid : id = reporev.repo.id
  · subst hid
    rw [if_pos rfl]
    split
    · exact lookup_cons_self
    · exact hnone
  split
  · rw [lookup_cons, beq_false_of_ne hid]
  · rfl

theorem mem_reposOf_add (name : String) (other : UInt32) :
    other ∈ (rb.add reporev repo).1.reposOf name ↔ other ∈ rb.reposOf name ∨
      other = reporev.repo.id.toUInt32 ∧ ∃ rev ∈ reporev.revs, ∃ br,
        findBranch repo.branches rev = some br ∧ br.name = name := by
  rw [IndexedRepoRevs.add, hnone, Option.isSome_none, if_neg Bool.false_ne_true, splitRevs_eq]
  simp only
  by_cases hlen : (hits repo.branches reporev.revs).length > 0
  · rw [if_pos hlen, IndexedRepoRevs.reposOf, lookup_foldl_addBranchRepo, map_filterMap,
      mem_filterMap]
    simp only [Option.map_eq_some_iff]
    rfl
  rw [if_neg hlen, or_iff_left]
  rintro ⟨-, rev, hrev, br, hfi, -⟩
  refine hlen (length_pos_of_mem (mem_filter.mpr ⟨hrev, ?_⟩))
  rw [hfi]
  rfl

theorem add_unindexed : (rb.add reporev repo).2 = misses repo.branches reporev.revs := by
  rw [IndexedRepoRevs.add, hnone, Option.isSome_none, if_neg Bool.false_ne_true, splitRevs_eq]
  simp only
  split <;> rfl

end Add

section Run

variable (indexedSet : UInt32 → Option MinimalRepoListEntry)
  (filter : Option (MinimalRepoListEntry → Bool))

def indexedEntry (reporev : RepositoryRevisions) : Option RepositoryRevisions :=
  (listed indexedSet filter reporev).bind fun repo =>
    if (hits repo.branches reporev.revs).length > 0 then
      some ⟨reporev.repo, hits repo.branches reporev.revs⟩
    else none

def leftover (reporev : RepositoryRevisions) : Option RepositoryRevisions :=
  match listed indexedSet filter reporev with
  | none => some reporev
  | some repo =>
    if (misses repo.branches reporev.revs).length > 0 then
      some ⟨reporev.repo, misses repo.branches reporev.revs⟩
    else none

def Mapped (reporev : RepositoryRevisions) (name : String) : Prop :=
  ∃ repo ∈ listed indexedSet filter reporev, ∃ rev ∈ reporev.revs, ∃ branch,
    findBranch repo.branches rev = some branch ∧ branch.name = name

structure Indexing (seen : List RepositoryRevisions) (rb : IndexedRepoRevs) : Prop where
  known : ∀ reporev ∈ seen,
    rb.repoRevs.lookup reporev.repo.id = indexedEntry indexedSet filter reporev
  unknown : ∀ id, (∀ reporev ∈ seen, reporev.repo.id ≠ id) → rb.repoRevs.lookup id = none
  branches : ∀ name other, other ∈ rb.reposOf name ↔
    ∃ reporev ∈ seen, other = reporev.repo.id.toUInt32 ∧ Mapped indexedSet filter reporev name

variable {indexedSet filter}

theorem Indexing.skip (h : Indexing indexedSet filter seen rb)
    (hfr : ∀ other ∈ seen, other.repo.id ≠ reporev.repo.id)
    (hent : indexedEntry indexedSet filter reporev = none)
    (hmap : ∀ name, ¬ Mapped indexedSet filter reporev name) :
    Indexing indexedSet filter (seen ++ [reporev]) rb := by
  refine ⟨forall_mem_append.mpr ⟨h.known, forall_mem_singleton.mpr ?_⟩,
    fun id hid => h.unknown id (forall_mem_append.mp hid).1, fun name other => ?_⟩
  · rw [hent]
    exact h.unknown _ hfr
  · rw [h.branches]
    simp [hmap]

theorem Indexing.add (h : Indexing indexedSet filter seen rb)
    (hfr : ∀ other ∈ seen, other.repo.id ≠ reporev.repo.id)
    (hrp : listed indexedSet filter reporev = some repo) :
    Indexing indexedSet filter (seen ++ [reporev]) (rb.add reporev repo).1 := by
  have hnone : rb.repoRevs.lookup reporev.repo.id = none := h.unknown _ hfr
  refine ⟨forall_mem_append.mpr ⟨fun other hoth => ?_, forall_mem_singleton.mpr ?_⟩,
    fun id hid => ?_, fun name other => ?_⟩
  · rw [lookup_add repo hnone, if_neg (hfr other hoth), h.known other hoth]
  · rw [lookup_add repo hnone, if_pos rfl, indexedEntry, hrp, Option.bind_some]
  · rw [lookup_add repo hnone, if_neg (Ne.symm (hid reporev (by simp)))]
    exact h.unknown id (forall_mem_append.mp hid).1
  · rw [mem_reposOf_add repo hnone, h.branches]
    simp [Mapped, hrp]

theorem indexedRepos_spec {rest : List RepositoryRevisions}
    (hnd : ((seen ++ rest).map fun reporev => reporev.repo.id).Nodup)
    (h : Indexing indexedSet filter seen rb) :
    Indexing indexedSet filter (seen ++ rest) (indexedRepos indexedSet filter rb rest).1 ∧
      (indexedRepos indexedSet filter rb rest).2 = rest.filterMap (leftover indexedSet filter) := by
  induction rest generalizing seen rb with
  | nil => exact ⟨by rwa [append_nil], rfl⟩
  | cons reporev rest ih =>
    have hfr : ∀ other ∈ seen, other.repo.id ≠ reporev.repo.id := by
      rw [map_append] at hnd
      exact fun other hoth => (nodup_append.mp hnd).2.2 _ (mem_map_of_mem hoth) _
        (mem_map_of_mem mem_cons_self)
    rw [append_cons] at hnd ⊢
    rw [indexedRepos, filterMap_cons, leftover]
    cases hrp : listed indexedSet filter reporev with
    | none =>
      have hsk : Indexing indexedSet filter (seen ++ [reporev]) rb := by
        refine h.skip hfr (by rw [indexedEntry, hrp]; rfl) ?_
        rintro name ⟨repo, hso, -⟩
        rw [hrp] at hso
        cases hso
      obtain ⟨hixg, huni⟩ := ih hnd hsk
      rw [listed] at hrp
      rw [hrp]
      exact ⟨hixg, congrArg (reporev :: ·) huni⟩
    | some repo =>
      have hret := add_unindexed repo (h.unknown _ hfr)
      obtain ⟨hixg, huni⟩ := ih hnd (h.add hfr hrp)
      rw [listed] at hrp
      rw [hrp]
      simp only [hret, huni]
      refine ⟨hixg, ?_⟩
      split <;> rfl

end Run

theorem filter_id_eq {revs : List RepositoryRevisions}
    (hdis : (revs.map fun reporev => reporev.repo.id).Nodup) (hmem : reporev ∈ revs) :
    revs.filter (fun other => other.repo.id = reporev.repo.id) = [reporev] := by
  have hsm : ∀ other ∈ revs,
      decide (other.repo.id = reporev.repo.id) = decide (other = reporev) :=
    fun other hother =>
      decide_eq_decide.mpr ⟨inj_on_of_nodup_map hdis hother hmem, fun heq => by rw [heq]⟩
  rw [filter_congr hsm, filter_eq, count_eq_one_of_mem (Nodup.of_map _ hdis) hmem]
  rfl

section Split

variable {indexedSet : UInt32 → Option MinimalRepoListEntry}
  {filter : Option (MinimalRepoListEntry → Bool)}

theorem unindexedRevsOf_leftover (revs : List RepositoryRevisions) (id : RepoID) :
    unindexedRevsOf (revs.filterMap (leftover indexedSet filter)) id =
      (revs.filter fun reporev => reporev.repo.id = id).flatMap fun reporev =>
        ((leftover indexedSet filter reporev).map RepositoryRevisions.revs).getD [] := by
  have hrp : ∀ {reporev left}, leftover indexedSet filter reporev = some left →
      left.repo = reporev.repo := by
    intro reporev left
    fun_cases leftover indexedSet filter reporev with
    | case3 => nofun
    | _ =>
      rintro ⟨⟩
      rfl
  rw [unindexedRevsOf]
  induction revs with
  | nil => rfl
  | cons first rest ih =>
    by_cases hid : first.repo.id = id <;> cases hl : leftover indexedSet filter first with
    | none => simp [hid, hl, ih]
    | some left => simp [hid, hl, hrp hl, ih]

theorem zoektIndexedRepos_spec
    (hdis : (revs.map fun reporev => reporev.repo.id).Nodup) :
    Indexing indexedSet filter revs (zoektIndexedRepos indexedSet revs filter).1 ∧
      (zoektIndexedRepos indexedSet revs filter).2 =
        revs.filterMap (leftover indexedSet filter) := by
  have hst : Indexing indexedSet filter [] {} :=
    ⟨by simp, fun _ _ => rfl, fun name other => by simp [IndexedRepoRevs.reposOf]⟩
  exact @indexedRepos_spec indexedSet filter [] {} revs hdis hst

theorem split_once (hdis : (revs.map fun reporev => reporev.repo.id).Nodup)
    (hmem : reporev ∈ revs) {res : IndexedRepoRevs × List RepositoryRevisions}
    (hres : zoektIndexedRepos indexedSet revs filter = res) :
    (res.1.revsOf reporev.repo.id ++ unindexedRevsOf res.2 reporev.repo.id).Perm
        reporev.revs ∧
      ∀ rev ∈ res.1.revsOf reporev.repo.id, rev ∉ unindexedRevsOf res.2 reporev.repo.id := by
  obtain ⟨hixg, huni⟩ := @zoektIndexedRepos_spec indexedSet filter revs hdis
  rw [hres] at hixg huni
  rw [huni, unindexedRevsOf_leftover, filter_id_eq hdis hmem, flatMap_singleton,
    IndexedRepoRevs.revsOf, hixg.known reporev hmem, indexedEntry, leftover]
  cases listed indexedSet filter reporev with
  | none => exact ⟨.refl _, by simp⟩
  | some repo =>
    have hhi : ∀ (b : List String), ((if b.length > 0 then
        some (⟨reporev.repo, b⟩ : RepositoryRevisions) else none).map
          RepositoryRevisions.revs).getD [] = b := by
      intro b
      cases b <;> rfl
    rw [Option.bind_some, hhi, hhi]
    refine ⟨hits_append_misses _ _, fun rev hhit hmi => ?_⟩
    have hso := (mem_filter.mp hhit).2
    have hnone := (mem_filter.mp hmi).2
    rw [hso] at hnone
    cases hnone

theorem Indexing.searchedOn {rb : IndexedRepoRevs} (h : Indexing indexedSet filter revs rb)
    (hmem : reporev ∈ revs) {repo : MinimalRepoListEntry}
    (hrp : listed indexedSet filter reporev = some repo) {rev : String}
    (hrev : rev ∈ reporev.revs) (hfi : findBranch repo.branches rev = some br) :
    SearchedOn rb reporev repo.branches rev br where
  mapped := hfi
  searched := by
    rw [h.branches]
    exact ⟨reporev, hmem, rfl, repo, hrp, rev, hrev, br, hfi, rfl⟩

theorem abbreviates_explicit (h : abbreviates rev ver = true) : explicit rev = rev := by
  rw [explicit, if_neg]
  rintro rfl
  rw [abbreviates, Bool.and_eq_true] at h
  exact absurd h.1 (by decide +kernel)

theorem abbreviates_self (h : abbreviates rev ver = true) : abbreviates rev rev = true := by
  rw [abbreviates, Bool.and_eq_true] at h ⊢
  exact ⟨h.1, List.isPrefixOf_iff_prefix.mpr (prefix_refl _)⟩

/-- The revisions of a file are exactly the mapped ones if every revision with a branch is traced
to the files of that branch. -/
theorem inverse_iff (hdis : (revs.map fun reporev => reporev.repo.id).Nodup)
    (h : Indexing indexedSet filter revs rb) (hfi : Returned rb file) (hmem : reporev ∈ revs)
    (hid : reporev.repo.id.toUInt32 = file.repositoryID)
    (hrp : listed indexedSet filter reporev = some repo) :
    (∀ rev, rev ∈ (rb.getRepoInputRev file).2 ↔ rev ∈ reporev.revs ∧
        ∃ br, findBranch repo.branches rev = some br ∧ br.name ∈ file.branches) ↔
      ∀ rev ∈ reporev.revs, ∀ br, findBranch repo.branches rev = some br →
        (br.name ∈ file.branches ↔ tracesTo file rev = true) := by
  obtain ⟨name, hna, hse⟩ := hfi.branch
  obtain ⟨other, hot, hoth, repo', hrp', rev₀, hrev₀, br₀, hfin₀, rfl⟩ :=
    (h.branches name file.repositoryID).mp hse
  obtain rfl : reporev = other := by
    refine inj_on_of_nodup_map hdis hmem hot ?_
    exact congrArg Int32.ofUInt32 (hid.trans hoth)
  obtain rfl : repo = repo' := Option.some.inj (hrp.symm.trans hrp')
  have hhit₀ : rev₀ ∈ hits repo.branches reporev.revs :=
    mem_filter.mpr ⟨hrev₀, by rw [hfin₀]; rfl⟩
  have hlk : rb.repoRevs.lookup (Int32.ofUInt32 file.repositoryID) =
      some ⟨reporev.repo, hits repo.branches reporev.revs⟩ := by
    rw [← hid]
    refine (h.known reporev hmem).trans ?_
    rw [indexedEntry, hrp, Option.bind_some, if_pos (length_pos_of_mem hhit₀)]
  rw [IndexedRepoRevs.getRepoInputRev, hlk]
  simp only
  split
  · have htra : tracesTo file rev₀ = false := by
      rw [← Bool.not_eq_true]
      exact filter_eq_nil_iff.mp (eq_nil_of_length_eq_zero ‹_›) rev₀ hhit₀
    refine iff_of_false (fun hall => ?_) fun hall => ?_
    · -- The version would have to be the revision that is mapped to a branch of the file.
      have hver := mem_singleton.mp ((hall rev₀).mpr ⟨hrev₀, br₀, hfin₀, hna⟩)
      have hexp : explicit rev₀ = rev₀ := by
        rw [explicit, if_neg (hver ▸ hfi.version)]
      rw [tracesTo, Bool.or_eq_false_iff] at htra
      rcases (findBranch_some hfin₀).2 with hnm | habb
      · rw [← hnm, contains_iff_mem.mpr hna] at htra
        cases htra.1
      rw [hexp] at habb
      rw [← hver, abbreviates_self habb] at htra
      cases htra.2
    · cases htra.symm.trans ((hall rev₀ hrev₀ br₀ hfin₀).mp hna)
  · refine forall_congr' fun rev => ?_
    rw [mem_filter, hits, mem_filter]
    cases findBranch repo.branches rev with
    | none => simp
    | some br => simp [iff_comm]

end Split

def Requested (revs : List RepositoryRevisions) (id : RepoID) (rev : String) : Prop :=
  ∃ reporev ∈ revs, reporev.repo.id = id ∧ rev ∈ reporev.revs

structure Splits (indexedSet : UInt32 → Option MinimalRepoListEntry)
    (revs : List RepositoryRevisions) (rb : IndexedRepoRevs)
    (unindexed : List RepositoryRevisions) : Prop where
  indexed : ∀ id rev, rev ∈ rb.revsOf id → ∃ repo branch,
    indexedSet id.toUInt32 = some repo ∧ findBranch repo.branches rev = some branch ∧
      id.toUInt32 ∈ rb.reposOf branch.name
  searched : ∀ (id : RepoID) (name : String), id.toUInt32 ∈ rb.reposOf name →
    (rb.repoRevs.lookup id).isSome = true ∧ ∃ repo rev branch, indexedSet id.toUInt32 = some repo ∧
      Requested revs id rev ∧ findBranch repo.branches rev = some branch ∧ branch.name = name
  origin : ∀ left ∈ unindexed, ∃ reporev ∈ revs,
    reporev.repo = left.repo ∧ ∀ rev ∈ left.revs, rev ∈ reporev.revs
  all : ∀ id rev, Requested revs id rev ↔ rev ∈ rb.revsOf id ∨ rev ∈ unindexedRevsOf unindexed id

section Splits

variable {indexedSet : UInt32 → Option MinimalRepoListEntry}
  {filter : Option (MinimalRepoListEntry → Bool)} {revs unindexed : List RepositoryRevisions}

theorem requested_append (id : RepoID) :
    Requested (revs ++ [reporev]) id rev ↔
      Requested revs id rev ∨ (reporev.repo.id = id ∧ rev ∈ reporev.revs) := by
  simp [Requested]

theorem mem_unindexedRevsOf_append (left : List String) (id : RepoID) :
    rev ∈ unindexedRevsOf (unindexed ++ [⟨repo, left⟩]) id ↔
      rev ∈ unindexedRevsOf unindexed id ∨ (repo.id = id ∧ rev ∈ left) := by
  rw [unindexedRevsOf, filter_append, flatMap_append, mem_append]
  refine or_congr_right ?_
  by_cases hid : repo.id = id
  · simp [hid]
  · simp [hid]

theorem origin_append {left : List String}
    (h : ∀ left ∈ unindexed, ∃ reporev ∈ revs,
      reporev.repo = left.repo ∧ ∀ rev ∈ left.revs, rev ∈ reporev.revs)
    (hl : ∀ rev ∈ left, rev ∈ reporev.revs) :
    ∀ en ∈ unindexed ++ [⟨reporev.repo, left⟩], ∃ other ∈ revs ++ [reporev],
      other.repo = en.repo ∧ ∀ rev ∈ en.revs, rev ∈ other.revs := by
  refine forall_mem_append.mpr ⟨fun en hent => ?_,
    forall_mem_singleton.mpr ⟨reporev, by simp, rfl, hl⟩⟩
  obtain ⟨other, hoth, hrs⟩ := h en hent
  exact ⟨other, mem_append_left _ hoth, hrs⟩

theorem Splits.leave (h : Splits indexedSet revs rb unindexed) :
    Splits indexedSet (revs ++ [reporev]) rb (unindexed ++ [reporev]) where
  indexed := h.indexed
  searched id name hin := by
    obtain ⟨hso, repo, rev, br, hrp, hrev, hrs⟩ := h.searched id name hin
    exact ⟨hso, repo, rev, br, hrp, (requested_append id).mpr (.inl hrev), hrs⟩
  origin := @origin_append revs unindexed reporev reporev.revs h.origin fun _ hrev => hrev
  all id rev := by
    rw [requested_append, h.all, mem_unindexedRevsOf_append, or_assoc]

theorem Splits.add (h : Splits indexedSet revs rb unindexed)
    (hrp : indexedSet reporev.repo.id.toUInt32 = some repo) :
    Splits indexedSet (revs ++ [reporev]) (rb.add reporev repo).1
      (unindexed ++ [⟨reporev.repo, (rb.add reporev repo).2⟩]) := by
  by_cases hkn : (rb.repoRevs.lookup reporev.repo.id).isSome = true
  · rw [IndexedRepoRevs.add, if_pos hkn]
    exact h.leave
  have hnone : rb.repoRevs.lookup reporev.repo.id = none :=
    Option.not_isSome_iff_eq_none.mp hkn
  have hre : ∀ id, (rb.add reporev repo).1.revsOf id =
      if id = reporev.repo.id then hits repo.branches reporev.revs else rb.revsOf id := by
    intro id
    rw [IndexedRepoRevs.revsOf, lookup_add repo hnone]
    split
    · cases hits repo.branches reporev.revs <;> rfl
    · rfl
  rw [add_unindexed repo hnone]
  refine ⟨?_, ?_, origin_append h.origin fun rev hrev => (mem_filter.mp hrev).1, ?_⟩
  · intro id rev hrev
    rw [hre] at hrev
    split at hrev
    · subst id
      obtain ⟨hmem, hso⟩ := mem_filter.mp hrev
      obtain ⟨br, hfi⟩ := Option.isSome_iff_exists.mp hso
      exact ⟨repo, br, hrp, hfi,
        (mem_reposOf_add repo hnone _ _).mpr (.inr ⟨rfl, rev, hmem, br, hfi, rfl⟩)⟩
    obtain ⟨other, br, hoth, hfi, hin⟩ := h.indexed id rev hrev
    exact ⟨other, br, hoth, hfi, (mem_reposOf_add repo hnone _ _).mpr (.inl hin)⟩
  · intro id name hin
    rw [lookup_add repo hnone]
    rcases (mem_reposOf_add repo hnone _ _).mp hin with hin | ⟨heq, rev, hrev, br, hfi, rfl⟩
    · obtain ⟨hso, other, rev, br, hoth, hrev, hrs⟩ := h.searched id name hin
      rw [if_neg (by rintro rfl; exact hkn hso)]
      exact ⟨hso, other, rev, br, hoth, (requested_append id).mpr (.inl hrev), hrs⟩
    have hid : id = reporev.repo.id := congrArg Int32.ofUInt32 heq
    have hhit : rev ∈ hits repo.branches reporev.revs :=
      mem_filter.mpr ⟨hrev, by rw [hfi]; rfl⟩
    rw [if_pos hid, if_pos (length_pos_of_mem hhit), heq]
    exact ⟨rfl, repo, rev, br, hrp, (requested_append id).mpr (.inr ⟨hid.symm, hrev⟩), hfi, rfl⟩
  · intro id rev
    rw [requested_append, h.all, mem_unindexedRevsOf_append, hre,
      ← (hits_append_misses repo.branches reporev.revs).mem_iff, mem_append]
    by_cases hid : id = reporev.repo.id
    · subst hid
      rw [IndexedRepoRevs.revsOf, hnone]
      simp only [Option.map_none, Option.getD_none, not_mem_nil, false_or, true_and]
      exact or_left_comm
    rw [if_neg hid]
    simp [Ne.symm hid]

theorem indexedRepos_splits {rest : List RepositoryRevisions}
    (h : Splits indexedSet revs rb unindexed) :
    Splits indexedSet (revs ++ rest) (indexedRepos indexedSet filter rb rest).1
      (unindexed ++ (indexedRepos indexedSet filter rb rest).2) := by
  induction rest generalizing revs rb unindexed with
  | nil =>
    rw [append_nil, indexedRepos, append_nil]
    exact h
  | cons reporev rest ih =>
    rw [indexedRepos, append_cons]
    cases hrp : (indexedSet reporev.repo.id.toUInt32).filter fun repo => filter.all (· repo) with
    | none =>
      rw [append_cons unindexed]
      exact ih h.leave
    | some repo =>
      have hadd := h.add (Option.filter_eq_some_iff.mp hrp).1
      simp only
      by_cases hlen : (rb.add reporev repo).2.length > 0
      · rw [if_pos hlen, append_cons unindexed]
        exact ih hadd
      rw [if_neg hlen]
      have hemp : (rb.add reporev repo).2 = [] := eq_nil_of_length_eq_zero (by omega)
      refine ih ⟨hadd.indexed, hadd.searched,
        (forall_mem_append.mp hadd.origin).1, fun id rev => ?_⟩
      rw [hadd.all, mem_unindexedRevsOf_append, hemp]
      simp

theorem zoektIndexedRepos_splits (revs : List RepositoryRevisions) :
    Splits indexedSet revs (zoektIndexedRepos indexedSet revs filter).1
      (zoektIndexedRepos indexedSet revs filter).2 := by
  have hst : Splits indexedSet [] {} [] := by
    refine ⟨?_, ?_, ?_, ?_⟩ <;>
      simp [IndexedRepoRevs.revsOf, IndexedRepoRevs.reposOf, Requested, unindexedRevsOf]
  have hrun := @indexedRepos_splits indexedSet filter [] [] {} revs hst
  rwa [nil_append] at hrun

/-- A revision of a repository that is listed once is left over only if it has no branch. -/
theorem unindexed_no_branch (hdis : (revs.map fun reporev => reporev.repo.id).Nodup)
    {id : RepoID} (hrev : Requested (zoektIndexedRepos indexedSet revs none).2 id rev)
    (hrp : indexedSet id.toUInt32 = some repo) : findBranch repo.branches rev = none := by
  rw [(@zoektIndexedRepos_spec indexedSet none revs hdis).2] at hrev
  obtain ⟨left, hl, rfl, hrev⟩ := hrev
  obtain ⟨reporev, -, hleft⟩ := mem_filterMap.mp hl
  unfold leftover listed at hleft
  split at hleft
  · rename_i hnone
    cases hleft
    rw [hrp] at hnone
    cases hnone
  · rename_i repo' hsome
    obtain ⟨-, hleft⟩ := Option.ite_none_right_eq_some.mp hleft
    cases hleft
    rw [hrp] at hsome
    cases hsome
    simpa using (mem_filter.mp hrev).2

end Splits

/-- The revisions are covered if no revision that names a branch abbreviates the version of an
earlier one, and those traced from the files are those mapped to their branches. -/
theorem revisions_covered_iff (indexedSet : UInt32 → Option MinimalRepoListEntry)
    (filter : Option (MinimalRepoListEntry → Bool)) (revs : List RepositoryRevisions)
    (files : List FileMatch) (hdistinct : (revs.map fun reporev => reporev.repo.id).Nodup)
    (hfiles : ∀ file ∈ files, Returned (zoektIndexedRepos indexedSet revs filter).1 file) :
    Covered indexedSet filter revs files (zoektIndexedRepos indexedSet revs filter) ↔
      (∀ reporev ∈ revs, ∀ repo ∈ listed indexedSet filter reporev, ∀ rev ∈ reporev.revs,
        Foremost repo.branches (explicit rev)) ∧
      ∀ file ∈ files, ∀ reporev ∈ revs, reporev.repo.id.toUInt32 = file.repositoryID →
        ∀ repo ∈ listed indexedSet filter reporev, ∀ rev ∈ reporev.revs, ∀ branch,
          findBranch repo.branches rev = some branch →
            (branch.name ∈ file.branches ↔ tracesTo file rev = true) := by
  obtain ⟨hixg, -⟩ := @zoektIndexedRepos_spec indexedSet filter revs hdistinct
  constructor
  · intro h
    refine ⟨fun reporev hmem repo hrp rev hrev => ?_, fun file hfi reporev hmem hid repo hrp => ?_⟩
    · by_cases hnm : explicit rev ∈ repo.branches.map RepositoryBranch.name
      · obtain ⟨branch, hse, hna⟩ := h.named reporev hmem repo hrp rev hrev hnm
        exact (foremost_iff hnm).mp ⟨branch, hse.mapped, hna⟩
      · exact foremost_of_not_named hnm
    · exact (inverse_iff hdistinct hixg (hfiles file hfi) hmem hid hrp).mp
        (h.inverse file hfi reporev hmem hid repo hrp)
  · rintro ⟨hfor, htra⟩
    refine ⟨fun reporev hmem => split_once hdistinct hmem rfl, ?_, ?_, ?_⟩
    · intro reporev hmem repo hrp rev hrev hnm
      obtain ⟨branch, hfin, hna⟩ :=
        (foremost_iff hnm).mpr (hfor reporev hmem repo hrp rev hrev)
      exact ⟨branch, hixg.searchedOn hmem hrp hrev hfin, hna⟩
    · rintro reporev hmem repo hrp rev hrev hnm ⟨branch, hbr, habb⟩
      have hexp := abbreviates_explicit habb
      obtain ⟨first, hfin⟩ := @findBranch_isSome repo.branches rev branch hbr
        (.inr (by rwa [hexp]))
      refine ⟨first, hixg.searchedOn hmem hrp hrev hfin, ?_⟩
      obtain ⟨hf, hna | hver⟩ := findBranch_some hfin
      · exact absurd (hna ▸ mem_map_of_mem hf) hnm
      · rwa [hexp] at hver
    · intro file hfi reporev hmem hid repo hrp
      exact (inverse_iff hdistinct hixg (hfiles file hfi) hmem hid hrp).mpr
        (htra file hfi reporev hmem hid repo hrp)

/-- A revision that names the second branch is mapped to the first, whose version it abbreviates. A
file of both carries the first version only, and the revision of the other is lost. -/
theorem revisions_misplaced : let repo : MinimalRepo := ⟨1, "repo", 0⟩
    let index (branches : List RepositoryBranch) : UInt32 → Option MinimalRepoListEntry :=
      fun id => if id = 1 then some ⟨false, branches⟩ else none
    let named := [⟨"HEAD", "beef1111"⟩, ⟨"beef", "cafe2222"⟩]
    let revs := [⟨repo, ["", "cafe"]⟩]
    let both : FileMatch := ⟨1, "repo", "beef1111", ["HEAD", "main"]⟩
    let branches := [⟨"HEAD", "beef1111"⟩, ⟨"main", "cafe2222"⟩]
    (zoektIndexedRepos (index named) [⟨repo, ["beef"]⟩] none).1.branchRepos = [("HEAD", [1])] ∧
      (zoektIndexedRepos (index branches) revs none).1.branchRepos =
        [("HEAD", [1]), ("main", [1])] ∧
      ((zoektIndexedRepos (index branches) revs none).1.getRepoInputRev both).2 = [""] ∧
      ¬ Covered (index named) none [⟨repo, ["beef"]⟩] []
        (zoektIndexedRepos (index named) [⟨repo, ["beef"]⟩] none) := by
  intro repo index named revs both branches
  refine ⟨by decide +kernel, by decide +kernel, by decide +kernel, fun h => ?_⟩
  obtain ⟨br, hse, hnm⟩ := h.named ⟨repo, ["beef"]⟩ (by simp) ⟨false, named⟩ rfl "beef"
    (by simp) (by decide +kernel)
  have hfi : findBranch named "beef" = some ⟨"HEAD", "beef1111"⟩ := by decide +kernel
  have hf := Option.some.inj (hfi.symm.trans hse.mapped)
  rw [← hf] at hnm
  exact absurd hnm (by decide +kernel)

theorem revisions_covered_two : let repo : MinimalRepo := ⟨1, "repo", 0⟩
    let index : UInt32 → Option MinimalRepoListEntry := fun id =>
      if id = 1 then some ⟨false, [⟨"HEAD", "beef1111"⟩, ⟨"main", "cafe2222"⟩]⟩ else none
    let revs := [⟨repo, ["", "cafe", "dead"]⟩]
    let file : FileMatch := ⟨1, "repo", "cafe2222", ["main"]⟩
    Covered index none revs [file] (zoektIndexedRepos index revs none) := by
  intro repo index revs file
  refine (revisions_covered_iff index none revs [file] (by decide) ?_).mpr ⟨?_, ?_⟩
  · refine forall_mem_singleton.mpr ⟨⟨"main", by simp [file], ?_⟩, by decide⟩
    decide
  · refine forall_mem_singleton.mpr fun en hent => ?_
    obtain rfl : _ = en := Option.some.inj hent
    simp only [forall_mem_cons]
    refine ⟨?_, ?_, ?_, by simp⟩
    · exact (foremost_iff (by decide +kernel)).mp
        ⟨⟨"HEAD", "beef1111"⟩, by decide +kernel, by decide +kernel⟩
    · exact foremost_of_not_named (by decide +kernel)
    · exact foremost_of_not_named (by decide +kernel)
  · refine forall_mem_singleton.mpr (forall_mem_singleton.mpr fun _ en hent => ?_)
    obtain rfl : _ = en := Option.some.inj hent
    have hall : ∀ rev ∈ ["", "cafe", "dead"],
        ∀ br ∈ findBranch [⟨"HEAD", "beef1111"⟩, ⟨"main", "cafe2222"⟩] rev,
          (br.name ∈ file.branches ↔ tracesTo file rev = true) := by decide +kernel
    exact hall

end IndexedRevisions
