import Sourcegraph.IndexedRevisions

/-! # Repositories with files

The predicates `repo:has.file` and `repo:has.content` keep the revisions that have, or do not have,
a file with a path and a content. Indexed revisions are filtered by the branches that the index
lists, the other ones by a search for a single file. -/
namespace RepoFileContent

open GoStrings QueryValidate OobInterrupts RepoAssociation IndexedRevisions List

structure RepoHasFileContentArgs where
  path : String
  content : String
  negated : Bool
  deriving DecidableEq

structure File where
  path : String
  content : String
  deriving DecidableEq

structure RegexpQuery where
  regexp : String
  fileName : Bool
  caseSensitive : Bool
  deriving DecidableEq

/-- A query for repositories. A file has to match all queries of `typeRepo`. -/
inductive RepoQuery where
  | typeRepo (child : List RegexpQuery)
  | not (child : RepoQuery)
  deriving DecidableEq

/-- The fields of `search.TextPatternInfo` that the predicates set or rely on. -/
structure TextPatternInfo where
  pattern : String
  isNegated : Bool := false
  isRegExp : Bool := false
  isCaseSensitive : Bool := false
  fileMatchLimit : ℤ := 0
  includePatterns : List String := []
  pathPatternsAreCaseSensitive : Bool := false
  patternMatchesContent : Bool := false
  patternMatchesPath : Bool := false
  deriving DecidableEq

/-- The entries of the map `Minimal`, each with the names of the listed branches. -/
structure RepoList where
  crashes : ℤ
  minimal : List (UInt32 × List String)
  deriving DecidableEq

inductive ListError where
  | unavailable
  | contextDone (message : String)
  deriving DecidableEq

inductive ResolveError where
  | deadlineExceeded (message : String)
  | badCommit (message : String)
  | revisionNotFound
  | other
  deriving DecidableEq

structure Services where
  /-- Whether a text is matched, if case matters or not. -/
  regexp : (caseSensitive : Bool) → (pattern text : String) → Bool
  /-- `syntax.Parse` accepts a pattern. -/
  parses : String → Bool
  /-- The index lists all repositories. -/
  listAll : Except ListError (UInt32 → Option MinimalRepoListEntry)
  /-- The index lists the repositories of some branches that match a query. -/
  list : List (String × List UInt32) → RepoQuery → Except String RepoList
  resolveRevision : (name rev : String) → Except ResolveError String
  /-- The paths of the files that the searcher finds at a commit. -/
  search : MinimalRepo → (commitID : String) → TextPatternInfo → Except String (List String)

structure RepoOptions where
  hasFileContent : List RepoHasFileContentArgs
  useIndex : YesNoOnly
  caseSensitiveRepoFilters : Bool

section Filter

variable (rt : Runtime) (S : Services) (op : RepoOptions)

/-- `PartitionRepos` for a text request without ref globs. -/
def partitionRepos (repos : List RepositoryRevisions) :
    Except Fault (IndexedRepoRevs × List RepositoryRevisions) :=
  if op.useIndex = .no then .ok ({}, repos)
  else match S.listAll with
    | .error .unavailable =>
      if op.useIndex = .only then
        .error (.error "index:only failed since indexed search is not available yet")
      else .ok ({}, repos)
    | .error (.contextDone message) => .error (.error message)
    | .ok indexedSet =>
      let (indexed, unindexed) := zoektIndexedRepos indexedSet repos none
      .ok (indexed, if op.useIndex = .only then [] else unindexed)

def parseRegexp (pattern : String) (fileName caseSensitive : Bool) :
    Except Fault (List RegexpQuery) :=
  if pattern = "" then .ok []
  else if S.parses pattern then .ok [⟨pattern, fileName, caseSensitive⟩]
  else .error (.panic "error parsing regexp")

def queryForFileContentArgs (opt : RepoHasFileContentArgs) (caseSensitive : Bool) :
    Except Fault RepoQuery := do
  let path ← parseRegexp S opt.path true caseSensitive
  let content ← parseRegexp S opt.content false caseSensitive
  let q := RepoQuery.typeRepo (path ++ content)
  .ok (if opt.negated then .not q else q)

def spells (branch inputRev : String) : Bool :=
  branch = inputRev || (branch = "HEAD" && inputRev = "")

/-- The loop over the listed repositories. A repository that was not asked for has no entry. -/
def foundRevs (indexed : IndexedRepoRevs) :
    List (UInt32 × List String) → Except Fault (List (RepoID × String))
  | [] => .ok []
  | (repoID, branches) :: rest =>
    match indexed.repoRevs.lookup (Int32.ofUInt32 repoID) with
    | none => .error (.panic "invalid memory address or nil pointer dereference")
    | some repoRev => (foundRevs indexed rest).map fun found =>
      branches.flatMap (fun branch =>
        (repoRev.revs.filter (spells branch)).map fun rev => (Int32.ofUInt32 repoID, rev)) ++ found

/-- The loop over the predicates, with the revisions that match those before, if any. -/
def searchIndexed (indexed : IndexedRepoRevs) :
    Option (List (RepoID × String)) → ℤ → List RepoHasFileContentArgs →
      Except Fault (List (RepoID × String) × ℤ)
  | revs, backendsMissing, [] => .ok (revs.getD [], backendsMissing)
  | revs, backendsMissing, opt :: rest => do
    let q ← queryForFileContentArgs S opt op.caseSensitiveRepoFilters
    let repos ← (S.list indexed.branchRepos q).mapError Fault.error
    let found ← foundRevs indexed repos.minimal
    let matching := match revs with
      | none => found.dedup
      | some revs => revs.filter (· ∈ found)
    searchIndexed indexed (some matching) (backendsMissing + repos.crashes) rest

def patternInfoOf (args : RepoHasFileContentArgs) : TextPatternInfo where
  pattern := args.content
  isNegated := args.negated
  isRegExp := true
  isCaseSensitive := false
  fileMatchLimit := 1
  patternMatchesContent := true
  includePatterns := if args.path ≠ "" then [args.path] else []
  patternMatchesPath := args.path ≠ ""

def repoHasFileContentAtCommit (repo : MinimalRepo) (commitID : String)
    (args : RepoHasFileContentArgs) : Except Fault Bool :=
  ((S.search repo commitID (patternInfoOf args)).map fun paths => !paths.isEmpty).mapError
    Fault.error

/-- Whether the searcher finds a file, and the revision if it is missing. -/
def checkHasMatches (arg : RepoHasFileContentArgs) (repo : MinimalRepo) (rev : String) :
    Except Fault (Bool × List RepoRevSpecs) :=
  match S.resolveRevision repo.name rev with
  | .ok commitID => (repoHasFileContentAtCommit S repo commitID arg).map fun found => (found, [])
  | .error (.deadlineExceeded message) => .error (.error message)
  | .error (.badCommit message) => .error (.error message)
  | .error .revisionNotFound =>
    if rev = "HEAD" ∨ rev = "" then .ok (false, [])
    else .ok (false, [⟨repo, [{ revSpec := rev }]⟩])
  | .error .other => .ok (false, [⟨repo, [{ revSpec := rev }]⟩])

def checkAll (repo : MinimalRepo) (rev : String) :
    List RepoHasFileContentArgs → Except Fault (Bool × List RepoRevSpecs)
  | [] => .ok (true, [])
  | arg :: rest => do
    let (hasMatches, missing) ← checkHasMatches S arg repo rev
    if (!arg.negated) != hasMatches then .ok (false, missing)
    else
      let (result, missing') ← checkAll repo rev rest
      .ok (result, missing ++ missing')

def searchUnindexed :
    List (MinimalRepo × String) → Except Fault (List (RepoID × String) × List RepoRevSpecs)
  | [] => .ok ([], [])
  | (repo, rev) :: rest => do
    let (result, missing) ← checkAll S repo rev op.hasFileContent
    let (revs, missing') ← searchUnindexed rest
    .ok (if result then (repo.id, rev) :: revs else revs, missing ++ missing')

def addRepoRev (repoRevs : List RepositoryRevisions) :
    List (RepoID × RepositoryRevisions) → RepoID × String → List (RepoID × RepositoryRevisions)
  | [], (id, rev) =>
    match repoRevs.reverse.find? fun repoRev => repoRev.repo.id = id with
    | none => []
    | some repoRev => [(id, ⟨repoRev.repo, [rev]⟩)]
  | (key, entry) :: rest, (id, rev) =>
    if key = id then (key, ⟨entry.repo, entry.revs ++ [rev]⟩) :: rest
    else (key, entry) :: addRepoRev repoRevs rest (id, rev)

/-- The kept and the missing revisions and the number of missing backends. The goroutines may add
their revisions in any order. -/
def filterRepoHasFileContent (repoRevs : List RepositoryRevisions) :
    Except Fault (List RepositoryRevisions × List RepoRevSpecs × ℤ) :=
  if op.hasFileContent = [] then .ok (repoRevs, [], 0)
  else do
    let (indexed, unindexed) ← partitionRepos S op repoRevs
    let (indexedRevs, backendsMissing) ← searchIndexed S op indexed none 0 op.hasFileContent
    let (unindexedRevs, missing) ← searchUnindexed S op
      (unindexed.flatMap fun repoRev => repoRev.revs.map fun rev => (repoRev.repo, rev))
    let filtered := (rt.iterate (indexedRevs ++ unindexedRevs)).foldl (addRepoRev repoRevs) []
    .ok (repoRevs.filterMap fun repoRev => filtered.lookup repoRev.repo.id,
      rt.iterate missing, backendsMissing)

end Filter

section Meaning

variable (S : Services)

def hasFile (caseSensitive : Bool) (args : RepoHasFileContentArgs) (f : File) : Bool :=
  (args.path = "" || S.regexp caseSensitive args.path f.path) &&
    (args.content = "" || S.regexp caseSensitive args.content f.content)

def satisfies (caseSensitive : Bool) (args : RepoHasFileContentArgs) (files : List File) : Bool :=
  files.any (hasFile S caseSensitive args) != args.negated

def RegexpQuery.matchesFile (q : RegexpQuery) (f : File) : Bool :=
  S.regexp q.caseSensitive q.regexp (if q.fileName then f.path else f.content)

def RepoQuery.holds (files : List File) : RepoQuery → Bool
  | .typeRepo child => files.any fun f => child.all fun q => q.matchesFile S f
  | .not child => !RepoQuery.holds files child

def TextPatternInfo.includes (info : TextPatternInfo) (f : File) : Bool :=
  info.includePatterns.all fun p => S.regexp info.pathPatternsAreCaseSensitive p f.path

def TextPatternInfo.hits (info : TextPatternInfo) (f : File) : Bool :=
  info.pattern = "" ||
    (info.patternMatchesContent && S.regexp info.isCaseSensitive info.pattern f.content) ||
    (info.patternMatchesPath && S.regexp info.isCaseSensitive info.pattern f.path)

/-- The files that the searcher returns. With a negated pattern these are the included files that
do not match, and possibly others. -/
structure Searcher (returns : TextPatternInfo → File → Bool) : Prop where
  included : ∀ info f, info.includes S f = true → returns info f = (info.hits S f != info.isNegated)
  excluded : ∀ info f, info.includes S f = false → info.isNegated = false → returns info f = false

/-- What is assumed of the services, for the files of each branch of the index, of each commit and
of each revision. -/
structure Exact (returns : TextPatternInfo → File → Bool)
    (branchFiles : UInt32 → String → List File)
    (commitFiles : MinimalRepo → String → List File) (filesAt : RepoID → String → List File)
    (op : RepoOptions) (repoRevs : List RepositoryRevisions) : Prop where
  parses : ∀ args ∈ op.hasFileContent, ∀ pattern ∈ [args.path, args.content],
    pattern ≠ "" → S.parses pattern = true
  available : op.useIndex ≠ .no → ∃ indexedSet, S.listAll = .ok indexedSet
  list : ∀ branches q, ∃ repos, S.list branches q = .ok repos ∧
    (∀ entry ∈ repos.minimal, entry.2 ≠ []) ∧ ∀ id name,
      (∃ entry ∈ repos.minimal, entry.1 = id ∧ name ∈ entry.2) ↔
        id ∈ (branches.lookup name).getD [] ∧ q.holds S (branchFiles id name) = true
  named : ∀ indexedSet, S.listAll = .ok indexedSet → ∀ id, ∀ repo ∈ indexedSet id,
    ∀ branch ∈ repo.branches, branch.name ≠ ""
  search : ∀ repo commit info, ∃ paths, S.search repo commit info = .ok paths ∧
    (paths ≠ [] ↔ ∃ f ∈ commitFiles repo commit, returns info f = true)
  searcher : Searcher S returns
  current : ∀ indexedSet, S.listAll = .ok indexedSet → ∀ (id : RepoID) rev repo branch,
    Requested repoRevs id rev → indexedSet id.toUInt32 = some repo →
    findBranch repo.branches rev = some branch →
    branchFiles id.toUInt32 branch.name = filesAt id rev
  resolves : ∀ repoRev ∈ repoRevs, ∀ rev ∈ repoRev.revs,
    (∃ commit, S.resolveRevision repoRev.repo.name rev = .ok commit ∧
      commitFiles repoRev.repo commit = filesAt repoRev.repo.id rev) ∨
    ((S.resolveRevision repoRev.repo.name rev = .error .revisionNotFound ∨
      S.resolveRevision repoRev.repo.name rev = .error .other) ∧ filesAt repoRev.repo.id rev = [])

end Meaning

variable {id : RepoID}

section Predicates

variable (S : Services)

theorem parseRegexp_ok (h : pat ≠ "" → S.parses pat = true) (fil cs : Bool) :
    ∃ que, parseRegexp S pat fil cs = .ok que ∧ ∀ f,
      (que.all fun q => q.matchesFile S f) =
        (pat = "" || S.regexp cs pat (if fil then f.path else f.content)) := by
  rw [parseRegexp]
  by_cases hemp : pat = ""
  · exact ⟨[], if_pos hemp, fun f => by rw [decide_eq_true hemp]; rfl⟩
  refine ⟨[⟨pat, fil, cs⟩], by rw [if_neg hemp, if_pos (h hemp)], ?_⟩
  intro f
  rw [decide_eq_false hemp, all_cons, all_nil, Bool.and_true]
  rfl

theorem query_holds (h : ∀ pat ∈ [opt.path, opt.content], pat ≠ "" → S.parses pat = true)
    (cs : Bool) :
    ∃ q, queryForFileContentArgs S opt cs = .ok q ∧ ∀ fs, q.holds S fs = satisfies S cs opt fs := by
  obtain ⟨path, hpt, hpat⟩ := parseRegexp_ok S (h opt.path (by simp)) true cs
  obtain ⟨cnt, hco, hcon⟩ :=
    parseRegexp_ok S (h opt.content (by simp)) false cs
  refine ⟨_, by rw [queryForFileContentArgs, hpt, hco]; rfl, fun fs => ?_⟩
  have hchi : RepoQuery.holds S fs (.typeRepo (path ++ cnt)) = fs.any (hasFile S cs opt) := by
    refine congrArg fs.any (funext fun f => ?_)
    rw [all_append, hpat, hcon]
    rfl
  rw [satisfies]
  cases opt.negated with
  | false =>
    rw [if_neg Bool.false_ne_true, hchi, Bool.bne_false]
  | true =>
    rw [if_pos rfl, RepoQuery.holds, hchi, Bool.bne_true]

def searcherSatisfies (returns : TextPatternInfo → File → Bool) (args : RepoHasFileContentArgs)
    (files : List File) : Bool :=
  files.any (returns (patternInfoOf args)) != args.negated

end Predicates

variable {indexed : IndexedRepoRevs}

def FoundBy (S : Services) (op : RepoOptions) (branchFiles : UInt32 → String → List File)
    (indexed : IndexedRepoRevs) (args : RepoHasFileContentArgs) (id : RepoID) (rev : String) :
    Prop :=
  ∃ name, spells name rev = true ∧ id.toUInt32 ∈ indexed.reposOf name ∧
    satisfies S op.caseSensitiveRepoFilters args (branchFiles id.toUInt32 name) = true

theorem foundRevs_ok (hkn : ∀ en ∈ mini,
      (indexed.repoRevs.lookup (Int32.ofUInt32 en.1)).isSome = true) :
    ∃ found, foundRevs indexed mini = .ok found ∧ ∀ id rev, (id, rev) ∈ found ↔
      rev ∈ indexed.revsOf id ∧ ∃ name, spells name rev = true ∧
        ∃ en ∈ mini, en.1 = id.toUInt32 ∧ name ∈ en.2 := by
  induction mini with
  | nil => exact ⟨[], rfl, by simp⟩
  | cons en rest ih =>
    obtain ⟨rep, brs⟩ := en
    obtain ⟨found, hfnd, hmem⟩ := ih (forall_mem_cons.mp hkn).2
    obtain ⟨rr, hlk⟩ := Option.isSome_iff_exists.mp (hkn (rep, brs) (by simp))
    refine ⟨_, by rw [foundRevs, hlk, hfnd]; rfl, fun id rev => ?_⟩
    rw [mem_append, hmem]
    simp only [exists_mem_cons_iff, and_or_left, exists_or]
    refine or_congr_left ?_
    simp only [mem_flatMap, mem_map, mem_filter, Prod.mk.injEq]
    constructor
    · rintro ⟨name, hnm, _, ⟨hrev, hspl⟩, rfl, rfl⟩
      refine ⟨?_, name, hspl, rfl, hnm⟩
      rw [IndexedRepoRevs.revsOf, hlk]
      exact hrev
    · rintro ⟨hrev, name, hspl, rfl, hnm⟩
      rw [IndexedRepoRevs.revsOf, hlk] at hrev
      exact ⟨name, hnm, rev, ⟨hrev, hspl⟩, rfl, rfl⟩

section Exactness

variable (h : Exact S returns branchFiles commitFiles filesAt op repoRevs)

include h

section Searched

variable (hsearched : ∀ (id : RepoID) name, id.toUInt32 ∈ indexed.reposOf name →
  (indexed.repoRevs.lookup id).isSome = true)

include hsearched

theorem found_predicate (hopt : opt ∈ op.hasFileContent) :
    ∃ q rps found, queryForFileContentArgs S opt op.caseSensitiveRepoFilters = .ok q ∧
      S.list indexed.branchRepos q = .ok rps ∧ foundRevs indexed rps.minimal = .ok found ∧
      ∀ id rev, (id, rev) ∈ found ↔ rev ∈ indexed.revsOf id ∧
        FoundBy S op branchFiles indexed opt id rev := by
  obtain ⟨q, hq, hh⟩ := query_holds S (h.parses opt hopt) op.caseSensitiveRepoFilters
  obtain ⟨rps, hrep, hne, hex⟩ := h.list indexed.branchRepos q
  have hkn : ∀ en ∈ rps.minimal, (indexed.repoRevs.lookup (Int32.ofUInt32 en.1)).isSome = true := by
    intro en hent
    obtain ⟨name, hnm⟩ := exists_mem_of_ne_nil en.2 (hne en hent)
    exact hsearched (Int32.ofUInt32 en.1) name ((hex en.1 name).mp ⟨en, hent, rfl, hnm⟩).1
  obtain ⟨found, hfnd, hmem⟩ := foundRevs_ok hkn
  refine ⟨q, rps, found, hq, hrep, hfnd, fun id rev => ?_⟩
  rw [hmem]
  refine and_congr_right fun _ => exists_congr fun name => and_congr_right fun _ => ?_
  rw [hex, hh]
  rfl

theorem searchIndexed_ok (revs : Option (List (RepoID × String))) (bm : ℤ)
    (hop : ∀ opt ∈ opts, opt ∈ op.hasFileContent) (hne : revs = none → opts ≠ []) :
    ∃ res n, searchIndexed S op indexed revs bm opts = .ok (res, n) ∧
      ∀ id rev, (id, rev) ∈ res ↔ (∀ l ∈ revs, (id, rev) ∈ l) ∧ ∀ opt ∈ opts,
        rev ∈ indexed.revsOf id ∧ FoundBy S op branchFiles indexed opt id rev := by
  induction opts generalizing revs bm with
  | nil =>
    obtain ⟨l, rfl⟩ := Option.ne_none_iff_exists'.mp fun hno => hne hno rfl
    exact ⟨l, bm, rfl, by simp⟩
  | cons opt rest ih =>
    obtain ⟨q, rps, found, hq, hrep, hfnd, hmem⟩ :=
      found_predicate h hsearched (hop opt (by simp))
    obtain ⟨res, n, hrun, hres⟩ := ih (some (revs.elim found.dedup (·.filter (· ∈ found))))
      (bm + rps.crashes) (forall_mem_cons.mp hop).2 (by simp)
    refine ⟨res, n, ?_, fun id rev => ?_⟩
    · rw [searchIndexed, hq]
      simp only [bind, Except.bind, hrep, Except.mapError, hfnd]
      cases revs <;> exact hrun
    · rw [hres, forall_mem_cons, ← hmem, ← and_assoc]
      cases revs <;> simp

end Searched

theorem checkHasMatches_ok (hmem : rr ∈ repoRevs) (hrev : rev ∈ rr.revs)
    (arg : RepoHasFileContentArgs) :
    ∃ mis, checkHasMatches S arg rr.repo rev =
      .ok ((filesAt rr.repo.id rev).any (returns (patternInfoOf arg)), mis) := by
  rw [checkHasMatches]
  rcases h.resolves rr hmem rev hrev with ⟨com, hcom, hfs⟩ | ⟨herr, hno⟩
  · obtain ⟨pths, hpat, hfnd⟩ := h.search rr.repo com (patternInfoOf arg)
    refine ⟨[], ?_⟩
    rw [hcom]
    simp only [repoHasFileContentAtCommit, hpat]
    rw [hfs] at hfnd
    have hany : (!pths.isEmpty) = (filesAt rr.repo.id rev).any (returns (patternInfoOf arg)) := by
      rw [Bool.eq_iff_iff, any_eq_true, ← hfnd, Bool.not_eq_true', isEmpty_eq_false_iff]
    rw [← hany]
    rfl
  · rw [hno]
    rcases herr with herr | herr
    · rw [herr]
      simp only
      split
      · exact ⟨[], rfl⟩
      · exact ⟨_, rfl⟩
    rw [herr]
    exact ⟨_, rfl⟩

theorem checkAll_ok (hmem : rr ∈ repoRevs) (hrev : rev ∈ rr.revs)
    (args : List RepoHasFileContentArgs) :
    ∃ mis, checkAll S rr.repo rev args =
      .ok (args.all fun arg => searcherSatisfies returns arg (filesAt rr.repo.id rev), mis) := by
  induction args with
  | nil => exact ⟨[], rfl⟩
  | cons arg rest ih =>
    obtain ⟨mis, hche⟩ := checkHasMatches_ok h hmem hrev arg
    obtain ⟨mis', hrs⟩ := ih
    rw [checkAll, hche]
    simp only [bind, Except.bind, all_cons, searcherSatisfies]
    rw [hrs]
    generalize (filesAt rr.repo.id rev).any (returns (patternInfoOf arg)) = found
    cases found <;> cases arg.negated
    all_goals exact ⟨_, rfl⟩

theorem searchUnindexed_ok
    (hprs : ∀ pair ∈ pai, ∃ rr ∈ repoRevs, rr.repo = pair.1 ∧ pair.2 ∈ rr.revs) :
    ∃ revs mis, searchUnindexed S op pai = .ok (revs, mis) ∧
      ∀ id rev, (id, rev) ∈ revs ↔ (∃ pair ∈ pai, pair.1.id = id ∧ pair.2 = rev) ∧
        ∀ arg ∈ op.hasFileContent, searcherSatisfies returns arg (filesAt id rev) = true := by
  induction pai with
  | nil => exact ⟨[], [], rfl, by simp⟩
  | cons pair rest ih =>
    obtain ⟨repo, rev₀⟩ := pair
    obtain ⟨rr, hmem, rfl, hrev⟩ := hprs (repo, rev₀) (by simp)
    obtain ⟨mis, hche⟩ := checkAll_ok h hmem hrev op.hasFileContent
    obtain ⟨revs, mis', hrun, hre⟩ := ih (forall_mem_cons.mp hprs).2
    refine ⟨if (op.hasFileContent.all fun arg =>
        searcherSatisfies returns arg (filesAt rr.repo.id rev₀)) = true then
        (rr.repo.id, rev₀) :: revs else revs, mis ++ mis', ?_, fun id rev => ?_⟩
    · rw [searchUnindexed, hche]
      simp only [bind, Except.bind]
      rw [hrun]
    · have hadd : ∀ all : Bool, (id, rev) ∈
          (if all = true then (rr.repo.id, rev₀) :: revs else revs) ↔
            (rr.repo.id = id ∧ rev₀ = rev) ∧ all = true ∨ (id, rev) ∈ revs := by
        intro all
        cases all <;> simp [eq_comm]
      rw [hadd, hre, exists_mem_cons_iff, or_and_right]
      refine or_congr_left (and_congr_right ?_)
      rintro ⟨rfl, rfl⟩
      exact all_eq_true

end Exactness

structure Collected (added : List (RepoID × String))
    (filtered : List (RepoID × RepositoryRevisions)) : Prop where
  repo : ∀ id entry, filtered.lookup id = some entry → entry.repo.id = id
  revs : ∀ id rev, (∃ entry, filtered.lookup id = some entry ∧ rev ∈ entry.revs) ↔ (id, rev) ∈ added

theorem addRepoRev_eq_update (hfi : repoRevs.reverse.find? (fun rr => rr.repo.id = id) = some rr) :
    addRepoRev repoRevs fil (id, rev) = MapEntries.update id (fun en =>
      ⟨(en.getD rr).repo, (en.elim [] RepositoryRevisions.revs) ++ [rev]⟩) fil := by
  induction fil with
  | nil => simp [addRepoRev, MapEntries.update, hfi]
  | cons first rest ih => simp [addRepoRev, MapEntries.update, ih]

theorem Collected.add (h : Collected added fil)
    (hid : ∃ rr ∈ repoRevs, rr.repo.id = id) (rev : String) :
    Collected (added ++ [(id, rev)]) (addRepoRev repoRevs fil (id, rev)) := by
  obtain ⟨rr, hfi⟩ : ∃ rr, repoRevs.reverse.find? (fun rr => rr.repo.id = id) = some rr := by
    rw [← Option.isSome_iff_exists, find?_isSome]
    obtain ⟨rr, hmem, heq⟩ := hid
    exact ⟨rr, mem_reverse.mpr hmem, decide_eq_true heq⟩
  have hfnd : rr.repo.id = id := by simpa using find?_some hfi
  rw [addRepoRev_eq_update hfi]
  refine ⟨fun other en hoth => ?_, fun other rev' => ?_⟩
  · rw [MapEntries.lookup_update] at hoth
    split at hoth
    · rename_i heq
      rw [← Option.some.inj hoth, heq]
      cases hlk : fil.lookup id with
      | none => exact hfnd
      | some en' => exact h.repo id en' hlk
    · exact h.repo other en hoth
  · rw [MapEntries.lookup_update, mem_append, ← h.revs]
    by_cases heq : other = id
    · subst heq
      cases hlk : fil.lookup other with
      | none | some en' => simp
    · simp [heq]

theorem collected {added : List (RepoID × String)}
    (hadd : ∀ pair ∈ added, ∃ rr ∈ repoRevs, rr.repo.id = pair.1) :
    Collected added (added.foldl (addRepoRev repoRevs) []) := by
  induction added using reverseRecOn with
  | nil => exact ⟨by simp, by simp⟩
  | append_singleton rest pair ih =>
    obtain ⟨hrs, hpa⟩ := forall_mem_append.mp hadd
    rw [foldl_append]
    exact (ih hrs).add (hpa pair (mem_singleton_self pair)) pair.2

/-- The filter keeps the requested revisions for which all predicates hold. -/
def FiltersExactly (S : Services) (op : RepoOptions) (filesAt : RepoID → String → List File)
    (repoRevs : List RepositoryRevisions) :
    Except Fault (List RepositoryRevisions × List RepoRevSpecs × ℤ) → Prop
  | .error _ => False
  | .ok (result, _) => ∀ id rev, Requested result id rev ↔ Requested repoRevs id rev ∧
      ∀ args ∈ op.hasFileContent,
        satisfies S op.caseSensitiveRepoFilters args (filesAt id rev) = true

/-- The branch that a revision is mapped to, if its repository is indexed. -/
def branchOf (S : Services) (op : RepoOptions) (id : RepoID) (rev : String) :
    Option RepositoryBranch :=
  if op.useIndex = .no then none
  else match S.listAll with
    | .error _ => none
    | .ok indexedSet => (indexedSet id.toUInt32).bind fun repo => findBranch repo.branches rev

structure Parts (S : Services) (op : RepoOptions) (repoRevs : List RepositoryRevisions)
    (indexed : IndexedRepoRevs) (unindexed : List RepositoryRevisions) : Prop where
  searched : ∀ (id : RepoID) name, id.toUInt32 ∈ indexed.reposOf name →
    (indexed.repoRevs.lookup id).isSome = true ∧ ∃ rev branch, Requested repoRevs id rev ∧
      branchOf S op id rev = some branch ∧ branch.name = name
  found : ∀ id rev, rev ∈ indexed.revsOf id → ∃ branch, branchOf S op id rev = some branch ∧
    id.toUInt32 ∈ indexed.reposOf branch.name
  origin : ∀ left ∈ unindexed, ∃ repoRev ∈ repoRevs,
    repoRev.repo = left.repo ∧ ∀ rev ∈ left.revs, rev ∈ repoRev.revs
  requested : ∀ id rev, rev ∈ indexed.revsOf id ∨ Requested unindexed id rev →
    Requested repoRevs id rev
  all : op.useIndex ≠ .only → ∀ id rev, Requested repoRevs id rev →
    rev ∈ indexed.revsOf id ∨ Requested unindexed id rev
  only : op.useIndex = .only → unindexed = []
  mapped : (repoRevs.map fun repoRev => repoRev.repo.id).Nodup → ∀ id rev,
    Requested repoRevs id rev →
      ((branchOf S op id rev).isSome = true → rev ∈ indexed.revsOf id) ∧
      (Requested unindexed id rev → branchOf S op id rev = none)

theorem mem_unindexedRevsOf : rev ∈ unindexedRevsOf unx id ↔ Requested unx id rev := by
  rw [unindexedRevsOf, mem_flatMap]
  refine exists_congr fun rep => ?_
  rw [mem_filter, decide_eq_true_eq, and_assoc]

theorem branchOf_eq {indexedSet : UInt32 → Option MinimalRepoListEntry}
    (hno : op.useIndex ≠ .no) (hset : S.listAll = .ok indexedSet) (id : RepoID) (rev : String) :
    branchOf S op id rev =
      (indexedSet id.toUInt32).bind fun repo => findBranch repo.branches rev := by
  rw [branchOf, if_neg hno, hset]

theorem partitionRepos_ok (h : Exact S returns branchFiles commitFiles filesAt op repoRevs) :
    ∃ indexed unx, partitionRepos S op repoRevs = .ok (indexed, unx) ∧
      Parts S op repoRevs indexed unx := by
  rw [partitionRepos]
  by_cases hno : op.useIndex = .no
  · have hnone : ∀ id rev, branchOf S op id rev = none := fun id rev => if_pos hno
    refine ⟨{}, repoRevs, if_pos hno, ?_, ?_, fun left hl => ⟨left, hl, rfl, fun _ hrev => hrev⟩,
      ?_, fun _ id rev hrev => .inr hrev, ?_, ?_⟩
    · simp [IndexedRepoRevs.reposOf]
    · simp [IndexedRepoRevs.revsOf]
    · rintro id rev (hrev | hrev)
      · simp [IndexedRepoRevs.revsOf] at hrev
      · exact hrev
    · simp [hno]
    · simp [hnone]
  · obtain ⟨iset, hset⟩ := h.available hno
    rw [if_neg hno, hset]
    have hspl := @zoektIndexedRepos_splits iset none repoRevs
    have hall := hspl.all
    simp only [mem_unindexedRevsOf] at hall
    have hbr := @branchOf_eq S op iset hno hset
    refine ⟨_, _, rfl, ?_, ?_, ?_, ?_, ?_, fun hon => if_pos hon, ?_⟩
    · intro id name hin
      obtain ⟨hso, repo, rev, br, hrp, hrev, hfi, hnm⟩ := hspl.searched id name hin
      exact ⟨hso, rev, br, hrev, by rw [hbr, hrp]; exact hfi, hnm⟩
    · intro id rev hrev
      obtain ⟨repo, br, hrp, hfi, hin⟩ := hspl.indexed id rev hrev
      exact ⟨br, by rw [hbr, hrp]; exact hfi, hin⟩
    · intro left hl
      split at hl
      · cases hl
      · exact hspl.origin left hl
    · rintro id rev (hrev | hrev)
      · exact (hall id rev).mpr (.inl hrev)
      · split at hrev
        · simp [Requested] at hrev
        · exact (hall id rev).mpr (.inr hrev)
    · intro hon id rev hrev
      rw [if_neg hon]
      exact (hall id rev).mp hrev
    · intro hone id rev hrev
      have hleft : Requested (zoektIndexedRepos iset repoRevs none).2 id rev →
          branchOf S op id rev = none := by
        intro hun
        rw [hbr]
        cases hrp : iset id.toUInt32 with
        | none => rfl
        | some repo => exact unindexed_no_branch hone hun hrp
      refine ⟨fun hso => ((hall id rev).mp hrev).resolve_right fun hun => ?_, fun hun => ?_⟩
      · rw [hleft hun] at hso
        cases hso
      · split at hun
        · simp [Requested] at hun
        · exact hleft hun

def Keeps (S : Services) (op : RepoOptions) (returns : TextPatternInfo → File → Bool)
    (branchFiles : UInt32 → String → List File)
    (filesAt : RepoID → String → List File) (indexed : IndexedRepoRevs)
    (unindexed : List RepositoryRevisions) (id : RepoID) (rev : String) : Prop :=
  (rev ∈ indexed.revsOf id ∧
    ∀ args ∈ op.hasFileContent, FoundBy S op branchFiles indexed args id rev) ∨
  (Requested unindexed id rev ∧
    ∀ args ∈ op.hasFileContent, searcherSatisfies returns args (filesAt id rev) = true)

theorem Parts.keeps_requested (h : Parts S op repoRevs indexed unx)
    (hkee : Keeps S op returns branchFiles filesAt indexed unx id rev) :
    Requested repoRevs id rev := h.requested id rev (hkee.imp And.left And.left)

theorem filter_keeps (hne : op.hasFileContent ≠ [])
    (h : Exact S returns branchFiles commitFiles filesAt op repoRevs)
    (hrun : partitionRepos S op repoRevs = .ok (indexed, unx))
    (hpts : Parts S op repoRevs indexed unx) :
    ∃ res rest, filterRepoHasFileContent rt S op repoRevs = .ok (res, rest) ∧
      ∀ id rev, Requested res id rev ↔
        Keeps S op returns branchFiles filesAt indexed unx id rev := by
  obtain ⟨inde, n, hixd, hind⟩ := searchIndexed_ok h
    (fun id name hin => (hpts.searched id name hin).1) none 0 (fun _ hopt => hopt) fun _ => hne
  have hprs : ∀ pair ∈ unx.flatMap fun rr => rr.revs.map fun rev =>
      (rr.repo, rev), ∃ rr ∈ repoRevs, rr.repo = pair.1 ∧ pair.2 ∈ rr.revs := by
    intro pair hpa
    obtain ⟨left, hl, hin⟩ := mem_flatMap.mp hpa
    obtain ⟨rev, hrev, rfl⟩ := mem_map.mp hin
    obtain ⟨rr, hmem, hrp, hsub⟩ := hpts.origin left hl
    exact ⟨rr, hmem, hrp, hsub rev hrev⟩
  obtain ⟨uni, mis, hun, huni⟩ := searchUnindexed_ok h hprs
  have hadd : ∀ id rev, (id, rev) ∈ rt.iterate (inde ++ uni) ↔
      Keeps S op returns branchFiles filesAt indexed unx id rev := by
    intro id rev
    obtain ⟨opt, hopt⟩ := exists_mem_of_ne_nil _ hne
    rw [(rt.iterate_perm _).mem_iff, mem_append, hind, huni]
    refine or_congr ⟨fun hin => ⟨(hin.2 opt hopt).1, fun arg har => (hin.2 arg har).2⟩,
      fun hin => ⟨by simp, fun arg har => ⟨hin.1, hin.2 arg har⟩⟩⟩ (and_congr_left fun _ => ?_)
    constructor
    · rintro ⟨pair, hpa, rfl, rfl⟩
      obtain ⟨left, hl, hin⟩ := mem_flatMap.mp hpa
      obtain ⟨rev, hrev, rfl⟩ := mem_map.mp hin
      exact ⟨left, hl, rfl, hrev⟩
    · rintro ⟨left, hl, hid, hrev⟩
      exact ⟨(left.repo, rev), mem_flatMap.mpr ⟨left, hl, mem_map_of_mem hrev⟩, hid,
        rfl⟩
  have hcol := @collected repoRevs (rt.iterate (inde ++ uni)) fun pair hpa => by
    obtain ⟨rr, hmem, hid, -⟩ := hpts.keeps_requested ((hadd pair.1 pair.2).mp hpa)
    exact ⟨rr, hmem, hid⟩
  refine ⟨repoRevs.filterMap fun rr =>
    ((rt.iterate (inde ++ uni)).foldl (addRepoRev repoRevs) []).lookup
      rr.repo.id, (rt.iterate mis, n), ?_, fun id rev => ?_⟩
  · rw [filterRepoHasFileContent, if_neg hne, hrun]
    simp only [bind, Except.bind, hixd]
    rw [hun]
  · rw [← hadd, ← hcol.revs]
    constructor
    · rintro ⟨en, hent, rfl, hrev⟩
      obtain ⟨rr, hmem, hlk⟩ := mem_filterMap.mp hent
      rw [← hcol.repo _ _ hlk] at hlk
      exact ⟨en, hlk, hrev⟩
    · rintro ⟨en, hlk, hrev⟩
      have hkp := (hadd id rev).mp ((hcol.revs id rev).mp ⟨en, hlk, hrev⟩)
      obtain ⟨rr, hmem, hid, -⟩ := hpts.keeps_requested hkp
      refine ⟨en, mem_filterMap.mpr ⟨rr, hmem, ?_⟩, hcol.repo id en hlk, hrev⟩
      rw [hid]
      exact hlk

section Reading

variable (S : Services) (returns : TextPatternInfo → File → Bool) (args : RepoHasFileContentArgs)

/-- Whether the searcher takes a file for a predicate: it ignores case, and looks for the content
in the path, too, if a path is given. -/
def taken (f : File) : Bool :=
  if args.path = "" || S.regexp false args.path f.path then
    (args.content = "" || S.regexp false args.content f.content ||
      args.path ≠ "" && S.regexp false args.content f.path) != args.negated
  -- other files are returned only for a negated pattern, if at all
  else args.negated && returns (patternInfoOf args) f

/-- The searcher takes a file if and only if one matches. -/
def ReadRight (caseSensitive : Bool) (files : List File) : Prop :=
  files.any (taken S returns args) = files.any (hasFile S caseSensitive args)

variable {S returns args}

theorem returns_eq_taken (h : Searcher S returns) (f : File) :
    returns (patternInfoOf args) f = taken S returns args f := by
  have hinc : (patternInfoOf args).includes S f =
      (args.path = "" || S.regexp false args.path f.path) := by
    rw [TextPatternInfo.includes, patternInfoOf]
    by_cases hpt : args.path = "" <;> simp [hpt]
  have hhi : (patternInfoOf args).hits S f =
      (args.content = "" || S.regexp false args.content f.content ||
        args.path ≠ "" && S.regexp false args.content f.path) := by
    simp [TextPatternInfo.hits, patternInfoOf]
  rw [taken, ← hinc, ← hhi]
  split
  · rename_i hin
    exact h.included _ f hin
  · rename_i hin
    have hex := h.excluded (patternInfoOf args) f (Bool.not_eq_true _ ▸ hin)
    cases hneg : args.negated with
    | false => exact hex hneg
    | true => rw [Bool.true_and]

theorem readRight_iff (h : Searcher S returns) :
    ReadRight S returns args cs files ↔
      searcherSatisfies returns args files = satisfies S cs args files := by
  have heq : returns (patternInfoOf args) = taken S returns args :=
    funext fun f => returns_eq_taken h f
  rw [ReadRight, searcherSatisfies, satisfies, heq, Bool.bne_left_inj]

end Reading

section Fitting

variable (S : Services) (op : RepoOptions) (returns : TextPatternInfo → File → Bool)
  (branchFiles : UInt32 → String → List File) (filesAt : RepoID → String → List File)
  (repoRevs : List RepositoryRevisions)

def Holds (files : List File) : Prop :=
  ∀ args ∈ op.hasFileContent, satisfies S op.caseSensitiveRepoFilters args files = true

/-- Some revision of the repository is mapped to the branch that is called like the revision, and
the predicates hold for that branch. -/
def Reached (id : RepoID) (rev : String) : Prop :=
  (∃ other branch, Requested repoRevs id other ∧ branchOf S op id other = some branch ∧
    branch.name = explicit rev) ∧ Holds S op (branchFiles id.toUInt32 (explicit rev))

/-- What a requested revision of a repository that is listed once has to meet. -/
def RevisionFits (id : RepoID) (rev : String) : Prop :=
  match branchOf S op id rev with
  | some branch => branch.name = explicit rev ∨
      (Holds S op (filesAt id rev) ↔ Reached S op branchFiles repoRevs id rev)
  | none =>
    if op.useIndex = .only then ¬ Holds S op (filesAt id rev)
    else ∀ args ∈ op.hasFileContent,
      ReadRight S returns args op.caseSensitiveRepoFilters (filesAt id rev)

variable {S op returns branchFiles filesAt repoRevs} {unindexed : List RepositoryRevisions}

theorem branch_files (h : Exact S returns branchFiles commitFiles filesAt op repoRevs)
    (hrev : Requested repoRevs id rev) (hbr : branchOf S op id rev = some branch) :
    branchFiles id.toUInt32 branch.name = filesAt id rev := by
  unfold branchOf at hbr
  split at hbr
  · cases hbr
  split at hbr
  · cases hbr
  rename_i hset
  obtain ⟨repo, hrp, hfi⟩ := Option.bind_eq_some_iff.mp hbr
  exact h.current _ hset id rev repo branch hrev hrp hfi

theorem branch_named (h : Exact S returns branchFiles commitFiles filesAt op repoRevs)
    (hbr : branchOf S op id rev = some branch) : branch.name ≠ "" := by
  unfold branchOf at hbr
  split at hbr
  · cases hbr
  split at hbr
  · cases hbr
  rename_i hset
  obtain ⟨repo, hrp, hfi⟩ := Option.bind_eq_some_iff.mp hbr
  exact h.named _ hset _ repo hrp branch (findBranch_some hfi).1

/-- An indexed revision is looked up under its own name. -/
theorem foundBy_iff (h : Exact S returns branchFiles commitFiles filesAt op repoRevs)
    (hpts : Parts S op repoRevs indexed unindexed) :
    FoundBy S op branchFiles indexed args id rev ↔ id.toUInt32 ∈ indexed.reposOf (explicit rev) ∧
      satisfies S op.caseSensitiveRepoFilters args (branchFiles id.toUInt32 (explicit rev)) =
        true := by
  constructor
  · rintro ⟨name, hspl, hin, hsat⟩
    have heq : name = explicit rev := by
      rw [spells, Bool.or_eq_true, Bool.and_eq_true, decide_eq_true_eq, decide_eq_true_eq,
        decide_eq_true_eq] at hspl
      rcases hspl with rfl | ⟨rfl, rfl⟩
      · obtain ⟨-, other, branch, -, hbr, rfl⟩ := hpts.searched id _ hin
        rw [explicit, if_neg (branch_named h hbr)]
      · rfl
    exact heq ▸ ⟨hin, hsat⟩
  · rintro ⟨hin, hsat⟩
    refine ⟨explicit rev, ?_, hin, hsat⟩
    rw [explicit, spells]
    split
    · rename_i hemp
      simp [hemp]
    · simp

theorem searched_iff (hone : (repoRevs.map fun repoRev => repoRev.repo.id).Nodup)
    (hpts : Parts S op repoRevs indexed unindexed) (name : String) :
    id.toUInt32 ∈ indexed.reposOf name ↔ ∃ other branch, Requested repoRevs id other ∧
      branchOf S op id other = some branch ∧ branch.name = name := by
  refine ⟨fun hin => (hpts.searched id name hin).2, ?_⟩
  rintro ⟨other, branch, hrev, hbr, rfl⟩
  obtain ⟨branch', hbr', hin⟩ :=
    hpts.found id other ((hpts.mapped hone id other hrev).1 (by rw [hbr]; rfl))
  cases hbr.symm.trans hbr'
  exact hin

theorem keeps_iff_reached (hne : op.hasFileContent ≠ [])
    (hone : (repoRevs.map fun repoRev => repoRev.repo.id).Nodup)
    (h : Exact S returns branchFiles commitFiles filesAt op repoRevs)
    (hpts : Parts S op repoRevs indexed unindexed) (hrev : Requested repoRevs id rev)
    (hbr : branchOf S op id rev = some branch) :
    Keeps S op returns branchFiles filesAt indexed unindexed id rev ↔
      Reached S op branchFiles repoRevs id rev := by
  obtain ⟨hin, hout⟩ := hpts.mapped hone id rev hrev
  have hleft : ¬ Requested unindexed id rev := by
    intro hun
    cases hbr.symm.trans (hout hun)
  obtain ⟨args, hargs⟩ := exists_mem_of_ne_nil _ hne
  rw [Keeps, or_iff_left fun h => hleft h.1, and_iff_right (hin (by rw [hbr]; rfl)), Reached,
    ← searched_iff hone hpts]
  simp only [foundBy_iff h hpts]
  exact ⟨fun hall => ⟨(hall args hargs).1, fun arg har => (hall arg har).2⟩,
    fun hall arg har => ⟨hall.1, hall.2 arg har⟩⟩

theorem reached_of_named (h : Exact S returns branchFiles commitFiles filesAt op repoRevs)
    (hrev : Requested repoRevs id rev) (hbr : branchOf S op id rev = some branch)
    (hname : branch.name = explicit rev) :
    Holds S op (filesAt id rev) ↔ Reached S op branchFiles repoRevs id rev := by
  rw [Reached, ← hname, branch_files h hrev hbr]
  exact (and_iff_right ⟨rev, branch, hrev, hbr, rfl⟩).symm

theorem keeps_unindexed
    (hpts : Parts S op repoRevs indexed unindexed) (hrev : Requested repoRevs id rev)
    (hbr : branchOf S op id rev = none) :
    Keeps S op returns branchFiles filesAt indexed unindexed id rev ↔ op.useIndex ≠ .only ∧
      ∀ args ∈ op.hasFileContent, searcherSatisfies returns args (filesAt id rev) = true := by
  have hnot : rev ∉ indexed.revsOf id := by
    intro hin
    obtain ⟨branch, hso, -⟩ := hpts.found id rev hin
    cases hbr.symm.trans hso
  rw [Keeps, or_iff_right fun h => hnot h.1]
  refine and_congr_left fun _ => ⟨fun hun hon => ?_, fun hon => ?_⟩
  · rw [hpts.only hon] at hun
    simp [Requested] at hun
  · exact (hpts.all hon id rev hrev).resolve_left hnot

theorem keeps_of_fits (hne : op.hasFileContent ≠ [])
    (hone : (repoRevs.map fun repoRev => repoRev.repo.id).Nodup)
    (h : Exact S returns branchFiles commitFiles filesAt op repoRevs)
    (hpts : Parts S op repoRevs indexed unindexed) (hrev : Requested repoRevs id rev)
    (hfits : RevisionFits S op returns branchFiles filesAt repoRevs id rev) :
    Keeps S op returns branchFiles filesAt indexed unindexed id rev ↔
      Holds S op (filesAt id rev) := by
  unfold RevisionFits at hfits
  cases hbr : branchOf S op id rev with
  | some branch =>
    rw [hbr] at hfits
    rw [keeps_iff_reached hne hone h hpts hrev hbr]
    exact (hfits.elim (reached_of_named h hrev hbr) fun h => h).symm
  | none =>
    rw [hbr] at hfits
    rw [keeps_unindexed hpts hrev hbr]
    dsimp only at hfits
    split at hfits
    · rename_i hon
      simp [hon, hfits]
    · rename_i hon
      rw [and_iff_right hon]
      refine forall₂_congr fun args hargs => ?_
      rw [(readRight_iff h.searcher).mp (hfits args hargs)]

/-- With one predicate the condition on a revision is also necessary. -/
theorem fits_of_keeps (hargs : op.hasFileContent = [args])
    (hone : (repoRevs.map fun repoRev => repoRev.repo.id).Nodup)
    (h : Exact S returns branchFiles commitFiles filesAt op repoRevs)
    (hpts : Parts S op repoRevs indexed unindexed) (hrev : Requested repoRevs id rev)
    (hkeeps : Keeps S op returns branchFiles filesAt indexed unindexed id rev ↔
      Holds S op (filesAt id rev)) :
    RevisionFits S op returns branchFiles filesAt repoRevs id rev := by
  unfold RevisionFits
  cases hbr : branchOf S op id rev with
  | some branch =>
    rw [keeps_iff_reached (by simp [hargs]) hone h hpts hrev hbr] at hkeeps
    exact .inr hkeeps.symm
  | none =>
    rw [keeps_unindexed hpts hrev hbr] at hkeeps
    dsimp only
    split
    · rename_i hon
      exact fun hholds => (hkeeps.mpr hholds).1 hon
    · rename_i hon
      rw [and_iff_right hon, Holds, hargs, forall_mem_singleton, forall_mem_singleton] at hkeeps
      rw [hargs, forall_mem_singleton, readRight_iff h.searcher, Bool.eq_iff_iff]
      exact hkeeps

end Fitting

def oneFile : List File := [⟨"main.go", "package main"⟩]

def repoWithID (id : RepoID) : MinimalRepo := ⟨id, "repo", 0⟩

def literalServices : Services where
  regexp _ pattern text := text.toList.tails.any pattern.toList.isPrefixOf
  parses _ := true
  listAll := .ok fun id => if id = 1 then some ⟨false, [⟨"HEAD", "beef1111"⟩]⟩ else none
  list _ _ := .ok ⟨0, []⟩
  resolveRevision _ _ := .ok "c0ffee"
  search _ _ _ := .ok []

/-- Without a pattern the searcher negates whether a path is included. -/
def searcherReturns (info : TextPatternInfo) (f : File) : Bool :=
  if info.pattern = "" then info.includes literalServices f != info.isNegated
  else info.includes literalServices f && (info.hits literalServices f != info.isNegated)

/-- All revisions consist of one file. Only the first repository is indexed. -/
def oneFileServices : Services :=
  { literalServices with
    list := fun branches q => .ok ⟨0, (branches.map Prod.fst).flatMap fun name =>
      if q.holds literalServices oneFile then
        ((branches.lookup name).getD []).map fun id => (id, [name])
      else []⟩
    search := fun _ _ info => .ok ((oneFile.filter (searcherReturns info)).map File.path) }

theorem searcherReturns_searcher : Searcher oneFileServices searcherReturns := by
  constructor
  · intro info f hinc
    have hinc' : info.includes literalServices f = true := hinc
    rw [searcherReturns, hinc']
    split
    · rename_i hemp
      have hhi : info.hits oneFileServices f = true := by
        rw [TextPatternInfo.hits, decide_eq_true hemp]
        rfl
      rw [hhi]
    rfl
  · intro info f hinc hneg
    have hinc' : info.includes literalServices f = false := hinc
    rw [searcherReturns, hinc', hneg]
    split <;> rfl

theorem oneFile_list (brs : List (String × List UInt32)) (q : RepoQuery) :
    ∃ rps, oneFileServices.list brs q = .ok rps ∧
      (∀ en ∈ rps.minimal, en.2 ≠ []) ∧ ∀ id name,
        (∃ en ∈ rps.minimal, en.1 = id ∧ name ∈ en.2) ↔
          id ∈ (brs.lookup name).getD [] ∧ q.holds oneFileServices oneFile = true := by
  have hsm : q.holds oneFileServices oneFile = q.holds literalServices oneFile := by
    induction q with
    | typeRepo chi => rfl
    | not chi ih => rw [RepoQuery.holds, RepoQuery.holds, ih]
  rw [hsm]
  refine ⟨_, rfl, ?_⟩
  by_cases hh : q.holds literalServices oneFile = true
  · simp only [hh, if_true, and_true]
    constructor
    · intro en hent
      obtain ⟨name, -, hin⟩ := mem_flatMap.mp hent
      obtain ⟨id, -, rfl⟩ := mem_map.mp hin
      exact cons_ne_nil _ _
    · intro id name
      constructor
      · rintro ⟨en, hent, rfl, hnm⟩
        obtain ⟨name', -, hin⟩ := mem_flatMap.mp hent
        obtain ⟨id, hid, rfl⟩ := mem_map.mp hin
        rwa [mem_singleton.mp hnm]
      · intro hid
        have hkey : name ∈ brs.map Prod.fst := by
          cases hlk : brs.lookup name with
          | none =>
            rw [hlk] at hid
            cases hid
          | some ids =>
            obtain ⟨l₁, l₂, heq, -⟩ := lookup_eq_some_iff.mp hlk
            rw [heq]
            simp
        exact ⟨(id, [name]), mem_flatMap.mpr ⟨name, hkey, mem_map_of_mem hid⟩, rfl, by simp⟩
  · simp [hh]

theorem oneFile_exact (op : RepoOptions) :
    Exact oneFileServices searcherReturns (fun _ _ => oneFile) (fun _ _ => oneFile)
      (fun _ _ => oneFile) op repoRevs where
  parses _ _ _ _ _ := rfl
  available _ := ⟨_, rfl⟩
  list := oneFile_list
  named indexedSet hset id repo hrp branch hbr := by
    cases hset
    simp only at hrp
    split at hrp
    · cases hrp
      rw [mem_singleton.mp hbr]
      decide
    · cases hrp
  search repo commit info := by
    refine ⟨_, rfl, ?_⟩
    simp
  searcher := searcherReturns_searcher
  current _ _ _ _ _ _ _ _ _ := rfl
  resolves _ _ _ _ := .inl ⟨_, rfl, rfl⟩

end RepoFileContent
