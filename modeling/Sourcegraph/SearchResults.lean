import Sourcegraph.GoStrings

/-! # Search results

The match types of the result package, how many results each of them counts as, and how a
list of matches is truncated. Matches are values: two matches share no mutable state. -/
namespace SearchResults

open GoStrings List

/-- A location, with the type of its numbers. -/
structure LocationOf (I : Type) where
  offset : I
  line : I
  column : I
  deriving DecidableEq

structure RangeOf (I : Type) where
  start : LocationOf I
  stop : LocationOf I
  deriving DecidableEq

abbrev Location := LocationOf ℤ

abbrev Range := RangeOf ℤ

structure MatchedString where
  content : Bytes
  matchedRanges : List Range
  deriving DecidableEq

structure MinimalRepo where
  id : ℤ
  name : Bytes
  deriving DecidableEq

structure File where
  inputRev : Option Bytes
  repo : MinimalRepo
  commitID : Bytes
  path : Bytes
  deriving DecidableEq

structure ChunkMatch where
  content : Bytes
  contentStart : Location
  ranges : List Range
  deriving DecidableEq

structure SymbolMatch where
  name : Bytes
  kind : Bytes
  line : ℤ
  character : ℤ
  file : File
  deriving DecidableEq

structure FileMatch where
  file : File
  chunkMatches : List ChunkMatch
  symbols : List SymbolMatch
  pathMatches : List Range
  limitHit : Bool
  deriving DecidableEq

structure RepoMatch where
  name : Bytes
  id : ℤ
  rev : Bytes
  descriptionMatches : List Range
  repoNameMatches : List Range
  deriving DecidableEq

structure Commit where
  id : Bytes
  authorDate : ℤ
  deriving DecidableEq

/-- A commit match has a preview of its message or of its diff. -/
structure CommitMatch where
  commit : Commit
  repo : MinimalRepo
  messagePreview : Option MatchedString
  diffPreview : Option MatchedString
  previewed : messagePreview.isSome = true ∨ diffPreview.isSome = true
  deriving DecidableEq

structure Hunk where
  oldStart : ℤ
  newStart : ℤ
  oldCount : ℤ
  newCount : ℤ
  header : Bytes
  lines : List Bytes
  deriving DecidableEq

structure DiffFile where
  origName : Bytes
  newName : Bytes
  hunks : List Hunk
  deriving DecidableEq

def DiffFile.path (d : DiffFile) : Bytes :=
  if d.newName = bytes "/dev/null" then d.origName else d.newName

/-- The path of a diff match is not empty. -/
structure CommitDiffMatch where
  commit : Commit
  repo : MinimalRepo
  preview : MatchedString
  diffFile : DiffFile
  path_ne : diffFile.path ≠ []
  deriving DecidableEq

structure Owner where
  type : Bytes
  identifier : Bytes
  deriving DecidableEq

structure OwnerMatch where
  resolvedOwner : Option Owner
  inputRev : Option Bytes
  repo : MinimalRepo
  commitID : Bytes
  deriving DecidableEq

inductive Match where
  | file (m : FileMatch)
  | repo (m : RepoMatch)
  | commit (m : CommitMatch)
  | commitDiff (m : CommitDiffMatch)
  | owner (m : OwnerMatch)
  deriving DecidableEq

inductive TypeRank where
  | fileMatch
  | commitMatch
  | diffMatch
  | repoMatch
  | ownerMatch
  deriving DecidableEq

structure Key where
  repo : Bytes
  rev : Bytes := []
  authorDate : ℤ := 0
  commit : Bytes := []
  path : Bytes := []
  ownerMetadata : Bytes := []
  typeRank : TypeRank
  deriving DecidableEq

def FileMatch.key (fm : FileMatch) : Key where
  typeRank := .fileMatch
  repo := fm.file.repo.name
  commit := fm.file.commitID
  path := fm.file.path
  rev := fm.file.inputRev.getD []

def RepoMatch.key (r : RepoMatch) : Key where
  typeRank := .repoMatch
  repo := r.name
  rev := r.rev

def CommitMatch.key (cm : CommitMatch) : Key where
  typeRank := if cm.diffPreview.isSome then .diffMatch else .commitMatch
  repo := cm.repo.name
  authorDate := cm.commit.authorDate
  commit := cm.commit.id

def CommitDiffMatch.key (cd : CommitDiffMatch) : Key where
  typeRank := .diffMatch
  repo := cd.repo.name
  authorDate := cd.commit.authorDate
  commit := cd.commit.id
  path := cd.diffFile.path

def OwnerMatch.key (om : OwnerMatch) : Key where
  typeRank := .ownerMatch
  repo := om.repo.name
  commit := om.commitID
  ownerMetadata := (om.resolvedOwner.map fun o => o.type ++ o.identifier).getD []
  rev := om.inputRev.getD []

def Match.key : Match → Key
  | .file m => m.key
  | .repo m => m.key
  | .commit m => m.key
  | .commitDiff m => m.key
  | .owner m => m.key

def FileMatch.appendMatches (fm src : FileMatch) : FileMatch :=
  { fm with
    chunkMatches := fm.chunkMatches ++ src.chunkMatches
    symbols := fm.symbols ++ src.symbols
    limitHit := fm.limitHit || src.limitHit }

def RepoMatch.appendMatches (r src : RepoMatch) : RepoMatch :=
  { r with
    repoNameMatches := r.repoNameMatches ++ src.repoNameMatches
    descriptionMatches := r.descriptionMatches ++ src.descriptionMatches }

def MatchedString.append (ms src : MatchedString) : MatchedString :=
  ⟨ms.content, ms.matchedRanges ++ src.matchedRanges⟩

/-- Only the highlights of commit messages are merged. -/
def CommitMatch.appendMatches (cm src : CommitMatch) : CommitMatch where
  commit := cm.commit
  repo := cm.repo
  messagePreview := cm.messagePreview.map fun ms => (src.messagePreview.map ms.append).getD ms
  diffPreview := cm.diffPreview
  previewed := by rw [Option.isSome_map]; exact cm.previewed

abbrev Panic := String

def matchCount (chunks : List ChunkMatch) : ℕ := (chunks.map fun c => c.ranges.length).sum

def FileMatch.resultCount (fm : FileMatch) : ℕ :=
  let rc := fm.symbols.length + matchCount fm.chunkMatches
  if rc = 0 then 1 else rc

/-- Without highlights a commit counts as one result. -/
def MatchedString.resultCount (ms : MatchedString) : ℕ :=
  if 0 < ms.matchedRanges.length then ms.matchedRanges.length else 1

def CommitMatch.resultCount (cm : CommitMatch) : ℕ :=
  match cm.diffPreview, cm.messagePreview with
  | some ms, _ => ms.resultCount
  | none, some ms => ms.resultCount
  | none, none => 1

def OwnerMatch.resultCount (om : OwnerMatch) : ℕ := if om.resolvedOwner.isNone then 0 else 1

def Match.resultCount : Match → ℕ
  | .file m => m.resultCount
  | .repo _ => 1
  | .commit m => m.resultCount
  | .commitDiff m => m.preview.resultCount
  | .owner m => m.resultCount

/-- `Matches.ResultCount`. -/
def resultCount (matches_ : List Match) : ℕ := (matches_.map Match.resultCount).sum

/-- `ChunkMatches.Limit`. -/
def limitChunks : ℤ → List ChunkMatch → List ChunkMatch
  | _, [] => []
  | limit, c :: rest =>
    if limit ≤ c.ranges.length then [{ c with ranges := c.ranges.take limit.toNat }]
    else c :: limitChunks (limit - c.ranges.length) rest

def FileMatch.limitChunkMatches (limit : ℤ) (fm : FileMatch) : ℤ × FileMatch :=
  if limit < matchCount fm.chunkMatches then
    (0, { fm with chunkMatches := limitChunks limit fm.chunkMatches, limitHit := true })
  else (limit - matchCount fm.chunkMatches, fm)

def FileMatch.limitSymbols (limit : ℤ) (fm : FileMatch) : ℤ × FileMatch :=
  if limit < fm.symbols.length then
    (0, { fm with symbols := fm.symbols.take limit.toNat, limitHit := true })
  else (limit - fm.symbols.length, fm)

def FileMatch.limit (limit : ℤ) (fm : FileMatch) : ℤ × FileMatch :=
  if matchCount fm.chunkMatches = 0 ∧ fm.symbols.length = 0 then (limit - 1, fm)
  else
    let r := fm.limitChunkMatches limit
    r.2.limitSymbols r.1

/-- `limitMatchedString`. -/
def MatchedString.limit (limit : ℤ) (ms : MatchedString) : ℤ × MatchedString :=
  if ms.matchedRanges.length = 0 then (limit - 1, ms)
  else if limit < ms.matchedRanges.length then
    (0, ⟨ms.content, ms.matchedRanges.take limit.toNat⟩)
  else (limit - ms.matchedRanges.length, ms)

def CommitMatch.limit (limit : ℤ) (cm : CommitMatch) : Except Panic (ℤ × CommitMatch) :=
  match cm.diffPreview, cm.messagePreview with
  | some ms, _ =>
    let r := ms.limit limit
    .ok (r.1, ⟨cm.commit, cm.repo, cm.messagePreview, some r.2, .inr rfl⟩)
  | none, some ms =>
    let r := ms.limit limit
    .ok (r.1, ⟨cm.commit, cm.repo, some r.2, cm.diffPreview, .inl rfl⟩)
  | none, none => .error "exactly one of DiffPreview or Message must be set"

def OwnerMatch.limit (limit : ℤ) (om : OwnerMatch) : ℤ :=
  if om.resultCount = 0 then limit else limit - om.resultCount

def Match.limit (limit : ℤ) : Match → Except Panic (ℤ × Match)
  | .file m =>
    let r := m.limit limit
    .ok (r.1, .file r.2)
  | .repo m => .ok (limit - 1, .repo m)
  | .commit m => (m.limit limit).map fun r => (r.1, .commit r.2)
  | .commitDiff m =>
    let r := m.preview.limit limit
    .ok (r.1, .commitDiff { m with preview := r.2 })
  | .owner m => .ok (m.limit limit, .owner m)

/-- `Matches.Limit`. -/
def limit : ℤ → List Match → Except Panic (ℤ × List Match)
  | left, [] => .ok (left, [])
  | left, m :: rest =>
    if left ≤ 0 then .ok (0, [])
    else match m.limit left with
      | .error e => .error e
      | .ok (left', m') => (limit left' rest).map fun r => (r.1, m' :: r.2)

/-- The statistics of the streaming package; `status` is a map from repositories to masks. -/
structure Stats where
  isLimitHit : Bool := false
  repos : List ℤ := []
  status : List (ℤ × ℕ) := []
  backendsMissing : ℤ := 0
  excludedForks : ℤ := 0
  excludedArchived : ℤ := 0
  deriving DecidableEq

def Stats.zero (c : Stats) : Bool :=
  !(c.isLimitHit || 0 < c.repos.length || 0 < c.status.length || 0 < c.backendsMissing ||
    0 < c.excludedForks || 0 < c.excludedArchived)

structure SearchEvent where
  results : List Match := []
  stats : Stats := {}
  deriving DecidableEq

@[simp] theorem matchCount_cons (rest : List ChunkMatch) :
    matchCount (c :: rest) = c.ranges.length + matchCount rest := rfl

theorem matchCount_limitChunks {limit : ℤ} (hpos : 0 ≤ limit) (h : limit ≤ matchCount cks) :
    (matchCount (limitChunks limit cks) : ℤ) = limit := by
  induction cks generalizing limit with
  | nil =>
    simp only [matchCount, map_nil, sum_nil] at h
    simp only [limitChunks, matchCount, map_nil, sum_nil]
    omega
  | cons c rest ih =>
    rw [limitChunks]
    split
    · simp only [matchCount, map_cons, map_nil, sum_cons, sum_nil, length_take]
      omega
    rw [matchCount_cons] at h ⊢
    have := @ih (limit - c.ranges.length) (by omega) (by omega)
    omega

structure Limited (limit left : ℤ) (count count' : ℕ) : Prop where
  count : (count' : ℤ) = min limit count
  left : left = limit - count'

theorem limited_iff {limit : ℤ} {cnt cnt' : ℕ} :
    Limited limit left cnt cnt' ↔ (cnt' : ℤ) = min limit cnt ∧ left = limit - cnt' :=
  ⟨fun h => ⟨h.count, h.left⟩, fun h => ⟨h.1, h.2⟩⟩

theorem FileMatch.resultCount_eq (fm : FileMatch) :
    fm.resultCount = max 1 (fm.symbols.length + matchCount fm.chunkMatches) := by
  unfold FileMatch.resultCount
  simp only
  split <;> omega

theorem MatchedString.resultCount_eq (ms : MatchedString) :
    ms.resultCount = max 1 ms.matchedRanges.length := rfl

theorem FileMatch.limit_limited {limit : ℤ} (hpos : 0 < limit) (fm : FileMatch) :
    Limited limit (fm.limit limit).1 fm.resultCount (fm.limit limit).2.resultCount := by
  have hsym : ∀ l (m : FileMatch), 0 ≤ l → (m.limitSymbols l).1 = max 0 (l - m.symbols.length) ∧
      ((m.limitSymbols l).2.symbols.length : ℤ) = min l m.symbols.length ∧
      (m.limitSymbols l).2.chunkMatches = m.chunkMatches := by
    intro l m hl
    unfold limitSymbols
    split
    · simp only [length_take, and_true]
      omega
    simp only [and_true]
    omega
  rw [limited_iff, resultCount_eq, resultCount_eq]
  unfold FileMatch.limit
  split
  · rename_i h
    simp only [h.1, h.2]
    omega
  unfold limitChunkMatches
  split
  · rename_i hlt
    have hchu := matchCount_limitChunks (Int.le_of_lt hpos) (Int.le_of_lt hlt)
    obtain ⟨hle, hlen, hsm⟩ := hsym 0 { fm with
      chunkMatches := limitChunks limit fm.chunkMatches, limitHit := true } (by omega)
    simp only at hle hlen hsm ⊢
    rw [hsm]
    omega
  · obtain ⟨hle, hlen, hsm⟩ := hsym (limit - matchCount fm.chunkMatches) fm (by omega)
    simp only
    rw [hsm]
    omega

theorem MatchedString.limit_limited {limit : ℤ} (hpos : 0 < limit) (ms : MatchedString) :
    Limited limit (ms.limit limit).1 ms.resultCount (ms.limit limit).2.resultCount := by
  rw [limited_iff, resultCount_eq, resultCount_eq]
  unfold MatchedString.limit
  split
  · rename_i h
    simp only [h]
    omega
  split
  · simp only [length_take]
    omega
  simp only
  omega

theorem CommitMatch.limit_limited {limit : ℤ} (hpos : 0 < limit) (cm : CommitMatch) :
    ∃ left cm', cm.limit limit = .ok (left, cm') ∧ cm'.key = cm.key ∧
      Limited limit left cm.resultCount cm'.resultCount := by
  obtain ⟨com, repo, msg, diff, pre⟩ := cm
  cases diff with
  | some ms => exact ⟨_, _, rfl, rfl, ms.limit_limited hpos⟩
  | none =>
    cases msg with
    | some ms => exact ⟨_, _, rfl, rfl, ms.limit_limited hpos⟩
    | none => simp at pre

theorem OwnerMatch.limit_limited {limit : ℤ} (hpos : 0 < limit) (om : OwnerMatch) :
    Limited limit (om.limit limit) om.resultCount om.resultCount := by
  unfold OwnerMatch.limit
  have hle : om.resultCount ≤ 1 := by
    unfold OwnerMatch.resultCount
    split <;> omega
  split <;> rw [limited_iff] <;> omega

theorem FileMatch.key_limit (limit : ℤ) (fm : FileMatch) : (fm.limit limit).2.key = fm.key := by
  have hchu : (fm.limitChunkMatches limit).2.key = fm.key := by
    unfold limitChunkMatches
    split <;> rfl
  have hsym : ∀ l (m : FileMatch), (m.limitSymbols l).2.key = m.key := by
    intro l m
    unfold limitSymbols
    split <;> rfl
  unfold FileMatch.limit
  split
  · rfl
  · rw [hsym, hchu]

theorem Match.limit_limited {limit : ℤ} (hpos : 0 < limit) (m : Match) :
    ∃ left m', m.limit limit = .ok (left, m') ∧ m'.key = m.key ∧
      Limited limit left m.resultCount m'.resultCount := by
  cases m with
  | file m => exact ⟨_, _, rfl, m.key_limit limit, m.limit_limited hpos⟩
  | repo m =>
    refine ⟨_, _, rfl, rfl, ?_⟩
    simp only [limited_iff, Match.resultCount]
    omega
  | commit m =>
    obtain ⟨left, m', h, hkey, hlim⟩ := m.limit_limited hpos
    exact ⟨left, .commit m', by rw [Match.limit, h]; rfl, hkey, hlim⟩
  | commitDiff m => exact ⟨_, _, rfl, rfl, m.preview.limit_limited hpos⟩
  | owner m => exact ⟨_, _, rfl, rfl, m.limit_limited hpos⟩

@[simp] theorem resultCount_cons (rest : List Match) :
    resultCount (m :: rest) = m.resultCount + resultCount rest := rfl

theorem limit_limited {left : ℤ} (hpos : 0 ≤ left) (matches_ : List Match) :
    ∃ left' matches', limit left matches_ = .ok (left', matches') ∧
      Limited left left' (resultCount matches_) (resultCount matches') := by
  induction matches_ generalizing left with
  | nil =>
    refine ⟨left, [], rfl, ?_⟩
    simp only [limited_iff, resultCount, map_nil, sum_nil]
    omega
  | cons m rest ih =>
    rw [limit]
    split
    · refine ⟨0, [], rfl, ?_⟩
      simp only [limited_iff, resultCount, map_nil, sum_nil]
      omega
    obtain ⟨left₁, m', hm, -, hcn, hl⟩ := m.limit_limited (show 0 < left by omega)
    obtain ⟨left₂, rest', hrs, hcn', hl'⟩ := @ih left₁ (by omega)
    refine ⟨left₂, m' :: rest', by rw [hm]; simp only [hrs]; rfl, ?_⟩
    rw [limited_iff, resultCount_cons, resultCount_cons]
    omega

end SearchResults
