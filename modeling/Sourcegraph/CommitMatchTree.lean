import Sourcegraph.SearchResults
import Sourcegraph.CommitQueryReduce

/-! # Match trees over lazily fetched commits

A match tree computes a commit flag together with a set of file indices, where a nil set means that
files were not evaluated. Verdicts never read the highlights that are carried along. -/
namespace CommitMatchTree

open GoStrings (Bytes Fault runeCount asciiChars atoi)
open CommitQueryReduce (OperatorKind Node)

abbrev Location := SearchResults.LocationOf ℕ

abbrev Range := SearchResults.RangeOf ℕ

abbrev Ranges := List Range

def Ranges.merge (r other : Ranges) : Ranges :=
  (r ++ other).mergeSort fun a b => a.start.offset ≤ b.start.offset

/-- A Go map from indices; `none` is the nil map. -/
abbrev IndexMap (α : Type) := Option (ℕ → Option α)

def IndexMap.get {α : Type} (m : IndexMap α) (i : ℕ) : Option α := m.bind fun f => f i

def IndexMap.ofList {α : Type} (entries : List (ℕ × α)) : IndexMap α :=
  if entries.isEmpty then none
  else some fun i => (entries.find? fun entry => entry.1 = i).map Prod.snd

/-- The merge of two maps whose missing entries read as `zero`: a nil receiver becomes the
other map itself. -/
def IndexMap.mergeWith {α : Type} (zero : α) (merge : α → α → α) (m other : IndexMap α) :
    IndexMap α :=
  match m with
  | none => other
  | some f => some fun i =>
    match other.get i with
    | none => f i
    | some entry => some (merge ((f i).getD zero) entry)

structure MatchedHunk where
  matchedLines : IndexMap Ranges

def MatchedHunk.merge (h other : MatchedHunk) : MatchedHunk :=
  ⟨h.matchedLines.mergeWith [] Ranges.merge other.matchedLines⟩

structure MatchedFileDiff where
  oldFile : Ranges
  newFile : Ranges
  matchedHunks : IndexMap MatchedHunk

def MatchedFileDiff.merge (f other : MatchedFileDiff) : MatchedFileDiff :=
  ⟨f.oldFile.merge other.oldFile, f.newFile.merge other.newFile,
    f.matchedHunks.mergeWith ⟨none⟩ MatchedHunk.merge other.matchedHunks⟩

structure MatchedCommit where
  message : Ranges
  diff : IndexMap MatchedFileDiff

def MatchedCommit.empty : MatchedCommit := ⟨[], none⟩

def MatchedCommit.merge (c other : MatchedCommit) : MatchedCommit :=
  ⟨c.message.merge other.message, c.diff.mergeWith ⟨[], [], none⟩ MatchedFileDiff.merge other.diff⟩

/-- Deletes the highlights of every file outside the given set; a nil set has no members. -/
def MatchedCommit.constrainToMatched (c : MatchedCommit) (matched : Option (Finset ℕ)) :
    MatchedCommit :=
  { c with diff := c.diff.map fun f i => if i ∈ matched.getD ∅ then f i else none }

/-- A compiled regexp, by the matches `FindAllIndex` reports; `Match` is their existence. -/
structure Regexp where
  findAllIndex : Bytes → List (ℕ × ℕ)

def Regexp.matches (re : Regexp) (content : Bytes) : Bool := !(re.findAllIndex content).isEmpty

structure LineScan where
  unscannedOffset : ℕ
  scannedNewlines : ℕ
  /-- One past the last scanned newline, so that the initial offset -1 is 0 here. -/
  lineStart : ℕ

def newline : UInt8 := 10

def lineColumnOffset (content : Bytes) (scan : LineScan) (byteOffset : ℕ) :
    Location × LineScan :=
  let unscanned := (content.take byteOffset).drop scan.unscannedOffset
  let fromLast := unscanned.reverse.takeWhile (· ≠ newline)
  let scan' : LineScan :=
    if newline ∈ unscanned then
      { unscannedOffset := byteOffset
        scannedNewlines := scan.scannedNewlines + unscanned.count newline
        lineStart := scan.unscannedOffset + (unscanned.length - fromLast.length) }
    else { scan with unscannedOffset := byteOffset }
  (⟨byteOffset, scan'.scannedNewlines,
    runeCount ((content.take byteOffset).drop scan'.lineStart)⟩, scan')

def matchesToRangesFrom (content : Bytes) : LineScan → List (ℕ × ℕ) → Ranges
  | _, [] => []
  | scan, m :: rest =>
    let start := lineColumnOffset content scan m.1
    let stop := lineColumnOffset content start.2 m.2
    ⟨start.1, stop.1⟩ :: matchesToRangesFrom content stop.2 rest

def matchesToRanges (content : Bytes) (found : List (ℕ × ℕ)) : Ranges :=
  matchesToRangesFrom content ⟨0, 0, 0⟩ found

structure FileDiff where
  origName : Bytes
  newName : Bytes
  hunks : List Bytes
  deriving DecidableEq

/-- A raw commit and the outcome of fetching and parsing its diff. -/
structure LazyCommit where
  authorName : Bytes
  authorEmail : Bytes
  committerName : Bytes
  committerEmail : Bytes
  committerDate : Bytes
  message : Bytes
  modifiedFiles : List Bytes
  diff : Except String (List FileDiff)

/-- Nanoseconds since the epoch of a committer date in seconds. -/
def LazyCommit.committerTime (lc : LazyCommit) : Except Fault ℤ :=
  match atoi (asciiChars lc.committerDate) with
  | .ok seconds => .ok (seconds * 1000000000)
  | .error _ => .error (.error "strconv.Atoi: parsing committer date")

/-- The names in NUL-separated name-status output: a rename entry is followed by two. -/
def modifiedNames : List Bytes → List Bytes
  | [] => []
  | [] :: _ => []
  | (status :: _) :: oldName :: newName :: rest =>
    if status = 82 then oldName :: newName :: modifiedNames rest
    else oldName :: modifiedNames (newName :: rest)
  | (status :: _) :: name :: [] => if status = 82 then [] else [name]
  | (_ :: _) :: [] => []

structure CommitFilterResult where
  commitMatched : Bool
  matchedFileDiffs : Option (Finset ℕ)
  deriving DecidableEq

namespace CommitFilterResult

def satisfies (c : CommitFilterResult) : Bool :=
  c.commitMatched || match c.matchedFileDiffs with
    | none => false
    | some s => decide (0 < s.card)

def toggle (s : Finset ℕ) (i : ℕ) : Finset ℕ := if i ∈ s then s.erase i else insert i s

def invert (lc : LazyCommit) (c : CommitFilterResult) : Except Fault CommitFilterResult :=
  match c.matchedFileDiffs with
  | none => .ok ⟨!c.commitMatched, some ∅⟩
  | some s =>
    if s.card = 0 then .ok ⟨!c.commitMatched, none⟩
    else match lc.diff with
      | .error message => .error (.panic ("unexpected error: " ++ message))
      | .ok diff => .ok ⟨!c.commitMatched, some ((List.range diff.length).foldl toggle s)⟩

def union (c other : CommitFilterResult) : CommitFilterResult :=
  ⟨c.commitMatched || other.commitMatched,
    match c.matchedFileDiffs, other.matchedFileDiffs with
    | some s, some t => some (s ∪ t)
    | _, _ => none⟩

def intersect (c other : CommitFilterResult) : CommitFilterResult :=
  ⟨c.commitMatched && other.commitMatched,
    match c.matchedFileDiffs, other.matchedFileDiffs with
    | none, t => t
    | some s, none => some s
    | some s, some t => some (s ∩ t)⟩

end CommitFilterResult

def filterResult (val : Bool) : CommitFilterResult := ⟨val, if val then none else some ∅⟩

inductive MatchTree where
  | authorMatches (re : Regexp)
  | committerMatches (re : Regexp)
  | commitBefore (time : ℤ)
  | commitAfter (time : ℤ)
  | messageMatches (re : Regexp)
  | diffMatches (re : Regexp)
  | diffModifiesFile (re : Regexp)
  | constant (value : Bool)
  | operator (kind : OperatorKind) (operands : List MatchTree)

/-- `casetransform.CompileRegexp`, of which only the outcome matters here. -/
abbrev Compiler := String → Bool → Except String Regexp

mutual
def toMatchTree (compileRegexp : Compiler) : Node → Except String MatchTree
  | .commitBefore time => .ok (.commitBefore time)
  | .commitAfter time => .ok (.commitAfter time)
  | .regexp .author expr ignoreCase => (compileRegexp expr ignoreCase).map .authorMatches
  | .regexp .committer expr ignoreCase => (compileRegexp expr ignoreCase).map .committerMatches
  | .regexp .message expr ignoreCase => (compileRegexp expr ignoreCase).map .messageMatches
  | .regexp .diff expr ignoreCase => (compileRegexp expr ignoreCase).map .diffMatches
  | .regexp .modifiesFile expr ignoreCase =>
    (compileRegexp expr ignoreCase).map .diffModifiesFile
  | .boolean value => .ok (.constant value)
  | .operator kind operands =>
    (toMatchTrees compileRegexp operands).map (.operator kind)
def toMatchTrees (compileRegexp : Compiler) : List Node → Except String (List MatchTree)
  | [] => .ok []
  | operand :: rest =>
    (toMatchTree compileRegexp operand).bind fun sub =>
      (toMatchTrees compileRegexp rest).map (sub :: ·)
end

/-- The lines a line reader returns: no final empty line after a trailing newline. -/
def readLines : Bytes → Bytes → List Bytes
  | [], [] => []
  | [], current => [current]
  | b :: data, current =>
    if b = newline then current :: readLines data [] else readLines data (current ++ [b])

def changedLine : Bytes → Option Bytes
  | origin :: line => if origin = 43 ∨ origin = 45 then some line else none
  | [] => none

def lineHighlights (re : Regexp) (body : Bytes) : List (ℕ × Ranges) :=
  (readLines body []).zipIdx.filterMap fun (line, lineIdx) =>
    (changedLine line).bind fun line =>
      if re.matches line then some (lineIdx, matchesToRanges line (re.findAllIndex line))
      else none

def hunkHighlights (re : Regexp) (fileDiff : FileDiff) : List (ℕ × MatchedHunk) :=
  fileDiff.hunks.zipIdx.filterMap fun (body, hunkIdx) =>
    if (lineHighlights re body).isEmpty then none
    else some (hunkIdx, ⟨.ofList (lineHighlights re body)⟩)

def diffHighlights (re : Regexp) (fileDiff : FileDiff) : Option MatchedFileDiff :=
  if (hunkHighlights re fileDiff).isEmpty then none
  else some ⟨[], [], .ofList (hunkHighlights re fileDiff)⟩

def nameHighlights (re : Regexp) (fileDiff : FileDiff) : Option MatchedFileDiff :=
  if re.matches fileDiff.origName || re.matches fileDiff.newName then
    some ⟨matchesToRanges fileDiff.origName (re.findAllIndex fileDiff.origName),
      matchesToRanges fileDiff.newName (re.findAllIndex fileDiff.newName), none⟩
  else none

/-- The loop over the files of a diff which both per-file predicates share. -/
def matchFiles (highlights : FileDiff → Option MatchedFileDiff) (diff : List FileDiff) :
    CommitFilterResult × MatchedCommit :=
  let matched := diff.zipIdx.filterMap fun (fileDiff, fileIdx) =>
    (highlights fileDiff).map fun highlight => (fileIdx, highlight)
  (⟨false, some (matched.map Prod.fst).toFinset⟩, ⟨[], .ofList matched⟩)

def LazyCommit.fetch (lc : LazyCommit) : Except Fault (List FileDiff) :=
  match lc.diff with
  | .error message => .error (.error message)
  | .ok diff => .ok diff

def modifiesMatchingFile (re : Regexp) (lc : LazyCommit) : Bool :=
  (modifiedNames lc.modifiedFiles).any re.matches

mutual
def matchCommit (lc : LazyCommit) : MatchTree → Except Fault (CommitFilterResult × MatchedCommit)
  | .authorMatches re =>
    .ok (filterResult (re.matches lc.authorName || re.matches lc.authorEmail), .empty)
  | .committerMatches re =>
    .ok (filterResult (re.matches lc.committerName || re.matches lc.committerEmail), .empty)
  | .commitBefore time =>
    lc.committerTime.map fun date => (filterResult (decide (date < time)), .empty)
  | .commitAfter time =>
    lc.committerTime.map fun date => (filterResult (decide (time < date)), .empty)
  | .messageMatches re =>
    if re.matches lc.message then
      .ok (filterResult true, ⟨matchesToRanges lc.message (re.findAllIndex lc.message), none⟩)
    else .ok (filterResult false, .empty)
  | .diffMatches re => lc.fetch.map (matchFiles (diffHighlights re))
  | .diffModifiesFile re =>
    if modifiesMatchingFile re lc then lc.fetch.map (matchFiles (nameHighlights re))
    else .ok (filterResult false, .empty)
  | .constant value => .ok (filterResult value, .empty)
  | .operator .not operands => matchNot lc operands
  | .operator .and operands => matchAnd lc operands ⟨true, none⟩ .empty
  | .operator .or operands => matchOr lc operands ⟨false, some ∅⟩ .empty
def matchNot (lc : LazyCommit) : List MatchTree → Except Fault (CommitFilterResult × MatchedCommit)
  | [] => .error (.panic "index out of range")
  | operand :: _ =>
    (matchCommit lc operand).bind fun r => (r.1.invert lc).map fun cfr => (cfr, .empty)
def matchAnd (lc : LazyCommit) : List MatchTree → CommitFilterResult → MatchedCommit →
    Except Fault (CommitFilterResult × MatchedCommit)
  | [], mergedCFR, resultMatches =>
    .ok (mergedCFR, resultMatches.constrainToMatched mergedCFR.matchedFileDiffs)
  | operand :: rest, mergedCFR, resultMatches =>
    (matchCommit lc operand).bind fun r =>
      if (mergedCFR.intersect r.1).satisfies then
        matchAnd lc rest (mergedCFR.intersect r.1) (resultMatches.merge r.2)
      else .ok (filterResult false, .empty)
def matchOr (lc : LazyCommit) : List MatchTree → CommitFilterResult → MatchedCommit →
    Except Fault (CommitFilterResult × MatchedCommit)
  | [], mergedCFR, resultMatches =>
    .ok (mergedCFR, resultMatches.constrainToMatched mergedCFR.matchedFileDiffs)
  | operand :: rest, mergedCFR, resultMatches =>
    (matchCommit lc operand).bind fun r =>
      matchOr lc rest (mergedCFR.union r.1)
        (if (mergedCFR.union r.1).satisfies then resultMatches.merge r.2 else resultMatches)
end

end CommitMatchTree
