import Sourcegraph.DiffText
import Sourcegraph.CommitMatchTree

/-! # Diff previews

gitserver prints a parsed diff and the ranges of its highlights. If there are any, files and hunks
without one are left out, and hunks are cut down to the lines around matching ones. -/
namespace DiffFormat

open GoStrings GoDecimal List
open SearchResults (Location Range DiffFile)
open CommitMatchTree (readLines)
open DiffText (newline space escape unlines)

def matchContextLines : ℕ := 1

def maxLinesPerHunk : ℕ := 5

def maxHunksPerFile : ℕ := 3

def maxFiles : ℕ := 5

/-- A finite Go map with integer keys; the nil map reads as the empty one. -/
abbrev IndexMap (α : Type) := AList fun _ : ℕ => α

def IndexMap.size {α : Type} (m : IndexMap α) : ℕ := m.entries.length

structure MatchedHunk where
  matchedLines : IndexMap (List Range)

structure MatchedFileDiff where
  oldFile : List Range
  newFile : List Range
  matchedHunks : IndexMap MatchedHunk

/-- The text after the ranges of a hunk, which is the rest of that line of the diff. -/
structure SectionHeading where
  text : Bytes
  single_line : newline ∉ text

structure Hunk where
  origStartLine : Int32
  origLines : Int32
  newStartLine : Int32
  newLines : Int32
  sectionHeading : SectionHeading
  body : Bytes

structure FileDiff where
  origName : Bytes
  newName : Bytes
  hunks : List Hunk

def Location.add (l o : Location) : Location :=
  ⟨l.offset + o.offset, l.line + o.line, l.column + o.column⟩

def Ranges.add (ranges : List Range) (o : Location) : List Range :=
  ranges.map fun r => ⟨Location.add r.start o, Location.add r.stop o⟩

/-- `bytes.SplitAfter` at newlines: what follows the last newline is always there. -/
def splitAfter : Bytes → Bytes → List Bytes
  | [], current => [current]
  | b :: data, current =>
    if b = newline then (current ++ [b]) :: splitAfter data []
    else splitAfter data (current ++ [b])

structure DiffHunkLineInfo where
  added : Bool
  removed : Bool
  matching : Bool
  context : Bool
  deriving DecidableEq

def diffHunkLineStatus (line : Bytes) : Bool × Bool := (line.head? = some 43, line.head? = some 45)

def markContext (i start stop : ℕ) (lineInfo : List DiffHunkLineInfo) : List DiffHunkLineInfo :=
  lineInfo.mapIdx fun j info =>
    if start ≤ j ∧ j ≤ stop ∧ i ≠ j then { info with context := true } else info

def computeLineInfo (lineHighlights : IndexMap (List Range)) (matchContextLines : ℕ)
    (lineInfo : List DiffHunkLineInfo) (line : Bytes × ℕ) : List DiffHunkLineInfo :=
  let (line, i) := line
  let (added, removed) := diffHunkLineStatus line
  let matching := (added || removed) &&
    ((lineHighlights.lookup i).isSome || lineHighlights.size = 0)
  let lineInfo := lineInfo.modify i fun info =>
    { info with added := added, removed := removed, matching := matching }
  if matching then
    markContext i (i - matchContextLines) (min (i + matchContextLines) (lineInfo.length - 1))
      lineInfo
  else lineInfo

def computeDiffHunkInfo (lines : List Bytes) (lineHighlights : IndexMap (List Range))
    (matchContextLines : ℕ) : List DiffHunkLineInfo :=
  lines.zipIdx.foldl (computeLineInfo lineHighlights matchContextLines)
    (lines.map fun _ => ⟨false, false, false, false⟩)

def SectionHeading.addExtra (heading : SectionHeading) (extraHunkMatches : ℕ) : SectionHeading where
  text := (if heading.text ≠ [] then heading.text ++ [space] else heading.text) ++
    bytes "... +" ++ digits extraHunkMatches
  single_line := by
    have hdots : newline ∉ bytes "... +" := by decide
    have hdigits : newline ∉ digits extraHunkMatches := by
      intro hmem
      exact absurd (digits_isDigit _ hmem) (by decide)
    have hheading := heading.single_line
    have hspace : newline ≠ space := by decide
    split <;> simp [hdots, hdigits, hheading, hspace]

def addExtraHunkMatchesSection (hunk : Hunk) (extraHunkMatches : ℕ) : Hunk :=
  if extraHunkMatches > 0 then
    { hunk with sectionHeading := hunk.sectionHeading.addExtra extraHunkMatches }
  else hunk

structure Splitting where
  cur : Option Hunk
  curLines : List Bytes
  curHighlights : IndexMap (List Range)
  extraHunkMatches : ℕ
  origLineOffset : Int32
  newLineOffset : Int32
  results : List Hunk
  newHighlights : IndexMap MatchedHunk

namespace Splitting

def finish (st : Splitting) (cur : Hunk) : Splitting :=
  { st with
    cur := none
    curLines := []
    curHighlights := ∅
    extraHunkMatches := 0
    results := st.results ++
      [{ addExtraHunkMatchesSection cur st.extraHunkMatches with body := st.curLines.flatten }]
    newHighlights :=
      if st.curHighlights.size > 0 then
        st.newHighlights.insert st.results.length ⟨st.curHighlights⟩
      else st.newHighlights }

def advance (st : Splitting) (info : DiffHunkLineInfo) : Splitting :=
  { st with
    origLineOffset := if info.added then st.origLineOffset else st.origLineOffset + 1
    newLineOffset := if info.removed then st.newLineOffset else st.newLineOffset + 1 }

def append (st : Splitting) (hunk : Hunk) (highlights : List Range) (line : Bytes)
    (info : DiffHunkLineInfo) : Splitting :=
  let cur := st.cur.getD
    { origStartLine := hunk.origStartLine + st.origLineOffset
      origLines := 0
      newStartLine := hunk.newStartLine + st.newLineOffset
      newLines := 0
      sectionHeading := hunk.sectionHeading
      body := [] }
  { st with
    cur := some
      { cur with
        origLines := if info.added then cur.origLines else cur.origLines + 1
        newLines := if info.removed then cur.newLines else cur.newLines + 1 }
    curHighlights :=
      if highlights.length > 0 then st.curHighlights.insert st.curLines.length highlights
      else st.curHighlights
    curLines := st.curLines ++ [line] }

/-- One line. Once the current hunk is full the offsets are not advanced. -/
def splitLine (matchContextLines maxLinesPerHunk : ℕ) (hunk : Hunk) (highlights : List Range)
    (line : Bytes) (info : DiffHunkLineInfo) (st : Splitting) : Splitting :=
  if info.matching || info.context then
    if maxLinesPerHunk > 0 ∧ st.curLines.length = matchContextLines * 2 + maxLinesPerHunk then
      if info.matching then { st with extraHunkMatches := st.extraHunkMatches + 1 } else st
    else (st.append hunk highlights line info).advance info
  else
    match st.cur with
    | some cur => (st.finish cur).advance info
    | none => st.advance info

def splitLines (matchContextLines maxLinesPerHunk : ℕ) (hunk : Hunk)
    (origHighlights : IndexMap (List Range)) :
    List (Bytes × DiffHunkLineInfo) → ℕ → Splitting → Splitting
  | [], _, st => st
  | (line, info) :: rest, i, st =>
    if line.length = 0 then st
    else splitLines matchContextLines maxLinesPerHunk hunk origHighlights rest (i + 1)
      (splitLine matchContextLines maxLinesPerHunk hunk ((origHighlights.lookup i).getD []) line
        info st)

def splitHunk (matchContextLines maxLinesPerHunk : ℕ) (hunkHighlights : IndexMap MatchedHunk)
    (st : Splitting) (hunk : Hunk × ℕ) : Splitting :=
  let origHighlights := ((hunkHighlights.lookup hunk.2).getD ⟨∅⟩).matchedLines
  let pieces := splitAfter hunk.1.body []
  let lineInfo := computeDiffHunkInfo pieces origHighlights matchContextLines
  let st := splitLines matchContextLines maxLinesPerHunk hunk.1 origHighlights (pieces.zip lineInfo) 0
    ⟨none, [], ∅, 0, 0, 0, st.results, st.newHighlights⟩
  match st.cur with
  | some cur => st.finish cur
  | none => st

end Splitting

def splitHunkMatches (hunks : List Hunk) (hunkHighlights : IndexMap MatchedHunk)
    (matchContextLines maxLinesPerHunk : ℕ) : List Hunk × IndexMap MatchedHunk :=
  let st := hunks.zipIdx.foldl
    (Splitting.splitHunk matchContextLines maxLinesPerHunk hunkHighlights)
    ⟨none, [], ∅, 0, 0, 0, [], ∅⟩
  (st.results, st.newHighlights)

structure Output where
  buf : Bytes
  loc : Location
  ranges : List Range

/-- The loop that the files of a diff and the hunks of a file share: an item without a highlight
is skipped if there is any highlight, and after a number of items it ends. -/
def forHighlighted {α β : Type} (highlights : IndexMap β) (zero : β) (limit : ℕ)
    (body : Output → α → β → Output) : List (α × ℕ) → ℕ → Output → Output
  | [], _, out => out
  | (item, idx) :: rest, count, out =>
    if (highlights.lookup idx).isNone && highlights.size > 0 then
      forHighlighted highlights zero limit body rest count out
    else if count ≥ limit then out
    else forHighlighted highlights zero limit body rest (count + 1)
      (body out item ((highlights.lookup idx).getD zero))

def Output.endLine (out : Output) (text : Bytes) : Output :=
  let buf := out.buf ++ text ++ [newline]
  ⟨buf, ⟨buf.length, out.loc.line + 1, 0⟩, out.ranges⟩

def formatLine (hmh : MatchedHunk) (out : Output) (line : Bytes × ℕ) : Output :=
  match line.1 with
  | [] => out
  | origin :: lineWithoutPrefix =>
    let buf := out.buf ++ [origin]
    let loc : Location := ⟨buf.length, out.loc.line, 1⟩
    let ranges :=
      match hmh.matchedLines.lookup line.2 with
      | some lineHighlights => out.ranges ++ Ranges.add lineHighlights loc
      | none => out.ranges
    Output.endLine ⟨buf, loc, ranges⟩ lineWithoutPrefix

def headerText (hunk : Hunk) : Bytes :=
  bytes "@@ -" ++ formatInt hunk.origStartLine.toInt ++ bytes "," ++
    formatInt hunk.origLines.toInt ++ bytes " +" ++ formatInt hunk.newStartLine.toInt ++
    bytes "," ++ formatInt hunk.newLines.toInt ++ bytes " @@ " ++ hunk.sectionHeading.text

def formatHunk (out : Output) (hunk : Hunk) (hmh : MatchedHunk) : Output :=
  (readLines hunk.body []).zipIdx.foldl (formatLine hmh) (out.endLine (headerText hunk))

def formatFile (out : Output) (fileDiff : FileDiff) (fdh : MatchedFileDiff) : Output :=
  let ranges := out.ranges ++ Ranges.add fdh.oldFile out.loc
  let escaped := escape fileDiff.origName
  let buf := out.buf ++ escaped ++ [space]
  let loc : Location := ⟨buf.length, out.loc.line, escaped.length + 1⟩
  let out := Output.endLine ⟨buf, loc, ranges ++ Ranges.add fdh.newFile loc⟩
    (escape fileDiff.newName)
  let (filteredHunks, filteredHighlights) :=
    splitHunkMatches fileDiff.hunks fdh.matchedHunks matchContextLines maxLinesPerHunk
  forHighlighted filteredHighlights ⟨∅⟩ maxHunksPerFile formatHunk filteredHunks.zipIdx 0 out

def formatDiff (rawDiff : List FileDiff) (highlights : IndexMap MatchedFileDiff) :
    Bytes × List Range :=
  let out := forHighlighted highlights ⟨[], [], ∅⟩ maxFiles formatFile rawDiff.zipIdx 0
    ⟨[], ⟨0, 0, 0⟩, []⟩
  (out.buf, out.ranges)

def shown {α β : Type} (highlights : IndexMap β) (zero : β) (items : List (α × ℕ)) :
    List (α × β) :=
  (items.filter fun p => (highlights.lookup p.2).isSome || highlights.size = 0).map fun p =>
    (p.1, (highlights.lookup p.2).getD zero)

variable {α : Type}

theorem forHighlighted_eq (highlights : IndexMap β) (zero : β) (limit : ℕ)
    (body : Output → α → β → Output) (its : List (α × ℕ)) (cnt : ℕ) (out : Output) :
    forHighlighted highlights zero limit body its cnt out =
      ((shown highlights zero its).take (limit - cnt)).foldl (fun out p => body out p.1 p.2)
        out := by
  fun_induction forHighlighted highlights zero limit body its cnt out with
  | case1 => simp [shown]
  | case2 _ _ _ _ _ hsk ih =>
    simp only [Bool.and_eq_true, Option.isNone_iff_eq_none, decide_eq_true_eq] at hsk
    rw [ih, shown, shown, filter_cons_of_neg (by simp [hsk.1]; omega)]
  | case3 _ _ _ cnt =>
    rw [show limit - cnt = 0 by omega]
    rfl
  | case4 _ idx _ cnt _ hke _ ih =>
    have hke' : ((highlights.lookup idx).isSome || highlights.size = 0) = true := by
      cases hlk : highlights.lookup idx <;> simp_all
    rw [ih, shown, shown, filter_cons_of_pos (by simpa using hke'), map_cons,
      show limit - cnt = limit - (cnt + 1) + 1 by omega, take_succ_cons, foldl_cons]

theorem mem_shown {its : List α} (h : p ∈ shown highlights zero its.zipIdx) : p.1 ∈ its := by
  obtain ⟨q, hq, rfl⟩ := mem_map.mp h
  exact fst_mem_of_mem_zipIdx (mem_filter.mp hq).1

def bodyLines (body : Bytes) : List Bytes := (readLines body []).filter (· ≠ [])

def printedHunk (hunk : Hunk) : SearchResults.Hunk where
  oldStart := hunk.origStartLine.toInt
  newStart := hunk.newStartLine.toInt
  oldCount := hunk.origLines.toInt
  newCount := hunk.newLines.toInt
  header := hunk.sectionHeading.text
  lines := bodyLines hunk.body

def printedHunks (fileDiff : FileDiff) (fdh : MatchedFileDiff) : List Hunk :=
  let split := splitHunkMatches fileDiff.hunks fdh.matchedHunks matchContextLines maxLinesPerHunk
  ((shown split.2 ⟨∅⟩ split.1.zipIdx).take maxHunksPerFile).map Prod.fst

def printedFile (p : FileDiff × MatchedFileDiff) : DiffFile where
  origName := p.1.origName
  newName := p.1.newName
  hunks := (printedHunks p.1 p.2).map printedHunk

def printedFiles (rawDiff : List FileDiff) (highlights : IndexMap MatchedFileDiff) :
    List DiffFile :=
  ((shown highlights ⟨[], [], ∅⟩ rawDiff.zipIdx).take maxFiles).map printedFile

/-- The lines gitserver prints for a hunk: there is always a blank before the header. -/
def sentHunk (h : SearchResults.Hunk) : List Bytes :=
  (DiffText.hunkRange h ++ space :: h.header) :: h.lines

def sentFile (f : DiffFile) : List Bytes := DiffText.fileLine f :: f.hunks.flatMap sentHunk

theorem unlines_cons (lns : List Bytes) :
    unlines (line :: lns) = line ++ newline :: unlines lns := by
  simp [unlines]

theorem foldl_formatLine (lns : List (Bytes × ℕ)) :
    (lns.foldl (formatLine hmh) out).buf =
      out.buf ++ unlines ((lns.map Prod.fst).filter (· ≠ [])) := by
  induction lns generalizing out with
  | nil => simp [unlines]
  | cons line lns ih =>
    obtain ⟨text, idx⟩ := line
    rw [foldl_cons, ih]
    cases text with
    | nil => simp [formatLine]
    | cons b text => simp [formatLine, Output.endLine, unlines_cons]

theorem formatHunk_buf (out : Output) (hunk : Hunk) (hmh : MatchedHunk) :
    (formatHunk out hunk hmh).buf = out.buf ++ unlines (sentHunk (printedHunk hunk)) := by
  have hcls : bytes " @@ " = bytes " @@" ++ [space] := by decide
  unfold formatHunk sentHunk
  rw [foldl_formatLine, unlines_cons]
  simp [Output.endLine, headerText, DiffText.hunkRange, printedHunk, hcls, bodyLines]

theorem foldl_buf (h : ∀ out item, (body out item).buf = out.buf ++ text item) (its : List α)
    (out : Output) : (its.foldl body out).buf = out.buf ++ its.flatMap text := by
  induction its generalizing out with
  | nil => simp
  | cons item its ih => rw [foldl_cons, ih, h, flatMap_cons, append_assoc]

theorem unlines_flatMap (lns : α → List Bytes) (its : List α) :
    unlines (its.flatMap lns) = its.flatMap fun item => unlines (lns item) := by
  unfold unlines
  rw [flatMap_assoc]

theorem formatFile_buf (out : Output) (p : FileDiff × MatchedFileDiff) :
    (formatFile out p.1 p.2).buf = out.buf ++ unlines (sentFile (printedFile p)) := by
  unfold formatFile sentFile
  dsimp only
  rw [forHighlighted_eq, foldl_buf (fun out q => formatHunk_buf out q.1 q.2), unlines_cons,
    unlines_flatMap]
  simp only [Output.endLine, printedFile, printedHunks, DiffText.fileLine, flatMap_map,
    append_assoc, cons_append, nil_append, Nat.sub_zero]

theorem formatDiff_text :
    (formatDiff raw highlights).1 = unlines ((printedFiles raw highlights).flatMap sentFile) := by
  unfold formatDiff
  dsimp only
  rw [forHighlighted_eq, foldl_buf formatFile_buf, unlines_flatMap]
  simp only [printedFiles, flatMap_map, nil_append, Nat.sub_zero]

theorem readLines_cons : readLines (b :: data) cr =
    if b = newline then cr :: readLines data [] else readLines data (cr ++ [b]) := rfl

theorem splitAfter_eq (body : Bytes) {cr : Bytes} (hcur : newline ∉ cr) :
    ∃ lns last, (∀ line ∈ lns ++ [last], newline ∉ line) ∧
      splitAfter body cr = (lns.map fun line => line ++ [newline]) ++ [last] ∧
      readLines body cr = lns ++ if last = [] then [] else [last] := by
  fun_induction splitAfter body cr with
  | case1 cr =>
    refine ⟨[], cr, by simpa using hcur, rfl, ?_⟩
    cases cr <;> rfl
  | case2 _ cr ih =>
    obtain ⟨lns, last, hcln, hspl, hrd⟩ := ih (by simp)
    refine ⟨cr :: lns, last, forall_mem_cons.mpr ⟨hcur, hcln⟩, ?_, ?_⟩
    · rw [hspl]
      rfl
    · rw [readLines_cons, if_pos rfl, hrd]
      rfl
  | case3 _ _ _ hb ih =>
    obtain ⟨lns, last, hcln, hspl, hrd⟩ := ih (by simp [hcur, Ne.symm hb])
    refine ⟨lns, last, hcln, hspl, ?_⟩
    rw [readLines_cons, if_neg hb, hrd]

theorem readLines_line (hln : newline ∉ line) (current rest : Bytes) :
    readLines (line ++ newline :: rest) current = (current ++ line) :: readLines rest [] := by
  induction line generalizing current with
  | nil => rw [nil_append, readLines_cons, if_pos rfl, append_nil]
  | cons b line ih =>
    simp only [mem_cons, not_or] at hln
    rw [cons_append, readLines_cons, if_neg (Ne.symm hln.1), ih hln.2, append_assoc]
    rfl

theorem readLines_last {last : Bytes} (hla : newline ∉ last) (cr : Bytes) :
    readLines last cr = if cr ++ last = [] then [] else [cr ++ last] := by
  induction last generalizing cr with
  | nil =>
    cases cr with
    | nil => rfl
    | cons b cr => simp [readLines]
  | cons b last ih =>
    simp only [mem_cons, not_or] at hla
    rw [readLines_cons, if_neg (Ne.symm hla.1), ih hla.2, append_assoc]
    rfl

theorem readLines_unlines (h : ∀ line ∈ lns ++ [last], newline ∉ line) :
    readLines (unlines lns ++ last) [] = lns ++ if last = [] then [] else [last] := by
  induction lns with
  | nil =>
    have := @readLines_last last (h last (by simp)) []
    simpa [unlines] using this
  | cons line lns ih =>
    rw [unlines_cons, append_assoc, cons_append, readLines_line (h line (by simp)),
      ih (forall_mem_cons.mp h).2]
    rfl

theorem mem_readLines_of_sublist {pie : List Bytes} (h : pie.Sublist (splitAfter body []))
    (hln : line ∈ readLines pie.flatten []) : line ∈ readLines body [] := by
  obtain ⟨lns, last, hcln, hspl, hrd⟩ := @splitAfter_eq body [] (by simp)
  rw [hspl] at h
  obtain ⟨fr, back, rfl, hfro, hba⟩ := sublist_append_iff.mp h
  obtain ⟨lns', hlin', rfl⟩ := sublist_map_iff.mp hfro
  have hunl : (lns'.map fun line => line ++ [newline]).flatten = unlines lns' :=
    (flatMap_def ..).symm
  rw [flatten_append, hunl] at hln
  rw [hrd]
  rcases sublist_singleton.mp hba with rfl | rfl
  · have hcln' : ∀ l ∈ lns' ++ [[]], newline ∉ l := by
      intro l hl
      rcases mem_append.mp hl with hl | hl
      · exact hcln l (mem_append_left _ (hlin'.subset hl))
      · simp [mem_singleton.mp hl]
    rw [flatten_nil, readLines_unlines hcln'] at hln
    exact mem_append_left _ (hlin'.subset (by simpa using hln))
  · have hsub := (hlin'.append_right [last]).subset
    rw [flatten_singleton, readLines_unlines fun l hl => hcln l (hsub hl)] at hln
    exact (hlin'.append_right _).subset hln

theorem readLines_single_line (h : line ∈ readLines body []) : newline ∉ line := by
  obtain ⟨lns, last, hcln, _, hrd⟩ := @splitAfter_eq body [] (by simp)
  rw [hrd] at h
  rcases mem_append.mp h with h | h
  · exact hcln line (mem_append_left _ h)
  split at h
  · simp at h
  · exact hcln line (mem_append_right _ h)

theorem computeLineInfo_length (lh : IndexMap (List Range)) (ctx : ℕ) :
    (computeLineInfo lh ctx lin line).length = lin.length := by
  unfold computeLineInfo
  dsimp only
  split
  · rw [markContext, length_mapIdx, length_modify]
  · rw [length_modify]

theorem computeDiffHunkInfo_length (lns : List Bytes) (lh : IndexMap (List Range))
    (ctx : ℕ) : (computeDiffHunkInfo lns lh ctx).length = lns.length := by
  refine foldlRecOn (motive := (length · = lns.length)) lns.zipIdx _ (length_map _) ?_
  intro lin h line _
  rw [computeLineInfo_length, h]

namespace Splitting

structure Step (st : Splitting) (line : Bytes) (st' : Splitting) : Prop where
  curLines : st'.curLines = st.curLines ∨ st'.curLines = st.curLines ++ [line] ∨ st'.curLines = []
  results : st'.results = st.results ∨
    ∃ r : Hunk, st'.results = st.results ++ [r] ∧ r.body = st.curLines.flatten

theorem splitLine_step (ctx mx : ℕ) (hunk : Hunk)
    (highlights : List Range) (line : Bytes) (info : DiffHunkLineInfo) (st : Splitting) :
    Step st line (splitLine ctx mx hunk highlights line info st) := by
  fun_cases splitLine ctx mx hunk highlights line info st with
  | case3 => exact ⟨.inr (.inl rfl), .inl rfl⟩
  | case4 => exact ⟨.inr (.inr rfl), .inr ⟨_, rfl, rfl⟩⟩
  | _ => exact ⟨.inl rfl, .inl rfl⟩

def CutFrom (hunks : List Hunk) (r : Hunk) : Prop :=
  ∃ h ∈ hunks, ∃ pieces : List Bytes, pieces.Sublist (splitAfter h.body []) ∧
    r.body = pieces.flatten

theorem splitLines_cut {hunks : List Hunk} {hunk : Hunk} (hmem : hunk ∈ hunks)
    (ctx mx : ℕ) (oh : IndexMap (List Range)) {rest : List (Bytes × DiffHunkLineInfo)} (i : ℕ)
    {st : Splitting} (h : (st.curLines ++ rest.map Prod.fst).Sublist (splitAfter hunk.body []))
    (hres : ∀ r ∈ st.results, CutFrom hunks r) :
    (∀ r ∈ (splitLines ctx mx hunk oh rest i st).results, CutFrom hunks r) ∧
    (splitLines ctx mx hunk oh rest i st).curLines.Sublist (splitAfter hunk.body []) := by
  have hdo := (sublist_append_left ..).trans h
  fun_induction splitLines ctx mx hunk oh rest i st with
  | case1 | case2 => exact ⟨hres, hdo⟩
  | case3 line info rest i st _ ih =>
    have hst := splitLine_step ctx mx hunk ((oh.lookup i).getD []) line info st
    have h' : ((splitLine ctx mx hunk ((oh.lookup i).getD []) line info st).curLines ++
        rest.map Prod.fst).Sublist (splitAfter hunk.body []) := by
      refine Sublist.trans ?_ h
      rcases hst.curLines with heq | heq | heq
      · rw [heq]
        exact (sublist_cons_self ..).append_left _
      · simp [heq]
      · rw [heq]
        exact (sublist_cons_self ..).trans (sublist_append_right ..)
    refine ih h' ?_ ((sublist_append_left ..).trans h')
    intro r hr
    rcases hst.results with heq | ⟨r', heq, hbo⟩
    · exact hres r (heq ▸ hr)
    rw [heq] at hr
    rcases mem_append.mp hr with hr | hr
    · exact hres r hr
    rw [mem_singleton.mp hr]
    exact ⟨hunk, hmem, _, hdo, hbo⟩

theorem splitHunk_cut (hmem : hunk.1 ∈ hunks) (ctx mx : ℕ)
    (hunkHighlights : IndexMap MatchedHunk) (hres : ∀ r ∈ st.results, CutFrom hunks r) :
    ∀ r ∈ (splitHunk ctx mx hunkHighlights st hunk).results, CutFrom hunks r := by
  unfold splitHunk
  dsimp only
  generalize hst : splitLines _ _ _ _ _ _ _ = st'
  obtain ⟨hcut, hcur⟩ : (∀ r ∈ st'.results, CutFrom hunks r) ∧
      st'.curLines.Sublist (splitAfter hunk.1.body []) := by
    rw [← hst]
    refine splitLines_cut hmem _ _ _ _ ?_ hres
    rw [nil_append, map_fst_zip (by rw [computeDiffHunkInfo_length])]
  split
  · intro r hr
    rcases mem_append.mp hr with hr | hr
    · exact hcut r hr
    rw [mem_singleton.mp hr]
    exact ⟨hunk.1, hmem, _, hcur, rfl⟩
  · exact hcut

end Splitting

theorem splitHunkMatches_cut (hunkHighlights : IndexMap MatchedHunk) (ctx mx : ℕ) :
    ∀ r ∈ (splitHunkMatches hunks hunkHighlights ctx mx).1, Splitting.CutFrom hunks r := by
  refine foldlRecOn (motive := fun st : Splitting => ∀ r ∈ st.results, Splitting.CutFrom hunks r)
    hunks.zipIdx _ (by simp) fun st hst item hit => ?_
  exact Splitting.splitHunk_cut (fst_mem_of_mem_zipIdx hit) _ _ _ hst

end DiffFormat
