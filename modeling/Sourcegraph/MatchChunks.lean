import Sourcegraph.SearchResults

/-! # From match offsets to chunks of lines

Offsets are within buffers shorter than 2^31, so that the conversions to `int32` change nothing. -/
namespace MatchChunks

open GoStrings SearchResults

def newline : UInt8 := 0x0A

def lastIndexByte (buf : Bytes) (b : UInt8) : Option ℕ :=
  (buf.reverse.findIdx? (· == b)).map fun i => buf.length - 1 - i

def indexByte (buf : Bytes) (b : UInt8) : Option ℕ := buf.findIdx? (· == b)

def slice (buf : Bytes) (start stop : ℕ) : Bytes := (buf.take stop).drop start

def locsToRangesFrom (buf : Bytes) (prevEnd prevEndLine : ℕ) : List (ℕ × ℕ) → List Range
  | [] => []
  | (start, stop) :: locs =>
    let startLine := prevEndLine + (slice buf prevEnd start).count newline
    let endLine := startLine + (slice buf start stop).count newline
    let firstLineStart := ((lastIndexByte (buf.take start) newline).map (· + 1)).getD 0
    let lastLineStart := ((lastIndexByte (buf.take stop) newline).map (· + 1)).getD firstLineStart
    { start := ⟨start, startLine, runeCount (slice buf firstLineStart start)⟩
      stop := ⟨stop, endLine, runeCount (slice buf lastLineStart stop)⟩ } ::
      locsToRangesFrom buf stop endLine locs

def locsToRanges (buf : Bytes) (locs : List (ℕ × ℕ)) : List Range := locsToRangesFrom buf 0 0 locs

structure RangeChunk where
  cover : Range
  ranges : List Range
  deriving DecidableEq

/-- A range joins the last chunk if it starts close enough to its end. -/
def addRange (interChunkLines : ℤ) (chunks : List RangeChunk) (rr : Range) : List RangeChunk :=
  match chunks.getLast? with
  | none => [⟨rr, [rr]⟩]
  | some last =>
    if last.cover.stop.line + interChunkLines ≥ rr.start.line then
      chunks.dropLast ++ [{
        cover := if rr.stop.offset > last.cover.stop.offset then { last.cover with stop := rr.stop }
          else last.cover
        ranges := last.ranges ++ [rr] }]
    else chunks ++ [⟨rr, [rr]⟩]

def chunkRanges (ranges : List Range) (interChunkLines : ℤ) : List RangeChunk :=
  (ranges.mergeSort fun a b => a.start.offset ≤ b.start.offset).foldl (addRange interChunkLines) []

def chunkToMatch (buf : Bytes) (chunk : RangeChunk) : ChunkMatch :=
  let start := chunk.cover.start.offset.toNat
  let stop := chunk.cover.stop.offset.toNat
  let firstLineStart := ((lastIndexByte (buf.take start) newline).map (· + 1)).getD 0
  let lastLineEnd := ((indexByte (buf.drop stop) newline).map (stop + ·)).getD buf.length
  { content := slice buf firstLineStart lastLineEnd
    contentStart := ⟨firstLineStart, chunk.cover.start.line, 0⟩
    ranges := chunk.ranges }

def chunksToMatches (buf : Bytes) (chunks : List RangeChunk) : List ChunkMatch :=
  chunks.map (chunkToMatch buf)

theorem locsToRangesFrom_length : (locsToRangesFrom buf prev pre locs).length = locs.length := by
  induction locs generalizing prev pre with
  | nil => rfl
  | cons loc locs ih => rw [locsToRangesFrom, List.length_cons, ih, List.length_cons]

theorem addRange_ne_nil : addRange int cks rr ≠ [] := by
  unfold addRange
  split
  · simp
  · split <;> simp

theorem foldl_addRange_ne_nil (h : cks ≠ []) (rgs : List Range) :
    rgs.foldl (addRange int) cks ≠ [] := by
  induction rgs generalizing cks with
  | nil => exact h
  | cons rr rgs ih => exact ih addRange_ne_nil

theorem chunkRanges_ne_nil (h : rgs ≠ []) : chunkRanges rgs int ≠ [] := by
  unfold chunkRanges
  have hlen := (List.mergeSort_perm rgs fun a b => a.start.offset ≤ b.start.offset).length_eq
  generalize rgs.mergeSort _ = srt at hlen ⊢
  cases srt with
  | nil => exact absurd (List.length_eq_zero_iff.mp hlen.symm) h
  | cons rr rest => exact foldl_addRange_ne_nil addRange_ne_nil rest

theorem chunks_ne_nil (h : locs ≠ []) :
    chunksToMatches buf (chunkRanges (locsToRanges buf locs) int) ≠ [] := by
  have hran : locsToRanges buf locs ≠ [] := by
    rw [← List.length_pos_iff, locsToRanges, locsToRangesFrom_length]
    exact List.length_pos_iff.mpr h
  rw [chunksToMatches, ne_eq, List.map_eq_nil_iff]
  exact chunkRanges_ne_nil hran

end MatchChunks
