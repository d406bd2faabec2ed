import Sourcegraph.RegexSearch

/-! # The match limit of the searcher

A call of `Send` subtracts its count from what remains in one atomic step. What it passes on and
whether it hits the limit depends only on the values before and after. -/
namespace LimitedStream

open RegexSearch List
open SearchResults (ChunkMatch matchCount matchCount_cons)

def FileMatch.matchCount (fm : FileMatch) : ℕ :=
  if fm.chunkMatches.length = 0 then 1 else SearchResults.matchCount fm.chunkMatches

/-- The loop of `FileMatch.Limit`; `none` if nothing is cut off. -/
def limitFrom : ℕ → List ChunkMatch → Option (List ChunkMatch)
  | _, [] => none
  | limit, c :: rest =>
    if c.ranges.length ≤ limit then (limitFrom (limit - c.ranges.length) rest).map (c :: ·)
    else if limit > 0 then some [{ c with ranges := c.ranges.take limit }]
    else some []

def FileMatch.limit (limit : ℕ) (fm : FileMatch) : FileMatch :=
  match limitFrom limit fm.chunkMatches with
  | none => fm
  | some chunkMatches => { fm with chunkMatches, limitHit := true }

/-- The calls of the callback, and whether the limit is hit. -/
structure Sent where
  passed : List FileMatch
  hit : Bool

def send (fm : FileMatch) (before after : ℤ) : Sent :=
  if after > 0 then ⟨[fm], false⟩
  else if before ≤ 0 then ⟨[], false⟩
  else if after = 0 then ⟨[fm], true⟩
  else ⟨[FileMatch.limit before.toNat fm], true⟩

/-- The calls in the order of their subtractions. -/
def sends : ℤ → List FileMatch → List Sent
  | _, [] => []
  | remaining, fm :: rest =>
    let after := remaining - FileMatch.matchCount fm
    send fm (after + FileMatch.matchCount fm) after :: sends after rest

inductive Cut : List ChunkMatch → List ChunkMatch → Prop
  | nil (chunks : List ChunkMatch) : Cut chunks []
  | within (c : ChunkMatch) (n : ℕ) (rest : List ChunkMatch) :
    Cut (c :: rest) [{ c with ranges := c.ranges.take n }]
  | cons (c : ChunkMatch) {rest kept : List ChunkMatch} (h : Cut rest kept) :
    Cut (c :: rest) (c :: kept)

/-- A file match as it was offered, or with its last ranges cut off. -/
def Truncation (fm fm' : FileMatch) : Prop :=
  fm' = fm ∨ Cut fm.chunkMatches fm'.chunkMatches ∧ fm' = ⟨fm.path, fm'.chunkMatches, true⟩

theorem limitFrom_spec (h : limit < matchCount cks) :
    ∃ kept, limitFrom limit cks = some kept ∧ Cut cks kept ∧ matchCount kept = limit := by
  fun_induction limitFrom limit cks with
  | case1 => cases h
  | case2 limit c rest _ ih =>
    rw [matchCount_cons] at h
    obtain ⟨kept, hkp, hcut, hcn⟩ := ih (by omega)
    refine ⟨c :: kept, by rw [hkp]; rfl, .cons c hcut, ?_⟩
    rw [matchCount_cons]
    omega
  | case3 limit c rest =>
    refine ⟨_, rfl, .within c limit rest, ?_⟩
    rw [matchCount_cons, length_take, matchCount, map_nil, sum_nil]
    omega
  | case4 => exact ⟨[], rfl, .nil _, by simp [matchCount]; omega⟩

def offered (fms : List FileMatch) : ℕ := (fms.map FileMatch.matchCount).sum

structure Passes (fm : FileMatch) (before after : ℤ) (s : Sent) : Prop where
  truncation : ∀ fm' ∈ s.passed, Truncation fm fm'
  count : (offered s.passed : ℤ) = max before 0 - max after 0
  hit : s.hit = true ↔ 0 < before ∧ after ≤ 0

theorem send_passes {pre post : ℤ} (h : pre - post = FileMatch.matchCount fm) :
    Passes fm pre post (send fm pre post) := by
  have hwh : ∀ fm' ∈ [fm], Truncation fm fm' := forall_mem_singleton.mpr (.inl rfl)
  unfold send
  split
  · exact ⟨hwh, by simp [offered]; omega, by simp; omega⟩
  split
  · exact ⟨by simp, by simp [offered]; omega, by simp; omega⟩
  split
  · exact ⟨hwh, by simp [offered]; omega, by simp; omega⟩
  have hli : pre.toNat < FileMatch.matchCount fm := by omega
  unfold FileMatch.matchCount at hli
  split at hli
  · omega
  obtain ⟨kept, hkp, hcut, hcn⟩ := limitFrom_spec hli
  have hne : kept.length ≠ 0 := by
    intro hnil
    rw [length_eq_zero_iff.mp hnil] at hcn
    have : 0 = pre.toNat := hcn
    omega
  rw [FileMatch.limit, hkp]
  refine ⟨forall_mem_singleton.mpr (.inr ⟨hcut, rfl⟩), ?_, by simp; omega⟩
  simp [offered, FileMatch.matchCount, hne, hcn]
  omega

theorem sends_spec (limit : ℤ) (fms : List FileMatch) :
    Forall₂ (fun fm s => ∀ fm' ∈ Sent.passed s, Truncation fm fm') fms (sends limit fms) ∧
      (offered ((sends limit fms).flatMap Sent.passed) : ℤ) =
        max limit 0 - max (limit - offered fms) 0 ∧
      ((∃ s ∈ sends limit fms, s.hit = true) ↔ 0 < limit ∧ limit ≤ offered fms) := by
  induction fms generalizing limit with
  | nil => exact ⟨.nil, by simp [sends, offered], by simp [sends, offered]⟩
  | cons fm fms ih =>
    obtain ⟨htr, hto, hhit⟩ := ih (limit - FileMatch.matchCount fm)
    have hse := @send_passes fm limit (limit - FileMatch.matchCount fm) (by omega)
    have hof : offered (fm :: fms) = FileMatch.matchCount fm + offered fms := rfl
    rw [sends]
    simp only [Int.sub_add_cancel]
    refine ⟨.cons hse.truncation htr, ?_, ?_⟩
    · have hcn := hse.count
      rw [flatMap_cons]
      simp only [offered, map_append, sum_append] at *
      omega
    · rw [exists_mem_cons_iff, hse.hit, hhit]
      omega

/-- Whatever the order of the subtractions, the limit is used up, and it is hit if and only if
that many matches are offered. -/
theorem limited_exact {limit : ℤ} (h : 0 < limit) (fms : List FileMatch) :
    Forall₂ (fun fm s => ∀ fm' ∈ Sent.passed s, Truncation fm fm') fms (sends limit fms) ∧
      (offered ((sends limit fms).flatMap Sent.passed) : ℤ) = min limit (offered fms) ∧
      ((∃ s ∈ sends limit fms, s.hit = true) ↔ limit ≤ offered fms) := by
  obtain ⟨htr, hto, hhit⟩ := sends_spec limit fms
  refine ⟨htr, ?_, ?_⟩
  · omega
  · rw [hhit]
    exact and_iff_right h

theorem two_paths_limited : ∃ s ∈ sends 1 [⟨[1], [], false⟩, ⟨[2], [], false⟩], s.hit = true :=
  (limited_exact (by decide) _).2.2.mpr (by decide)

end LimitedStream
