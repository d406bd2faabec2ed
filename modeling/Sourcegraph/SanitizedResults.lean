import Sourcegraph.SearchResults

/-! # Results without offending matches

The loops filter their slices in place: what is kept is written over what was read before. -/
namespace SanitizedResults

open GoStrings SearchResults List

/-- A compiled pattern is its `MatchString`. -/
structure SanitizeJob where
  sanitizePatterns : List (Bytes → Bool)

variable (j : SanitizeJob)

def matchesAnySanitizePattern (val : Bytes) : Bool := j.sanitizePatterns.any fun re => re val

/-- The slicing of `MatchedContent` panics on other ranges. -/
def InContent (chunk : ChunkMatch) (r : Range) : Prop :=
  chunk.contentStart.offset ≤ r.start.offset ∧ r.start.offset ≤ r.stop.offset ∧
    r.stop.offset ≤ chunk.contentStart.offset + chunk.content.length

instance : Decidable (InContent chunk r) := inferInstanceAs (Decidable (_ ∧ _))

def offends (chunk : ChunkMatch) (r : Range) : Bool :=
  matchesAnySanitizePattern j
    ((chunk.content.take (r.stop.offset - chunk.contentStart.offset).toNat).drop
      (r.start.offset - chunk.contentStart.offset).toNat)

def sanitizeChunk (chunk : ChunkMatch) : ChunkMatch :=
  { chunk with ranges := chunk.ranges.filter fun r => !offends j chunk r }

/-- No answer is the panic of `MatchedContent`. -/
def sanitizeFileMatch (fm : FileMatch) : Option (Option FileMatch) :=
  if fm.symbols.length > 0 then some (some fm)
  else if ∀ chunk ∈ fm.chunkMatches, ∀ r ∈ chunk.ranges, InContent chunk r then
    let chunks := (fm.chunkMatches.map (sanitizeChunk j)).filter (·.ranges ≠ [])
    some (if chunks = [] then none else some { fm with chunkMatches := chunks })
  else none

def sanitizeCommitMatch (cm : CommitMatch) : Option CommitMatch :=
  match cm.diffPreview with
  | none => some cm
  | some preview => if matchesAnySanitizePattern j preview.content then none else some cm

def sanitizeMatch : Match → Option (Option Match)
  | .file fm => (sanitizeFileMatch j fm).map (Option.map .file)
  | .commit cm => some ((sanitizeCommitMatch j cm).map .commit)
  | .repo r => some (some (.repo r))
  | _ => some none

def sanitizeEvent (event : SearchEvent) : Option SearchEvent :=
  (event.results.filterMapM (sanitizeMatch j)).map fun results => { event with results }

def withoutRanges (chunk : ChunkMatch) : Option ChunkMatch :=
  if (sanitizeChunk j chunk).ranges = [] ∧ chunk.ranges ≠ [] then none
  else some (sanitizeChunk j chunk)

def withoutChunks (fm : FileMatch) : Option FileMatch :=
  let chunks := fm.chunkMatches.filterMap (withoutRanges j)
  if chunks = [] ∧ fm.chunkMatches ≠ [] then none else some { fm with chunkMatches := chunks }

/-- What is left of a result when nothing but the offending matches is removed. -/
def sanitized : Match → Option Match
  | .file fm => (withoutChunks j fm).map .file
  | .commit cm => (sanitizeCommitMatch j cm).map .commit
  | .commitDiff cd =>
    if matchesAnySanitizePattern j cd.preview.content then none else some (.commitDiff cd)
  | m => some m

def Handled : Match → Prop
  | .file fm =>
    if fm.symbols.length > 0 then
      ∀ chunk ∈ fm.chunkMatches, ∀ r ∈ chunk.ranges, offends j chunk r = false
    else fm.chunkMatches ≠ [] ∧ ∀ chunk ∈ fm.chunkMatches,
      chunk.ranges ≠ [] ∧ ∀ r ∈ chunk.ranges, InContent chunk r
  | .commitDiff cd => matchesAnySanitizePattern j cd.preview.content = true
  | .owner _ => False
  | _ => True

theorem withoutChunks_eq_self (fm : FileMatch) : some fm = withoutChunks j fm ↔
    ∀ c ∈ fm.chunkMatches, ∀ r ∈ c.ranges, offends j c r = false := by
  constructor
  · intro h c hc r hr
    obtain ⟨-, h⟩ := Option.ite_none_left_eq_some.mp h.symm
    rw [← congrArg FileMatch.chunkMatches (Option.some.inj h)] at hc
    obtain ⟨c', -, hc⟩ := mem_filterMap.mp hc
    obtain ⟨-, hc⟩ := Option.ite_none_left_eq_some.mp hc
    cases hc
    exact (Bool.not_eq_true' _).mp (mem_filter.mp hr).2
  · intro h
    have hall : ∀ c ∈ fm.chunkMatches, withoutRanges j c = some c := by
      intro c hc
      have hcs : sanitizeChunk j c = c := by
        rw [sanitizeChunk, filter_eq_self.mpr fun r hr => by rw [h c hc r hr]; rfl]
      simp [withoutRanges, hcs]
    rw [withoutChunks, filterMap_congr hall, filterMap_some]
    simp

theorem filter_sanitized {cs : List ChunkMatch} (h : ∀ c ∈ cs, c.ranges ≠ []) :
    (cs.map (sanitizeChunk j)).filter (·.ranges ≠ []) = cs.filterMap (withoutRanges j) := by
  rw [← filterMap_eq_filter, filterMap_map]
  refine filterMap_congr fun c hc => ?_
  simp [withoutRanges, h c hc, Option.guard]

theorem sanitizeFileMatch_iff (fm : FileMatch) :
    sanitizeFileMatch j fm = some (withoutChunks j fm) ↔ Handled j (.file fm) := by
  rw [sanitizeFileMatch, Handled]
  split
  · rw [Option.some.injEq, withoutChunks_eq_self]
  constructor
  · intro h
    obtain ⟨hin, h⟩ := Option.ite_none_right_eq_some.mp h
    have hne : fm.chunkMatches ≠ [] := fun hnil => by simp [hnil, withoutChunks] at h
    refine ⟨hne, fun c hc => ⟨fun hnil => ?_, hin c hc⟩⟩
    have hmem : sanitizeChunk j c ∈ fm.chunkMatches.filterMap (withoutRanges j) :=
      mem_filterMap.mpr ⟨c, hc, if_neg fun hs => hs.2 hnil⟩
    rw [withoutChunks, if_neg fun hs => ne_nil_of_mem hmem hs.1, Option.some.injEq] at h
    obtain ⟨-, h⟩ := Option.ite_none_left_eq_some.mp h
    injection Option.some.inj h with _ hcs
    exact absurd (mem_filter.mp (hcs ▸ hmem)).2 (by simp [sanitizeChunk, hnil])
  · rintro ⟨hne, hall⟩
    rw [if_pos fun c hc => (hall c hc).2, filter_sanitized j fun c hc => (hall c hc).1]
    simp [withoutChunks, hne]

theorem sanitizeMatch_iff (m : Match) :
    sanitizeMatch j m = some (sanitized j m) ↔ Handled j m := by
  cases m with
  | file fm =>
    rw [← sanitizeFileMatch_iff]
    have hinj := Option.map_injective (Option.map_injective fun _ _ => Match.file.inj)
    exact hinj.eq_iff (b := some _)
  | _ => simp [sanitizeMatch, sanitized, Handled]

theorem filterMapM_eq_some {f : α → Option (Option β)} {ms : List α} {rs : List β} :
    ms.filterMapM f = some rs ↔
      (∀ m ∈ ms, (f m).isSome = true) ∧ rs = ms.filterMap fun m => (f m).join := by
  induction ms generalizing rs with
  | nil =>
    rw [filterMapM_nil, Option.pure_def, Option.some.injEq, filterMap_nil]
    exact ⟨fun h => ⟨forall_mem_nil _, h.symm⟩, fun h => h.2.symm⟩
  | cons m ms ih =>
    rw [filterMapM_cons, forall_mem_cons, filterMap_cons]
    rcases hm : f m with _ | _ | r
    · simp
    · simpa using ih
    simp only [Option.bind_eq_bind, Option.bind_some, Option.bind_eq_some_iff, ih,
      Option.pure_def, Option.some.injEq, Option.isSome_some, true_and, Option.join_some]
    constructor
    · rintro ⟨rs', ⟨hms, rfl⟩, rfl⟩
      exact ⟨hms, rfl⟩
    · rintro ⟨hms, rfl⟩
      exact ⟨_, ⟨hms, rfl⟩, rfl⟩

/-- Two filters with the same results, one of which keeps whatever the other one keeps. -/
theorem filterMap_pointwise {f g : α → Option β} {ms : List α}
    (hk : ∀ m ∈ ms, (g m).isSome = true → (f m).isSome = true)
    (h : ms.filterMap f = ms.filterMap g) : ∀ m ∈ ms, f m = g m := by
  induction ms with
  | nil => exact forall_mem_nil _
  | cons m ms ih =>
    obtain ⟨hm, hms⟩ := forall_mem_cons.mp hk
    rw [filterMap_cons, filterMap_cons] at h
    rw [forall_mem_cons]
    cases hf : f m with
    | none =>
      have hg : g m = none := by simpa [hf] using hm
      rw [hf, hg] at h
      exact ⟨hg.symm, ih hms h⟩
    | some r =>
      rw [hf] at h
      cases hg : g m with
      | some r' =>
        rw [hg] at h
        exact ⟨congrArg some (cons.inj h).1, ih hms (cons.inj h).2⟩
      | none =>
        -- the other filter would have to make up for what it drops here
        rw [hg] at h
        have hle : (ms.filterMap g).length ≤ (ms.filterMap f).length := by
          rw [length_filterMap_eq_countP, length_filterMap_eq_countP]
          exact countP_mono_left hms
        have hlen := congrArg length h
        simp only [length_cons] at hlen
        omega

theorem filter_filterMap_kept {f : α → Option β} {p : β → Bool} {q : α → Bool}
    (h : ∀ m r, f m = some r → p r = q m) (ms : List α) :
    (ms.filterMap f).filter p = (ms.filter q).filterMap f := by
  rw [filter_filterMap, filterMap_filter]
  refine filterMap_congr fun m _ => ?_
  cases hm : f m with
  | none => simp
  | some r => simp [Option.filter, h m r hm]

def hasSymbols : Match → Bool
  | .file fm => fm.symbols.length > 0
  | _ => false

theorem sanitizeFileMatch_kept (h : sanitizeFileMatch j fm = some (some fm')) :
    fm'.symbols = fm.symbols ∧
      (fm.symbols.length > 0 ∨ ∃ c ∈ fm.chunkMatches, (sanitizeChunk j c).ranges ≠ []) := by
  unfold sanitizeFileMatch at h
  split at h
  · rename_i hs
    cases h
    exact ⟨rfl, .inl hs⟩
  obtain ⟨-, h⟩ := Option.ite_none_right_eq_some.mp h
  obtain ⟨hne, h⟩ := Option.ite_none_left_eq_some.mp (Option.some.inj h)
  cases h
  obtain ⟨_, hmem⟩ := exists_mem_of_ne_nil _ hne
  obtain ⟨hmem, hr⟩ := mem_filter.mp hmem
  obtain ⟨c, hc, rfl⟩ := mem_map.mp hmem
  exact ⟨rfl, .inr ⟨c, hc, by simpa using hr⟩⟩

theorem kept_file (h : (sanitizeMatch j (.file fm)).join = some r) :
    ∃ fm', r = .file fm' ∧ sanitizeFileMatch j fm = some (some fm') := by
  unfold sanitizeMatch at h
  rcases hf : sanitizeFileMatch j fm with _ | _ | fm'
  · simp [hf] at h
  · simp [hf] at h
  · simp only [hf, Option.map_some, Option.join_some, Option.some.injEq] at h
    exact ⟨fm', h.symm, rfl⟩

theorem kept_hasSymbols (h : (sanitizeMatch j m).join = some r) : hasSymbols r = hasSymbols m := by
  cases m with
  | file fm =>
    obtain ⟨fm', rfl, hfm⟩ := kept_file j h
    rw [hasSymbols, (sanitizeFileMatch_kept j hfm).1, hasSymbols]
  | commit cm =>
    obtain ⟨cm', hcm, rfl⟩ := Option.map_eq_some_iff.mp h
    rfl
  | repo => cases h; rfl
  | _ => cases h

theorem sanitized_hasSymbols (h : sanitized j m = some r) : hasSymbols r = hasSymbols m := by
  cases m with
  | file fm =>
    obtain ⟨fm', hfm, rfl⟩ := Option.map_eq_some_iff.mp h
    obtain ⟨-, hfm⟩ := Option.ite_none_left_eq_some.mp hfm
    cases hfm
    rfl
  | commit cm =>
    obtain ⟨cm', hcm, rfl⟩ := Option.map_eq_some_iff.mp h
    rfl
  | commitDiff cd =>
    obtain ⟨-, h⟩ := Option.ite_none_left_eq_some.mp h
    cases h
    rfl
  | _ => cases h; rfl

/-- Only a file match with symbols can be kept that has to be dropped. -/
theorem sanitized_of_kept (hs : hasSymbols m = false)
    (h : (sanitizeMatch j m).join.isSome = true) : (sanitized j m).isSome = true := by
  cases m with
  | file fm =>
    obtain ⟨r, hr⟩ := Option.isSome_iff_exists.mp h
    obtain ⟨fm', rfl, hfm⟩ := kept_file j hr
    have hnot : ¬ fm.symbols.length > 0 := of_decide_eq_false hs
    obtain ⟨c, hc, hne⟩ := (sanitizeFileMatch_kept j hfm).2.resolve_left hnot
    have hmem : sanitizeChunk j c ∈ fm.chunkMatches.filterMap (withoutRanges j) :=
      mem_filterMap.mpr ⟨c, hc, if_neg fun hs => hne hs.1⟩
    rw [sanitized, withoutChunks, if_neg fun hs => ne_nil_of_mem hmem hs.1]
    rfl
  | commit cm => exact h
  | repo => rfl
  | _ => cases h

theorem kept_of_hasSymbols (hs : hasSymbols m = true) : (sanitizeMatch j m).join.isSome = true := by
  cases m with
  | file fm =>
    have hpos : fm.symbols.length > 0 := of_decide_eq_true hs
    simp [sanitizeMatch, sanitizeFileMatch, hpos]
  | _ => cases hs

/-- No result makes up for another one: what is kept too much has symbols, and what is dropped too
much has none. -/
theorem kept_pointwise {ms : List Match}
    (h : ms.filterMap (fun m => (sanitizeMatch j m).join) = ms.filterMap (sanitized j)) :
    ∀ m ∈ ms, (sanitizeMatch j m).join = sanitized j m := by
  have hpart : ∀ p : Match → Bool, (∀ m r, (sanitizeMatch j m).join = some r → p r = p m) →
      (∀ m r, sanitized j m = some r → p r = p m) →
      (ms.filter p).filterMap (fun m => (sanitizeMatch j m).join) =
        (ms.filter p).filterMap (sanitized j) := by
    intro p hf hg
    rw [← filter_filterMap_kept hf, h, filter_filterMap_kept hg]
  intro m hm
  cases hs : hasSymbols m with
  | true =>
    refine filterMap_pointwise (fun m' hm' _ => ?_) (hpart hasSymbols
      (fun _ _ => kept_hasSymbols j) fun _ _ => sanitized_hasSymbols j) m (mem_filter.mpr ⟨hm, hs⟩)
    exact kept_of_hasSymbols j (mem_filter.mp hm').2
  | false =>
    refine (filterMap_pointwise (fun m' hm' hk => ?_) (hpart (fun m => !hasSymbols m)
      (fun _ _ hr => by rw [kept_hasSymbols j hr]) fun _ _ hr => by
        rw [sanitized_hasSymbols j hr]).symm m (mem_filter.mpr ⟨hm, by simp [hs]⟩)).symm
    exact sanitized_of_kept j (by simpa using (mem_filter.mp hm').2) hk

theorem sanitized_exactly_iff (event : SearchEvent) :
    sanitizeEvent j event =
      some { event with results := event.results.filterMap (sanitized j) } ↔
    ∀ m ∈ event.results, Handled j m := by
  simp only [← sanitizeMatch_iff, sanitizeEvent, Option.map_eq_some_iff, filterMapM_eq_some]
  constructor
  · rintro ⟨rs, ⟨hall, rfl⟩, h⟩ m hm
    obtain ⟨o, ho⟩ := Option.isSome_iff_exists.mp (hall m hm)
    have hj := kept_pointwise j (congrArg SearchEvent.results h) m hm
    rw [ho, Option.join_some] at hj
    rw [ho, hj]
  · intro h
    refine ⟨_, ⟨fun m hm => by rw [h m hm]; rfl, rfl⟩, ?_⟩
    rw [filterMap_congr fun m hm => by rw [h m hm, Option.join_some]]

theorem path_match_dropped :
    let fm : FileMatch := ⟨⟨none, ⟨1, []⟩, [], []⟩, [], [], [⟨⟨0, 0, 0⟩, ⟨3, 0, 3⟩⟩], false⟩
    sanitizeEvent ⟨[]⟩ ⟨[.file fm], {}⟩ = some ⟨[], {}⟩ ∧
      sanitized ⟨[]⟩ (.file fm) = some (.file fm) :=
  ⟨rfl, rfl⟩

end SanitizedResults
