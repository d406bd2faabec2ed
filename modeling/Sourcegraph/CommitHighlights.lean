import Sourcegraph.CommitVerdict

/-! # Highlights under operators

A nil set of files means all files when results are merged, but no file when highlights are
constrained to it. -/
namespace CommitHighlights

open CommitQueryReduce (OperatorKind)
open CommitMatchTree CommitVerdict GoStrings List

/-- The highlights of a line, of which a file without an entry has none. -/
def lineHighlights (entry : Option MatchedFileDiff) (hunk line : ℕ) : Ranges :=
  let fileDiff := entry.getD ⟨[], [], none⟩
  (((fileDiff.matchedHunks.get hunk).getD ⟨none⟩).matchedLines.get line).getD []

def mergedOr (lc : LazyCommit) : List MatchTree → CommitFilterResult → List MatchedCommit
  | [], _ => []
  | operand :: rest, mergedCFR =>
    match matchCommit lc operand with
    | .error _ => []
    | .ok (cfr, found) =>
      if (mergedCFR.union cfr).satisfies then found :: mergedOr lc rest (mergedCFR.union cfr)
      else mergedOr lc rest (mergedCFR.union cfr)

/-- What the operands produce that an operator merges. -/
def mergedOperands (lc : LazyCommit) (operands : List MatchTree) : OperatorKind → List MatchedCommit
  | .and => operands.filterMap fun o => (matchCommit lc o).toOption.map Prod.snd
  | .or => mergedOr lc operands ⟨false, some ∅⟩
  | .not => []

/-- A nil set is read as all files. -/
def Matched (r : CommitFilterResult) (file : ℕ) : Prop := ∀ s ∈ r.matchedFileDiffs, file ∈ s

/-- There is no entry outside the matched files, and in these no merged highlight is lost. -/
structure HighlightsKept (merged : List MatchedCommit) (r : CommitFilterResult)
    (m : MatchedCommit) : Prop where
  matched : ∀ file, (m.diff.get file).isSome = true → Matched r file
  kept : ∀ found ∈ merged, ∀ file, Matched r file → ∀ hunk line,
    lineHighlights (found.diff.get file) hunk line ⊆ lineHighlights (m.diff.get file) hunk line

/-- A tree of And and Or operators over atoms. -/
inductive Plain : MatchTree → Prop where
  | atom {t : MatchTree} (h : IsAtom t) : Plain t
  | operator {kind : OperatorKind} {operands : List MatchTree} (hk : kind ≠ .not)
    (h : ∀ o ∈ operands, Plain o) : Plain (.operator kind operands)

section Lit

variable (lc : LazyCommit) (date : ℤ) (views : Option ℕ → FileFacts) (n : ℕ) (file : ℕ)

mutual
/-- Whether a tree highlights a line of the file: a matching diff atom does, and an operator passes
on what its operands highlight, if the file is in its set. -/
def lit : MatchTree → Bool
  | .diffMatches re => (views (some file)).diffMatches re
  | .operator .and operands => !nilAll lc date views n operands &&
    formulaAll lc date (views (some file)) operands && litAny operands
  | .operator .or operands => !nilAny lc date views n operands && litAny operands
  | _ => false
def litAny : List MatchTree → Bool
  | [] => false
  | operand :: rest => lit operand || litAny rest
end

end Lit

theorem mergeWith_iff {mer : α → α → α} {P : α → Prop} (hz : ¬ P zero)
    (hmer : ∀ a b, P (mer a b) ↔ P a ∨ P b) (m other : IndexMap α) (i : ℕ) :
    P (((m.mergeWith zero mer other).get i).getD zero) ↔
      P ((m.get i).getD zero) ∨ P ((other.get i).getD zero) := by
  cases m with
  | none => simp [IndexMap.mergeWith, IndexMap.get, hz]
  | some f =>
    rw [IndexMap.mergeWith, IndexMap.get, Option.bind_some]
    beta_reduce
    cases other.get i with
    | none => simp [hz, IndexMap.get]
    | some en => exact hmer _ _

theorem mem_merge (c other : MatchedCommit) (file hunk line : ℕ) (rg : Range) :
    rg ∈ lineHighlights ((c.merge other).diff.get file) hunk line ↔
      rg ∈ lineHighlights (c.diff.get file) hunk line ∨
        rg ∈ lineHighlights (other.diff.get file) hunk line := by
  refine mergeWith_iff (P := fun f : MatchedFileDiff =>
    rg ∈ (((f.matchedHunks.get hunk).getD ⟨none⟩).matchedLines.get line).getD [])
    not_mem_nil (fun a b => ?_) c.diff other.diff file
  refine mergeWith_iff (P := fun h : MatchedHunk => rg ∈ (h.matchedLines.get line).getD [])
    not_mem_nil (fun a b => ?_) a.matchedHunks b.matchedHunks hunk
  refine mergeWith_iff (P := (rg ∈ ·)) not_mem_nil (fun a b => ?_) a.matchedLines
    b.matchedLines line
  rw [Ranges.merge, mem_mergeSort, mem_append]

theorem mem_foldl_merge (mg : List MatchedCommit) (rg : Range) :
    rg ∈ lineHighlights ((mg.foldl MatchedCommit.merge c).diff.get file) hunk line ↔
      rg ∈ lineHighlights (c.diff.get file) hunk line ∨
        ∃ found ∈ mg, rg ∈ lineHighlights (found.diff.get file) hunk line := by
  induction mg generalizing c with
  | nil => simp
  | cons found mg ih => rw [foldl_cons, ih, mem_merge, exists_mem_cons_iff, or_assoc]

theorem get_constrain (c : MatchedCommit) (mat : Option (Finset ℕ)) (file : ℕ) :
    (c.constrainToMatched mat).diff.get file =
      if file ∈ mat.getD ∅ then c.diff.get file else none := by
  rw [MatchedCommit.constrainToMatched]
  cases c.diff with
  | none => exact (ite_self _).symm
  | some f => rfl

theorem matchAnd_merges (h : matchAnd lc os mer rms = .ok (r, m)) :
    (r = filterResult false ∧ m = .empty) ∨
      m = ((mergedOperands lc os .and).foldl MatchedCommit.merge
        rms).constrainToMatched r.matchedFileDiffs := by
  induction os generalizing mer rms with
  | nil =>
    cases h
    exact .inr rfl
  | cons od rest ih =>
    obtain ⟨found, hfnd, h⟩ := bind_eq_ok h
    split at h
    · refine (ih h).imp_right fun hm => ?_
      rw [hm, mergedOperands, mergedOperands, filterMap_cons, hfnd]
      rfl
    · cases h
      exact .inl ⟨rfl, rfl⟩

theorem matchOr_merges (h : matchOr lc os mer rms = .ok (r, m)) :
    m = ((mergedOr lc os mer).foldl MatchedCommit.merge
      rms).constrainToMatched r.matchedFileDiffs := by
  induction os generalizing mer rms with
  | nil =>
    cases h
    rfl
  | cons od rest ih =>
    obtain ⟨⟨cfr, found⟩, hfnd, h⟩ := bind_eq_ok h
    rw [ih h, mergedOr, hfnd]
    simp only
    split <;> rfl

def Lit (m : MatchedCommit) (file : ℕ) : Prop :=
  ∃ hunk line, ∃ rg, rg ∈ lineHighlights (m.diff.get file) hunk line

theorem lit_constrained (mg : List MatchedCommit) (set : Option (Finset ℕ)) (file : ℕ) :
    Lit ((mg.foldl MatchedCommit.merge .empty).constrainToMatched set) file ↔
      file ∈ set.getD ∅ ∧ ∃ found ∈ mg, Lit found file := by
  have hempty : ∀ hunk line rg,
      rg ∉ lineHighlights (MatchedCommit.empty.diff.get file) hunk line :=
    fun hunk line rg => not_mem_nil
  unfold Lit
  rw [get_constrain]
  by_cases hf : file ∈ set.getD ∅
  · rw [if_pos hf]
    simp only [mem_foldl_merge, hempty, false_or, hf, true_and]
    exact ⟨fun ⟨hunk, line, rg, found, hm, hrg⟩ => ⟨found, hm, hunk, line, rg, hrg⟩,
      fun ⟨found, hm, hunk, line, rg, hrg⟩ => ⟨hunk, line, rg, found, hm, hrg⟩⟩
  · rw [if_neg hf]
    simp only [hf, false_and, iff_false]
    rintro ⟨hunk, line, rg, hrg⟩
    cases hrg

theorem get_indexed (f : α → Option β) (l : List α) (i : ℕ) :
    (IndexMap.ofList (l.zipIdx.filterMap fun x => (f x.1).map fun y => (x.2, y))).get i =
      l[i]?.bind f := by
  have hget : ∀ entries : List (ℕ × β), (IndexMap.ofList entries).get i =
      (entries.find? fun entry => entry.1 = i).map Prod.snd := by
    intro entries
    cases entries <;> rfl
  have hfind : ∀ k, ((l.zipIdx k).filterMap fun x => (f x.1).map fun y => (x.2, y)).find?
      (fun entry => entry.1 = i) = if k ≤ i then (l[i - k]?.bind f).map (i, ·) else none := by
    induction l with
    | nil => simp
    | cons x rest ih =>
      intro k
      rw [zipIdx_cons, filterMap_cons]
      rcases Nat.lt_trichotomy i k with hlt | rfl | hgt
      · cases f x <;> simp [ih, show ¬ k ≤ i by omega, show ¬ k + 1 ≤ i by omega,
          show k ≠ i by omega]
      · cases hx : f x <;> simp [hx, ih]
      · have hsub : i - k = (i - (k + 1)) + 1 := by omega
        cases f x <;> simp [ih, show k ≤ i by omega, show k + 1 ≤ i by omega,
          show k ≠ i by omega, hsub]
  rw [hget, hfind]
  cases l[i]? with
  | none => rfl
  | some x => cases hx : f x <;> simp [hx]

theorem get_matchFiles (highlights : FileDiff → Option MatchedFileDiff) (files : List FileDiff) :
    (matchFiles highlights files).2.diff.get file = files[file]?.bind highlights :=
  get_indexed highlights files file

theorem matchesToRangesFrom_length (content : Bytes) (found : List (ℕ × ℕ)) (scan : LineScan) :
    (matchesToRangesFrom content scan found).length = found.length := by
  induction found generalizing scan with
  | nil => rfl
  | cons x rest ih => simp [matchesToRangesFrom, ih]

theorem exists_range_iff (re : Regexp) (content : Bytes) :
    (∃ rg, rg ∈ matchesToRanges content (re.findAllIndex content)) ↔ re.matches content = true := by
  have hlen := matchesToRangesFrom_length content (re.findAllIndex content) ⟨0, 0, 0⟩
  rw [← length_pos_iff_exists_mem, matchesToRanges, hlen, length_pos_iff, Regexp.matches]
  simp

theorem get_lineHighlights (re : Regexp) (body : Bytes) (line : ℕ) :
    (IndexMap.ofList (CommitMatchTree.lineHighlights re body)).get line =
      (readLines body [])[line]?.bind fun text => (changedLine text).bind fun content =>
        if re.matches content then some (matchesToRanges content (re.findAllIndex content))
        else none := by
  rw [← get_indexed, CommitMatchTree.lineHighlights]
  congr 3
  funext ⟨text, idx⟩
  cases hc : changedLine text with
  | none => simp [hc]
  | some content =>
    simp only [hc, Option.bind_some]
    split <;> rfl

theorem get_hunkHighlights (re : Regexp) (fileDiff : FileDiff) (hunk : ℕ) :
    (IndexMap.ofList (hunkHighlights re fileDiff)).get hunk =
      fileDiff.hunks[hunk]?.bind fun body =>
        if (CommitMatchTree.lineHighlights re body).isEmpty then none
        else some ⟨.ofList (CommitMatchTree.lineHighlights re body)⟩ := by
  rw [← get_indexed, hunkHighlights]
  congr 3
  funext ⟨body, idx⟩
  simp only
  split <;> rfl

theorem exists_lineHighlight_iff (re : Regexp) (body : Bytes) :
    (∃ line, ∃ rg, rg ∈ ((IndexMap.ofList
      (CommitMatchTree.lineHighlights re body)).get line).getD []) ↔
      (readLines body []).any (lineMatches re) = true := by
  simp only [get_lineHighlights, any_eq_true]
  constructor
  · rintro ⟨line, rg, hrg⟩
    cases ht : (readLines body [])[line]? with
    | none => simp [ht] at hrg
    | some text =>
      refine ⟨text, mem_of_getElem? ht, ?_⟩
      cases hc : changedLine text with
      | none => simp [ht, hc] at hrg
      | some content =>
        by_cases hm : re.matches content = true
        · simpa [lineMatches, hc] using hm
        · simp [ht, hc, hm] at hrg
  · rintro ⟨text, htext, hm⟩
    obtain ⟨line, hl, rfl⟩ := getElem_of_mem htext
    obtain ⟨content, hc, hm⟩ := (Option.any_eq_true _ _).mp hm
    obtain ⟨rg, hrg⟩ := (exists_range_iff re content).mpr hm
    exact ⟨line, rg, by simpa [hl, hc, hm] using hrg⟩

theorem lineHighlights_diffHighlights (re : Regexp) (fileDiff : FileDiff) (hunk line : ℕ) :
    lineHighlights (diffHighlights re fileDiff) hunk line =
      (fileDiff.hunks[hunk]?.elim [] fun body => ((IndexMap.ofList
        (CommitMatchTree.lineHighlights re body)).get line).getD []) := by
  have hget : ((diffHighlights re fileDiff).getD ⟨[], [], none⟩).matchedHunks.get hunk =
      (IndexMap.ofList (hunkHighlights re fileDiff)).get hunk := by
    unfold diffHighlights
    split
    · rename_i he
      rw [isEmpty_iff.mp he]
      rfl
    · rfl
  rw [lineHighlights, hget, get_hunkHighlights]
  cases fileDiff.hunks[hunk]? with
  | none => rfl
  | some body =>
    simp only [Option.bind_some, Option.elim_some]
    split
    · rename_i he
      rw [isEmpty_iff.mp he]
      rfl
    · rfl

/-- A diff atom highlights some line of every file that it matches. -/
theorem lit_diffHighlights (re : Regexp) (fileDiff : FileDiff) :
    (∃ hunk line, ∃ rg, rg ∈ lineHighlights (diffHighlights re fileDiff) hunk line) ↔
      (fileFacts fileDiff).diffMatches re = true := by
  simp only [lineHighlights_diffHighlights, fileFacts, any_eq_true (l := fileDiff.hunks)]
  constructor
  · rintro ⟨hunk, line, rg, hrg⟩
    cases hb : fileDiff.hunks[hunk]? with
    | none => simp [hb] at hrg
    | some body =>
      rw [hb, Option.elim_some] at hrg
      exact ⟨body, mem_of_getElem? hb, (exists_lineHighlight_iff re body).mp ⟨line, rg, hrg⟩⟩
  · rintro ⟨body, hbody, hm⟩
    obtain ⟨hunk, hh, rfl⟩ := getElem_of_mem hbody
    obtain ⟨line, rg, hrg⟩ := (exists_lineHighlight_iff re _).mpr hm
    exact ⟨hunk, line, rg, by rwa [getElem?_eq_getElem hh, Option.elim_some]⟩

section Plain

variable {lc : LazyCommit} {files : List FileDiff} {date : ℤ} {operands : List MatchTree}
  {t : MatchTree}

theorem Plain.flagged (ht : Plain t) (h : nilSet lc date views n t = true) :
    formula lc date unmatched t = true := by
  induction ht with
  | atom ha => rwa [atom_nilSet ha] at h
  | @operator kind operands hk _ ih =>
    cases kind with
    | not => exact absurd rfl hk
    | and => exact formulaAll_unmatched ih h
    | or => exact formulaAny_unmatched ih h

theorem Plain.sighted (ht : Plain t) :
    Sighted lc date (fun re => modifiesMatchingFile re lc) files t := by
  induction ht with
  | atom ha => exact atom_sighted ha
  | @operator kind operands hk hops ih =>
    cases kind with
    | not => exact absurd rfl hk
    | or => exact .or ih
    | and =>
      refine .and ?_ ?_
      · rintro before o after rfl -
        exact ih o (by simp)
      · rintro before hpre ⟨hfalse, hnil⟩
        have htrue := formulaAll_unmatched (fun o ho => (hops o (hpre.subset ho)).flagged) hnil
        exact absurd (hfalse.symm.trans htrue) Bool.false_ne_true

theorem litAny_iff : litAny lc date views n file operands = true ↔
    ∃ o ∈ operands, lit lc date views n file o = true := by
  induction operands with
  | nil => simp [litAny]
  | cons o rest ih => simp [litAny, ih]

theorem formulaAny_of_mem (ho : o ∈ operands) (h : formula lc date facts o = true) :
    formulaAny lc date facts operands = true := by
  induction operands with
  | nil => cases ho
  | cons first rest ih =>
    rw [formulaAny, Bool.or_eq_true_iff]
    rcases mem_cons.mp ho with rfl | ho
    · exact .inl h
    · exact .inr (ih ho)

/-- A file with a highlighted line is in the set, which is not nil. -/
theorem lit_true (ht : Plain t) (h : lit lc date (looked lc files) files.length file t = true) :
    file < files.length ∧ formula lc date (looked lc files (some file)) t = true ∧
      nilSet lc date (looked lc files) files.length t = false := by
  induction ht with
  | @atom t ha =>
    cases t with
    | diffMatches re =>
      refine ⟨?_, h, rfl⟩
      by_contra hge
      have hout : looked lc files (some file) = unmatched := by
        simp [looked, factsOf, getElem?_eq_none (Nat.le_of_not_lt hge)]
      rw [lit, hout] at h
      cases h
    | operator => exact ha.elim
    | _ => cases h
  | @operator kind operands hk _ ih =>
    cases kind with
    | not => exact absurd rfl hk
    | and =>
      rw [lit, Bool.and_eq_true_iff, Bool.and_eq_true_iff, Bool.not_eq_true', litAny_iff] at h
      obtain ⟨⟨hnil, hall⟩, o, ho, hlit⟩ := h
      exact ⟨(ih o ho hlit).1, hall, hnil⟩
    | or =>
      rw [lit, Bool.and_eq_true_iff, Bool.not_eq_true', litAny_iff] at h
      obtain ⟨hnil, o, ho, hlit⟩ := h
      obtain ⟨hlt, hform, -⟩ := ih o ho hlit
      exact ⟨hlt, formulaAny_of_mem ho hform, hnil⟩

/-- The tree returns what its formula says, and highlights what is lit. -/
def Shown (lc : LazyCommit) (files : List FileDiff) (date : ℤ) (t : MatchTree) : Prop :=
  ∃ r m, matchCommit lc t = .ok (r, m) ∧
    Decides files.length r (fun view => formula lc date (looked lc files view) t)
      (nilSet lc date (looked lc files) files.length t) ∧
    ∀ file, Lit m file ↔ lit lc date (looked lc files) files.length file t = true

theorem mergedOr_lit (hops : ∀ o ∈ operands, Plain o) (h : ∀ o ∈ operands, Shown lc files date o)
    (hm : Decides files.length merged truth isNil) (hflag : isNil = true → truth none = true) :
    (∃ found ∈ mergedOr lc operands merged, Lit found file) ↔
      litAny lc date (looked lc files) files.length file operands = true := by
  induction operands generalizing merged truth isNil with
  | nil => simp [mergedOr, litAny]
  | cons o rest ih =>
    obtain ⟨r, m, hok, hd, hlit⟩ := h o mem_cons_self
    have hunion := hm.union hd
    have hrest := ih (forall_mem_cons.mp hops).2 (forall_mem_cons.mp h).2 hunion (by
      intro hnil
      rw [Bool.or_eq_true_iff] at hnil ⊢
      exact hnil.imp hflag (hops o mem_cons_self).flagged)
    rw [mergedOr, hok, litAny, Bool.or_eq_true_iff, ← hrest, ← hlit]
    dsimp only
    split
    · exact exists_mem_cons_iff _ _ _
    · rename_i hsat
      -- an operand that is not merged has nothing to highlight
      refine (or_iff_right fun hl => hsat ?_).symm
      obtain ⟨hlt, hform, hnil⟩ := lit_true (hops o mem_cons_self) ((hlit file).mp hl)
      rw [hunion.satisfies, judged, Bool.or_eq_true_iff]
      by_cases hn : isNil = true
      · exact .inl (by rw [hflag hn]; rfl)
      · refine .inr ?_
        rw [Bool.not_eq_true] at hn
        rw [hn, hnil, Bool.or_false, Bool.not_false, Bool.true_and]
        exact any_eq_true.mpr ⟨file, mem_range.mpr hlt, by rw [hform, Bool.or_true]⟩

theorem mergedAnd_lit (h : ∀ o ∈ operands, Shown lc files date o) :
    (∃ found ∈ mergedOperands lc operands .and, Lit found file) ↔
      litAny lc date (looked lc files) files.length file operands = true := by
  induction operands with
  | nil => simp [mergedOperands, litAny]
  | cons o rest ih =>
    obtain ⟨r, m, hok, -, hlit⟩ := h o mem_cons_self
    rw [litAny, Bool.or_eq_true_iff, ← ih (forall_mem_cons.mp h).2, ← hlit, mergedOperands,
      mergedOperands, filterMap_cons, hok]
    exact exists_mem_cons_iff _ _ _

theorem mergedOperands_lit (hk : kind ≠ .not) (hops : ∀ o ∈ operands, Plain o)
    (h : ∀ o ∈ operands, Shown lc files date o) :
    (∃ found ∈ mergedOperands lc operands kind, Lit found file) ↔
      litAny lc date (looked lc files) files.length file operands = true := by
  have hstart : Decides files.length ⟨false, some ∅⟩ (fun _ => false) false :=
    decides_filterResult fun _ _ => rfl
  cases kind with
  | not => exact absurd rfl hk
  | and => exact mergedAnd_lit h
  | or => exact mergedOr_lit hops h hstart id

theorem operator_merges (hk : kind ≠ .not)
    (h : matchCommit lc (.operator kind operands) = .ok (r, m)) :
    (r = filterResult false ∧ m = .empty) ∨
      m = ((mergedOperands lc operands kind).foldl MatchedCommit.merge
        .empty).constrainToMatched r.matchedFileDiffs := by
  cases kind with
  | not => exact absurd rfl hk
  | and => exact matchAnd_merges h
  | or => exact .inr (matchOr_merges h)

theorem not_lit (h : ∀ entry, m.diff.get file = some entry → entry.matchedHunks = none) :
    ¬ Lit m file := by
  rintro ⟨hunk, line, rg, hrg⟩
  cases hentry : m.diff.get file with
  | none =>
    rw [hentry] at hrg
    cases hrg
  | some entry =>
    rw [hentry, lineHighlights, Option.getD_some, h entry hentry] at hrg
    cases hrg

theorem atom_shown (hr : Readable lc files date) (ht : IsAtom t) : Shown lc files date t := by
  obtain ⟨r, m, hok, hd⟩ := (Plain.atom ht).sighted.right hr
  refine ⟨r, m, hok, hd, fun file => ?_⟩
  cases t with
  | operator => exact ht.elim
  | diffMatches re =>
    rw [matchCommit, LazyCommit.fetch, hr.diff] at hok
    have hm : (matchFiles (diffHighlights re) files).2 = m := congrArg Prod.snd (Except.ok.inj hok)
    rw [← hm, Lit, get_matchFiles, lit]
    cases hf : files[file]? with
    | none => simp [looked, factsOf, hf, unmatched, lineHighlights, IndexMap.get]
    | some fileDiff =>
      rw [Option.bind_some, lit_diffHighlights]
      simp [looked, factsOf, hf]
  | diffModifiesFile re =>
    refine iff_of_false (not_lit fun entry hentry => ?_) Bool.false_ne_true
    rw [matchCommit] at hok
    split at hok
    · rw [LazyCommit.fetch, hr.diff] at hok
      have hm : (matchFiles (nameHighlights re) files).2 = m :=
        congrArg Prod.snd (Except.ok.inj hok)
      rw [← hm, get_matchFiles] at hentry
      obtain ⟨fileDiff, -, hname⟩ := Option.bind_eq_some_iff.mp hentry
      unfold nameHighlights at hname
      split at hname <;> cases hname
      rfl
    · obtain ⟨-, rfl⟩ := Prod.mk.inj (Except.ok.inj hok)
      cases hentry
  | commitBefore time | commitAfter time =>
    rw [matchCommit, hr.date] at hok
    obtain ⟨-, rfl⟩ := Prod.mk.inj (Except.ok.inj hok)
    exact iff_of_false (not_lit fun entry hentry => by cases hentry) Bool.false_ne_true
  | messageMatches re =>
    rw [matchCommit] at hok
    split at hok <;> obtain ⟨-, rfl⟩ := Prod.mk.inj (Except.ok.inj hok) <;>
      exact iff_of_false (not_lit fun entry hentry => by cases hentry) Bool.false_ne_true
  | authorMatches re | committerMatches re | constant val =>
    obtain ⟨-, rfl⟩ := Prod.mk.inj (Except.ok.inj hok)
    exact iff_of_false (not_lit fun entry hentry => by cases hentry) Bool.false_ne_true

theorem mem_set_iff (hd : Decides n r truth isNil) : file ∈ r.matchedFileDiffs.getD ∅ ↔
    isNil = false ∧ file < n ∧ truth (some file) = true := by
  have hfile : file < n → denote r (some file) = truth (some file) :=
    fun hlt => hd.agrees (some file) (by simpa [InDiff] using hlt)
  have hnil := hd.nil
  cases hset : r.matchedFileDiffs with
  | none => simp [hnil.mp hset]
  | some s =>
    have hff : isNil = false := by
      rw [hset] at hnil
      simpa using hnil
    simp only [denote, hset] at hfile
    simp only [Option.getD_some, hff, true_and]
    constructor
    · intro hmem
      have hlt := hd.within s hset file hmem
      exact ⟨hlt, by rw [← hfile hlt]; simpa using hmem⟩
    · rintro ⟨hlt, htrue⟩
      rw [← hfile hlt] at htrue
      simpa using htrue

theorem lit_operator (hk : kind ≠ .not) : lit lc date views n file (.operator kind operands) = true ↔
    nilSet lc date views n (.operator kind operands) = false ∧
      (kind = .and → formulaAll lc date (views (some file)) operands = true) ∧
      litAny lc date views n file operands = true := by
  cases kind with
  | not => exact absurd rfl hk
  | and => simp [lit, nilSet, and_assoc]
  | or => simp [lit, nilSet]

theorem Plain.shown (hr : Readable lc files date) (ht : Plain t) : Shown lc files date t := by
  induction ht with
  | atom ha => exact atom_shown hr ha
  | @operator kind operands hk hops ih =>
    obtain ⟨r, m, hok, hd⟩ := (Plain.operator hk hops).sighted.right hr
    refine ⟨r, m, hok, hd, fun file => ?_⟩
    rcases operator_merges hk hok with ⟨rfl, rfl⟩ | hm
    · refine iff_of_false (not_lit fun entry hentry => by cases hentry) fun hlit => ?_
      obtain ⟨hlt, hform, -⟩ := lit_true (.operator hk hops) hlit
      have hview := hd.agrees (some file) (by simpa [InDiff] using hlt)
      rw [denote_filterResult] at hview
      exact Bool.false_ne_true (hview.trans hform)
    · rw [hm, lit_constrained, mergedOperands_lit hk hops ih, mem_set_iff hd]
      constructor
      · rintro ⟨⟨hnil, -, hform⟩, hany⟩
        refine (lit_operator hk).mpr ⟨hnil, ?_, hany⟩
        rintro rfl
        exact hform
      · intro hlit
        obtain ⟨hlt, hform, hnil⟩ := lit_true (.operator hk hops) hlit
        exact ⟨⟨hnil, hlt, hform⟩, ((lit_operator hk).mp hlit).2.2⟩

end Plain

/-- Highlights are lost exactly if an operand has any and the set of matched files is nil. -/
theorem highlights_kept_iff {kind : OperatorKind} (hr : Readable lc files date)
    (hkind : kind ≠ .not) (hplain : ∀ o ∈ operands, Plain o) :
    ∃ r m, matchCommit lc (.operator kind operands) = .ok (r, m) ∧ (r.satisfies = true →
      (HighlightsKept (mergedOperands lc operands kind) r m ↔
        (nilSet lc date (looked lc files) files.length (.operator kind operands) = true →
          ∀ o ∈ operands, ∀ file,
            lit lc date (looked lc files) files.length file o = false))) := by
  obtain ⟨r, m, hok, hd⟩ := (Plain.operator hkind hplain).sighted.right hr
  refine ⟨r, m, hok, fun hsat => ?_⟩
  have hmerged : ∀ file, (∃ found ∈ mergedOperands lc operands kind, Lit found file) ↔
      litAny lc date (looked lc files) files.length file operands = true :=
    fun file => mergedOperands_lit hkind hplain fun o ho => (hplain o ho).shown hr
  have hm : m = ((mergedOperands lc operands kind).foldl MatchedCommit.merge
      .empty).constrainToMatched r.matchedFileDiffs := by
    rcases operator_merges hkind hok with ⟨rfl, -⟩ | hm
    · cases hsat
    · exact hm
  have hset : r.matchedFileDiffs = none ↔
      nilSet lc date (looked lc files) files.length (.operator kind operands) = true := hd.nil
  rw [hm, ← hset]
  constructor
  · intro hkept hnil o ho file
    by_contra hlit
    obtain ⟨found, hfound, hunk, line, rg, hrg⟩ :=
      (hmerged file).mpr (litAny_iff.mpr ⟨o, ho, by simpa using hlit⟩)
    have hsub := hkept.kept found hfound file (by simp [Matched, hnil]) hunk line hrg
    rw [get_constrain, hnil] at hsub
    cases hsub
  · intro hno
    refine ⟨fun file hent s hs => ?_, fun found hfound file hfile hunk line rg hrg => ?_⟩
    · rw [get_constrain, hs, Option.getD_some] at hent
      by_contra hnot
      rw [if_neg hnot] at hent
      cases hent
    · cases hset : r.matchedFileDiffs with
      | none =>
        obtain ⟨o, ho, hlit⟩ :=
          litAny_iff.mp ((hmerged file).mp ⟨found, hfound, hunk, line, rg, hrg⟩)
        exact absurd ((hno hset o ho file).symm.trans hlit) Bool.false_ne_true
      | some s =>
        rw [get_constrain, Option.getD_some, if_pos (hfile s hset), mem_foldl_merge]
        exact .inr ⟨found, hfound, hrg⟩

def fooAdded : LazyCommit :=
  { fooCommit with diff := .ok [⟨bytes "foo", bytes "foo", [bytes "+foo\n"]⟩] }

/-- `author:x or foo` finds the line with foo, and loses it. -/
theorem author_or_foo_lost : ∃ r m found,
    matchCommit fooAdded (.operator .or
      [.authorMatches (exactly "x"), .diffMatches (exactly "foo")]) = .ok (r, m) ∧
    r.satisfies = true ∧
    matchCommit fooAdded (.diffMatches (exactly "foo")) = .ok found ∧
    lineHighlights (found.2.diff.get 0) 0 0 ≠ [] ∧ r.matchedFileDiffs = none ∧
    lineHighlights (m.diff.get 0) 0 0 = [] :=
  ⟨_, _, _, rfl, rfl, rfl, by decide, rfl, rfl⟩

/-- `author:y or foo` keeps the line: the author is another one. -/
theorem other_author_or_foo_kept : ∃ r m,
    matchCommit fooAdded (.operator .or
      [.authorMatches (exactly "y"), .diffMatches (exactly "foo")]) = .ok (r, m) ∧
    HighlightsKept (mergedOperands fooAdded
      [.authorMatches (exactly "y"), .diffMatches (exactly "foo")] .or) r m := by
  have hr : Readable fooAdded [⟨bytes "foo", bytes "foo", [bytes "+foo\n"]⟩] 0 := ⟨rfl, rfl⟩
  have hplain : ∀ o ∈ [MatchTree.authorMatches (exactly "y"), .diffMatches (exactly "foo")],
      Plain o := forall_mem_cons.mpr ⟨.atom trivial, forall_mem_singleton.mpr (.atom trivial)⟩
  obtain ⟨r, m, hok, hkept⟩ := highlights_kept_iff hr (by decide : OperatorKind.or ≠ .not) hplain
  have hsat : (matchCommit fooAdded (.operator .or
      [.authorMatches (exactly "y"), .diffMatches (exactly "foo")])).map (fun p => p.1.satisfies) =
      .ok true := by rfl
  rw [hok] at hsat
  exact ⟨r, m, hok, (hkept (Except.ok.inj hsat)).mpr fun hnil => absurd hnil (by decide)⟩

end CommitHighlights
