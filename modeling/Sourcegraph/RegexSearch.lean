import Sourcegraph.SearcherCompile
import Sourcegraph.WorkQueue

/-! # Unindexed search over the files of an archive

Only runs without limit, deadline and error are modelled: the context is never done, and a call
of `sender.Remaining()` may return any count. -/
namespace RegexSearch

open GoStrings RegexpSyntax CaseLowering SearcherCompile WorkQueue List
open SearchResults (ChunkMatch Panic)

structure SrcFile where
  name : Bytes
  data : Bytes
  deriving DecidableEq

structure FileMatch where
  path : Bytes
  chunkMatches : List ChunkMatch := []
  limitHit : Bool := false
  deriving DecidableEq

structure Mode where
  patternMatchesContent : Bool
  patternMatchesPaths : Bool
  isPatternNegated : Bool
  deriving DecidableEq

def numWorkers : ℕ := 8

variable (P : RegexpPackage) (U : Unicode) (rg : ReaderGrep) (mode : Mode)

/-- Without a flag the pattern is matched against the content. -/
def Mode.content : Bool :=
  if !mode.patternMatchesContent && !mode.patternMatchesPaths then true
  else mode.patternMatchesContent

def fastPath : Bool := rg.re.isNone || (mode.patternMatchesPaths && !mode.content)

def findZip (f : SrcFile) (limit : ℤ) : Except Panic FileMatch :=
  (rg.find P f.data limit).map fun cms => { path := f.name, chunkMatches := cms }

def fastMatch (f : SrcFile) : Option FileMatch :=
  if (rg.matchPath.matchPath P f.name && rg.matchString P U f.name) == !mode.isPatternNegated then
    some { path := f.name }
  else none

def searchFile (f : SrcFile) (remaining : ℤ) : Except Panic (Option FileMatch) :=
  if !rg.matchPath.matchPath P f.name then .ok none
  else do
    let fm ← findZip P rg f remaining
    let found := !fm.chunkMatches.isEmpty ||
      (mode.patternMatchesPaths && rg.matchString P U f.name)
    .ok (if found == !mode.isPatternNegated then some fm else none)

def Searches (f : SrcFile) (out : Option FileMatch) : Prop :=
  ∃ remaining : ℕ, searchFile P U rg mode f remaining = .ok out

inductive Completed (files : List SrcFile) : List FileMatch → Prop
  | fast (h : fastPath rg mode = true) : Completed files (files.filterMap (fastMatch P U rg mode))
  | workers (h : fastPath rg mode = false) {s : State SrcFile FileMatch}
    (hrun : Execution files (Searches P U rg mode) (initial numWorkers) s) (hdone : s.Done) :
    Completed files s.sent

/-- The pattern hits the content or, if enabled, the path of a file; a nil pattern hits all files. -/
def hits (f : SrcFile) : Bool :=
  match rg.re with
  | none => true
  | some re => (mode.content && P.matchString re.tree (rg.fileMatchBuf f.data)) ||
      (mode.patternMatchesPaths && rg.matchString P U f.name)

def shouldSend (f : SrcFile) : Bool :=
  rg.matchPath.matchPath P f.name && (hits P U rg mode f != mode.isPatternNegated)

/-- Every file that should be sent is sent once, and no other one. -/
def ReportsExactly (files : List SrcFile) (sent : List FileMatch) : Prop :=
  (sent.map FileMatch.path).Perm ((files.filter (shouldSend P U rg mode)).map SrcFile.name)

/-- The pre-filter skips a file that matches by its content only. -/
def hidden (f : SrcFile) : Bool :=
  match rg.re with
  | none => false
  | some re => P.matchString re.tree (rg.fileMatchBuf f.data) && !rg.worthConsidering f.data &&
      !(mode.patternMatchesPaths && rg.matchString P U f.name)

/-- On the fast path a negated search must not meet a file that the path matcher rejects; a worker
must not meet an accepted file that the pre-filter hides. -/
def SearchesRight (files : List SrcFile) : Prop :=
  if fastPath rg mode then
    mode.isPatternNegated = true → ∀ f ∈ files, rg.matchPath.matchPath P f.name = true
  else ∀ f ∈ files, rg.matchPath.matchPath P f.name = true → hidden P U rg mode f = false

def verdict (f : SrcFile) : Bool :=
  if fastPath rg mode then
    (rg.matchPath.matchPath P f.name && rg.matchString P U f.name) == !mode.isPatternNegated
  else rg.matchPath.matchPath P f.name &&
    ((hits P U rg mode f && !hidden P U rg mode f) != mode.isPatternNegated)

variable {P U rg mode}

theorem find_isEmpty {re : Compiled} (hre : rg.re = some re) (fb : Bytes) (limit : ℕ) :
    ∃ cms, rg.find P fb limit = .ok cms ∧
      cms.isEmpty = !(P.matchString re.tree (rg.fileMatchBuf fb) && rg.worthConsidering fb) := by
  unfold ReaderGrep.find
  by_cases hwor : rg.worthConsidering fb = true
  · have hlo := P.findAllIndex_ne_nil re.tree (rg.fileMatchBuf fb) (limit + 1) (by omega)
    rw [← P.matchString_iff] at hlo
    simp only [hwor, hre, Bool.not_true, Bool.false_eq_true, if_false, Bool.and_true]
    by_cases hm : P.matchString re.tree (rg.fileMatchBuf fb) = true
    · have hne := hlo.mpr hm
      rw [if_neg (by simpa using hne)]
      refine ⟨_, rfl, ?_⟩
      rw [hm, Bool.not_true, isEmpty_eq_false_iff]
      exact MatchChunks.chunks_ne_nil hne
    have hnil := not_not.mp (mt hlo.mp hm)
    rw [hnil]
    exact ⟨[], rfl, by simpa using hm⟩
  · rw [if_pos (by simpa using hwor)]
    exact ⟨[], rfl, by simp [Bool.eq_false_iff.mpr hwor]⟩

theorem content_of_worker (h : fastPath rg mode = false) :
    mode.content = true ∧ ∃ re, rg.re = some re := by
  simp only [fastPath, Bool.or_eq_false_iff, Option.isNone_eq_false_iff, Bool.and_eq_false_imp] at h
  obtain ⟨hre, hpat⟩ := h
  refine ⟨?_, Option.isSome_iff_exists.mp hre⟩
  cases hp : mode.patternMatchesPaths with
  | true => simpa using hpat hp
  | false =>
    unfold Mode.content
    cases hc : mode.patternMatchesContent <;> simp [hp]

/-- A worker decides about a file whatever the count of remaining matches is. -/
theorem searchFile_eq (h : fastPath rg mode = false) (f : SrcFile) (rem : ℕ) :
    ∃ out, searchFile P U rg mode f rem = .ok out ∧
      out.map FileMatch.path = if verdict P U rg mode f then some f.name else none := by
  obtain ⟨hcon, re, hre⟩ := content_of_worker h
  unfold searchFile verdict
  rw [h]
  cases hpt : rg.matchPath.matchPath P f.name with
  | false => exact ⟨none, rfl, rfl⟩
  | true =>
    obtain ⟨cms, hfi, hemp⟩ := @find_isEmpty P rg re hre f.data rem
    have hzip : findZip P rg f rem = .ok { path := f.name, chunkMatches := cms } := by
      rw [findZip, hfi]
      rfl
    have hfnd : (!cms.isEmpty || (mode.patternMatchesPaths && rg.matchString P U f.name)) =
        (hits P U rg mode f && !hidden P U rg mode f) := by
      simp only [hemp, hits, hidden, hre, hcon]
      cases P.matchString re.tree (rg.fileMatchBuf f.data) <;> cases rg.worthConsidering f.data <;>
        cases mode.patternMatchesPaths && rg.matchString P U f.name <;> rfl
    rw [hzip]
    refine ⟨_, rfl, ?_⟩
    rw [hfnd]
    cases hits P U rg mode f && !hidden P U rg mode f <;> cases mode.isPatternNegated <;> rfl

theorem searches_total (h : fastPath rg mode = false) (f : SrcFile) :
    ∃ out, Searches P U rg mode f out := by
  obtain ⟨out, hout, -⟩ := @searchFile_eq P U rg mode h f 0
  exact ⟨out, 0, hout⟩

theorem searches_path (h : fastPath rg mode = false) (f : SrcFile) (out : Option FileMatch)
    (hout : Searches P U rg mode f out) :
    out.toList.map FileMatch.path = if verdict P U rg mode f then [f.name] else [] := by
  obtain ⟨rem, hsch⟩ := hout
  obtain ⟨out', hout', hpt⟩ := @searchFile_eq P U rg mode h f rem
  cases hsch.symm.trans hout'
  rw [← Option.toList_map, hpt]
  split <;> rfl

variable {α β : Type}

theorem flatMap_ite (p : α → Bool) (g : α → β) (l : List α) :
    l.flatMap (fun a => if p a then [g a] else []) = (l.filter p).map g := by
  induction l with
  | nil => rfl
  | cons a l ih => cases h : p a <;> simp [h, ih]

theorem filterMap_fastMatch (h : fastPath rg mode = true) (fs : List SrcFile) :
    (fs.filterMap (fastMatch P U rg mode)).map FileMatch.path =
      (fs.filter (verdict P U rg mode)).map SrcFile.name := by
  have hf : fastMatch P U rg mode =
      fun f => if verdict P U rg mode f then some { path := f.name } else none := by
    funext f
    rw [fastMatch, verdict, h, if_pos rfl]
  rw [hf]
  induction fs with
  | nil => rfl
  | cons f fs ih => cases hv : verdict P U rg mode f <;> simp [hv, ih]

/-- Both paths send exactly the files with a positive verdict, each of them once. -/
theorem completed_perm (h : Completed P U rg mode fs sent) :
    (sent.map FileMatch.path).Perm ((fs.filter (verdict P U rg mode)).map SrcFile.name) := by
  cases h with
  | fast h => rw [filterMap_fastMatch h]
  | workers h hrun hdo =>
    rw [← flatMap_ite]
    exact done_perm (by decide) (searches_path h) hrun hdo

theorem search_completes (fs : List SrcFile) : ∃ sent, Completed P U rg mode fs sent := by
  cases h : fastPath rg mode with
  | true => exact ⟨_, .fast h⟩
  | false =>
    obtain ⟨s, hrun, hdo⟩ := execution_completes (searches_total h) (.nil (initial numWorkers))
    exact ⟨s.sent, .workers h hrun hdo⟩

theorem filter_eq_of_perm {l : List α} (hpq : ∀ a ∈ l, p a = true → q a = true)
    (h : ((l.filter p).map g).Perm ((l.filter q).map g)) : ∀ a ∈ l, p a = q a := by
  have hlen : (l.filter p).length = (l.filter q).length := by
    simpa only [length_map] using h.length_eq
  have hsub : (l.filter p).Sublist (l.filter q) := by
    have hp : l.filter p = (l.filter q).filter p := by
      rw [filter_filter]
      apply filter_congr
      intro a ha
      cases hpa : p a with
      | false => rfl
      | true => rw [hpq a ha hpa, Bool.and_true]
    rw [hp]
    exact filter_sublist
  have heq := hsub.eq_of_length hlen
  intro a ha
  rw [Bool.eq_iff_iff]
  refine ⟨hpq a ha, fun hqa => ?_⟩
  have hmem : a ∈ l.filter p := heq ▸ mem_filter.mpr ⟨ha, hqa⟩
  exact (mem_filter.mp hmem).2

theorem perm_filter_iff {l : List α}
    (h : (∀ a ∈ l, p a = true → q a = true) ∨ ∀ a ∈ l, q a = true → p a = true) :
    ((l.filter p).map g).Perm ((l.filter q).map g) ↔ ∀ a ∈ l, p a = q a := by
  constructor
  · intro hpm
    rcases h with h | h
    · exact filter_eq_of_perm h hpm
    · exact fun a ha => (filter_eq_of_perm h hpm.symm a ha).symm
  · intro heq
    rw [filter_congr heq]

theorem hits_fast (h : fastPath rg mode = true) :
    hits P U rg mode f = rg.matchString P U f.name := by
  unfold hits
  cases hre : rg.re with
  | none => simp [ReaderGrep.matchString, hre]
  | some re =>
    simp only [fastPath, hre, Option.isNone_some, Bool.false_or, Bool.and_eq_true,
      Bool.not_eq_true'] at h
    simp [h]

theorem verdict_fast (h : fastPath rg mode = true) (f : SrcFile) :
    (mode.isPatternNegated = false → verdict P U rg mode f = shouldSend P U rg mode f) ∧
      (mode.isPatternNegated = true →
        verdict P U rg mode f = (!rg.matchPath.matchPath P f.name || shouldSend P U rg mode f)) := by
  unfold verdict shouldSend
  rw [h, if_pos rfl, hits_fast h]
  cases rg.matchPath.matchPath P f.name <;> cases rg.matchString P U f.name <;>
    cases mode.isPatternNegated <;> exact ⟨by decide, by decide⟩

theorem hits_of_hidden (h : fastPath rg mode = false) {f : SrcFile}
    (hf : hidden P U rg mode f = true) : hits P U rg mode f = true := by
  obtain ⟨hcon, re, hre⟩ := content_of_worker h
  simp only [hidden, hits, hre, hcon, Bool.and_eq_true, Bool.true_and, Bool.or_eq_true] at hf ⊢
  exact .inl hf.1.1

theorem verdict_worker (h : fastPath rg mode = false) (f : SrcFile) :
    (verdict P U rg mode f = shouldSend P U rg mode f ↔
      (rg.matchPath.matchPath P f.name = true → hidden P U rg mode f = false)) ∧
      (mode.isPatternNegated = false → verdict P U rg mode f = true → shouldSend P U rg mode f = true) ∧
      (mode.isPatternNegated = true → shouldSend P U rg mode f = true → verdict P U rg mode f = true) := by
  have hsub := @hits_of_hidden P U rg mode h f
  unfold verdict shouldSend
  rw [h, if_neg (by decide)]
  revert hsub
  cases rg.matchPath.matchPath P f.name <;> cases hits P U rg mode f <;>
    cases hidden P U rg mode f <;> cases mode.isPatternNegated <;> decide

theorem hidden_of_spelledOnce (h : compile P U p = .ok rg) (hc : rg.re = some c)
    (hone : P.literalPrefix c.tree = [] → SpelledOnce P.fold (P.simplify c.tree)) :
    hidden P U rg mode f = false := by
  simp only [hidden, hc]
  cases hm : P.matchString c.tree (rg.fileMatchBuf f.data) with
  | false => rfl
  | true => rw [worthConsidering_of_match P U h hc hone ((P.matchString_iff _ _).mp hm)]; rfl

theorem completed_exact_iff (h : Completed P U rg mode fs sent) :
    ReportsExactly P U rg mode fs sent ↔ SearchesRight P U rg mode fs := by
  have hpm := completed_perm h
  have hex : ReportsExactly P U rg mode fs sent ↔
      ((fs.filter (verdict P U rg mode)).map SrcFile.name).Perm
        ((fs.filter (shouldSend P U rg mode)).map SrcFile.name) :=
    ⟨hpm.symm.trans, hpm.trans⟩
  rw [hex, SearchesRight]
  cases hfa : fastPath rg mode with
  | true =>
    cases hneg : mode.isPatternNegated with
    | false =>
      have heq : ∀ f ∈ fs, verdict P U rg mode f = shouldSend P U rg mode f := fun f _ =>
        (verdict_fast hfa f).1 hneg
      rw [perm_filter_iff (.inl fun f hf => by rw [heq f hf]; exact id)]
      simpa using heq
    | true =>
      have heq := fun f => (@verdict_fast P U rg mode hfa f).2 hneg
      rw [perm_filter_iff (.inr fun f _ hs => by rw [heq f, hs, Bool.or_true])]
      simp only [if_true, forall_const]
      refine forall₂_congr fun f _ => ?_
      rw [heq f, shouldSend]
      cases rg.matchPath.matchPath P f.name <;> simp
  | false =>
    have hw := fun f => @verdict_worker P U rg mode hfa f
    have hmo : (∀ f ∈ fs, verdict P U rg mode f = true → shouldSend P U rg mode f = true) ∨
        ∀ f ∈ fs, shouldSend P U rg mode f = true → verdict P U rg mode f = true := by
      cases hneg : mode.isPatternNegated with
      | false => exact .inl fun f _ => (hw f).2.1 hneg
      | true => exact .inr fun f _ => (hw f).2.2 hneg
    rw [perm_filter_iff hmo]
    exact forall₂_congr fun f _ => (hw f).1

/-- Unindexed search can always be completed, and reports the right files exactly if a negated
search that takes the fast path meets no file rejected by the path matcher, and otherwise the
pre-filter hides no file. -/
theorem search_exact_iff (P : RegexpPackage) (U : Unicode) (rg : ReaderGrep) (mode : Mode)
    (files : List SrcFile) :
    (∃ sent, Completed P U rg mode files sent) ∧ ∀ sent, Completed P U rg mode files sent →
      (ReportsExactly P U rg mode files sent ↔ SearchesRight P U rg mode files) :=
  ⟨search_completes files, fun _ h => completed_exact_iff h⟩

theorem star_foo_reported : let P := onePattern starFoo (bytes "x*foo") [bytes "(?m:x*foo)"]
    let mode : Mode := ⟨true, false, false⟩
    let files : List SrcFile := [⟨bytes "a", bytes "xxfoo"⟩, ⟨bytes "b", bytes "bar"⟩]
    ∃ sent, Completed P latin1 starFooGrep mode files sent ∧
      ReportsExactly P latin1 starFooGrep mode files sent := by
  intro P mode files
  have hrt : SearchesRight P latin1 starFooGrep mode files := by
    exact fun f _ _ => hidden_of_spelledOnce starFoo_compiled rfl fun _ => starFoo_spelledOnce _
  obtain ⟨⟨sent, h⟩, hex⟩ := search_exact_iff P latin1 starFooGrep mode files
  exact ⟨sent, h, (hex sent h).mpr hrt⟩

theorem not_hasMatch_short (h : (runes buf).length < lit.length) :
    ¬ HasMatch fold (.literal fc lit) buf := by
  rintro ⟨m⟩
  have hlen := m.language.length_eq
  have hrun := congrArg length m.runes_eq
  simp only [length_map, length_append] at hlen hrun
  omega

def goPaths : ReaderGrep := { starFooGrep with matchPath := ⟨[⟨bytes "go", .literal false [0x67, 0x6F]⟩], none⟩ }

/-- A negated search of paths reports a file that the path matcher rejects. -/
theorem rejected_file_sent : let P := onePattern starFoo (bytes "x*foo") [bytes "(?m:x*foo)"]
    let mode : Mode := ⟨false, true, true⟩
    goPaths.matchPath.matchPath P (bytes "a") = false ∧
      Completed P latin1 goPaths mode [⟨bytes "a", []⟩] [{ path := bytes "a" }] ∧
      ¬ ReportsExactly P latin1 goPaths mode [⟨bytes "a", []⟩] [{ path := bytes "a" }] := by
  intro P mode
  have hrej : goPaths.matchPath.matchPath P (bytes "a") = false := by
    have hgo : P.matchString (.literal false [0x67, 0x6F]) (bytes "a") = false := by
      rw [Bool.eq_false_iff, ne_eq, P.matchString_iff]
      exact not_hasMatch_short (by decide)
    simp [goPaths, PathMatcher.matchPath, hgo]
  have hse : [(⟨bytes "a", []⟩ : SrcFile)].filterMap (fastMatch P latin1 goPaths mode) =
      [{ path := bytes "a" }] := by
    rw [filterMap_cons_some (b := { path := bytes "a" }) (by rw [fastMatch, hrej]; rfl)]
    rfl
  refine ⟨hrej, hse ▸ .fast rfl, fun h => ?_⟩
  have hsho : shouldSend P latin1 goPaths mode ⟨bytes "a", []⟩ = false := by
    rw [shouldSend, hrej]
    rfl
  have := h.length_eq
  rw [filter_cons_of_neg (by rw [hsho]; decide)] at this
  cases this

end RegexSearch
