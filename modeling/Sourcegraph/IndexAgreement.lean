import Sourcegraph.ExpressionSearches

/-! # Searches of indexed and of other repositories

The searches are compared on all expressions over some atoms, by how they read the filters and each
of the atoms. -/
namespace IndexAgreement

open GoStrings GoRunes QueryNodes QueryPlan RegexpSyntax CaseLowering SearcherCompile RegexSearch
  List
open BasicJobs ExpressionSearches

variable (B : Backends) (inputs : Inputs) (ps : List Parameter) (f : SrcFile)

/-- Both searches of a query that is built select the file or neither does. -/
def Agrees (b : Basic) : Prop :=
  ∀ job, textJobs B inputs b = .ok job → job.indexed B f = job.unindexed B f

def BasicAgrees (b : Basic) : Prop :=
  ∀ job, newBasicJob B inputs b = .ok job → job.indexed B f = job.unindexed B f

def labelled (a : Pattern) : Bool := a.annotation.labels.literal || a.annotation.labels.regexp

/-- The pattern is in the content, whether the pre-filter hides it or not. -/
def matchesContent (rg : ReaderGrep) : Bool :=
  match rg.re with
  | none => true
  | some re => B.regexp.matchString re.tree (rg.fileMatchBuf f.data)

/-- Both engines find a regexp in the same places of the file. -/
def ReadAlike (text : Bytes) : Prop :=
  ∀ needle, parseNeedle B text = .ok needle → ∃ compiled,
    compilePattern B.regexp B.unicode
      { pattern := text, isRegExp := true, isCaseSensitive := isCaseSensitive B ps } =
        .ok compiled ∧
      matchesContent B f (patternGrep (isCaseSensitive B ps) compiled) =
        needle.foundIn B (isCaseSensitive B ps) f.data ∧
      (patternGrep (isCaseSensitive B ps) compiled).matchString B.regexp B.unicode f.name =
        needle.foundIn B (isCaseSensitive B ps) f.name

/-- The same for a path filter, which is about the name only. -/
def FilterReadAlike (pattern : Bytes) : Prop :=
  ∀ needle, parseNeedle B pattern = .ok needle → ∃ re,
    B.regexp.compile (pathExpr (isCaseSensitive B ps) pattern) = .ok re ∧
      B.regexp.matchString re.tree f.name = needle.foundIn B (isCaseSensitive B ps) f.name

/-- Both engines give the same meaning to the same text, and a quoted text is a regexp. -/
structure EnginesAgree (atoms : List Pattern) : Prop where
  patterns : ∀ text ∈ [] :: atoms.map indexText, ReadAlike B ps f text
  quoted : ∀ a ∈ atoms, labelled a = false → ∃ compiled,
    compilePattern B.regexp B.unicode (atomInfo B inputs ps a) = .ok compiled
  filters : ∀ pattern ∈ unionRegExps (fileFilters B ps).2 :: (fileFilters B ps).1,
    FilterReadAlike B ps f pattern

/-- The index leaves out files of other languages than those asked for, and every file if the
exclude patterns join to the empty text. -/
def indexKeeps : Bool :=
  ((fileFilters B ps).2 = [] || unionRegExps (fileFilters B ps).2 ≠ []) &&
    ((includeExcludeValues ps "lang").1 = [] || !inputs.contentBasedLangFilters ||
      B.language f ∈ (includeExcludeValues ps "lang").1.map (languageOf B))

/-- What the two searches need of an atom, whose regexp the index looks for in the places of
`types`. -/
def AtomFits (types : Types) (a : Pattern) (needle : Needle) (rg : ReaderGrep) : Prop :=
  let inContent := needle.foundIn B (isCaseSensitive B ps) f.data
  let inName := needle.foundIn B (isCaseSensitive B ps) f.name
  let own := atomTypes inputs ps a
  let sent := sought own (foundInContent B f rg) (rg.matchString B.regexp B.unicode f.name)
  if searcherPasses B ps f = false then (a.negated && onFastPath inputs ps a) = false
  else if indexKeeps B inputs ps f = false then sent = a.negated
  else if labelled a then
    -- no `content:` atom of an expression is in the name only
    (types.path = true → own.path = false → inName = true → inContent = true) ∧
      -- the pre-filter does not hide the content
      (own.file = true → inContent = true →
        rg.worthConsidering f.data = true ∨ own.path = true ∧ inName = true)
  -- the searcher quotes the pattern
  else sought types inContent inName = sent

def FiltersFit : Prop :=
  searchesText inputs ps = true → ∀ qs, filterQueries B inputs ps = .ok qs →
    searcherPasses B ps f = true → indexKeeps B inputs ps f = true

def AtomsFit (types : Types) (atoms : List Pattern) : Prop :=
  searchesText inputs ps = true → ∀ qs, filterQueries B inputs ps = .ok qs →
    ∀ a ∈ atoms, ∀ needle, parseNeedle B (indexText a) = .ok needle →
      ∀ compiled, compilePattern B.regexp B.unicode (atomInfo B inputs ps a) = .ok compiled →
        AtomFits B inputs ps f types a needle (patternGrep (isCaseSensitive B ps) compiled)

variable {B inputs ps f}

theorem expression_agrees (hn : Over ats n)
    (htys : computeResultTypes ⟨ps, some n⟩ inputs.patternType = tys)
    (htx : (tys.file || tys.path) = true)
    (hato : ∀ qs, filterQueries B inputs ps = .ok qs → ∀ a ∈ ats, ∀ nd,
      parseNeedle B (indexText a) = .ok nd →
        (Q.evalAll B f qs && indexSelects B ps f tys a nd) = flatReturns B inputs ps f a) :
    Agrees B inputs f ⟨ps, some n⟩ := by
  intro job hjob
  obtain ⟨q, qs, flat, hq, hqs, hfl, rfl⟩ := (textJobs_some_iff htys htx).mp hjob
  have hn' := over_accepted hn hq
  have hixd : q.eval B f = eval (valuation (indexValue B ps f tys)) n := by
    refine toZoektPattern_eval hn' (fun a _ q hq => ?_) hq
    obtain ⟨nd, hndl, hq⟩ := toZoektAtom_eval htx hq
    exact hq.trans (indexValue_eq hndl).symm
  obtain ⟨flat', hfl', hrts⟩ := @toPatternExpressionJob_returns B inputs ps f _ n hn
  cases hfl.symm.trans hfl'
  have hcon : ∀ a ∈ ats.filter fun a => (parseNeedle B (indexText a)).toBool,
      (Q.evalAll B f qs && indexValue B ps f tys a) = flatReturns B inputs ps f a := by
    intro a ha
    obtain ⟨ha, hacc⟩ := mem_filter.mp ha
    cases hndl : parseNeedle B (indexText a) with
    | error e =>
      rw [hndl] at hacc
      cases hacc
    | ok nd =>
      rw [indexValue_eq hndl]
      exact hato qs hqs a ha nd hndl
  have hfil : BasicJob.indexed B f ⟨some (.and (q :: qs)), flat⟩ =
      (Q.evalAll B f qs && eval (valuation (indexValue B ps f tys)) n) := by
    simp [BasicJob.indexed, Q.eval, Q.evalAll, hixd, Bool.and_comm]
  rw [hfil, ← eval_filter hn', eval_congr hn' hcon]
  exact hrts.symm

theorem unsearched_agrees (hs : inputs.patternType ≠ .structural)
    (htx : searchesText inputs ps = false) (hp : ∀ n ∈ pat, Over ats n) :
    Agrees B inputs f ⟨ps, pat⟩ := by
  have htys : (computeResultTypes ⟨ps, pat⟩ inputs.patternType).has
      (typeFile.union typePath) = false := by
    rw [has_text, ← htx]
    cases pat with
    | none => rfl
    | some n => exact over_text hs (hp n rfl)
  intro job hjob
  unfold textJobs at hjob
  simp only [htys, Bool.false_eq_true, if_false] at hjob
  obtain ⟨zoe, hzoe, hjob⟩ := bind_eq_ok hjob
  obtain ⟨flat, hfl, hjob⟩ := bind_eq_ok hjob
  cases hzoe
  cases hjob
  have hrts : flat.returns B f = false := by
    cases pat with
    | none =>
      cases hfl
      rw [@newFlatJob_noop B inputs ps none htx]
      rfl
    | some n =>
      obtain ⟨flat', hfl', hrts⟩ :=
        @toPatternExpressionJob_returns B inputs ps f _ n (hp n rfl)
      cases hfl.symm.trans hfl'
      have hfla : ∀ a ∈ ats, flatReturns B inputs ps f a = (false && false) := by
        intro a _
        rw [flatReturns, @newFlatJob_noop B inputs ps (some a) ((atomTypes_text hs a).trans htx)]
        rfl
      rw [hrts, eval_congr (hp n rfl) hfla, eval_filter (hp n rfl)]
      rfl
  exact hrts.symm

theorem atomTypes_file (hs : inputs.patternType ≠ .structural) (a : Pattern) :
    (atomTypes inputs ps a).file = (queryTypes inputs ps).file ∧
      ((atomTypes inputs ps a).path = true → (queryTypes inputs ps).path = true) := by
  unfold atomTypes queryTypes computeResultTypes
  simp only [hs, decide_false, Bool.false_and, Bool.false_eq_true, if_false]
  cases (includeExcludeValues ps "type").1.isEmpty with
  | false => exact ⟨rfl, id⟩
  | true => cases a.annotation.labels.isAlias <;> simp [typeFile]

theorem compilePattern_atom :
    compilePattern B.regexp B.unicode (atomInfo B inputs ps a) =
      compilePattern B.regexp B.unicode
        { pattern := indexText a
          isRegExp := labelled a
          isCaseSensitive := isCaseSensitive B ps } := rfl

theorem searcherSelects_eq
    (h : compilePattern B.regexp B.unicode (atomInfo B inputs ps a) = .ok compiled) :
    searcherSelects B inputs ps f a =
      (sought (atomTypes inputs ps a)
        (foundInContent B f (patternGrep (isCaseSensitive B ps) compiled))
        ((patternGrep (isCaseSensitive B ps) compiled).matchString B.regexp B.unicode f.name) !=
          a.negated) := by
  rw [searcherSelects, h]

theorem fileRe_eval {pat : Bytes} {cs : Bool} {q : Q} (h : fileRe B pat cs = .ok q) :
    ∃ nd, parseNeedle B pat = .ok nd ∧ q.eval B f = nd.foundIn B cs f.name := by
  obtain ⟨nd, hndl, rfl⟩ := map_eq_ok h
  exact ⟨nd, hndl, by simp [Q.eval]⟩

theorem evalAll_append (qs qs' : List Q) :
    Q.evalAll B f (qs ++ qs') = (Q.evalAll B f qs && Q.evalAll B f qs') := by
  simp [queries_all, combine]

theorem includeQueries_eval (h : includeQueries B (isCaseSensitive B ps) pat = .ok qs)
    (hrd : ∀ patt ∈ pat, FilterReadAlike B ps f patt) :
    ∃ res, compileIncludes B.regexp (isCaseSensitive B ps) pat = .ok res ∧
      (res.all fun re => B.regexp.matchString re.tree f.name) = Q.evalAll B f qs := by
  induction pat generalizing qs with
  | nil =>
    cases h
    exact ⟨[], rfl, rfl⟩
  | cons patt pat ih =>
    obtain ⟨q, hq, h⟩ := bind_eq_ok h
    obtain ⟨qs, hqs, h⟩ := bind_eq_ok h
    cases h
    obtain ⟨nd, hndl, hev⟩ := @fileRe_eval B f _ _ _ hq
    obtain ⟨re, hre, hmt⟩ := hrd patt (by simp) nd hndl
    obtain ⟨res, hres, hall⟩ := ih hqs (forall_mem_cons.mp hrd).2
    refine ⟨re :: res, ?_, ?_⟩
    · rw [compileIncludes, hre, hres]
    · rw [all_cons, hall, hmt, Q.evalAll, hev]

theorem languageQueries_eval : Q.evalAll B f (languageQueries B inputs ps) =
    ((includeExcludeValues ps "lang").1 = [] || !inputs.contentBasedLangFilters ||
      B.language f ∈ (includeExcludeValues ps "lang").1.map (languageOf B) : Bool) := by
  simp only [languageQueries]
  split
  · rename_i hlang
    rw [Bool.eq_iff_iff]
    simp [Q.evalAll, Q.eval, queries_any, combine, hlang.1, hlang.2, eq_comm (a := B.language f)]
  · rename_i hlang
    by_cases hnil : (includeExcludeValues ps "lang").1 = []
    · simp [Q.evalAll, hnil]
    · have hoff : inputs.contentBasedLangFilters = false := by simpa [hnil] using hlang
      simp [Q.evalAll, hoff]

theorem empty_found (h : EnginesAgree B inputs ps f atoms) (hnd : parseNeedle B [] = .ok needle) :
    needle.foundIn B (isCaseSensitive B ps) f.name = true := by
  obtain ⟨compiled, hcompiled, -, hname⟩ := h.patterns [] (by simp) needle hnd
  cases hcompiled
  exact hname.symm

/-- The queries of the filters accept the files of the path matcher that the index keeps. -/
theorem filterQueries_eval (h : EnginesAgree B inputs ps f atoms)
    (hqs : filterQueries B inputs ps = .ok qs) :
    ∃ pm, compilePathPatterns B.regexp (fileFilters B ps).1 (unionRegExps (fileFilters B ps).2)
        (isCaseSensitive B ps) = .ok pm ∧
      Q.evalAll B f qs = (pm.matchPath B.regexp f.name && indexKeeps B inputs ps f) := by
  obtain ⟨includes, hinc, hqs⟩ := bind_eq_ok hqs
  obtain ⟨excludes, hexc, hqs⟩ := bind_eq_ok hqs
  cases hqs
  obtain ⟨hunion, hincludes⟩ := forall_mem_cons.mp h.filters
  obtain ⟨res, hres, hall⟩ := includeQueries_eval hinc hincludes
  rw [evalAll_append, evalAll_append, languageQueries_eval, ← hall, indexKeeps, compilePathPatterns,
    hres]
  by_cases hnil : (fileFilters B ps).2 = []
  · rw [excludeQueries, if_pos hnil] at hexc
    cases hexc
    rw [hnil, unionRegExps, if_pos rfl]
    refine ⟨_, rfl, ?_⟩
    simp [PathMatcher.matchPath, Q.evalAll]
  rw [excludeQueries, if_neg hnil] at hexc
  obtain ⟨q, hq, rfl⟩ := map_eq_ok hexc
  obtain ⟨needle, hneedle, hev⟩ := @fileRe_eval B f _ _ _ hq
  by_cases hempty : unionRegExps (fileFilters B ps).2 = []
  · rw [hempty] at hneedle
    rw [if_pos hempty]
    refine ⟨_, rfl, ?_⟩
    simp [Q.evalAll, Q.eval, hev, empty_found h hneedle, hnil, hempty]
  · obtain ⟨re, hre, hmt⟩ := hunion needle hneedle
    rw [if_neg hempty, hre]
    refine ⟨_, rfl, ?_⟩
    simp [PathMatcher.matchPath, Q.evalAll, Q.eval, hev, hmt, hempty]

theorem searcherPasses_eq (hpm : compilePathPatterns B.regexp (fileFilters B ps).1
      (unionRegExps (fileFilters B ps).2) (isCaseSensitive B ps) = .ok pm) :
    searcherPasses B ps f = pm.matchPath B.regexp f.name := by
  rw [searcherPasses, hpm]

theorem selectsRejected_eq
    (hcompiled : compilePattern B.regexp B.unicode (atomInfo B inputs ps a) = .ok compiled)
    (hpm : compilePathPatterns B.regexp (fileFilters B ps).1
      (unionRegExps (fileFilters B ps).2) (isCaseSensitive B ps) = .ok pm) :
    selectsRejected B inputs ps a = (a.negated && onFastPath inputs ps a) := by
  rw [selectsRejected, compile_ok hcompiled hpm]
  exact Bool.and_true _

theorem foundInContent_eq
    (hcompiled : compilePattern B.regexp B.unicode info = .ok compiled) (caseSensitive : Bool) :
    foundInContent B f (patternGrep caseSensitive compiled) =
      (matchesContent B f (patternGrep caseSensitive compiled) &&
        (patternGrep caseSensitive compiled).worthConsidering f.data) := by
  obtain ⟨re, literal⟩ := compiled
  cases re with
  | some re => rfl
  | none =>
    have hnil : info.pattern = [] := by simpa using (compilePattern_isNone hcompiled).symm
    rw [compilePattern, if_pos hnil] at hcompiled
    cases hcompiled
    simp [foundInContent, matchesContent, patternGrep, ReaderGrep.worthConsidering]

theorem atom_compiles (h : EnginesAgree B inputs ps f atoms) (ha : a ∈ atoms)
    (hneedle : parseNeedle B (indexText a) = .ok needle) :
    ∃ compiled, compilePattern B.regexp B.unicode (atomInfo B inputs ps a) = .ok compiled := by
  cases hlabel : labelled a with
  | false => exact h.quoted a ha hlabel
  | true =>
    obtain ⟨compiled, hcompiled, -⟩ :=
      h.patterns _ (mem_cons_of_mem _ (mem_map_of_mem ha)) needle hneedle
    refine ⟨compiled, ?_⟩
    rw [compilePattern_atom, hlabel, hcompiled]

/-- The searches agree on an atom if and only if it fits. -/
theorem atomFits_iff (hs : inputs.patternType ≠ .structural)
    (htext : searchesText inputs ps = true) (h : EnginesAgree B inputs ps f atoms)
    (hqs : filterQueries B inputs ps = .ok qs) (ha : a ∈ atoms)
    (hneedle : parseNeedle B (indexText a) = .ok needle)
    (hcompiled : compilePattern B.regexp B.unicode (atomInfo B inputs ps a) = .ok compiled)
    (htypes : types ∈ [queryTypes inputs ps, atomTypes inputs ps a]) :
    AtomFits B inputs ps f types a needle (patternGrep (isCaseSensitive B ps) compiled) ↔
      (Q.evalAll B f qs && indexSelects B ps f types a needle) = flatReturns B inputs ps f a := by
  obtain ⟨pm, hpm, hfilters⟩ := filterQueries_eval h hqs
  have hown : types.file = (atomTypes inputs ps a).file ∧
      ((atomTypes inputs ps a).path = true → types.path = true) := by
    rcases mem_cons.mp htypes with rfl | htypes
    · exact ⟨(atomTypes_file hs a).1.symm, (atomTypes_file hs a).2⟩
    · cases mem_singleton.mp htypes
      exact ⟨rfl, id⟩
  rw [flatReturns_eq hs htext, searcherSelects_eq hcompiled, selectsRejected_eq hcompiled hpm,
    hfilters, ← @searcherPasses_eq B ps f pm hpm, AtomFits, indexSelects]
  cases searcherPasses B ps f with
  | false => exact eq_comm
  | true =>
    cases indexKeeps B inputs ps f with
    | false =>
      simp only [Bool.and_false, Bool.false_and, if_true, Bool.true_eq_false, if_false]
      rw [Bool.false_eq, bne_eq_false_iff_eq]
    | true =>
      simp only [Bool.and_self, Bool.true_and, if_true, Bool.true_eq_false, if_false,
        Bool.bne_left_inj]
      cases hlabel : labelled a with
      | false => exact Iff.rfl
      | true =>
        -- the engines find the pattern in the same places, so only the pre-filter and the types
        -- of the atom are left
        obtain ⟨compiled', hcompiled', hcontent, hname⟩ :=
          h.patterns _ (mem_cons_of_mem _ (mem_map_of_mem ha)) needle hneedle
        rw [compilePattern_atom, hlabel, hcompiled'] at hcompiled
        cases hcompiled
        rw [foundInContent_eq hcompiled', hcontent, hname, sought, sought, hown.1]
        have himp := hown.2
        have hplace := (atomTypes_text hs a).trans htext
        revert himp hplace
        cases (atomTypes inputs ps a).file <;> cases (atomTypes inputs ps a).path <;>
          cases types.path <;>
          cases needle.foundIn B (isCaseSensitive B ps) f.data <;>
          cases needle.foundIn B (isCaseSensitive B ps) f.name <;>
          cases (patternGrep (isCaseSensitive B ps) compiled).worthConsidering f.data <;> decide

theorem atoms_agree (hs : inputs.patternType ≠ .structural) (he : EnginesAgree B inputs ps f atoms)
    (hn : Over atoms n)
    (htypes : ∀ a ∈ atoms, computeResultTypes ⟨ps, some n⟩ inputs.patternType ∈
      [queryTypes inputs ps, atomTypes inputs ps a])
    (h : AtomsFit B inputs ps f (computeResultTypes ⟨ps, some n⟩ inputs.patternType) atoms) :
    Agrees B inputs f ⟨ps, some n⟩ := by
  cases htext : searchesText inputs ps with
  | false => exact unsearched_agrees hs htext (by simpa using hn)
  | true =>
    refine expression_agrees hn rfl ((over_text hs hn).trans htext) ?_
    intro qs hqs a ha needle hneedle
    obtain ⟨compiled, hcompiled⟩ := atom_compiles he ha hneedle
    exact (atomFits_iff hs htext he hqs ha hneedle hcompiled (htypes a ha)).mp
      (h htext qs hqs a ha needle hneedle compiled hcompiled)

/-- The searches of a single operand or of an atom alone agree only if the atom fits. -/
theorem atom_fits (hs : inputs.patternType ≠ .structural) (he : EnginesAgree B inputs ps f atoms)
    (ha : a ∈ atoms) (hn : n = .pattern a ∨ n = .operator .and [.pattern a])
    (h : Agrees B inputs f ⟨ps, some n⟩) :
    AtomsFit B inputs ps f (computeResultTypes ⟨ps, some n⟩ inputs.patternType) [a] := by
  intro htext qs hqs a' ha' needle hneedle compiled hcompiled
  cases mem_singleton.mp ha'
  have hover : Over atoms n := by
    rcases hn with rfl | rfl
    · exact .atom ha
    · exact .operator (by simp) (by simp) (by simpa using .atom ha)
  have htypes : computeResultTypes ⟨ps, some n⟩ inputs.patternType ∈
      [queryTypes inputs ps, atomTypes inputs ps a] := by
    rcases hn with rfl | rfl
    · simp [atomTypes]
    · simp [computeResultTypes_operator hs]
  have htext' := (over_text hs hover).trans htext
  generalize hty : computeResultTypes ⟨ps, some n⟩ inputs.patternType = types at htypes htext' ⊢
  obtain ⟨q, hq⟩ := toZoektAtom_ok hneedle (isCaseSensitive B ps) types.file types.path
  obtain ⟨q', hq', hflat, hev⟩ : ∃ q',
      toZoektPattern B (isCaseSensitive B ps) types.file types.path n = .ok q' ∧
      toPatternExpressionJob B inputs ps n = .ok (newFlatJob B inputs ps (some a)) ∧
      q'.eval B f = q.eval B f := by
    rcases hn with rfl | rfl
    · exact ⟨q, hq, rfl, rfl⟩
    · refine ⟨.and [q], ?_, rfl, by simp [Q.eval, Q.evalAll]⟩
      simp [toZoektPattern, toZoektPatterns, hq, bind, Except.bind]
  have hagrees := h _ ((textJobs_some_iff hty htext').mpr ⟨q', qs, _, hq', hqs, hflat, rfl⟩)
  obtain ⟨needle', hneedle', hselects⟩ := @toZoektAtom_eval B f types htext' _ a q hq
  cases hneedle.symm.trans hneedle'
  rw [atomFits_iff hs htext he hqs ha hneedle hcompiled htypes, Bool.and_comm]
  simpa only [BasicJob.indexed, BasicJob.unindexed, Option.any_some, Q.eval, Q.evalAll, hev,
    hselects, indexSelects, flatReturns] using hagrees

theorem none_agrees_iff (hs : inputs.patternType ≠ .structural)
    (he : EnginesAgree B inputs ps f atoms) :
    Agrees B inputs f ⟨ps, none⟩ ↔ FiltersFit B inputs ps f := by
  cases htext : searchesText inputs ps with
  | false =>
    refine ⟨fun _ htrue => ?_, fun _ => @unsearched_agrees B inputs ps f none [] hs htext (by simp)⟩
    rw [htext] at htrue
    cases htrue
  | true =>
    have hjob : ∀ qs, filterQueries B inputs ps = .ok qs →
        (BasicJob.indexed B f ⟨some (.and qs), newFlatJob B inputs ps none⟩ =
          BasicJob.unindexed B f ⟨some (.and qs), newFlatJob B inputs ps none⟩ ↔
          (searcherPasses B ps f = true → indexKeeps B inputs ps f = true)) := by
      intro qs hqs
      obtain ⟨pm, hpm, hfilters⟩ := filterQueries_eval he hqs
      rw [BasicJob.indexed, BasicJob.unindexed, newFlatJob_none htext, Option.any_some, Q.eval,
        hfilters, ← @searcherPasses_eq B ps f pm hpm]
      cases searcherPasses B ps f <;> simp
    constructor
    · intro h _ qs hqs
      exact (hjob qs hqs).mp (h _ ((textJobs_none_iff htext).mpr ⟨qs, hqs, rfl⟩))
    · intro h job hok
      obtain ⟨qs, hqs, rfl⟩ := (textJobs_none_iff htext).mp hok
      exact (hjob qs hqs).mpr (h htext qs hqs)

theorem EnginesAgree.mono (h : EnginesAgree B inputs ps f atoms) (hsub : fewer ⊆ atoms) :
    EnginesAgree B inputs ps f fewer :=
  ⟨fun text htext => h.patterns text (cons_subset_cons _ (map_subset _ hsub) htext),
    fun a ha => h.quoted a (hsub ha), h.filters⟩

theorem atom_agrees_iff (hs : inputs.patternType ≠ .structural)
    (he : EnginesAgree B inputs ps f atoms) (ha : a ∈ atoms) :
    Agrees B inputs f ⟨ps, some (.pattern a)⟩ ↔
      AtomsFit B inputs ps f (atomTypes inputs ps a) [a] := by
  exact ⟨atom_fits hs he ha (.inl rfl), atoms_agree hs (he.mono (by simpa using ha))
    (.atom (by simp)) (by simp [atomTypes])⟩

theorem operator_agrees (hs : inputs.patternType ≠ .structural)
    (he : EnginesAgree B inputs ps f atoms)
    (h : AtomsFit B inputs ps f (queryTypes inputs ps) atoms)
    (hn : Over atoms (.operator kind operands)) :
    Agrees B inputs f ⟨ps, some (.operator kind operands)⟩ := by
  refine atoms_agree hs he hn (by simp [computeResultTypes_operator hs]) ?_
  rwa [computeResultTypes_operator hs]

theorem operand_fits (hs : inputs.patternType ≠ .structural)
    (he : EnginesAgree B inputs ps f atoms) (ha : a ∈ atoms)
    (h : Agrees B inputs f ⟨ps, some (.operator .and [.pattern a])⟩) :
    AtomsFit B inputs ps f (queryTypes inputs ps) [a] := by
  have hfits := atom_fits hs he ha (.inr rfl) h
  rwa [computeResultTypes_operator hs] at hfits

theorem withFileContains_over {rest : List Pattern} {pattern : Option Node}
    (hp : ∀ n ∈ pattern, Over rest n) {contained : List String} (hne : contained ≠ []) :
    ∃ operands, withFileContains ⟨ps, pattern⟩ contained = ⟨ps, some (.operator .and operands)⟩ ∧
      Over (contained.map containsPattern ++ rest) (.operator .and operands) := by
  rw [withFileContains, if_neg hne]
  refine ⟨_, rfl, .operator (by simp) (by simp [hne]) fun o ho => ?_⟩
  rcases mem_append.mp ho with ho | ho
  · obtain ⟨pat, hpat, rfl⟩ := mem_map.mp ho
    exact .atom (mem_append_left _ (mem_map_of_mem hpat))
  · exact over_mono (by simp) (hp o (by simpa using ho))

theorem basicAgrees_iff (hcontained : fileContainsContent B b.parameters = .ok contained) :
    BasicAgrees B inputs f b ↔ Agrees B inputs f (withFileContains b contained) := by
  unfold BasicAgrees Agrees newBasicJob
  rw [hcontained]
  refine forall_congr' fun job => imp_congr ?_ Iff.rfl
  simp only [bind, Except.bind]
  cases textJobs B inputs (withFileContains b contained) <;> simp [Except.mapError]

/-- The pattern `a.c`. -/
def dotPattern : Regexp := .concat [.literal false [0x61], .anyCharNotNL, .literal false [0x63]]

def literalPattern (s : String) : Regexp := .literal false (codes (bytes s))

def patternTable : List (Bytes × Regexp) :=
  [(bytes "a.c", dotPattern), (bytes "foo", literalPattern "foo"),
    (bytes "bar", literalPattern "bar")]

def parseTable (table : List (Bytes × Regexp)) (expr : Bytes) : Except String Regexp :=
  match table.lookup expr with
  | some tree => .ok tree
  | none => .error "unknown pattern"

def multiline (expr : Bytes) : Bytes := bytes "(?m:" ++ expr ++ bytes ")"

/-- A package that parses the patterns, also within a multi-line group, and a quoted one. -/
noncomputable def tableRegexps : RegexpPackage :=
  { onePattern .emptyMatch [] [] with
    parse := parseTable ((bytes "a\\.c", literalPattern "a.c") ::
      (patternTable ++ patternTable.map fun entry => (multiline entry.1, entry.2)))
    string := fun
      | .literal _ runes => quoteMeta (encode runes)
      | _ => bytes "a.c" }

noncomputable def tableBackends : Backends where
  packages := QueryPipeline.permissive
  regexp := tableRegexps
  unicode := latin1
  parse := parseTable patternTable
  optimizeRegexp re := re
  findsSubstring _ pattern := tableRegexps.matchString (.literal false (codes pattern))
  findsRegexp _ := tableRegexps.matchString
  language _ := ""
  getLanguageExtensions _ := []
  filenamesFromLanguage _ := []

def standardInputs : Inputs := { patternType := .standard }

def caseYes : Parameter := { field := "case", value := "yes" }

theorem same_meaning : ∀ en ∈ patternTable,
    tableBackends.regexp.parse (multiline en.1) = tableBackends.parse en.1 := by
  intro en hent
  simp only [patternTable, mem_cons, not_mem_nil, or_false] at hent
  rcases hent with rfl | rfl | rfl <;> rfl

theorem literal_found : tableRegexps.matchString (literalPattern s) (bytes s) = true := by
  rw [tableRegexps.matchString_iff]
  refine ⟨⟨[], runes (bytes s), [], by simp, ?_⟩⟩
  exact forall₂_same.mpr fun x _ => .inl rfl

theorem literal_within (hs : s ∈ ["a.c", "foo", "bar"])
    (h : tableRegexps.matchString (literalPattern s) text = true) : bytes s <:+: text := by
  obtain ⟨m⟩ := (tableRegexps.matchString_iff _ _).mp h
  have hvld : ∀ s ∈ ["a.c", "foo", "bar"], (∀ r ∈ codes (bytes s), r ≠ runeError.toNat) ∧
      encode (codes (bytes s)) = bytes s := by decide +kernel
  obtain ⟨hvld, henc⟩ := hvld s hs
  have hone : SpelledOnce tableRegexps.fold (literalPattern s) := by
    rintro ch ⟨⟩ r hr
    exact ⟨hvld r hr, nofun⟩
  have hwi : longestLiteral (literalPattern s) <:+: text := by
    refine longestLiteral_infix hone m.language ?_
    rw [codes, m.runes_eq, map_append, map_append]
    exact infix_append _ _ _
  rw [← henc]
  exact hwi

theorem literal_missing {s : String} (hs : s ∈ ["a.c", "foo", "bar"]) {text : Bytes}
    (h : ¬ bytes s <:+: text) : tableRegexps.matchString (literalPattern s) text = false :=
  Bool.eq_false_iff.mpr (mt (literal_within hs) h)

/-- A literal pattern is its own prefix, so there is no pre-filter. -/
theorem literal_content :
    foundInContent tableBackends f (patternGrep true (some ⟨printed, literalPattern s⟩, [])) =
      tableRegexps.matchString (literalPattern s) f.data := by
  change (tableRegexps.matchString (literalPattern s) f.data && decide ([] <:+: f.data)) = _
  simp

def fooAtom : Pattern := { value := "foo", annotation := { labels := { literal := true } } }

def barAtom : Pattern := { value := "bar", annotation := { labels := { literal := true } } }

/-- The pattern of `content:foo`. -/
def contentAtom : Pattern :=
  { value := "foo", annotation := { labels := { literal := true, isAlias := true } } }

theorem caseYes_sensitive : isCaseSensitive tableBackends [caseYes] = true := by decide +kernel

theorem literal_compiled (hs : s ∈ ["foo", "bar"]) :
    compilePattern tableRegexps latin1
        { pattern := bytes s, isRegExp := true, isCaseSensitive := true } =
      .ok (some ⟨bytes s, literalPattern s⟩, []) := by
  simp only [mem_cons, not_mem_nil, or_false] at hs
  rcases hs with rfl | rfl <;> rfl

def containsParameter : Parameter where
  field := "file"
  value := "contains.content(a.c)"
  annotation := { labels := { isPredicate := true } }

/-- The query `case:yes file:contains.content(a.c)`. -/
def containsQuery : Basic := ⟨[caseYes, containsParameter], none⟩

/-- The query `case:yes (content:foo or bar)`. -/
def contentQuery : Basic :=
  ⟨[caseYes], some (.operator .or [.pattern contentAtom, .pattern barAtom])⟩

theorem dot_found : tableRegexps.matchString dotPattern (bytes "abc") = true := by
  rw [tableRegexps.matchString_iff]
  refine ⟨⟨[], runes (bytes "abc"), [], by simp, ?_⟩⟩
  refine ⟨[0x61], [0x62, 0x63], by decide, ?_, [0x62], [0x63], rfl, ⟨0x62, rfl, by decide⟩,
    [0x63], [], rfl, ?_, rfl⟩
  all_goals exact forall₂_same.mpr fun x _ => .inl rfl

theorem literal_returns {s : String} {ps : List Parameter}
    {f : SrcFile} (hca : isCaseSensitive tableBackends ps = true)
    (htx : searchesText standardInputs ps = true)
    (hpas : searcherPasses tableBackends ps f = true) {a : Pattern} {printed : Bytes}
    (h : compilePattern tableRegexps latin1
      { pattern := indexText a, isRegExp := labelled a, isCaseSensitive := true } =
        .ok (some ⟨printed, literalPattern s⟩, [])) :
    flatReturns tableBackends standardInputs ps f a =
      (sought (atomTypes standardInputs ps a) (tableRegexps.matchString (literalPattern s) f.data)
        (tableRegexps.matchString (literalPattern s) f.name) != a.negated) := by
  rw [← hca] at h
  rw [flatReturns_eq (by decide) htx, if_pos hpas, searcherSelects_eq h, hca, literal_content]
  rfl

/-- The searcher quotes a pattern without label, so `abc` does not match `a.c`. -/
theorem contains_differs : ∃ job,
    newBasicJob tableBackends standardInputs containsQuery = .ok job ∧
      job.indexed tableBackends ⟨bytes "x.go", bytes "abc"⟩ = true ∧
      job.unindexed tableBackends ⟨bytes "x.go", bytes "abc"⟩ = false := by
  have hcon : fileContainsContent tableBackends [caseYes, containsParameter] =
      .ok ["a.c"] := by decide +kernel
  have hca : isCaseSensitive tableBackends [caseYes, containsParameter] = true := by
    decide +kernel
  refine ⟨⟨some (.and [.and [.atom (.regexp dotPattern)
    (isCaseSensitive tableBackends [caseYes, containsParameter]) false false]]),
    newFlatJob tableBackends standardInputs [caseYes, containsParameter]
      (some (containsPattern "a.c"))⟩, ?_, ?_, ?_⟩
  · have hjob := (@textJobs_some_iff tableBackends standardInputs [caseYes, containsParameter]
      (.operator .and [.pattern (containsPattern "a.c")]) _
      (computeResultTypes_operator (by decide) _ _) rfl _).mpr ⟨_, [], _, rfl, rfl, rfl, rfl⟩
    unfold newBasicJob
    rw [containsQuery, hcon]
    exact congrArg (Except.mapError Fault.error) hjob
  · have hfnd : (Needle.regexp dotPattern).foundIn tableBackends
        (isCaseSensitive tableBackends [caseYes, containsParameter]) (bytes "abc") = true :=
      dot_found
    simp [BasicJob.indexed, Q.eval, Q.evalAll, hfnd]
  · have hnm := @literal_missing "a.c" (by decide) (bytes "x.go") (by decide)
    have hda := @literal_missing "a.c" (by decide) (bytes "abc") (by decide)
    have hfl : flatReturns tableBackends standardInputs [caseYes, containsParameter]
        ⟨bytes "x.go", bytes "abc"⟩ (containsPattern "a.c") = false := by
      rw [@literal_returns "a.c" _ _ hca rfl rfl _ (bytes "a\\.c") rfl, hnm, hda]
      rfl
    exact hfl

/-- An atom `content:foo` of an expression is also looked for in the names of indexed files. -/
theorem content_differs : ∃ job,
    newBasicJob tableBackends standardInputs contentQuery = .ok job ∧
      job.indexed tableBackends ⟨bytes "foo", bytes "x"⟩ = true ∧
      job.unindexed tableBackends ⟨bytes "foo", bytes "x"⟩ = false := by
  have hcon : fileContainsContent tableBackends [caseYes] = .ok [] := by decide +kernel
  refine ⟨⟨some (.and [.or [.atom (.substring (bytes "foo"))
    (isCaseSensitive tableBackends [caseYes]) false false, .atom (.substring (bytes "bar"))
      (isCaseSensitive tableBackends [caseYes]) false false]]),
    .or [newFlatJob tableBackends standardInputs [caseYes] (some contentAtom),
      newFlatJob tableBackends standardInputs [caseYes] (some barAtom)]⟩, ?_, ?_, ?_⟩
  · have hjob := (@textJobs_some_iff tableBackends standardInputs [caseYes]
      (.operator .or [.pattern contentAtom, .pattern barAtom]) _
      (computeResultTypes_operator (by decide) _ _) rfl _).mpr ⟨_, [], _, rfl, rfl, rfl, rfl⟩
    unfold newBasicJob
    rw [contentQuery, hcon]
    exact congrArg (Except.mapError Fault.error) hjob
  · have hfnd : (Needle.substring (bytes "foo")).foundIn tableBackends
        (isCaseSensitive tableBackends [caseYes]) (bytes "foo") = true := literal_found
    simp [BasicJob.indexed, Q.eval, Q.evalAll, Q.evalAny, hfnd]
  · have hfoo := @literal_missing "foo" (by decide) (bytes "x") (by decide)
    have hbar := @literal_missing "bar" (by decide) (bytes "x") (by decide)
    have hbar' := @literal_missing "bar" (by decide) (bytes "foo") (by decide)
    have hco : flatReturns tableBackends standardInputs [caseYes]
        ⟨bytes "foo", bytes "x"⟩ contentAtom = false := by
      rw [@literal_returns "foo" _ _ caseYes_sensitive rfl rfl _ (bytes "foo") rfl,
        hfoo]
      rfl
    have hoth : flatReturns tableBackends standardInputs [caseYes]
        ⟨bytes "foo", bytes "x"⟩ barAtom = false := by
      rw [@literal_returns "bar" _ _ caseYes_sensitive rfl rfl _ (bytes "bar") rfl,
        hbar, hbar']
      rfl
    rw [flatReturns] at hco hoth
    simp [BasicJob.unindexed, Job.returns, Job.anyReturns, hco, hoth]

def notBarAtom : Pattern := { barAtom with negated := true }

theorem literal_readAlike {s : String} (hs : s ∈ ["foo", "bar"]) (f : SrcFile) :
    ReadAlike tableBackends [caseYes] f (bytes s) := by
  have hneedle : parseNeedle tableBackends (bytes s) = .ok (.substring (bytes s)) := by
    simp only [mem_cons, not_mem_nil, or_false] at hs
    rcases hs with rfl | rfl <;> rfl
  intro needle h
  cases hneedle.symm.trans h
  rw [caseYes_sensitive]
  exact ⟨_, literal_compiled hs, rfl, rfl⟩

theorem literal_fits {a : Pattern} (ha : a ∈ [fooAtom, notBarAtom]) (needle : Needle)
    (compiled : Option Compiled × Bytes)
    (h : compilePattern tableBackends.regexp tableBackends.unicode
      (atomInfo tableBackends standardInputs [caseYes] a) = .ok compiled) (f : SrcFile) :
    AtomFits tableBackends standardInputs [caseYes] f (queryTypes standardInputs [caseYes]) a needle
      (patternGrep (isCaseSensitive tableBackends [caseYes]) compiled) := by
  have hpasses : searcherPasses tableBackends [caseYes] f = true := rfl
  have hkeeps : indexKeeps tableBackends standardInputs [caseYes] f = true := rfl
  have hown : ∀ a ∈ [fooAtom, notBarAtom], labelled a = true ∧
      (atomTypes standardInputs [caseYes] a).path = true := by decide
  have hliteral : compiled.2 = [] := by
    rw [compilePattern_atom, caseYes_sensitive, (hown a ha).1] at h
    simp only [mem_cons, not_mem_nil, or_false] at ha
    rcases ha with rfl | rfl
    · cases h.symm.trans (literal_compiled (s := "foo") (by decide))
      rfl
    · cases h.symm.trans (literal_compiled (s := "bar") (by decide))
      rfl
  have hworth : (patternGrep (isCaseSensitive tableBackends [caseYes])
      compiled).worthConsidering f.data = true := by
    simp [ReaderGrep.worthConsidering, patternGrep, hliteral]
  simp [AtomFits, hpasses, hkeeps, (hown a ha).1, (hown a ha).2, hworth]

theorem table_enginesAgree (f : SrcFile) :
    EnginesAgree tableBackends standardInputs [caseYes] f [fooAtom, notBarAtom] := by
  have hempty : parseNeedle tableBackends [] = .error "unknown pattern" := by rfl
  have hnone : ReadAlike tableBackends [caseYes] f [] := by
    intro needle h
    cases hempty.symm.trans h
  have hfilters : fileFilters tableBackends [caseYes] = ([], []) := by decide
  refine ⟨?_, ?_, ?_⟩
  · simp only [map_cons, map_nil, forall_mem_cons]
    exact ⟨hnone, @literal_readAlike "foo" (by decide) f, @literal_readAlike "bar" (by decide) f,
      by simp⟩
  · intro a ha hlabel
    have hlabels : ∀ a ∈ [fooAtom, notBarAtom], labelled a = true := by decide
    rw [hlabels a ha] at hlabel
    cases hlabel
  · rw [hfilters]
    simp only [forall_mem_cons]
    refine ⟨?_, by simp⟩
    intro needle h
    cases hempty.symm.trans h

end IndexAgreement
