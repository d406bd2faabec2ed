import Sourcegraph.BasicJobs

/-! # Pattern expressions as searches

The query of the index and the job of the searcher are the same expression over what they make of
its atoms. A flat job is given by what its atom selects and by the filters. -/
namespace ExpressionSearches

open GoStrings QueryNodes SearcherCompile RegexSearch BasicJobs List

inductive Over (atoms : List Pattern) : Node → Prop
  | atom {a : Pattern} (h : a ∈ atoms) : Over atoms (.pattern a)
  | operator {kind : OperatorKind} {operands : List Node} (hkind : kind ≠ .concat)
    (hne : operands ≠ []) (h : ∀ o ∈ operands, Over atoms o) : Over atoms (.operator kind operands)

variable (B : Backends) (inputs : Inputs) (ps : List Parameter) (f : SrcFile)

def queryTypes : Types := computeResultTypes ⟨ps, none⟩ inputs.patternType

def atomTypes (a : Pattern) : Types :=
  computeResultTypes ⟨ps, some (.pattern a)⟩ inputs.patternType

def searchesText : Bool := (queryTypes inputs ps).file || (queryTypes inputs ps).path

def atomInfo (a : Pattern) : PatternInfo :=
  toTextPatternInfo B ⟨ps, some (.pattern a)⟩ (atomTypes inputs ps a)

def sought (types : Types) (inContent inName : Bool) : Bool :=
  types.file && inContent || types.path && inName

def indexSelects (types : Types) (a : Pattern) (needle : Needle) : Bool :=
  sought types (needle.foundIn B (isCaseSensitive B ps) f.data)
    (needle.foundIn B (isCaseSensitive B ps) f.name) != a.negated

def indexValue (types : Types) (a : Pattern) : Bool :=
  match parseNeedle B (indexText a) with
  | .error _ => false
  | .ok needle => indexSelects B ps f types a needle

def patternGrep (caseSensitive : Bool) (compiled : Option Compiled × Bytes) : ReaderGrep where
  re := compiled.1
  ignoreCase := !caseSensitive
  matchPath := ⟨[], none⟩
  literalSubstring := compiled.2

/-- The pattern is in the content, and the pre-filter does not hide it. -/
def foundInContent (rg : ReaderGrep) : Bool :=
  match rg.re with
  | none => true
  | some re =>
    B.regexp.matchString re.tree (rg.fileMatchBuf f.data) && rg.worthConsidering f.data

def searcherSelects (a : Pattern) : Bool :=
  match compilePattern B.regexp B.unicode (atomInfo B inputs ps a) with
  | .error _ => false
  | .ok compiled =>
    let rg := patternGrep (isCaseSensitive B ps) compiled
    sought (atomTypes inputs ps a) (foundInContent B f rg)
      (rg.matchString B.regexp B.unicode f.name) != a.negated

def searcherPasses : Bool :=
  match compilePathPatterns B.regexp (fileFilters B ps).1 (unionRegExps (fileFilters B ps).2)
      (isCaseSensitive B ps) with
  | .error _ => false
  | .ok pm => pm.matchPath B.regexp f.name

/-- The searcher only compares names for an empty atom and for one that is about paths. -/
def onFastPath (a : Pattern) : Bool :=
  (indexText a).isEmpty || (atomTypes inputs ps a).path && !(atomTypes inputs ps a).file

/-- On the fast path a negated atom also selects the files that the filters reject. -/
def selectsRejected (a : Pattern) : Bool :=
  a.negated && onFastPath inputs ps a &&
    (compile B.regexp B.unicode (atomInfo B inputs ps a)).toBool

variable {B inputs ps f}

theorem computeResultTypes_operator (h : inputs.patternType ≠ .structural) (kind : OperatorKind)
    (os : List Node) :
    computeResultTypes ⟨ps, some (.operator kind os)⟩ inputs.patternType =
      queryTypes inputs ps := by
  simp [queryTypes, computeResultTypes, h]

theorem atomTypes_text (h : inputs.patternType ≠ .structural) (a : Pattern) :
    ((atomTypes inputs ps a).file || (atomTypes inputs ps a).path) = searchesText inputs ps := by
  unfold atomTypes searchesText queryTypes computeResultTypes
  simp only [h, decide_false, Bool.false_and, Bool.false_eq_true, if_false]
  cases (includeExcludeValues ps "type").1.isEmpty with
  | false => rfl
  | true => cases a.annotation.labels.isAlias <;> rfl

theorem over_types {ats : List Pattern} (hs : inputs.patternType ≠ .structural) {n : Node}
    (hn : Over ats n) :
    (∃ a ∈ ats, n = .pattern a) ∨
      computeResultTypes ⟨ps, some n⟩ inputs.patternType = queryTypes inputs ps := by
  cases hn with
  | atom ha => exact .inl ⟨_, ha, rfl⟩
  | operator => exact .inr (computeResultTypes_operator hs _ _)

theorem over_text (hs : inputs.patternType ≠ .structural) (hn : Over ats n) :
    ((computeResultTypes ⟨ps, some n⟩ inputs.patternType).file ||
      (computeResultTypes ⟨ps, some n⟩ inputs.patternType).path) = searchesText inputs ps := by
  rcases @over_types inputs ps _ hs n hn with ⟨a, -, rfl⟩ | h
  · exact atomTypes_text hs a
  · rw [h, searchesText]

theorem over_mono (hsub : ats ⊆ ats') (hn : Over ats n) : Over ats' n := by
  induction hn with
  | atom ha => exact .atom (hsub ha)
  | operator hk hne _ ih => exact .operator hk hne ih

def valuation (v : Pattern → Bool) : Leaf → Bool
  | .pattern a => v a
  | .parameter _ => false

theorem eval_congr (hn : Over ats n) (h : ∀ a ∈ ats, v a = w a) :
    eval (valuation v) n = eval (valuation w) n := by
  induction hn with
  | atom ha => exact h _ ha
  | operator _ _ _ ih => rw [eval_operator, eval_operator, map_congr_left ih]

theorem combine_filter (kind : OperatorKind) (hne : bs ≠ []) :
    combine kind (bs.map (F && ·)) = (F && combine kind bs) := by
  cases F with
  | true => simp
  | false =>
    obtain ⟨b, bs, rfl⟩ := exists_cons_of_ne_nil hne
    cases kind <;> simp [combine]

theorem eval_filter (hn : Over ats n) :
    eval (valuation fun a => F && v a) n = (F && eval (valuation v) n) := by
  induction hn with
  | atom _ => rfl
  | @operator kind os _ hne _ ih =>
    have hmap : os.map (eval (valuation fun a => F && v a)) =
        (os.map (eval (valuation v))).map (F && ·) := by
      rw [map_map]
      exact map_congr_left ih
    rw [eval_operator, eval_operator, hmap, combine_filter kind (by simpa using hne)]

theorem queries_all : Q.evalAll B f qs = combine .and (qs.map (Q.eval B f)) := by
  induction qs with
  | nil => rfl
  | cons q qs ih => simp [Q.evalAll, ih, combine]

theorem queries_any : Q.evalAny B f qs = combine .or (qs.map (Q.eval B f)) := by
  induction qs with
  | nil => rfl
  | cons q qs ih => simp [Q.evalAny, ih, combine]

theorem toZoektPatterns_map (h : toZoektPatterns B cs cnt path ns = .ok qs)
    (ih : ∀ n ∈ ns, ∀ q, toZoektPattern B cs cnt path n = .ok q → q.eval B f = eval v n) :
    qs.map (Q.eval B f) = ns.map (eval v) := by
  induction ns generalizing qs with
  | nil =>
    cases h
    rfl
  | cons n ns ihn =>
    obtain ⟨q, hq, h⟩ := bind_eq_ok h
    obtain ⟨qs, hqs, h⟩ := bind_eq_ok h
    cases h
    rw [map_cons, map_cons, ih n (by simp) q hq, ihn hqs (forall_mem_cons.mp ih).2]

theorem toZoektPattern_eval (hn : Over ats n)
    (hv : ∀ a ∈ ats, ∀ q, toZoektAtom B cs cnt path a = .ok q → q.eval B f = v a)
    (h : toZoektPattern B cs cnt path n = .ok q) : q.eval B f = eval (valuation v) n := by
  induction hn generalizing q with
  | atom ha => exact hv _ ha q h
  | @operator kind os hk _ _ ih =>
    obtain ⟨qs, hqs, h⟩ := bind_eq_ok h
    have hmap := toZoektPatterns_map hqs fun o ho q hq => ih o ho hq
    rw [eval_operator, ← hmap]
    cases kind with
    | concat => exact absurd rfl hk
    | or =>
      cases h
      rw [Q.eval, queries_any]
    | and =>
      cases h
      rw [Q.eval, queries_all]

theorem allReturn_eq : Job.allReturn B f jobs = combine .and (jobs.map (Job.returns B f)) := by
  induction jobs with
  | nil => rfl
  | cons job jobs ih => simp [Job.allReturn, ih, combine]

theorem anyReturns_eq : Job.anyReturns B f jobs = combine .or (jobs.map (Job.returns B f)) := by
  induction jobs with
  | nil => rfl
  | cons job jobs ih => simp [Job.anyReturns, ih, combine]

theorem newAndJob_returns (hne : jobs ≠ []) :
    (newAndJob jobs).returns B f = combine .and (jobs.map (Job.returns B f)) := by
  match jobs with
  | [] => exact absurd rfl hne
  | [job] => simp [newAndJob, combine]
  | first :: sec :: rest => exact allReturn_eq

theorem newOrJob_returns (hne : jobs ≠ []) :
    (newOrJob jobs).returns B f = combine .or (jobs.map (Job.returns B f)) := by
  match jobs with
  | [] => exact absurd rfl hne
  | [job] => simp [newOrJob, combine]
  | first :: sec :: rest => exact anyReturns_eq

def flatReturns (B : Backends) (inputs : Inputs) (ps : List Parameter) (f : SrcFile)
    (a : Pattern) : Bool :=
  (newFlatJob B inputs ps (some a)).returns B f

theorem toPatternExpressionJobs_map
    (ih : ∀ n ∈ ns, ∃ job, toPatternExpressionJob B inputs ps n = .ok job ∧
      job.returns B f = eval v n) :
    ∃ jobs, toPatternExpressionJobs B inputs ps ns = .ok jobs ∧
      jobs.map (Job.returns B f) = ns.map (eval v) := by
  induction ns with
  | nil => exact ⟨[], rfl, rfl⟩
  | cons n ns ihn =>
    obtain ⟨job, hjob, hrts⟩ := ih n (by simp)
    obtain ⟨jobs, hjo, hmap⟩ := ihn (forall_mem_cons.mp ih).2
    refine ⟨job :: jobs, ?_, by rw [map_cons, map_cons, hrts, hmap]⟩
    rw [toPatternExpressionJobs, hjob]
    simp only [bind, Except.bind, hjo]

theorem toPatternExpressionJob_returns {ats : List Pattern} {n : Node} (hn : Over ats n) :
    ∃ job, toPatternExpressionJob B inputs ps n = .ok job ∧
      job.returns B f = eval (valuation (flatReturns B inputs ps f)) n := by
  induction hn with
  | atom ha => exact ⟨_, rfl, rfl⟩
  | @operator kind os hk hne _ ih =>
    obtain ⟨jobs, hjo, hmap⟩ := toPatternExpressionJobs_map ih
    have hne' : jobs ≠ [] := by
      rintro rfl
      exact hne (map_eq_nil_iff.mp hmap.symm)
    have hemp : os.isEmpty = false := by simpa using hne
    rw [eval_operator, ← hmap]
    cases kind with
    | concat => exact absurd rfl hk
    | or =>
      refine ⟨newOrJob jobs, ?_, newOrJob_returns hne'⟩
      simp [toPatternExpressionJob, hemp, hjo, Except.map]
    | and =>
      refine ⟨newAndJob jobs, ?_, newAndJob_returns hne'⟩
      simp [toPatternExpressionJob, hemp, hjo, Except.map]

theorem compile_ok {info : PatternInfo} {cmp : Option Compiled × Bytes}
    {pm : PathMatcher} (hcmp : compilePattern B.regexp B.unicode info = .ok cmp)
    (hpm : compilePathPatterns B.regexp info.includePatterns info.excludePattern
      info.pathPatternsAreCaseSensitive = .ok pm) :
    compile B.regexp B.unicode info =
      .ok { patternGrep info.isCaseSensitive cmp with matchPath := pm } := by
  rw [compile, hcmp]
  simp only [bind, Except.bind, hpm, patternGrep]

theorem compilePattern_isNone (h : compilePattern B.regexp B.unicode info = .ok compiled) :
    compiled.1.isNone = info.pattern.isEmpty := by
  unfold compilePattern at h
  split at h
  · rename_i hnil
    cases h
    rw [hnil]
    rfl
  rename_i hnil
  obtain ⟨tree, -, h⟩ := bind_eq_ok h
  obtain ⟨re, -, h⟩ := bind_eq_ok h
  rw [isEmpty_eq_false_iff.mpr hnil]
  split at h
  · obtain ⟨ast, -, h⟩ := bind_eq_ok h
    cases h
    rfl
  cases h
  rfl

def found (B : Backends) (f : SrcFile) (rg : ReaderGrep) (mode : Mode) : Bool :=
  mode.patternMatchesContent && foundInContent B f rg ||
    mode.patternMatchesPaths && rg.matchString B.regexp B.unicode f.name

theorem content_eq {mode : Mode}
    (h : (mode.patternMatchesContent || mode.patternMatchesPaths) = true) :
    mode.content = mode.patternMatchesContent := by
  revert h
  unfold Mode.content
  cases mode.patternMatchesContent <;> cases mode.patternMatchesPaths <;> simp

theorem hits_eq_found (h : (mode.patternMatchesContent || mode.patternMatchesPaths) = true) :
    (hits B.regexp B.unicode rg mode f && !RegexSearch.hidden B.regexp B.unicode rg mode f) =
      found B f rg mode := by
  unfold found hits RegexSearch.hidden foundInContent
  rw [content_eq h]
  cases hre : rg.re with
  | none =>
    revert h
    unfold ReaderGrep.matchString
    rw [hre]
    cases mode.patternMatchesContent <;> cases mode.patternMatchesPaths <;> simp
  | some re =>
    cases mode.patternMatchesContent <;> cases mode.patternMatchesPaths <;>
      cases rg.worthConsidering f.data <;>
      cases rg.matchString B.regexp B.unicode f.name <;> simp

theorem fast_found (h : (mode.patternMatchesContent || mode.patternMatchesPaths) = true)
    (hfa : fastPath rg mode = true) :
    rg.matchString B.regexp B.unicode f.name = found B f rg mode := by
  rw [← hits_eq_found h]
  unfold fastPath at hfa
  unfold hits RegexSearch.hidden
  cases hre : rg.re with
  | none => simp [ReaderGrep.matchString, hre]
  | some re =>
    rw [hre, Option.isNone_some, Bool.false_or, Bool.and_eq_true] at hfa
    have hcon : mode.content = false := by simpa using hfa.2
    rw [hfa.1, hcon]
    cases rg.matchString B.regexp B.unicode f.name <;> simp

theorem verdict_eq (h : (mode.patternMatchesContent || mode.patternMatchesPaths) = true) :
    verdict B.regexp B.unicode rg mode f =
      if rg.matchPath.matchPath B.regexp f.name then found B f rg mode != mode.isPatternNegated
      else mode.isPatternNegated && fastPath rg mode := by
  unfold verdict
  cases hfa : fastPath rg mode with
  | true =>
    rw [fast_found h hfa]
    cases rg.matchPath.matchPath B.regexp f.name <;> cases found B f rg mode <;>
      cases mode.isPatternNegated <;> rfl
  | false =>
    rw [hits_eq_found h]
    cases rg.matchPath.matchPath B.regexp f.name <;> simp

theorem fastPath_atom {a : Pattern}
    (h : ((atomTypes inputs ps a).file || (atomTypes inputs ps a).path) = true)
    {cmp : Option Compiled × Bytes} {pm : PathMatcher}
    (hcmp : compilePattern B.regexp B.unicode (atomInfo B inputs ps a) = .ok cmp) :
    fastPath { patternGrep (isCaseSensitive B ps) cmp with matchPath := pm }
        ⟨(atomTypes inputs ps a).file, (atomTypes inputs ps a).path, a.negated⟩ =
      onFastPath inputs ps a := by
  have hno := compilePattern_isNone hcmp
  rw [fastPath, content_eq h]
  exact congrArg (· || (atomTypes inputs ps a).path && !(atomTypes inputs ps a).file) hno

theorem newFlatJob_text {atom : Option Pattern}
    (h : ((computeResultTypes ⟨ps, atom.map .pattern⟩ inputs.patternType).file ||
      (computeResultTypes ⟨ps, atom.map .pattern⟩ inputs.patternType).path) = true) :
    newFlatJob B inputs ps atom = .textSearch (toTextPatternInfo B ⟨ps, atom.map .pattern⟩
      (computeResultTypes ⟨ps, atom.map .pattern⟩ inputs.patternType)) := by
  rw [← has_text] at h
  rw [newFlatJob, h, if_pos rfl]

theorem newFlatJob_noop {atom : Option Pattern}
    (h : ((computeResultTypes ⟨ps, atom.map .pattern⟩ inputs.patternType).file ||
      (computeResultTypes ⟨ps, atom.map .pattern⟩ inputs.patternType).path) = false) :
    newFlatJob B inputs ps atom = .noop := by
  rw [← has_text] at h
  rw [newFlatJob, h]
  rfl

theorem compile_error {info : PatternInfo} {err : String}
    (h : compilePattern B.regexp B.unicode info = .error err ∨
      compilePathPatterns B.regexp info.includePatterns info.excludePattern
        info.pathPatternsAreCaseSensitive = .error err) :
    ∃ e, compile B.regexp B.unicode info = .error e := by
  unfold compile
  cases hcmp : compilePattern B.regexp B.unicode info with
  | error e => exact ⟨e, rfl⟩
  | ok cmp =>
    rcases h with h | h
    · cases hcmp.symm.trans h
    refine ⟨err, ?_⟩
    simp only [bind, Except.bind, h]

theorem flatReturns_eq (hs : inputs.patternType ≠ .structural)
    (htx : searchesText inputs ps = true) : flatReturns B inputs ps f a =
      if searcherPasses B ps f then searcherSelects B inputs ps f a
      else selectsRejected B inputs ps a := by
  have htys := (atomTypes_text hs a).trans htx
  have hrts : flatReturns B inputs ps f a = searcherReturns B (atomInfo B inputs ps a) f := by
    rw [flatReturns, @newFlatJob_text B inputs ps (some a) htys]
    rfl
  rw [hrts, searcherReturns]
  unfold searcherSelects selectsRejected
  cases hcmp : compilePattern B.regexp B.unicode (atomInfo B inputs ps a) with
  | error e =>
    obtain ⟨e, he⟩ := compile_error (.inl hcmp)
    rw [he]
    cases searcherPasses B ps f <;> simp [Except.toBool]
  | ok cmp =>
    unfold searcherPasses
    cases hpm : compilePathPatterns B.regexp (fileFilters B ps).1
        (unionRegExps (fileFilters B ps).2) (isCaseSensitive B ps) with
    | error e =>
      obtain ⟨e, he⟩ := @compile_error B (atomInfo B inputs ps a) e (.inr hpm)
      rw [he]
      simp [Except.toBool]
    | ok pm =>
      rw [compile_ok hcmp hpm]
      have hmo : (⟨(atomInfo B inputs ps a).patternMatchesContent,
          (atomInfo B inputs ps a).patternMatchesPath, (atomInfo B inputs ps a).isNegated⟩ : Mode) =
          ⟨(atomTypes inputs ps a).file, (atomTypes inputs ps a).path, a.negated⟩ := by
        simp [atomInfo, toTextPatternInfo]
      simp only [hmo]
      rw [verdict_eq htys]
      have hfa := @fastPath_atom B inputs ps a htys cmp pm hcmp
      simp only [Except.toBool, Bool.and_true]
      rw [← hfa]
      rfl

theorem verdict_nil (hre : rg.re = none) (hneg : mode.isPatternNegated = false) :
    verdict B.regexp B.unicode rg mode f = rg.matchPath.matchPath B.regexp f.name := by
  have hfa : fastPath rg mode = true := by simp [fastPath, hre]
  simp [verdict, hfa, hneg, ReaderGrep.matchString, hre]

theorem newFlatJob_none (htx : searchesText inputs ps = true) :
    (newFlatJob B inputs ps none).returns B f = searcherPasses B ps f := by
  have hrts : (newFlatJob B inputs ps none).returns B f =
      searcherReturns B (toTextPatternInfo B ⟨ps, none⟩ (queryTypes inputs ps)) f := by
    rw [@newFlatJob_text B inputs ps none htx]
    rfl
  rw [hrts, searcherReturns]
  unfold searcherPasses
  cases hpm : compilePathPatterns B.regexp (fileFilters B ps).1
      (unionRegExps (fileFilters B ps).2) (isCaseSensitive B ps) with
  | error e =>
    obtain ⟨e, he⟩ := @compile_error B (toTextPatternInfo B ⟨ps, none⟩ (queryTypes inputs ps)) e
      (.inr hpm)
    rw [he]
  | ok pm =>
    rw [@compile_ok B (toTextPatternInfo B ⟨ps, none⟩ (queryTypes inputs ps)) (none, []) pm
      rfl hpm]
    exact verdict_nil rfl rfl

theorem toZoektAtom_eval {tys : Types} (htx : (tys.file || tys.path) = true) {cs : Bool}
    {a : Pattern} {q : Q} (h : toZoektAtom B cs tys.file tys.path a = .ok q) :
    ∃ nd, parseNeedle B (indexText a) = .ok nd ∧ q.eval B f =
      (sought tys (nd.foundIn B cs f.data) (nd.foundIn B cs f.name) != a.negated) := by
  obtain ⟨q, hq, h⟩ := bind_eq_ok h
  obtain ⟨nd, hndl, rfl⟩ := map_eq_ok hq
  refine ⟨nd, hndl, ?_⟩
  have hpl : Q.eval B f (.atom nd cs (!tys.path && tys.file) (tys.path && !tys.file)) =
      sought tys (nd.foundIn B cs f.data) (nd.foundIn B cs f.name) := by
    revert htx
    rw [Q.eval, sought]
    cases tys.file <;> cases tys.path <;> simp
  cases h
  cases a.negated with
  | false => simpa using hpl
  | true =>
    rw [if_pos rfl, Q.eval, hpl]
    simp

theorem indexValue_eq (h : parseNeedle B (indexText a) = .ok nd) :
    indexValue B ps f tys a = indexSelects B ps f tys a nd := by
  rw [indexValue, h]

theorem toZoektAtom_ok (h : parseNeedle B (indexText a) = .ok nd) (cs cnt path : Bool) :
    ∃ q, toZoektAtom B cs cnt path a = .ok q := by
  unfold toZoektAtom parseRe
  rw [h]
  exact ⟨_, rfl⟩

theorem toZoektPatterns_ok (h : toZoektPatterns B cs cnt path ns = .ok qs) :
    ∀ n ∈ ns, ∃ q, toZoektPattern B cs cnt path n = .ok q := by
  induction ns generalizing qs with
  | nil => simp
  | cons n ns ih =>
    obtain ⟨q, hq, h⟩ := bind_eq_ok h
    obtain ⟨qs, hqs, -⟩ := bind_eq_ok h
    exact forall_mem_cons.mpr ⟨⟨q, hq⟩, ih hqs⟩

theorem over_accepted (hn : Over ats n) (h : toZoektPattern B cs cnt path n = .ok q) :
    Over (ats.filter fun a => (parseNeedle B (indexText a)).toBool) n := by
  induction hn generalizing q with
  | @atom a ha =>
    refine .atom (mem_filter.mpr ⟨ha, ?_⟩)
    obtain ⟨q, hq, -⟩ := bind_eq_ok h
    obtain ⟨nd, hndl, -⟩ := map_eq_ok hq
    rw [hndl]
    rfl
  | operator hk hne _ ih =>
    obtain ⟨qs, hqs, -⟩ := bind_eq_ok h
    refine .operator hk hne fun o ho => ?_
    obtain ⟨q, hq⟩ := toZoektPatterns_ok hqs o ho
    exact ih o ho hq

theorem textJobs_some_iff {n : Node} {tys : Types}
    (htys : computeResultTypes ⟨ps, some n⟩ inputs.patternType = tys)
    (htx : (tys.file || tys.path) = true) {job : BasicJob} :
    textJobs B inputs ⟨ps, some n⟩ = .ok job ↔
      ∃ q qs flat, toZoektPattern B (isCaseSensitive B ps) tys.file tys.path n = .ok q ∧
        filterQueries B inputs ps = .ok qs ∧ toPatternExpressionJob B inputs ps n = .ok flat ∧
        job = ⟨some (.and (q :: qs)), flat⟩ := by
  rw [← has_text] at htx
  unfold textJobs queryToZoektQuery toFlatJobs
  simp only [htys, htx, if_true, has_typeFile, has_typePath]
  constructor
  · intro h
    obtain ⟨zoe, hzoe, h⟩ := bind_eq_ok h
    obtain ⟨flat, hfl, h⟩ := bind_eq_ok h
    obtain ⟨que, hque, rfl⟩ := map_eq_ok hzoe
    obtain ⟨l, hl, hque⟩ := bind_eq_ok hque
    obtain ⟨qs, hqs, hque⟩ := bind_eq_ok hque
    obtain ⟨q, hq, rfl⟩ := map_eq_ok hl
    cases hque
    cases h
    exact ⟨q, qs, flat, hq, hqs, hfl, rfl⟩
  · rintro ⟨q, qs, flat, hq, hqs, hfl, rfl⟩
    simp [hq, hqs, hfl, bind, Except.bind, Except.map]

theorem textJobs_none_iff (htx : searchesText inputs ps = true) :
    textJobs B inputs ⟨ps, none⟩ = .ok job ↔
      ∃ qs, filterQueries B inputs ps = .ok qs ∧
        job = ⟨some (.and qs), newFlatJob B inputs ps none⟩ := by
  have htx' : (queryTypes inputs ps).has (typeFile.union typePath) = true := by
    rw [has_text]
    exact htx
  unfold queryTypes at htx'
  unfold textJobs queryToZoektQuery toFlatJobs
  simp only [htx', if_true]
  constructor
  · intro h
    obtain ⟨zoe, hzoe, h⟩ := bind_eq_ok h
    obtain ⟨que, hq, rfl⟩ := map_eq_ok hzoe
    obtain ⟨l, hl, hq⟩ := bind_eq_ok hq
    obtain ⟨qs, hqs, hq⟩ := bind_eq_ok hq
    cases hl
    cases hq
    cases h
    exact ⟨qs, hqs, rfl⟩
  · rintro ⟨qs, hqs, rfl⟩
    simp [hqs, bind, Except.bind, Except.map]

end ExpressionSearches
