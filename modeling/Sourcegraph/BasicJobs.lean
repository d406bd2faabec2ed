import Sourcegraph.QueryPipeline
import Sourcegraph.RegexSearch

/-! # The text jobs of a basic query

`NewBasicJob` translates the pattern expression of a basic query as a whole for the indexed
repositories, and splits it into flat queries for the searcher. Limits, jobs for other results and
filters on repositories are not modelled. -/
namespace BasicJobs

open GoStrings GoRunes QueryNodes QueryPlan QueryPredicates QueryPipeline RegexpSyntax
open CaseLowering SearcherCompile RegexSearch
open QueryTransform (SearchType)

/-- The bit set `result.Types`, one flag per type. -/
structure Types where
  repo : Bool := false
  symbol : Bool := false
  file : Bool := false
  path : Bool := false
  diff : Bool := false
  commit : Bool := false
  structural : Bool := false
  deriving DecidableEq

def Types.has (r t : Types) : Bool :=
  r.repo && t.repo || r.symbol && t.symbol || r.file && t.file || r.path && t.path ||
    r.diff && t.diff || r.commit && t.commit || r.structural && t.structural

/-- `Types.With`. -/
def Types.union (r t : Types) : Types where
  repo := r.repo || t.repo
  symbol := r.symbol || t.symbol
  file := r.file || t.file
  path := r.path || t.path
  diff := r.diff || t.diff
  commit := r.commit || t.commit
  structural := r.structural || t.structural

def typeFile : Types := { file := true }

def typePath : Types := { path := true }

/-- A missing key of the map gives no type. -/
def typeFromString (t : String) : Types :=
  if t = "repo" then { repo := true }
  else if t = "symbol" then { symbol := true }
  else if t = "file" then typeFile
  else if t = "path" then typePath
  else if t = "diff" then { diff := true }
  else if t = "commit" then { commit := true }
  else if t = "structural" then { structural := true }
  else {}

@[simp] theorem has_typeFile (r : Types) : r.has typeFile = r.file := by simp [Types.has, typeFile]

@[simp] theorem has_typePath (r : Types) : r.has typePath = r.path := by simp [Types.has, typePath]

@[simp] theorem has_text (r : Types) : r.has (typeFile.union typePath) = (r.file || r.path) := by
  simp [Types.has, Types.union, typeFile, typePath]

/-- What the searches run on. -/
structure Backends where
  packages : Packages
  regexp : RegexpPackage
  unicode : Unicode
  /-- `syntax.Parse` with the flags of zoekt, which do not include `syntax.OneLine`. -/
  parse : Bytes → Except String Regexp
  /-- `zoektquery.OptimizeRegexp` with these flags. -/
  optimizeRegexp : Regexp → Regexp
  /-- Whether the index finds a string in a text, with regard to case or without. -/
  findsSubstring : Bool → Bytes → Bytes → Bool
  /-- Whether the index finds a regexp in a text, with regard to case or without. -/
  findsRegexp : Bool → Regexp → Bytes → Bool
  /-- The language that the index has recorded for a file. -/
  language : SrcFile → String
  getLanguageExtensions : String → List String
  filenamesFromLanguage : String → List String

structure Inputs where
  patternType : SearchType
  contentBasedLangFilters : Bool := false
  deriving DecidableEq

variable (B : Backends) (inputs : Inputs) (ps : List Parameter)

def includeExcludeValues (field : String) : List String × List String :=
  let values := ps.filter fun p => field = p.field && !p.annotation.labels.isPredicate
  ((values.filter fun p => !p.negated).map Parameter.value,
    (values.filter fun p => p.negated).map Parameter.value)

def isCaseSensitive : Bool :=
  (ps.filter fun p => p.field = "case").foldl (fun _ p =>
    match QueryValidate.parseBool B.packages p.value with
    | .ok b => b
    | .error _ => false) false

def fileContainsContent : Except Fault (List String) :=
  QueryValidate.visitTypedPredicate B.packages .fileContainsContent (toNodes ps) (fun values pred =>
      match pred with
      | .fileContainsContent pattern => values ++ [pattern]
      | _ => values) []

def isLiteral (b : Basic) : Bool :=
  match b.pattern with
  | some (.pattern p) => p.annotation.labels.literal
  | _ => false

def isRegexp (b : Basic) : Bool :=
  match b.pattern with
  | some (.pattern p) => p.annotation.labels.regexp
  | _ => false

def isEmptyPattern (b : Basic) : Bool :=
  match b.pattern with
  | none => true
  | some (.pattern p) => p.value = ""
  | some _ => false

def patternString (b : Basic) : Bytes :=
  match b.pattern with
  | some (.pattern p) => if isLiteral b then quoteMeta (bytes p.value) else bytes p.value
  | _ => []

def unionRegExps : List Bytes → Bytes
  | [] => []
  | [value] => value
  | values => bytes "(?:" ++ (bytes ")|(?:").intercalate values ++ bytes ")"

/-- The second value of `enry.GetLanguageByAlias` is not looked at. -/
def languageOf (lang : String) : String := (B.packages.getLanguageByAlias lang).getD ""

def langToFileRegexp (lang : String) : Bytes :=
  let lang := languageOf B lang
  unionRegExps (((B.getLanguageExtensions lang).map fun e => quoteMeta (bytes e) ++ bytes "$") ++
    (B.filenamesFromLanguage lang).map fun filename =>
      bytes "^" ++ quoteMeta (bytes filename) ++ bytes "$")

def fileFilters : List Bytes × List Bytes :=
  let (filesInclude, filesExclude) := includeExcludeValues ps "file"
  let (langInclude, langExclude) := includeExcludeValues ps "lang"
  (filesInclude.map bytes ++ langInclude.map (langToFileRegexp B),
    filesExclude.map bytes ++ langExclude.map (langToFileRegexp B))

def computeResultTypes (b : Basic) (searchType : SearchType) : Types :=
  if searchType = .structural && !isEmptyPattern b then { structural := true }
  else
    let types := (includeExcludeValues b.parameters "type").1
    let isAlias :=
      match b.pattern with
      | some (.pattern p) => p.annotation.labels.isAlias
      | _ => false
    if types.isEmpty && isAlias then typeFile
    else if types.isEmpty then { file := true, path := true, repo := true }
    else types.foldl (fun rts t => rts.union (typeFromString t)) {}

/-- What a substring or a regexp query looks for. -/
inductive Needle where
  | substring (pattern : Bytes)
  | regexp (re : Regexp)

/-- The queries of zoekt that a text search is made of. -/
inductive Q where
  | atom (needle : Needle) (caseSensitive content fileName : Bool)
  | language (name : String)
  | not (child : Q)
  | and (children : List Q)
  | or (children : List Q)

def Needle.foundIn (caseSensitive : Bool) (text : Bytes) : Needle → Bool
  | .substring pattern => B.findsSubstring caseSensitive pattern text
  | .regexp re => B.findsRegexp caseSensitive re text

mutual

/-- The truth of a query about a file. An atom with neither or both of its flags is looked for in
the content and in the name. -/
def Q.eval (f : SrcFile) : Q → Bool
  | .atom needle caseSensitive content fileName =>
    (content || !fileName) && needle.foundIn B caseSensitive f.data ||
      (fileName || !content) && needle.foundIn B caseSensitive f.name
  | .language name => B.language f = name
  | .not child => !child.eval f
  | .and children => Q.evalAll f children
  | .or children => Q.evalAny f children

def Q.evalAll (f : SrcFile) : List Q → Bool
  | [] => true
  | q :: qs => q.eval f && Q.evalAll f qs

def Q.evalAny (f : SrcFile) : List Q → Bool
  | [] => false
  | q :: qs => q.eval f || Q.evalAny f qs

end

/-- A regexp that is just a literal is looked for as a substring. -/
def parseNeedle (pattern : Bytes) : Except String Needle := do
  let re ← B.parse pattern
  match B.optimizeRegexp re with
  | .literal _ runes => .ok (.substring (encode runes))
  | re => .ok (.regexp re)

def parseRe (pattern : Bytes) (filenameOnly contentOnly queryIsCaseSensitive : Bool) :
    Except String Q :=
  (parseNeedle B pattern).map fun needle =>
    .atom needle queryIsCaseSensitive contentOnly filenameOnly

def fileRe (pattern : Bytes) (queryIsCaseSensitive : Bool) : Except String Q :=
  parseRe B pattern true false queryIsCaseSensitive

def indexText (n : Pattern) : Bytes :=
  if n.annotation.labels.literal then quoteMeta (bytes n.value) else bytes n.value

def toZoektAtom (isCaseSensitive patternMatchesContent patternMatchesPath : Bool) (n : Pattern) :
    Except String Q := do
  let fileNameOnly := patternMatchesPath && !patternMatchesContent
  let contentOnly := !patternMatchesPath && patternMatchesContent
  let q ← parseRe B (indexText n) fileNameOnly contentOnly isCaseSensitive
  .ok (if n.negated then .not q else q)

mutual

def toZoektPattern (isCaseSensitive patternMatchesContent patternMatchesPath : Bool) :
    Node → Except String Q
  | .operator kind operands => do
    let children ← toZoektPatterns isCaseSensitive patternMatchesContent patternMatchesPath operands
    match kind with
    | .or => .ok (.or children)
    | .and => .ok (.and children)
    | .concat =>
      .error "broken invariant: don't know what to do with node query.Operator in toZoektPattern"
  | .pattern n => toZoektAtom B isCaseSensitive patternMatchesContent patternMatchesPath n
  | .parameter _ =>
    .error "broken invariant: don't know what to do with node query.Parameter in toZoektPattern"

def toZoektPatterns (isCaseSensitive patternMatchesContent patternMatchesPath : Bool) :
    List Node → Except String (List Q)
  | [] => .ok []
  | node :: nodes => do
    let q ← toZoektPattern isCaseSensitive patternMatchesContent patternMatchesPath node
    let qs ← toZoektPatterns isCaseSensitive patternMatchesContent patternMatchesPath nodes
    .ok (q :: qs)

end

def includeQueries (queryIsCaseSensitive : Bool) : List Bytes → Except String (List Q)
  | [] => .ok []
  | pattern :: patterns => do
    let q ← fileRe B pattern queryIsCaseSensitive
    let qs ← includeQueries queryIsCaseSensitive patterns
    .ok (q :: qs)

def excludeQueries (queryIsCaseSensitive : Bool) (filesExclude : List Bytes) :
    Except String (List Q) :=
  if filesExclude = [] then .ok []
  else (fileRe B (unionRegExps filesExclude) queryIsCaseSensitive).map fun q => [.not q]

def languageQueries : List Q :=
  let langInclude := (includeExcludeValues ps "lang").1
  if langInclude ≠ [] ∧ inputs.contentBasedLangFilters = true then
    [.or (langInclude.map fun lang => .language (languageOf B lang))]
  else []

def filterQueries : Except String (List Q) := do
  let includes ← includeQueries B (isCaseSensitive B ps) (fileFilters B ps).1
  let excludes ← excludeQueries B (isCaseSensitive B ps) (fileFilters B ps).2
  .ok (includes ++ excludes ++ languageQueries B inputs ps)

/-- `zoekt.Simplify`, which keeps the meaning, is left out. -/
def queryToZoektQuery (b : Basic) (resultTypes : Types) : Except String Q := do
  let q ← match b.pattern with
    | none => .ok []
    | some pattern =>
      (toZoektPattern B (isCaseSensitive B b.parameters) (resultTypes.has typeFile)
        (resultTypes.has typePath) pattern).map fun q => [q]
  let filters ← filterQueries B inputs b.parameters
  .ok (.and (q ++ filters))

def toTextPatternInfo (b : Basic) (resultTypes : Types) : PatternInfo where
  pattern := patternString b
  isNegated :=
    match b.pattern with
    | some (.pattern p) => p.negated
    | _ => false
  isRegExp := b.pattern.isNone || (isLiteral b || isRegexp b)
  isCaseSensitive := isCaseSensitive B b.parameters
  includePatterns := (fileFilters B b.parameters).1
  excludePattern := unionRegExps (fileFilters B b.parameters).2
  pathPatternsAreCaseSensitive := isCaseSensitive B b.parameters
  patternMatchesPath := resultTypes.has typePath
  patternMatchesContent := resultTypes.has typeFile

inductive Job where
  | noop
  | textSearch (info : PatternInfo)
  | and (children : List Job)
  | or (children : List Job)

def newAndJob : List Job → Job
  | [] => .noop
  | [child] => child
  | children => .and children

def newOrJob : List Job → Job
  | [] => .noop
  | [child] => child
  | children => .or children

/-- A flat query is a basic query with an atom or no pattern. -/
def newFlatJob (atom : Option Pattern) : Job :=
  let b : Basic := ⟨ps, atom.map .pattern⟩
  let resultTypes := computeResultTypes b inputs.patternType
  if resultTypes.has (typeFile.union typePath) then .textSearch (toTextPatternInfo B b resultTypes)
  else .noop

mutual

def toPatternExpressionJob : Node → Except String Job
  | .operator kind operands => do
    if operands.isEmpty then return .noop
    match kind with
    | .and => (toPatternExpressionJobs operands).map newAndJob
    | .or => (toPatternExpressionJobs operands).map newOrJob
    | .concat => .error "unrecognized type query.Operator in evaluatePatternExpression"
  | .pattern term => .ok (newFlatJob B inputs ps (some term))
  | .parameter _ => .ok .noop

def toPatternExpressionJobs : List Node → Except String (List Job)
  | [] => .ok []
  | node :: nodes => do
    let operand ← toPatternExpressionJob node
    let operands ← toPatternExpressionJobs nodes
    .ok (operand :: operands)

end

def toFlatJobs (b : Basic) : Except String Job :=
  match b.pattern with
  | none => .ok (newFlatJob B inputs b.parameters none)
  | some pattern => toPatternExpressionJob B inputs b.parameters pattern

/-- Whether the searcher sends a file; a request that does not compile is refused. -/
def searcherReturns (info : PatternInfo) (f : SrcFile) : Bool :=
  match compile B.regexp B.unicode info with
  | .error _ => false
  | .ok rg => verdict B.regexp B.unicode rg
      ⟨info.patternMatchesContent, info.patternMatchesPath, info.isNegated⟩ f

mutual

/-- Whether a job returns a file: an and job merges the results all its children have, an or job
those of any child. -/
def Job.returns (f : SrcFile) : Job → Bool
  | .noop => false
  | .textSearch info => searcherReturns B info f
  | .and children => Job.allReturn f children
  | .or children => Job.anyReturns f children

def Job.allReturn (f : SrcFile) : List Job → Bool
  | [] => true
  | job :: jobs => job.returns f && Job.allReturn f jobs

def Job.anyReturns (f : SrcFile) : List Job → Bool
  | [] => false
  | job :: jobs => job.returns f || Job.anyReturns f jobs

end

/-- The query of the index, if text is searched, and the job for the other repositories. -/
structure BasicJob where
  zoektQuery : Option Q
  flatJob : Job

/-- The two blocks of `NewBasicJob`. -/
def textJobs (b : Basic) : Except String BasicJob := do
  let resultTypes := computeResultTypes b inputs.patternType
  let zoektQuery ←
    if resultTypes.has (typeFile.union typePath) then
      (queryToZoektQuery B inputs b resultTypes).map some
    else .ok none
  let flatJob ← toFlatJobs B inputs b
  .ok ⟨zoektQuery, flatJob⟩

/-- The pattern that `file:contains.content()` adds, which has no label. -/
def containsPattern (pat : String) : Pattern := { value := pat }

def withFileContains (b : Basic) (fileContainsPatterns : List String) : Basic :=
  if fileContainsPatterns = [] then b
  else { b with
    pattern := some (.operator .and
      (fileContainsPatterns.map (fun pat => .pattern (containsPattern pat)) ++ b.pattern.toList)) }

def newBasicJob (b : Basic) : Except Fault BasicJob := do
  let fileContainsPatterns ← fileContainsContent B b.parameters
  (textJobs B inputs (withFileContains b fileContainsPatterns)).mapError Fault.error

def BasicJob.indexed (f : SrcFile) (job : BasicJob) : Bool := job.zoektQuery.any fun q => q.eval B f

def BasicJob.unindexed (f : SrcFile) (job : BasicJob) : Bool := job.flatJob.returns B f

end BasicJobs
