import Sourcegraph.QueryPredicates

/-! # Validation of queries

The values of a query are checked field by field. The accessors of a query parse the values once
more and panic where that fails. -/
namespace QueryValidate

open GoStrings QueryNodes QueryTransform QueryScanners QueryPredicates List

def parameters (nodes : List Node) : List Parameter :=
  (nodes.flatMap leaves).filterMap fun
    | .parameter p => some p
    | .pattern _ => none

def patterns (nodes : List Node) : List Pattern :=
  (nodes.flatMap leaves).filterMap fun
    | .pattern p => some p
    | .parameter _ => none

section Visitors

variable {σ : Type}

/-- The visitors thread what their callback assigns to; the callback may panic. -/
def visitParameter (nodes : List Node) (f : σ → Parameter → Except Fault σ) (s : σ) :
    Except Fault σ :=
  (parameters nodes).foldlM f s

def visitField (nodes : List Node) (field : String) (f : σ → Parameter → Except Fault σ) (s : σ) :
    Except Fault σ :=
  visitParameter nodes (fun s p => if field = p.field then f s p else .ok s) s

def visitPredicate (nodes : List Node) (f : σ → String → String → String → Bool → σ) (s : σ) :
    Except Fault σ :=
  visitParameter nodes (fun s p =>
    if p.annotation.labels.isPredicate then
      (parseAsPredicate p.value).map fun r => f s p.field r.1 r.2 p.negated
    else .ok s) s

def visitTypedPredicate (P : Packages) (kind : PredicateKind) (nodes : List Node)
    (f : σ → Predicate → σ) (s : σ) : Except Fault σ :=
  visitField nodes (PredicateKind.field kind) (fun s p =>
    if !p.annotation.labels.isPredicate then .ok s
    else do
      let (predName, predArgs) ← parseAsPredicate p.value
      let found ← getPredicate (PredicateKind.field kind) predName
      if PredicateKind.name found ≠ PredicateKind.name kind then .ok s
      else match unmarshal P predArgs p.negated kind with
        | .error e => .error (.panic e)
        | .ok newPred => .ok (f s newPred)) s

end Visitors

variable (P : Packages)

/-- `strconv.ParseBool`. -/
def strconvParseBool (s : String) : Option Bool :=
  if s ∈ ["1", "t", "T", "TRUE", "true", "True"] then some true
  else if s ∈ ["0", "f", "F", "FALSE", "false", "False"] then some false
  else none

def parseBool (s : String) : Except String Bool :=
  if toLower s ∈ ["y", "yes"] then .ok true
  else if toLower s ∈ ["n", "no"] then .ok false
  else match strconvParseBool s with
    | some b => .ok b
    | none => .error ("invalid boolean " ++ P.quote s)

inductive YesNoOnly where
  | yes
  | no
  | only
  | invalid
  deriving DecidableEq

def parseYesNoOnly (s : String) : YesNoOnly :=
  if s ∈ ["y", "Y", "yes", "YES", "Yes"] then .yes
  else if s ∈ ["n", "N", "no", "NO", "No"] then .no
  else if s ∈ ["o", "only", "ONLY", "Only"] then .only
  else match strconvParseBool s with
    | some true => .yes
    | some false => .no
    | none => .invalid

structure RevisionSpecifier where
  revSpec : String := ""
  refGlob : String := ""
  excludeRefGlob : String := ""
  deriving DecidableEq

def RevisionSpecifier.hasRefGlob (r : RevisionSpecifier) : Bool :=
  r.refGlob ≠ "" || r.excludeRefGlob ≠ ""

structure ParsedRepoFilter where
  repo : String
  repoRegex : P.Regexp
  revs : List RevisionSpecifier

def parseRev : List Char → RevisionSpecifier
  | '*' :: '!' :: glob => { excludeRefGlob := String.ofList glob }
  | '*' :: glob => { refGlob := String.ofList glob }
  | spec => { revSpec := String.ofList spec }

def parseRevs (revs : List Char) : List RevisionSpecifier :=
  match ((revs.splitOn ':').filter (· ≠ [])).map parseRev with
  | [] => [{}]
  | specs => specs

/-- The repository is what stands before the first at sign. -/
def parseRepositoryRevisions (repoAndOptionalRev : String) :
    Except String (ParsedRepoFilter P) :=
  let repo := String.ofList (repoAndOptionalRev.toList.takeWhile (· ≠ '@'))
  let revs := match repoAndOptionalRev.toList.dropWhile (· ≠ '@') with
    | [] => []
    | _ :: revs => parseRevs revs
  (P.compile ("(?i)" ++ repo)).map fun repoRegex => ⟨repo, repoRegex, revs⟩

/-- The map `validSelectors`, in which a nil map has no keys. -/
inductive Selectors where
  | object (fields : List (String × Selectors))

def Selectors.get : Selectors → String → Option Selectors
  | .object fields, field => fields.lookup field

def Selectors.leaves (fields : List String) : Selectors :=
  .object (fields.map fun field => (field, .object []))

def validSelectors : Selectors :=
  .object [
    ("commit", .object [("diff", .leaves ["added", "removed"])]),
    ("content", .object []),
    ("file", .leaves ["directory", "path", "owners"]),
    ("repo", .object []),
    ("symbol", .leaves ["file", "module", "namespace", "package", "class", "method", "property",
      "field", "constructor", "enum", "interface", "function", "variable", "constant", "string",
      "number", "boolean", "array", "object", "key", "null", "enum-member", "struct", "event",
      "operator", "type-parameter"])]

def selectPath (s : String) : List String → Selectors → Except String Unit
  | [], _ => .ok ()
  | field :: rest, cur =>
    match cur.get field with
    | none => .error ("invalid field " ++ P.quote field ++ " on select path " ++ P.quote s)
    | some child => selectPath s rest child

def selectPathFromString (s : String) : Except String (List String) :=
  let fields := (s.toList.splitOn '.').map String.ofList
  (selectPath P s fields validSelectors).map fun _ => fields

def count (nodes : List Node) : Except Fault (Option ℤ) :=
  visitField nodes "count" (fun _ p =>
    match atoi p.value.toList with
    | .ok c => .ok (some c)
    | .error _ => .error (.panic ("Value " ++ P.quote p.value ++
        " for count cannot be parsed as an int"))) none

def getTimeout (nodes : List Node) : Except Fault (Option ℤ) :=
  visitField nodes "timeout" (fun _ p =>
    match P.parseDuration p.value with
    | .ok t => .ok (some t)
    | .error e => .error (.panic ("Value " ++ P.quote p.value ++
        " for timeout cannot be parsed as an duration: " ++ e))) none

def yesNoOnlyValue (nodes : List Node) (field : String) : Except Fault (Option YesNoOnly) :=
  visitField nodes field (fun _ p =>
    if parseYesNoOnly p.value = .invalid then
      .error (.panic ("Invalid value " ++ P.quote p.value ++ " for field " ++ P.quote field))
    else .ok (some (parseYesNoOnly p.value))) none

def index (nodes : List Node) : Except Fault YesNoOnly :=
  (yesNoOnlyValue P nodes "index").map (·.getD .yes)

def fork (nodes : List Node) : Except Fault (Option YesNoOnly) := yesNoOnlyValue P nodes "fork"

def archived (nodes : List Node) : Except Fault (Option YesNoOnly) :=
  yesNoOnlyValue P nodes "archived"

def repositories (nodes : List Node) : Except Fault (List (ParsedRepoFilter P) × List String) :=
  visitField nodes "repo" (fun s p =>
    if p.annotation.labels.isPredicate then .ok s
    else if p.negated then .ok (s.1, s.2 ++ [p.value])
    else match parseRepositoryRevisions P p.value with
      | .ok repoFilter => .ok (s.1 ++ [repoFilter], s.2)
      | .error e => .error (.panic ("repo field " ++ P.quote p.value ++
          " is an invalid regex: " ++ e))) ([], [])

structure Argument where
  field : String
  value : String
  negated : Bool
  seen : List String

def isNotNegated (a : Argument) : Except String Unit :=
  if a.negated then .error ("field " ++ P.quote a.field ++ " does not support negation")
  else .ok ()

def isSingular (a : Argument) : Except String Unit :=
  if a.field ∈ a.seen then .error ("field " ++ P.quote a.field ++ " may not be used more than once")
  else .ok ()

def isValidRegexp (a : Argument) : Except String Unit := (P.compile a.value).map fun _ => ()

def isValidRepoRegexp (a : Argument) : Except String Unit :=
  if a.negated then isValidRegexp P a else (parseRepositoryRevisions P a.value).map fun _ => ()

def isBoolean (a : Argument) : Except String Unit := (parseBool P a.value).map fun _ => ()

def isNumber (a : Argument) : Except String Unit :=
  match parseInt 32 a.value.toList with
  | .error .range =>
    .error ("field " ++ a.field ++ " has a value that is out of range, try making it smaller")
  | .error .invalid =>
    .error ("field " ++ a.field ++ " has value " ++ a.value ++ ", " ++ a.value ++ " is not a number")
  | .ok count =>
    if count ≤ 0 then .error ("field " ++ a.field ++ " requires a positive number") else .ok ()

def isDuration (a : Argument) : Except String Unit :=
  match P.parseDuration a.value with
  | .error _ =>
    .error "invalid value for field 'timeout' (examples: \"timeout:2s\", \"timeout:200ms\")"
  | .ok _ => .ok ()

def isLanguage (a : Argument) : Except String Unit :=
  match P.getLanguageByAlias a.value with
  | none => .error ("unknown language: " ++ P.quote a.value)
  | some _ => .ok ()

def isYesNoOnly (a : Argument) : Except String Unit :=
  if parseYesNoOnly a.value = .invalid then
    .error ("invalid value " ++ P.quote a.value ++ " for field " ++ P.quote a.field ++
      ". Valid values are: yes, only, no")
  else .ok ()

def isUnrecognizedField (a : Argument) : Except String Unit :=
  .error ("unrecognized field " ++ P.quote a.field)

def isValidSelect (a : Argument) : Except String Unit :=
  (selectPathFromString P a.value).map fun _ => ()

def isValidGitDate (a : Argument) : Except String Unit := (P.parseGitDate a.value).map fun _ => ()

def satisfies (a : Argument) : List (Argument → Except String Unit) → Except String Unit
  | [] => .ok ()
  | fn :: fns => fn a >>= fun _ => satisfies a fns

def checks (field : String) : List (Argument → Except String Unit) :=
  if field = "" then []
  else if field = "case" then [isSingular P, isBoolean P, isNotNegated P]
  else if field = "repo" then [isValidRepoRegexp P]
  else if field = "context" then [isSingular P, isNotNegated P]
  else if field = "file" then [isValidRegexp P]
  else if field = "lang" then [isLanguage P]
  else if field = "type" then [isNotNegated P]
  else if field ∈ ["patterntype", "content", "visibility"] then [isSingular P, isNotNegated P]
  else if field = "repohasfile" then [isValidRegexp P]
  else if field = "repohascommitafter" then [isSingular P, isNotNegated P]
  else if field ∈ ["before", "after"] then [isNotNegated P, isValidGitDate P]
  else if field ∈ ["author", "committer", "message"] then [isValidRegexp P]
  else if field ∈ ["index", "fork", "archived"] then [isSingular P, isNotNegated P, isYesNoOnly P]
  else if field = "count" then [isSingular P, isNumber, isNotNegated P]
  else if field = "rule" then [isSingular P, isNotNegated P]
  else if field = "timeout" then [isSingular P, isNotNegated P, isDuration P]
  else if field = "rev" then [isSingular P, isNotNegated P]
  else if field = "select" then [isSingular P, isNotNegated P, isValidSelect P]
  else [isUnrecognizedField P]

def validateField (a : Argument) : Except String Unit := satisfies a (checks P a.field)

def validatePredicate (field value : String) (negated : Bool) : Except Fault Unit := do
  let (name, params) ← parseAsPredicate value
  let kind ← getPredicate field name
  match unmarshal P params negated kind with
  | .error e => .error (.error ("invalid predicate value: " ++ e))
  | .ok _ => .ok ()

/-- The first error, after which parameters are not looked at any more, and the fields seen. -/
structure Validation where
  err : Option String := none
  seen : List String := []

def Validation.parameter (st : Validation) (p : Parameter) : Except Fault Validation :=
  if st.err.isSome then .ok st
  else if p.annotation.labels.isPredicate then
    match validatePredicate P p.field p.value p.negated with
    | .error (.panic message) => .error (.panic message)
    | .error (.error message) => .ok ⟨some message, p.field :: st.seen⟩
    | .ok _ => .ok ⟨none, p.field :: st.seen⟩
  else match validateField P ⟨p.field, p.value, p.negated, st.seen⟩ with
    | .error message => .ok ⟨some message, p.field :: st.seen⟩
    | .ok _ => .ok ⟨none, p.field :: st.seen⟩

def reportError : Option String → Except Fault Unit
  | some message => .error (.error message)
  | none => .ok ()

def validateParameters (nodes : List Node) : Except Fault Unit :=
  visitParameter nodes (Validation.parameter P) {} >>= fun st => reportError st.err

def patternError (err : Option String) (p : Pattern) : Option String :=
  if err.isSome then err
  else
    let err := if p.annotation.labels.regexp then
        match P.compile p.value with
        | .error e => some e
        | .ok _ => none
      else none
    if p.annotation.labels.structural && p.negated then
      some "the query contains a negated search pattern. Structural search does not support negated search patterns at the moment"
    else err

def validatePattern (nodes : List Node) : Except Fault Unit :=
  reportError ((patterns nodes).foldl (patternError P) none)

/-- The last repository decides whether an empty one has been seen. -/
def validateRepoRevPair (nodes : List Node) : Except Fault Unit :=
  let repos := (parameters nodes).filter (·.field = "repo")
  let seenRepoWithCommit := repos.any fun p => !p.negated && p.value.toList.contains '@'
  let seenRepo := !repos.isEmpty
  let seenEmptyRepo := repos.getLast?.any (·.value = "")
  let revSpecified := (parameters nodes).any (·.field = "rev")
  if seenRepoWithCommit && revSpecified then
    .error (.error "invalid syntax. You specified both @ and rev: for a repo: filter and I don't know how to interpret this. Remove either @ or rev: and try again")
  else if !seenRepo && revSpecified then
    .error (.error "invalid syntax. The query contains `rev:` without `repo:`. Add a `repo:` filter and try again")
  else if seenEmptyRepo && revSpecified then
    .error (.error "invalid syntax. The query contains `rev:` but `repo:` is empty. Add a non-empty `repo:` filter and try again")
  else .ok ()

def validateRepoHasFile (nodes : List Node) : Except Fault Unit :=
  let seenRepoHasFile := (parameters nodes).any (·.field = "repohasfile")
  let seenTypeSymbol := (parameters nodes).any fun p =>
    p.field = "type" && equalFold p.value.toList "symbol".toList
  if seenRepoHasFile && seenTypeSymbol then
    .error (.error "repohasfile is not compatible for type:symbol. Subscribe to https://github.com/sourcegraph/sourcegraph/issues/4610 for updates")
  else .ok ()

/-- The last commit parameter is the one that is reported. -/
def validateCommitParameters (nodes : List Node) : Except Fault Unit :=
  let seenCommitParam := ((parameters nodes).filter fun p =>
    p.field ∈ ["author", "before", "after", "message"]).getLast?
  let typeCommitExists := (parameters nodes).any fun p =>
    p.field = "type" && (p.value = "commit" || p.value = "diff")
  match seenCommitParam with
  | none => .ok ()
  | some p =>
    if typeCommitExists then .ok ()
    else .error (.error ("your query contains the field '" ++ p.field ++
      "', which requires type:commit or type:diff in the query"))

/-- The search for a structural pattern and a type ends where both have been seen, with what the
last type was. -/
def structuralType : List Leaf → Bool → Option Bool → Option Bool
  | [], _, _ => none
  | leaf :: rest, seenStructural, typeDiff =>
    let seenStructural := match leaf with
      | .pattern p => seenStructural || p.annotation.labels.structural
      | .parameter _ => seenStructural
    let typeDiff := match leaf with
      | .parameter p => if p.field = "type" then some (decide (p.value = "diff")) else typeDiff
      | .pattern _ => typeDiff
    if seenStructural && typeDiff.isSome then typeDiff
    else structuralType rest seenStructural typeDiff

def validateTypeStructural (nodes : List Node) : Except Fault Unit :=
  let basic := "this structural search query specifies `type:` and is not supported. Structural search syntax only applies to searching file contents"
  match structuralType (nodes.flatMap leaves) false none with
  | none => .ok ()
  | some typeDiff =>
    .error (.error (if typeDiff then
      basic ++ " and is not currently supported for diff searches" else basic))

def containsRefGlobs (nodes : List Node) : Except Fault Bool :=
  (repositories P nodes).map fun r => r.1.any fun filter =>
    filter.revs.any RevisionSpecifier.hasRefGlob

def validateRefGlobs (nodes : List Node) : Except Fault Unit := do
  if !(← containsRefGlobs P nodes) then .ok ()
  else
    let indexValue := ((((parameters nodes).filter (·.field = "index")).getLast?).map
      (·.value)).getD ""
    if parseYesNoOnly indexValue = .only then
      .error (.error ("invalid index:" ++ indexValue ++
        " (revisions with glob pattern cannot be resolved for indexed searches)"))
    else .ok ()

def validate (nodes : List Node) : Except Fault Unit := do
  validateParameters P nodes
  validatePattern P nodes
  validateRepoRevPair nodes
  validateRepoHasFile nodes
  validateCommitParameters nodes
  validateTypeStructural nodes
  validateRefGlobs P nodes

theorem foldlM_succeeds {f : σ → α → Except Fault σ} {l : List α}
    (h : ∀ s, ∀ a ∈ l, ∃ t, f s a = .ok t) (s : σ) : ∃ t, l.foldlM f s = .ok t := by
  induction l generalizing s with
  | nil => exact ⟨s, rfl⟩
  | cons a l ih =>
    obtain ⟨t, ht⟩ := h s a mem_cons_self
    obtain ⟨u, hu⟩ := ih (fun s b hb => h s b (mem_cons_of_mem _ hb)) t
    refine ⟨u, ?_⟩
    rw [foldlM_cons, ht]
    exact hu

theorem visitField_succeeds {f : σ → Parameter → Except Fault σ}
    (h : ∀ s, ∀ p ∈ parameters nodes, p.field = fd → ∃ t, f s p = .ok t) :
    ∃ t, visitField nodes fd f s = .ok t := by
  apply foldlM_succeeds
  intro s p hp
  by_cases hfd : fd = p.field
  · rw [if_pos hfd]
    exact h s p hp hfd.symm
  · exact ⟨s, by rw [if_neg hfd]⟩

theorem satisfies_ok (h : satisfies a fns = .ok ()) : ∀ fn ∈ fns, fn a = .ok () := by
  induction fns with
  | nil => simp
  | cons fn fns ih =>
    obtain ⟨_, hfn, hrs⟩ := bind_eq_ok h
    rw [forall_mem_cons]
    exact ⟨hfn, ih hrs⟩

theorem parseDigits_mono {sma lar n m : ℕ} (hle : sma ≤ lar) {cs : List Char}
    (h : parseDigits sma n cs = .ok m) : parseDigits lar n cs = .ok m := by
  revert h
  fun_induction parseDigits sma n cs with
  | case1 => exact id
  | case4 n c cs hdig _ ih =>
    rw [parseDigits, if_neg hdig, if_neg (by omega)]
    exact ih
  | _ => nofun

theorem atoi_of_parseInt (h : parseInt 32 s = .ok n) : atoi s = .ok n := by
  unfold atoi parseInt at *
  split at h
  split at h
  · nomatch h
  split at h
  · nomatch h
  rename_i m hm
  have hlar := @parseDigits_mono (2 ^ 32 - 1) (2 ^ 64 - 1) _ _ (by omega) _ hm
  simp only [hlar]
  split at h
  · split at h
    · rename_i hneg hle
      rw [if_pos hneg, if_pos (by omega)]
      exact h
    · nomatch h
  split at h
  · rename_i hneg hlt
    rw [if_neg hneg, if_pos (by omega)]
    exact h
  · nomatch h

structure Accepted (p : Parameter) : Prop where
  predicate : p.annotation.labels.isPredicate = true →
    validatePredicate P p.field p.value p.negated = .ok ()
  value : p.annotation.labels.isPredicate = false →
    ∃ seen, validateField P ⟨p.field, p.value, p.negated, seen⟩ = .ok ()

variable {P}

variable {p : Parameter}

variable {st st' : Validation}

theorem parameter_ok (h : Validation.parameter P st p = .ok st') (herr : st'.err = none) :
    st.err = none ∧ Accepted P p ∧ st'.seen = p.field :: st.seen ∧
      (p.annotation.labels.isPredicate = false →
        validateField P ⟨p.field, p.value, p.negated, st.seen⟩ = .ok ()) := by
  revert h
  fun_cases Validation.parameter P st p with
  | case1 hso =>
    rintro ⟨⟩
    rw [herr] at hso
    nomatch hso
  | case2 => nofun
  | case3 | case5 =>
    rintro ⟨⟩
    nomatch herr
  | case4 hno hpd _ hok =>
    rintro ⟨⟩
    exact ⟨by simpa using hno, ⟨fun _ => hok, fun hff => absurd (hpd.symm.trans hff) (by decide)⟩,
      rfl, fun hff => absurd (hpd.symm.trans hff) (by decide)⟩
  | case6 hno hpd _ hok =>
    rintro ⟨⟩
    exact ⟨by simpa using hno, ⟨fun ht => absurd ht hpd, fun _ => ⟨_, hok⟩⟩, rfl, fun _ => hok⟩

theorem parameters_ok {ps : List Parameter} (h : ps.foldlM (Validation.parameter P) st = .ok st')
    (herr : st'.err = none) : st.err = none ∧ ∀ p ∈ ps, Accepted P p := by
  induction ps generalizing st with
  | nil =>
    rw [Except.ok.inj h]
    exact ⟨herr, by simp⟩
  | cons p ps ih =>
    obtain ⟨st₁, hf, hrs⟩ := bind_eq_ok h
    obtain ⟨herr₁, hacc⟩ := ih hrs
    obtain ⟨hno, hp, -⟩ := parameter_ok hf herr₁
    rw [forall_mem_cons]
    exact ⟨hno, hp, hacc⟩

theorem validateParameters_ok {nodes : List Node} (h : validateParameters P nodes = .ok ()) :
    ∃ st, (parameters nodes).foldlM (Validation.parameter P) {} = .ok st ∧ st.err = none := by
  obtain ⟨st, hvis, hrep⟩ := bind_eq_ok h
  refine ⟨st, hvis, ?_⟩
  cases herr : st.err with
  | none => rfl
  | some msg =>
    rw [herr] at hrep
    nomatch hrep

theorem validate_ok (h : validate P nodes = .ok ()) : ∀ p ∈ parameters nodes, Accepted P p := by
  obtain ⟨_, hpar, _⟩ := bind_eq_ok h
  obtain ⟨st, hrun, herr⟩ := validateParameters_ok hpar
  exact (parameters_ok hrun herr).2

theorem Accepted.unmarshalled (h : Accepted P p) (hpd : p.annotation.labels.isPredicate = true) :
    ∃ name prs kind pred, parseAsPredicate p.value = .ok (name, prs) ∧
      getPredicate p.field name = .ok kind ∧ unmarshal P prs p.negated kind = .ok pred := by
  obtain ⟨⟨name, prs⟩, hprs, hrs⟩ := bind_eq_ok (h.predicate hpd)
  obtain ⟨kind, hk, hla⟩ := bind_eq_ok hrs
  split at hla
  · nomatch hla
  rename_i pred hunm
  exact ⟨name, prs, kind, pred, hprs, hk, hunm⟩

theorem Accepted.not_predicate (h : Accepted P p) (hrp : p.field ≠ "repo")
    (hfi : p.field ≠ "file") : p.annotation.labels.isPredicate = false := by
  by_contra hpd
  obtain ⟨name, _, kind, _, _, hk, _⟩ := h.unmarshalled (by simpa using hpd)
  obtain ⟨tb, htb, _⟩ := getPredicate_ok hk
  simp [defaultPredicateRegistry, hrp, hfi] at htb

theorem Accepted.check (h : Accepted P p) (hrp : p.field ≠ "repo") (hfi : p.field ≠ "file") :
    ∃ seen, ∀ fn ∈ checks P p.field, fn ⟨p.field, p.value, p.negated, seen⟩ = .ok () := by
  obtain ⟨seen, hvld⟩ := h.value (h.not_predicate hrp hfi)
  exact ⟨seen, satisfies_ok hvld⟩

variable {nodes : List Node} (h : ∀ p ∈ parameters nodes, Accepted P p)

include h

theorem count_succeeds : ∃ c, count P nodes = .ok c := by
  apply visitField_succeeds
  intro s p hp hfd
  obtain ⟨seen, hchk⟩ := (h p hp).check (by rw [hfd]; decide) (by rw [hfd]; decide)
  rw [hfd] at hchk
  have hnum := hchk isNumber (by simp [checks])
  unfold isNumber at hnum
  split at hnum
  · nomatch hnum
  · nomatch hnum
  · rename_i n hn
    rw [atoi_of_parseInt hn]
    exact ⟨_, rfl⟩

theorem getTimeout_succeeds : ∃ t, getTimeout P nodes = .ok t := by
  apply visitField_succeeds
  intro s p hp hfd
  obtain ⟨seen, hchk⟩ := (h p hp).check (by rw [hfd]; decide) (by rw [hfd]; decide)
  rw [hfd] at hchk
  have hdur := hchk (isDuration P) (by simp [checks])
  unfold isDuration at hdur
  split at hdur
  · nomatch hdur
  rename_i t ht
  rw [ht]
  exact ⟨_, rfl⟩

theorem yesNoOnlyValue_succeeds {field : String} (hmem : field ∈ ["index", "fork", "archived"]) :
    ∃ v, yesNoOnlyValue P nodes field = .ok v := by
  apply visitField_succeeds
  intro s p hp hfd
  obtain ⟨hche, hrp, hfi⟩ : isYesNoOnly P ∈ checks P field ∧ field ≠ "repo" ∧ field ≠ "file" := by
    simp only [mem_cons, not_mem_nil, or_false] at hmem
    rcases hmem with rfl | rfl | rfl <;> simp [checks]
  obtain ⟨seen, hchk⟩ := (h p hp).check (hfd ▸ hrp) (hfd ▸ hfi)
  rw [hfd] at hchk
  have hvld := hchk (isYesNoOnly P) hche
  unfold isYesNoOnly at hvld
  split at hvld
  · nomatch hvld
  rename_i hv
  rw [if_neg hv]
  exact ⟨_, rfl⟩

theorem repositories_succeeds : ∃ r, repositories P nodes = .ok r := by
  apply visitField_succeeds
  intro s p hp hfd
  by_cases hpd : p.annotation.labels.isPredicate = true
  · rw [if_pos hpd]
    exact ⟨_, rfl⟩
  rw [if_neg hpd]
  by_cases hneg : p.negated = true
  · rw [if_pos hneg]
    exact ⟨_, rfl⟩
  rw [if_neg hneg]
  obtain ⟨seen, hvld⟩ := (h p hp).value (by simpa using hpd)
  rw [hfd] at hvld
  have hrp := satisfies_ok hvld (isValidRepoRegexp P) (by simp [checks])
  rw [isValidRepoRegexp, if_neg hneg] at hrp
  obtain ⟨fil, hfil, _⟩ := map_eq_ok hrp
  rw [hfil]
  exact ⟨_, rfl⟩

theorem visitPredicate_succeeds {σ : Type} (f : σ → String → String → String → Bool → σ) (s : σ) :
    ∃ t, visitPredicate nodes f s = .ok t := by
  apply foldlM_succeeds
  intro s p hp
  by_cases hpd : p.annotation.labels.isPredicate = true
  · obtain ⟨name, prs, _, _, hprs, _, _⟩ := (h p hp).unmarshalled hpd
    rw [if_pos hpd, hprs]
    exact ⟨_, rfl⟩
  rw [if_neg hpd]
  exact ⟨_, rfl⟩

theorem visitTypedPredicate_succeeds {σ : Type} (kind : PredicateKind) (f : σ → Predicate → σ)
    (s : σ) : ∃ t, visitTypedPredicate P kind nodes f s = .ok t := by
  apply visitField_succeeds
  intro s p hp hfd
  by_cases hpd : p.annotation.labels.isPredicate = true
  · obtain ⟨name, prs, found, pred, hprs, hfnd, hunm⟩ := (h p hp).unmarshalled hpd
    rw [hfd] at hfnd
    rw [if_neg (by simp [hpd]), hprs]
    change ∃ t, (getPredicate (PredicateKind.field kind) name >>= _) = .ok t
    rw [hfnd]
    by_cases hnm : PredicateKind.name found = PredicateKind.name kind
    · obtain ⟨tb, htb, hlk⟩ := getPredicate_ok hfnd
      obtain rfl := kind_inj (registered_field htb hlk) hnm
      refine ⟨f s pred, ?_⟩
      change (if _ then _ else _) = _
      rw [if_neg (by simp), hunm]
    refine ⟨s, ?_⟩
    change (if _ then _ else _) = _
    rw [if_pos hnm]
  · rw [if_pos (by simpa using hpd)]
    exact ⟨_, rfl⟩

end QueryValidate
