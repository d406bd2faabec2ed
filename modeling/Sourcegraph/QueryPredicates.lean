import Sourcegraph.QueryParser

/-! # Predicates of the query language

A value such as `contains.file(path:a)` of a repo or file filter is a predicate. Its arguments
are unmarshalled by the predicate type that is registered for the field and the name. -/
namespace QueryPredicates

open GoStrings QueryNodes QueryTransform QueryScanners QueryParser

/-- The packages outside of this repository that the validators call. -/
structure Packages where
  Regexp : Type
  /-- `regexp.Compile`. -/
  compile : String → Except String Regexp
  /-- `syntax.Parse` with the Perl flags. -/
  syntaxParse : String → Except String Unit
  /-- `time.ParseDuration`, in nanoseconds. -/
  parseDuration : String → Except String ℤ
  /-- `ParseGitDate` at the time of the validation, on top of `time` and `naturaldate`. -/
  parseGitDate : String → Except String ℤ
  /-- `enry.GetLanguageByAlias`. -/
  getLanguageByAlias : String → Option String
  /-- The verb `%q`. -/
  quote : String → String

variable (P : Packages)

inductive Predicate where
  | repoContainsFile (path content : String) (negated : Bool)
  | repoContainsPath (pattern : String) (negated : Bool)
  | repoContainsContent (pattern : String) (negated : Bool)
  | repoContainsCommitAfter (timeRef : String) (negated : Bool)
  | repoHasDescription (pattern : String)
  | repoHasTag (key : String) (negated : Bool)
  | repoHasKVP (key value : String) (negated : Bool)
  | repoHasKey (key : String) (negated : Bool)
  | repoHasMeta (key : String) (value : Option String) (negated keyOnly : Bool)
  | repoHasTopic (topic : String) (negated : Bool)
  | repoContains (file content : String) (negated : Bool)
  | fileContainsContent (pattern : String)
  | fileHasOwner (owner : String) (negated : Bool)
  deriving DecidableEq

def PredicateKind.field : PredicateKind → String
  | .fileContainsContent => "file"
  | .fileHasOwner => "file"
  | _ => "repo"

def PredicateKind.name : PredicateKind → String
  | .repoContainsFile => "contains.file"
  | .repoContainsPath => "contains.path"
  | .repoContainsContent => "contains.content"
  | .repoContainsCommitAfter => "contains.commit.after"
  | .repoHasDescription => "has.description"
  | .repoHasTag => "has.tag"
  | .repoHasKVP => "has"
  | .repoHasKey => "has.key"
  | .repoHasMeta => "has.meta"
  | .repoHasTopic => "has.topic"
  | .repoContains => "contains"
  | .fileContainsContent => "contains.content"
  | .fileHasOwner => "has.owner"

/-- `DefaultPredicateRegistry.Get`. -/
def getPredicate (field name : String) : Except Fault PredicateKind :=
  match defaultPredicateRegistry field with
  | none => .error (.panic ("predicate lookup for " ++ field ++ " is invalid"))
  | some table =>
    match table.lookup name with
    | none => .error (.panic ("predicate lookup for " ++ name ++ " on " ++ field ++ " is invalid"))
    | some kind => .ok kind

/-- The class `[a-z\.]`. -/
def isNameChar (c : Char) : Bool := 'a' ≤ c && c ≤ 'z' || c = '.'

/-- The match of `^(?P<name>[a-z\.]+)\((?s:(?P<params>.*))\)$`: the name ends at the first
parenthesis. -/
def parseAsPredicate (value : String) : Except Fault (String × String) :=
  let name := value.toList.takeWhile isNameChar
  match value.toList.dropWhile isNameChar with
  | '(' :: rest =>
    if name ≠ [] ∧ rest.getLast? = some ')' then
      .ok (String.ofList name, String.ofList rest.dropLast)
    else .error (.panic ("Invariant broken: attempt to parse a predicate value " ++ value ++
      " which appears to have not been properly validated"))
  | _ => .error (.panic ("Invariant broken: attempt to parse a predicate value " ++ value ++
      " which appears to have not been properly validated"))

def ParseError.message : ParseError → String
  | .expectedOperand message => message
  | .other message => message
  | .outOfFuel => "out of fuel"

/-- How the two predicates that take a query read its parameters. -/
structure QueryArguments where
  option : String
  parse : String → Except String Unit
  negated : String
  invalid : String → String

structure Options where
  first : String := ""
  content : String := ""
  deriving DecidableEq

def parseOption (args : QueryArguments) (p : Parameter) (opts : Options) :
    Except String Options :=
  if p.negated then .error args.negated
  else if toLower p.field = args.option then
    if opts.first ≠ "" then .error ("cannot specify " ++ args.option ++ " multiple times")
    else match args.parse p.value with
      | .error e => .error (args.invalid args.option ++ e)
      | .ok _ => .ok { opts with first := p.value }
  else if toLower p.field = "content" then
    if opts.content ≠ "" then .error "cannot specify content multiple times"
    else match args.parse p.value with
      | .error e => .error (args.invalid "content" ++ e)
      | .ok _ => .ok { opts with content := p.value }
  else .error ("unsupported option " ++ P.quote p.field)

mutual
def parseNode (args : QueryArguments) (opts : Options) : Node → Except String Options
  | .parameter p => parseOption P args p opts
  | .pattern p => .error ("prepend 'file:' or 'content:' to \"" ++ p.value ++
      "\" to search repositories containing files or content respectively.")
  | .operator kind operands =>
    if kind = .or then .error "predicates do not currently support 'or' queries"
    else parseNodes args opts operands
def parseNodes (args : QueryArguments) (opts : Options) : List Node → Except String Options
  | [] => .ok opts
  | node :: rest => parseNode args opts node >>= fun opts => parseNodes args opts rest
end

def containsFileArguments : QueryArguments where
  option := "path"
  parse := P.syntaxParse
  negated := "predicates do not currently support negated values"
  invalid option := "`contains.file` predicate has invalid `" ++ option ++ "` argument: "

def containsArguments : QueryArguments where
  option := "file"
  parse value := (P.compile value).map fun _ => ()
  negated := "the repo:contains() predicate does not currently support negated values"
  invalid option := "the repo:contains() predicate has invalid `" ++ option ++ "` argument: "

def parseParams (params : String) : Except String (List Node) :=
  (parse (bytes params) .regex).mapError ParseError.message

/-- A single pattern is the deprecated syntax of a path. Its parse error leaves the options
empty. -/
def unmarshalContainsFile (params : String) (negated : Bool) : Except String Predicate := do
  let nodes ← parseParams params
  let opts ← match parseNodes P (containsFileArguments P) {} nodes with
    | .ok opts => .ok opts
    | .error e =>
      match nodes with
      | [.pattern pattern] =>
        match P.syntaxParse pattern.value with
        | .error e => .error e
        | .ok _ => .ok ⟨pattern.value, ""⟩
      | _ => .error e
  if opts.first = "" ∧ opts.content = "" then .error "one of path or content must be set"
  else .ok (.repoContainsFile opts.first opts.content negated)

def unmarshalContains (params : String) (negated : Bool) : Except String Predicate := do
  let nodes ← parseParams params
  let opts ← parseNodes P (containsArguments P) {} nodes
  if opts.first = "" ∧ opts.content = "" then .error "one of file or content must be set"
  else .ok (.repoContains opts.first opts.content negated)

def trim (params : Bytes) : Bytes :=
  let blank : UInt8 → Bool := fun b => b = 32 || b = 9
  ((params.dropWhile blank).reverse.dropWhile blank).reverse

def text (data : Bytes) : List Char := (runes data).map Rune.char

/-- A quoted literal, or the text up to the first colon, and how many bytes it takes. -/
def scanLiteral (data : Bytes) : Except String (List Char × ℕ) :=
  if data.head? = some 34 then (scanDelimited true '"' (runes data)).map fun s => (s.value, s.count)
  else if data.head? = some 39 then
    (scanDelimited true '\'' (runes data)).map fun s => (s.value, s.count)
  else
    let before := data.takeWhile (· ≠ 58)
    .ok (text before, before.length)

def unmarshalMeta (params : String) (negated : Bool) : Except String Predicate := do
  let params := trim (bytes params)
  let (key, advance) ← scanLiteral params
  if key = [] then .error "key cannot be empty"
  else match params.drop advance with
    | 58 :: params => do
      let (value, advance) ← scanLiteral params
      if params.drop advance ≠ [] then .error "unexpected extra content"
      else .ok (.repoHasMeta (String.ofList key)
        (if value = [] then none else some (String.ofList value)) negated false)
    | _ => .ok (.repoHasMeta (String.ofList key) none negated true)

def unmarshalKVP (params : String) (negated : Bool) : Except String Predicate := do
  let params := trim (bytes params)
  let (key, advance) ← scanLiteral params
  match params.drop advance with
  | 58 :: params => do
    let (value, advance) ← scanLiteral params
    if params.drop advance ≠ [] then .error "unexpected extra content"
    else if key = [] then .error "key cannot be empty"
    else .ok (.repoHasKVP (String.ofList key) (String.ofList value) negated)
  | _ => .error "expected params of the form key:value"

def unmarshalExpression (invalid empty params : String) : Except String String :=
  match P.syntaxParse params with
  | .error e => .error (invalid ++ e)
  | .ok _ => if params = "" then .error empty else .ok params

def unmarshalNonEmpty (empty params : String) : Except String String :=
  if params.toList.length = 0 then .error empty else .ok params

def negatedPredicateError (name : String) : String :=
  "search predicate " ++ P.quote name ++ " does not support negation"

def unmarshal (params : String) (negated : Bool) : PredicateKind → Except String Predicate
  | .repoContainsFile => unmarshalContainsFile P params negated
  | .repoContainsPath =>
    (unmarshalExpression P "contains.path argument: "
      "contains.path argument should not be empty" params).map (.repoContainsPath · negated)
  | .repoContainsContent =>
    (unmarshalExpression P "contains.content argument: "
      "contains.content argument should not be empty" params).map (.repoContainsContent · negated)
  | .repoContainsCommitAfter => .ok (.repoContainsCommitAfter params negated)
  | .repoHasDescription =>
    if negated then .error (negatedPredicateError P "repo:has.description")
    else (unmarshalExpression P "invalid repo:has.description() argument: "
      "empty repo:has.description() predicate parameter" params).map .repoHasDescription
  | .repoHasTag => (unmarshalNonEmpty "tag must be non-empty" params).map (.repoHasTag · negated)
  | .repoHasKVP => unmarshalKVP params negated
  | .repoHasKey => (unmarshalNonEmpty "key must be non-empty" params).map (.repoHasKey · negated)
  | .repoHasMeta => unmarshalMeta params negated
  | .repoHasTopic =>
    (unmarshalNonEmpty "topic must be non-empty" params).map (.repoHasTopic · negated)
  | .repoContains => unmarshalContains P params negated
  | .fileContainsContent =>
    if negated then .error (negatedPredicateError P "file:contains.content")
    else (unmarshalExpression P "file:contains.content argument: "
      "file:contains.content argument should not be empty" params).map .fileContainsContent
  | .fileHasOwner => .ok (.fileHasOwner params negated)

theorem parseAsPredicate_ok (h : parseAsPredicate val = .ok (name, prs)) :
    val = name ++ "(" ++ prs ++ ")" := by
  revert h
  fun_cases parseAsPredicate val with
  | case1 name' rest hrs hco =>
    rintro ⟨⟩
    have hla := List.dropLast_append_getLast? ')' hco.2
    apply String.toList_inj.mp
    conv_lhs => rw [← @List.takeWhile_append_dropWhile _ isNameChar val.toList, hrs, ← hla]
    simp [name']
  | _ => nofun

theorem getPredicate_ok (h : getPredicate fd name = .ok kind) :
    ∃ tb, defaultPredicateRegistry fd = some tb ∧ tb.lookup name = some kind := by
  revert h
  fun_cases getPredicate fd name with
  | case3 tb htb kind hk =>
    rintro ⟨⟩
    exact ⟨tb, htb, hk⟩
  | _ => nofun

theorem registered_field (htb : defaultPredicateRegistry fd = some tb)
    (h : tb.lookup name = some kind) : PredicateKind.field kind = fd := by
  have hrp : ∀ en ∈ repoPredicates, PredicateKind.field en.2 = "repo" := by decide
  have hfi : ∀ en ∈ filePredicates, PredicateKind.field en.2 = "file" := by decide
  have hmem : (name, kind) ∈ tb := by
    obtain ⟨pre, post, rfl, _⟩ := List.lookup_eq_some_iff.mp h
    simp
  rcases defaultPredicateRegistry_eq_some htb with ⟨rfl, rfl⟩ | ⟨rfl, rfl⟩
  · exact hrp _ hmem
  · exact hfi _ hmem

theorem kind_inj (hfd : PredicateKind.field a = PredicateKind.field b)
    (hnm : PredicateKind.name a = PredicateKind.name b) : a = b := by
  cases a <;> cases b <;>
    first | rfl | exact absurd hnm (by decide) | exact absurd hfd (by decide)

end QueryPredicates
