import Sourcegraph.CommitMatchTree
import Sourcegraph.QueryConcat

/-! # References to users in author filters

Before a commit search, an author or committer expression `@name` is replaced by an alternation
of the verified e-mail addresses of the user. -/
namespace CommitAuthors

open CommitQueryReduce (MatchField Node reduceWith applyReducers)
open CommitMatchTree GoStrings QueryConcat List

structure UserEmail where
  email : String
  verifiedAt : Option ℤ

inductive Lookup where
  | found (id : ℕ)
  | notFound
  | failed

/-- The users database; `none` is an error. -/
structure Users where
  getByUsername : String → Lookup
  listByUser : ℕ → Option (List UserEmail)

def verified (emails : List UserEmail) : List String :=
  (emails.filter fun m => m.verifiedAt.isSome).map UserEmail.email

/-- The inner `none` is a nil slice, which an empty slice is not. -/
def expandOne (db : Users) (value : String) : Option (Option (List String)) :=
  match value.toList with
  | '@' :: name =>
    match db.getByUsername (.ofList name) with
    | .notFound => some none
    | .failed => none
    | .found id => (db.listByUser id).map fun emails => some ((verified emails).map quoteMeta)
  | _ => some none

def expandUsernamesToEmails (db : Users) : List String → Option (List String)
  | [] => some []
  | v :: values => (expandOne db v).bind fun x =>
    (expandUsernamesToEmails db values).map (x.getD [v] ++ ·)

def alternation (exprs : List String) : String := "(?:" ++ ")|(?:".intercalate exprs ++ ")"

def expandExpr (db : Users) (expr : String) : Option String :=
  (expandUsernamesToEmails db [expr]).map alternation

def expandNode (db : Users) : Node → Option Node
  | .regexp .author expr ignoreCase => (expandExpr db expr).map (.regexp .author · ignoreCase)
  | .regexp .committer expr ignoreCase =>
    (expandExpr db expr).map (.regexp .committer · ignoreCase)
  | n => some n

def expandUsernames (db : Users) (query : Node) : Option Node :=
  reduceWith [fun _ n => expandNode db n] [] query

/-- Whether a commit is found by a query. -/
def Selects (compileRegexp : Compiler) (lc : LazyCommit) (query : Node) : Prop :=
  ∃ tree cfr found, toMatchTree compileRegexp query = .ok tree ∧
    matchCommit lc tree = .ok (cfr, found) ∧ cfr.satisfies = true

/-- The name and the e-mail address that a predicate reads. -/
def person (lc : LazyCommit) : MatchField → Option (Bytes × Bytes)
  | .author => some (lc.authorName, lc.authorEmail)
  | .committer => some (lc.committerName, lc.committerEmail)
  | _ => none

/-- `BytesToLowerASCII` of a byte. -/
def lowerASCII (b : UInt8) : UInt8 := if 65 ≤ b ∧ b ≤ 90 then b + 32 else b

variable (compileRegexp : Compiler) (ignoreCase : Bool) (db : Users) (expr : String)

def Contains (text : Bytes) (s : String) : Prop :=
  if ignoreCase then (bytes s).map lowerASCII <:+: text.map lowerASCII else bytes s <:+: text

def Compiles : Prop := ∃ re, compileRegexp expr ignoreCase = .ok re

def Matches (text : Bytes) : Prop :=
  ∃ re, compileRegexp expr ignoreCase = .ok re ∧ re.matches text = true

/-- The verified addresses of an existing user to whom `@name` refers. -/
def reference : Option (List String) :=
  match expr.toList with
  | '@' :: name =>
    match db.getByUsername (.ofList name) with
    | .found id => (db.listByUser id).map verified
    | _ => none
  | _ => none

/-- What is assumed of regular expressions: alternation, where an empty group matches
everything, and quoting. -/
structure Standard : Prop where
  alternation : ∀ exprs, expandUsernamesToEmails db [expr] = some exprs →
    (∀ e ∈ exprs, Compiles compileRegexp ignoreCase e) →
      ∀ text, Matches compileRegexp ignoreCase (alternation exprs) text ↔
        exprs = [] ∨ ∃ e ∈ exprs, Matches compileRegexp ignoreCase e text
  quoteMeta : ∀ addresses, reference db expr = some addresses → ∀ s ∈ addresses,
    Compiles compileRegexp ignoreCase (quoteMeta s) ∧
      ∀ text, Matches compileRegexp ignoreCase (quoteMeta s) text ↔ Contains ignoreCase text s

/-- What an author or committer expression is meant to match. -/
def Intended (name email : Bytes) : Prop :=
  match reference db expr with
  | some addresses => ∃ s ∈ addresses, Contains ignoreCase email s
  | none => Matches compileRegexp ignoreCase expr name ∨ Matches compileRegexp ignoreCase expr email

variable {compileRegexp ignoreCase db expr} {name email : Bytes}

theorem expand_eq (h : expandUsernamesToEmails db [expr] = some exs) :
    exs = ((reference db expr).map (·.map quoteMeta)).getD [expr] := by
  obtain ⟨x, hx, hexp⟩ := Option.bind_eq_some_iff.mp h
  obtain rfl : x.getD [expr] = exs := by simpa [expandUsernamesToEmails] using hexp
  unfold expandOne at hx
  unfold reference
  split at hx
  · split at hx
    · cases hx
      simp_all
    · cases hx
    · obtain ⟨ema, hema, rfl⟩ := Option.map_eq_some_iff.mp hx
      simp_all
  cases hx
  simp_all

theorem selects_regexp (h : person lc fd = some (name, email)) :
    Selects compileRegexp lc (.regexp fd expr ignoreCase) ↔
      Matches compileRegexp ignoreCase expr name ∨ Matches compileRegexp ignoreCase expr email := by
  have hfil : ∀ val, (filterResult val).satisfies = val := by
    rintro (_ | _) <;> rfl
  cases hre : compileRegexp expr ignoreCase with
  | error e => cases fd <;> cases h <;> simp [Selects, Matches, toMatchTree, hre, Except.map]
  | ok re =>
    cases fd <;> cases h <;>
      simp [Selects, Matches, toMatchTree, matchCommit, hre, Except.map, hfil]

theorem expandUsernames_regexp (h : person lc field = some (name, email))
    (hn : expandUsernames db (.regexp field expr ignoreCase) = some n) :
    ∃ exprs, expandUsernamesToEmails db [expr] = some exprs ∧
      n = .regexp field (alternation exprs) ignoreCase := by
  obtain ⟨m, hm, rfl⟩ : ∃ m, expandNode db (.regexp field expr ignoreCase) = some m ∧ m = n := by
    simpa [expandUsernames, reduceWith, applyReducers] using hn
  cases field <;> cases h <;>
    obtain ⟨_, hexpr, rfl⟩ := Option.map_eq_some_iff.mp hm <;>
    obtain ⟨exprs, hexp, rfl⟩ := Option.map_eq_some_iff.mp hexpr <;>
    exact ⟨exprs, hexp, rfl⟩

/-- The expanded expression selects what is intended, unless the user has no verified address
or one of them stands in the name of a person with another address. -/
theorem expansion_exact_iff (hperson : person lc field = some (name, email))
    (hexpr : Compiles compileRegexp ignoreCase expr)
    (hstandard : Standard compileRegexp ignoreCase db expr)
    (hn : expandUsernames db (.regexp field expr ignoreCase) = some n) :
    (Selects compileRegexp lc n ↔ Intended compileRegexp ignoreCase db expr name email) ↔
      ∀ addresses, reference db expr = some addresses → addresses ≠ [] ∧
        ((∃ s ∈ addresses, Contains ignoreCase name s) →
          ∃ s ∈ addresses, Contains ignoreCase email s) := by
  obtain ⟨exs, hexp, rfl⟩ := expandUsernames_regexp hperson hn
  have halt := hstandard.alternation exs hexp
  rw [selects_regexp hperson, Intended]
  obtain rfl := expand_eq hexp
  cases hr : reference db expr with
  | none =>
    simp only [hr, Option.map_none, Option.getD_none, reduceCtorEq, false_or, mem_singleton,
      exists_eq_left, forall_eq] at halt
    simp [halt hexpr]
  | some addresses =>
    have hquo := hstandard.quoteMeta addresses hr
    have hcon : ∀ text, (∃ e ∈ addresses.map quoteMeta,
        Matches compileRegexp ignoreCase e text) ↔ ∃ s ∈ addresses, Contains ignoreCase text s := by
      intro text
      simp only [mem_map, exists_exists_and_eq_and]
      exact exists_congr fun s => and_congr_right fun hs => (hquo s hs).2 text
    simp only [hr, Option.map_some, Option.getD_some, map_eq_nil_iff, hcon] at halt
    have halt := halt (forall_mem_map.mpr fun s hs => (hquo s hs).1)
    simp only [Option.map_some, Option.getD_some, halt, Option.some.injEq, forall_eq']
    by_cases hnil : addresses = []
    · simp [hnil]
    simp only [hnil, false_or, ne_eq, not_false_eq_true, true_and]
    exact ⟨fun h hs => h.mp (.inl hs), fun h => ⟨fun hs => hs.elim h id, .inr⟩⟩

def twoUsers : Users :=
  ⟨fun name => if name = "alice" then .found 1 else if name = "bob" then .found 2 else .notFound,
    fun id => some [⟨"a@b", if id = 1 then some 0 else none⟩]⟩

def addressOnly : Compiler :=
  fun _ _ => .ok ⟨fun text => if bytes "a@b" <:+: text then [(0, 0)] else []⟩

theorem addressOnly_matches (text : Bytes) :
    Matches addressOnly false expr text ↔ bytes "a@b" <:+: text := by
  simp [Matches, addressOnly, Regexp.matches]

theorem alice_expanded : let lc : LazyCommit := ⟨[], bytes "<a@b>", [], [], [], [], [], .ok []⟩
    Standard addressOnly false twoUsers "@alice" ∧
      (Selects addressOnly lc (.regexp .author "(?:a@b)" false) ↔
        Intended addressOnly false twoUsers "@alice" [] (bytes "<a@b>")) := by
  intro lc
  have hsta : Standard addressOnly false twoUsers "@alice" := by
    constructor
    · intro exs hexp _ text
      obtain rfl : exs = ["a@b"] := (Option.some.inj hexp).symm
      simp [addressOnly_matches]
    · intro addr hr s hs
      cases hr
      cases mem_singleton.mp hs
      exact ⟨⟨_, rfl⟩, addressOnly_matches⟩
  have hper : person lc .author = some ([], bytes "<a@b>") := rfl
  refine ⟨hsta, (expansion_exact_iff hper ⟨_, rfl⟩ hsta rfl).mpr ?_⟩
  intro addr hr
  cases hr
  refine ⟨by decide, fun ⟨s, hs, h⟩ => ?_⟩
  cases mem_singleton.mp hs
  exact absurd (show bytes "a@b" <:+: [] from h) (by decide)

/-- Bob has no verified address, and `author:@bob` finds every commit. -/
theorem bob_widened :
    expandUsernames twoUsers (.regexp .author "@bob" false) = some (.regexp .author "(?:)" false) ∧
      ∀ compileRegexp, (∀ text, Matches compileRegexp false "(?:)" text) → ∀ lc : LazyCommit,
        Selects compileRegexp lc (.regexp .author "(?:)" false) ∧
          ¬ Intended compileRegexp false twoUsers "@bob" lc.authorName lc.authorEmail := by
  refine ⟨rfl, fun compileRegexp h lc => ⟨(selects_regexp rfl).mpr (.inl (h _)), ?_⟩⟩
  rintro ⟨s, hs, -⟩
  cases hs

end CommitAuthors
