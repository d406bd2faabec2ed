import Sourcegraph.CaseLowering
import Sourcegraph.MatchChunks

/-! # The matcher of unindexed search

The regexp packages enter as their functions, of which only what the source relies on is
assumed. A pattern is lowered, printed and parsed again before it is compiled. -/
namespace SearcherCompile

open GoStrings GoRunes RegexpSyntax CaseLowering MatchChunks List
open SearchResults (ChunkMatch Panic)

structure RegexpPackage where
  /-- The orbits of `unicode.SimpleFold`. -/
  fold : ℕ → ℕ → Prop
  /-- `syntax.Parse` with the flags `syntax.Perl`. -/
  parse : Bytes → Except String Regexp
  string : Regexp → Bytes
  simplify : Regexp → Regexp
  optimizeRegexp : Regexp → Regexp
  literalPrefix : Regexp → Bytes
  matchString : Regexp → Bytes → Bool
  findAllIndex : Regexp → Bytes → ℤ → List (ℕ × ℕ)
  simplify_language : ∀ re, (simplify re).language fold = re.language fold
  optimizeRegexp_language : ∀ re, (optimizeRegexp re).language fold = re.language fold
  matchString_iff : ∀ re s, matchString re s = true ↔ HasMatch fold re s
  findAllIndex_ne_nil : ∀ re buf n, n ≠ 0 → (findAllIndex re buf n ≠ [] ↔ HasMatch fold re buf)

structure Compiled where
  expr : Bytes
  tree : Regexp

variable (P : RegexpPackage) (U : Unicode)

def RegexpPackage.compile (expr : Bytes) : Except String Compiled :=
  (P.parse expr).map fun tree => ⟨expr, tree⟩

/-- `regexp.QuoteMeta`. -/
def quoteMeta (s : Bytes) : Bytes :=
  s.flatMap fun b => if b ∈ bytes "\\.+*?()|[]\x7b\x7d^$" then [0x5C, b] else [b]

/-- `strings.ToLower`, which also replaces invalid bytes. -/
def toLower (s : Bytes) : Bytes := encode ((codes s).map U.toLower)

structure PatternInfo where
  pattern : Bytes
  isNegated : Bool := false
  isRegExp : Bool := false
  isWordMatch : Bool := false
  isCaseSensitive : Bool := false
  excludePattern : Bytes := []
  includePatterns : List Bytes := []
  pathPatternsAreCaseSensitive : Bool := false
  patternMatchesContent : Bool := false
  patternMatchesPath : Bool := false
  deriving DecidableEq

structure PathMatcher where
  includes : List Compiled
  excludes : Option Compiled

def PathMatcher.matchPath (pm : PathMatcher) (path : Bytes) : Bool :=
  pm.includes.all (fun re => P.matchString re.tree path) &&
    !pm.excludes.any fun re => P.matchString re.tree path

def pathExpr (caseSensitive : Bool) (p : Bytes) : Bytes :=
  if caseSensitive then p else bytes "(?i:" ++ p ++ bytes ")"

/-- The include patterns are compiled in order; the last error is the one returned. -/
def compileIncludes (caseSensitive : Bool) : List Bytes → Except String (List Compiled)
  | [] => .ok []
  | p :: ps =>
    match P.compile (pathExpr caseSensitive p), compileIncludes caseSensitive ps with
    | _, .error err => .error err
    | .error err, .ok _ => .error err
    | .ok re, .ok res => .ok (re :: res)

def compilePathPatterns (includePatterns : List Bytes) (excludePattern : Bytes)
    (caseSensitive : Bool) : Except String PathMatcher :=
  if excludePattern = [] then
    (compileIncludes P caseSensitive includePatterns).map fun includes => ⟨includes, none⟩
  else
    match P.compile (pathExpr caseSensitive excludePattern) with
    | .error err => .error err
    | .ok exclude =>
      (compileIncludes P caseSensitive includePatterns).map fun includes => ⟨includes, some exclude⟩

mutual

def longestLiteral : Regexp → Bytes
  | .literal _ runes => encode runes
  | .capture sub => longestLiteral sub
  | .plus sub => longestLiteral sub
  | .repetition min _ sub => if 1 ≤ min then longestLiteral sub else []
  | .concat subs => longestOf [] subs
  | .noMatch => []
  | .emptyMatch => []
  | .charClass _ => []
  | .anyCharNotNL => []
  | .anyChar => []
  | .beginLine => []
  | .endLine => []
  | .beginText => []
  | .endText => []
  | .wordBoundary => []
  | .noWordBoundary => []
  | .star _ => []
  | .quest _ => []
  | .alternate _ => []

def longestOf (longest : Bytes) : List Regexp → Bytes
  | [] => longest
  | sub :: subs =>
    let l := longestLiteral sub
    longestOf (if l.length > longest.length then l else longest) subs

end

structure ReaderGrep where
  re : Option Compiled
  ignoreCase : Bool
  matchPath : PathMatcher
  literalSubstring : Bytes

def patternExpr (p : PatternInfo) : Bytes :=
  let expr := if p.isRegExp then p.pattern else quoteMeta p.pattern
  let expr := if p.isWordMatch then bytes "\\b" ++ expr ++ bytes "\\b" else expr
  if p.isRegExp then bytes "(?m:" ++ expr ++ bytes ")" else expr

def compilePattern (p : PatternInfo) : Except String (Option Compiled × Bytes) :=
  if p.pattern = [] then .ok (none, [])
  else do
    let tree ← P.parse (patternExpr p)
    let tree := if p.isCaseSensitive then tree else lowerRegexpASCII U tree
    let re ← P.compile (P.string (P.optimizeRegexp tree))
    if P.literalPrefix re.tree = [] then
      let ast ← P.parse re.expr
      .ok (some re, longestLiteral (P.simplify ast))
    else .ok (some re, [])

def compile (p : PatternInfo) : Except String ReaderGrep := do
  let (re, literalSubstring) ← compilePattern P U p
  let matchPath ← compilePathPatterns P p.includePatterns p.excludePattern
    p.pathPatternsAreCaseSensitive
  .ok { re, ignoreCase := !p.isCaseSensitive, matchPath, literalSubstring }

def ReaderGrep.matchString (rg : ReaderGrep) (s : Bytes) : Bool :=
  match rg.re with
  | none => true
  | some re => P.matchString re.tree (if rg.ignoreCase then toLower U s else s)

def ReaderGrep.fileMatchBuf (rg : ReaderGrep) (fileBuf : Bytes) : Bytes :=
  if rg.ignoreCase then bytesToLowerASCII fileBuf else fileBuf

def ReaderGrep.worthConsidering (rg : ReaderGrep) (fileBuf : Bytes) : Bool :=
  rg.literalSubstring <:+: rg.fileMatchBuf fileBuf

def ReaderGrep.find (rg : ReaderGrep) (fileBuf : Bytes) (limit : ℤ) : Except Panic (List ChunkMatch) :=
  if !rg.worthConsidering fileBuf then .ok []
  else
    match rg.re with
    | none => .error "invalid memory address or nil pointer dereference"
    | some re =>
      let locs := P.findAllIndex re.tree (rg.fileMatchBuf fileBuf) (limit + 1)
      if locs.isEmpty then .ok []
      else .ok (chunksToMatches fileBuf (chunkRanges (locsToRanges fileBuf locs) 0))

mutual

/-- The literal that `longestLiteral` returns the text of, with its flag. -/
def chosenLiteral : Regexp → Option (Bool × List ℕ)
  | .literal foldCase runes => some (foldCase, runes)
  | .capture sub => chosenLiteral sub
  | .plus sub => chosenLiteral sub
  | .repetition min _ sub => if 1 ≤ min then chosenLiteral sub else none
  | .concat subs => chosenOf none subs
  | _ => none

def chosenOf (chosen : Option (Bool × List ℕ)) : List Regexp → Option (Bool × List ℕ)
  | [] => chosen
  | sub :: subs =>
    chosenOf (if (longestLiteral sub).length > ((chosen.map fun c => encode c.2).getD []).length
      then chosenLiteral sub else chosen) subs

end

def literalText (chosen : Option (Bool × List ℕ)) : Bytes := (chosen.map fun c => encode c.2).getD []

variable {s before after : List ℕ}

theorem longestOf_eq (h : ∀ sub ∈ subs, longestLiteral sub = literalText (chosenLiteral sub))
    (ch : Option (Bool × List ℕ)) :
    longestOf (literalText ch) subs = literalText (chosenOf ch subs) := by
  induction subs generalizing ch with
  | nil => rfl
  | cons sub subs ih =>
    rw [longestOf, chosenOf, ← ih (forall_mem_cons.mp h).2, h sub mem_cons_self,
      apply_ite literalText]
    rfl

theorem longestLiteral_eq : longestLiteral re = literalText (chosenLiteral re) := by
  induction re with
  | capture sub ih | plus sub ih => exact ih
  | repetition min max sub ih =>
    rw [longestLiteral, chosenLiteral]
    split
    · exact ih
    · rfl
  | concat subs ih => exact longestOf_eq ih none
  | _ => rfl

def ContainsSpelling (fold : ℕ → ℕ → Prop) (chosen : Bool × List ℕ) (s : List ℕ) : Prop :=
  ∃ m, m <:+: s ∧ List.Forall₂ (Spells fold chosen.1) m chosen.2

theorem ContainsSpelling.mono (h : ContainsSpelling fold ch s) (hst : s <:+: t) :
    ContainsSpelling fold ch t := by
  obtain ⟨m, hm, hspl⟩ := h
  exact ⟨m, hm.trans hst, hspl⟩

theorem chosenOf_mem (h : chosenOf ch subs = some c) :
    ch = some c ∨ ∃ sub ∈ subs, chosenLiteral sub = some c := by
  induction subs generalizing ch with
  | nil => exact .inl h
  | cons sub subs ih =>
    rcases ih h with h | ⟨x, hx, hc⟩
    · split at h
      · exact .inr ⟨sub, by simp, h⟩
      · exact .inl h
    · exact .inr ⟨x, by simp [hx], hc⟩

theorem contains_chosen (hc : chosenLiteral re = some ch) (h : re.language fold before s after)
    : ContainsSpelling fold ch s := by
  induction re generalizing before s after with
  | literal fc rs =>
    obtain rfl := Option.some.inj hc
    exact ⟨s, infix_rfl, h⟩
  | capture sub ih => exact ih hc h
  | plus sub ih =>
    obtain ⟨n, hn, hpow⟩ := h
    obtain ⟨before', m, after', hm, hlg⟩ := power_mem hn hpow
    exact (ih hc hlg).mono hm
  | repetition min max sub ih =>
    obtain ⟨hmin, hc⟩ := Option.ite_none_right_eq_some.mp hc
    obtain ⟨n, hn, -, hpow⟩ := h
    obtain ⟨before', m, after', hm, hlg⟩ := power_mem (Nat.le_trans hmin hn) hpow
    exact (ih hc hlg).mono hm
  | concat subs ih =>
    rcases chosenOf_mem hc with hc | ⟨sub, hsub, hc⟩
    · cases hc
    obtain ⟨before', m, after', hm, hlg⟩ := concatLanguage_mem hsub h
    exact (ih sub hsub hc hlg).mono hm
  | _ => cases hc

/-- The chosen literal has one spelling: no rune of it folds to another one or is the replacement
rune, which also stands for invalid bytes. -/
def SpelledOnce (fold : ℕ → ℕ → Prop) (re : Regexp) : Prop :=
  ∀ chosen ∈ chosenLiteral re, ∀ r ∈ chosen.2,
    r ≠ runeError.toNat ∧ (chosen.1 = true → ∀ x, fold r x → x = r)

theorem spells_eq {rs : List ℕ} (hone : ∀ r ∈ rs, fc = true → ∀ x, fold r x → x = r)
    (h : Forall₂ (Spells fold fc) m rs) : m = rs := by
  induction h with
  | nil => rfl
  | cons hx _ ih =>
    rw [ih (forall_mem_cons.mp hone).2]
    rcases hx with rfl | ⟨hfo, hx⟩
    · rfl
    · rw [hone _ (by simp) hfo _ hx]

theorem longestLiteral_infix (hone : SpelledOnce fold re) (h : re.language fold before s after)
    (hs : s <:+: codes buf) : longestLiteral re <:+: buf := by
  rw [longestLiteral_eq]
  cases hc : chosenLiteral re with
  | none => exact nil_infix
  | some ch =>
    obtain ⟨m, hm, hspl⟩ := contains_chosen hc h
    have hone := hone ch hc
    obtain rfl := spells_eq (fun r hr => (hone r hr).2) hspl
    exact encode_infix (hm.trans hs) fun hmem => (hone _ hmem).1 rfl

theorem compile_tree (h : P.compile expr = .ok c) : c.expr = expr ∧ P.parse expr = .ok c.tree := by
  obtain ⟨tree, hprs, rfl⟩ := map_eq_ok h
  exact ⟨rfl, hprs⟩

theorem compilePattern_eq_ok (h : compilePattern P U p = .ok (some c, lit)) :
    P.parse c.expr = .ok c.tree ∧
      (lit = [] ∨ P.literalPrefix c.tree = [] ∧ lit = longestLiteral (P.simplify c.tree)) := by
  unfold compilePattern at h
  split at h
  · cases h
  obtain ⟨tree, -, h⟩ := bind_eq_ok h
  obtain ⟨re, hre, h⟩ := bind_eq_ok h
  obtain ⟨hexpr, hprs⟩ := compile_tree P hre
  rw [← hexpr] at hprs
  split at h
  · rename_i hpre
    obtain ⟨ast, hast, h⟩ := bind_eq_ok h
    cases h
    cases hprs.symm.trans hast
    exact ⟨hprs, .inr ⟨hpre, rfl⟩⟩
  cases h
  exact ⟨hprs, .inl rfl⟩

theorem compile_eq_ok (h : compile P U p = .ok rg) :
    compilePattern P U p = .ok (rg.re, rg.literalSubstring) ∧
      compilePathPatterns P p.includePatterns p.excludePattern p.pathPatternsAreCaseSensitive =
        .ok rg.matchPath := by
  obtain ⟨⟨re, lit⟩, hpat, h⟩ := bind_eq_ok h
  obtain ⟨mat, hpt, h⟩ := bind_eq_ok h
  cases h
  exact ⟨hpat, hpt⟩

/-- The pre-filter passes every file with a match if the regexp has a literal prefix or the chosen
literal has one spelling. -/
theorem worthConsidering_of_match (h : compile P U p = .ok rg) (hc : rg.re = some c)
    (hone : P.literalPrefix c.tree = [] → SpelledOnce P.fold (P.simplify c.tree))
    (hmt : HasMatch P.fold c.tree (rg.fileMatchBuf fb)) : rg.worthConsidering fb = true := by
  obtain ⟨hpat, -⟩ := compile_eq_ok P U h
  rw [hc] at hpat
  rw [ReaderGrep.worthConsidering, decide_eq_true_eq]
  rcases (compilePattern_eq_ok P U hpat).2 with hlit | ⟨hpre, hlit⟩
  · rw [hlit]
    exact nil_infix
  obtain ⟨m⟩ := hmt
  have hlg := m.language
  rw [← P.simplify_language] at hlg
  rw [hlit]
  refine longestLiteral_infix (hone hpre) hlg ?_
  rw [codes, m.runes_eq, map_append, map_append]
  exact infix_append _ _ _

/-- The literal pre-filter never hides a match of a pattern that has a literal prefix or whose
literal has one spelling. -/
theorem prefilter_hides_nothing (P : RegexpPackage) (U : Unicode) :
    (∀ re, SpelledOnce P.fold re → ∀ s, InLanguage P.fold re s → longestLiteral re <:+: s) ∧
      ∀ p rg, compile P U p = .ok rg → ∀ c, rg.re = some c →
        (P.literalPrefix c.tree = [] → SpelledOnce P.fold (P.simplify c.tree)) →
        ∀ fileBuf, rg.worthConsidering fileBuf = false →
          ¬ HasMatch P.fold c.tree (rg.fileMatchBuf fileBuf) := by
  constructor
  · rintro re hone s ⟨before, after, h⟩
    exact longestLiteral_infix hone h infix_rfl
  · intro p rg h c hc hone fileBuf hfil hmt
    rw [worthConsidering_of_match P U h hc hone hmt] at hfil
    cases hfil

def foldASCII (r x : ℕ) : Prop := lowerASCII r = lowerASCII x

/-- The runes that a regexp starts with, whether they fold or not. -/
def leadingLiteral : Regexp → Bytes
  | .literal _ runes => encode runes
  | .concat (.literal _ runes :: _) => encode runes
  | _ => []

/-- A package that parses some texts to one tree, prints that tree as the first of them and finds
one match of it. -/
noncomputable def onePattern (tree : Regexp) (printed : Bytes) (texts : List Bytes) :
    RegexpPackage where
  fold := foldASCII
  parse expr := if expr ∈ printed :: texts then .ok tree else .error "unknown pattern"
  string _ := printed
  simplify re := re
  optimizeRegexp re := re
  literalPrefix := leadingLiteral
  matchString re s := open Classical in decide (HasMatch foldASCII re s)
  findAllIndex re buf n := open Classical in
    if h : n ≠ 0 ∧ HasMatch foldASCII re buf then
      let m := Classical.choice h.2
      [(width m.before, width m.before + width m.matched)]
    else []
  simplify_language _ := rfl
  optimizeRegexp_language _ := rfl
  matchString_iff re s := by simp
  findAllIndex_ne_nil re buf n hn := by
    by_cases h : HasMatch foldASCII re buf
    · simp [hn, h]
    · simp [h]

/-- The pattern `x*foo`. -/
def starFoo : Regexp := .concat [.star (.literal false [0x78]), .literal false [0x66, 0x6F, 0x6F]]

def starFooInfo : PatternInfo := { pattern := bytes "x*foo", isRegExp := true, isCaseSensitive := true }

def starFooGrep : ReaderGrep where
  re := some ⟨bytes "x*foo", starFoo⟩
  ignoreCase := false
  matchPath := ⟨[], none⟩
  literalSubstring := bytes "foo"

theorem starFoo_spelledOnce (fold : ℕ → ℕ → Prop) : SpelledOnce fold starFoo := by
  have hvld : ∀ r ∈ [0x66, 0x6F, 0x6F], r ≠ runeError.toNat := by decide
  intro ch hc
  cases hc
  exact fun r hr => ⟨hvld r hr, nofun⟩

theorem starFoo_compiled : compile (onePattern starFoo (bytes "x*foo") [bytes "(?m:x*foo)"]) latin1
    starFooInfo = .ok starFooGrep := by rfl

theorem star_foo_hides_nothing : let P := onePattern starFoo (bytes "x*foo") [bytes "(?m:x*foo)"]
    starFooGrep.worthConsidering (bytes "bar") = false ∧
      ¬ HasMatch P.fold starFoo (starFooGrep.fileMatchBuf (bytes "bar")) := by
  intro P
  have hfil : starFooGrep.worthConsidering (bytes "bar") = false := by decide
  exact ⟨hfil, (prefilter_hides_nothing P latin1).2 starFooInfo starFooGrep starFoo_compiled
    ⟨bytes "x*foo", starFoo⟩ rfl (fun _ => starFoo_spelledOnce _) (bytes "bar") hfil⟩

/-- The pattern `x*(?i)foo`, whose second literal is stored in upper case. -/
def foldedFoo : Regexp := .concat [.star (.literal false [0x78]), .literal true [0x46, 0x4F, 0x4F]]

def foldedFooInfo : PatternInfo :=
  { pattern := bytes "x*(?i)foo", isRegExp := true, isCaseSensitive := true }

def foldedFooGrep : ReaderGrep where
  re := some ⟨bytes "x*(?i:FOO)", foldedFoo⟩
  ignoreCase := false
  matchPath := ⟨[], none⟩
  literalSubstring := bytes "FOO"

/-- The text `foo` matches `x*(?i)foo` but does not contain `FOO`. -/
theorem folded_foo_hidden :
    let P := onePattern foldedFoo (bytes "x*(?i:FOO)") [bytes "(?m:x*(?i)foo)"]
    InLanguage P.fold foldedFoo (bytes "foo") ∧ ¬ longestLiteral foldedFoo <:+: bytes "foo" ∧
      compile P latin1 foldedFooInfo = .ok foldedFooGrep ∧
      HasMatch P.fold foldedFoo (foldedFooGrep.fileMatchBuf (bytes "foo")) ∧
      foldedFooGrep.find P (bytes "foo") 100 = .ok [] := by
  intro P
  have hspl : Forall₂ (Spells P.fold true) [0x66, 0x6F, 0x6F] [0x46, 0x4F, 0x4F] := by
    refine Forall₂.cons ?_ (Forall₂.cons ?_ (Forall₂.cons ?_ Forall₂.nil)) <;>
      exact .inr ⟨rfl, rfl⟩
  -- no x, then the folded literal, then the end of the concatenation
  have hlg : foldedFoo.language P.fold [] (codes (bytes "foo")) [] :=
    ⟨[], [0x66, 0x6F, 0x6F], rfl, ⟨0, rfl⟩, [0x66, 0x6F, 0x6F], [], rfl, hspl, rfl⟩
  refine ⟨⟨[], [], hlg⟩, by decide, by rfl, ⟨⟨[], runes (bytes "foo"), [], by decide, hlg⟩⟩, ?_⟩
  rw [ReaderGrep.find, if_pos (by decide)]

end SearcherCompile
