import Sourcegraph.RegexSearch

/-! # The indexed query of hybrid search

A request is translated to a query of the index about the files that are the same in the indexed
commit. The other files go through unindexed search. -/
namespace HybridQuery

open GoStrings GoRunes RegexpSyntax CaseLowering SearcherCompile RegexSearch

/-- The queries of zoekt that `zoektCompile` builds. -/
inductive Q where
  | const (value : Bool)
  | regexp (tree : Regexp) (fileName content caseSensitive : Bool)
  | not (child : Q)
  | and (children : List Q)
  | or (children : List Q)

/-- How the index matches a regexp, and its simplification of queries. -/
structure Zoekt where
  /-- Whether the regexp, under a case flag, matches a text. -/
  matchesText : Regexp → Bool → Bytes → Bool
  /-- A class read under `(?i)`. -/
  foldClass : List (ℕ × ℕ) → List (ℕ × ℕ)
  simplify : Q → Q

variable (Z : Zoekt) (P : RegexpPackage) (U : Unicode)

mutual

def Q.eval (f : SrcFile) : Q → Bool
  | .const value => value
  | .regexp tree fileName content caseSensitive =>
    -- without a flag the atom is about both
    ((content || !fileName) && Z.matchesText tree caseSensitive f.data) ||
      ((fileName || !content) && Z.matchesText tree caseSensitive f.name)
  | .not child => !child.eval f
  | .and children => evalAll f children
  | .or children => evalAny f children

def evalAll (f : SrcFile) : List Q → Bool
  | [] => true
  | child :: children => child.eval f && evalAll f children

def evalAny (f : SrcFile) : List Q → Bool
  | [] => false
  | child :: children => child.eval f || evalAny f children

end

def patternPart (p : PatternInfo) (rg : ReaderGrep) : Except String Q :=
  match rg.re with
  | none => .ok (.const true)
  | some re => do
    let tree ← P.parse re.expr
    let tree := P.optimizeRegexp tree
    if p.patternMatchesContent && p.patternMatchesPath then
      .ok (.or [.regexp tree false true !rg.ignoreCase, .regexp tree true false !rg.ignoreCase])
    else .ok (.regexp tree p.patternMatchesPath p.patternMatchesContent !rg.ignoreCase)

def pathPart (p : PatternInfo) (pat : Bytes) : Except String Q := do
  let tree ← P.parse pat
  .ok (.regexp tree true false p.pathPatternsAreCaseSensitive)

def includeParts (p : PatternInfo) : List Bytes → Except String (List Q)
  | [] => .ok []
  | pat :: pats => do
    let part ← pathPart P p pat
    let parts ← includeParts p pats
    .ok (part :: parts)

def excludeParts (p : PatternInfo) : Except String (List Q) :=
  if p.excludePattern = [] then .ok []
  else do
    let part ← pathPart P p p.excludePattern
    .ok [.not part]

def zoektCompile (p : PatternInfo) : Except String Q := do
  let rg ← compile P U p
  let part ← patternPart P p rg
  let includes ← includeParts P p p.includePatterns
  let excludes ← excludeParts P p
  .ok (Z.simplify (.and (part :: (includes ++ excludes))))

/-- The flags that `Service.search` passes on to unindexed search. -/
def searchMode (p : PatternInfo) : Mode :=
  ⟨p.patternMatchesContent, p.patternMatchesPath, p.isNegated⟩

def Sends (rg : ReaderGrep) (p : PatternInfo) (f : SrcFile) : Prop :=
  ∃ sent, Completed P U rg (searchMode p) [f] sent ∧ sent.map FileMatch.path = [f.name]

section Folding

variable (fold : ℕ → ℕ → Prop) (foldClass : List (ℕ × ℕ) → List (ℕ × ℕ))

mutual

/-- The regexp read under `(?i)`. -/
def ignoringCase : Regexp → Regexp
  | .literal _ runes => .literal true runes
  | .charClass ranges => .charClass (foldClass ranges)
  | .capture sub => .capture (ignoringCase sub)
  | .star sub => .star (ignoringCase sub)
  | .plus sub => .plus (ignoringCase sub)
  | .quest sub => .quest (ignoringCase sub)
  | .repetition min max sub => .repetition min max (ignoringCase sub)
  | .concat subs => .concat (ignoringCases subs)
  | .alternate subs => .alternate (ignoringCases subs)
  | re => re

def ignoringCases : List Regexp → List Regexp
  | [] => []
  | sub :: subs => ignoringCase sub :: ignoringCases subs

end

variable (lower : ℕ → ℕ) (x : ℕ)

mutual

/-- Folding a rune and lowering it are the same to every part of the regexp. -/
def FoldsAsLowered : Regexp → Prop
  | .literal foldCase runes =>
    ∀ r ∈ runes, Spells fold true x r ↔ Spells fold foldCase (lower x) r
  | .charClass ranges => inClass (foldClass ranges) x ↔ inClass ranges (lower x)
  | .anyCharNotNL => x = newline ↔ lower x = newline
  | .beginLine => x = newline ↔ lower x = newline
  | .endLine => x = newline ↔ lower x = newline
  | .wordBoundary => isWordChar (lower x) = isWordChar x
  | .noWordBoundary => isWordChar (lower x) = isWordChar x
  | .capture sub => FoldsAsLowered sub
  | .star sub => FoldsAsLowered sub
  | .plus sub => FoldsAsLowered sub
  | .quest sub => FoldsAsLowered sub
  | .repetition _ _ sub => FoldsAsLowered sub
  | .concat subs => AllFoldAsLowered subs
  | .alternate subs => AllFoldAsLowered subs
  | _ => True

def AllFoldAsLowered : List Regexp → Prop
  | [] => True
  | sub :: subs => FoldsAsLowered sub ∧ AllFoldAsLowered subs

end

end Folding

/-- A regexp atom means that the text matches, ignoring case if so asked; simplifying a query and
optimizing a regexp keep their meaning. -/
structure Lawful : Prop where
  simplify : ∀ (q : Q) (f : SrcFile), (Z.simplify q).eval Z f = q.eval Z f
  matchesText : ∀ tree caseSensitive s, Z.matchesText tree caseSensitive s = true ↔
    HasMatch P.fold (if caseSensitive then tree else ignoringCase Z.foldClass tree) s
  optimize : ∀ tree, (ignoringCase Z.foldClass (P.optimizeRegexp tree)).language P.fold =
    (ignoringCase Z.foldClass tree).language P.fold

/-- A path pattern means the same to the index as to the path matcher. -/
def SamePaths (p : PatternInfo) (f : SrcFile) : Prop :=
  ∀ pat tree c, P.parse pat = .ok tree →
    P.compile (pathExpr p.pathPatternsAreCaseSensitive pat) = .ok c →
    Z.matchesText tree p.pathPatternsAreCaseSensitive f.name = P.matchString c.tree f.name

/-- Where case is ignored, every rune of the texts that are searched folds as it is lowered: the
content by the ASCII table, the name by the Unicode tables. -/
structure RunesAgree (p : PatternInfo) (re : Compiled) (f : SrcFile) : Prop where
  content : (p.patternMatchesContent || !p.patternMatchesPath) = true → ∀ x ∈ codes f.data,
    FoldsAsLowered P.fold Z.foldClass lowerASCII x re.tree
  name : (p.patternMatchesPath || !p.patternMatchesContent) = true → ∀ x ∈ codes f.name,
    Scalar (U.toLower x) ∧ FoldsAsLowered P.fold Z.foldClass U.toLower x re.tree

/-- An accepted file is hit by the indexed query only: its content is hidden from unindexed search
by the pre-filter, or no flag is set and its name is hit instead of its content. -/
def indexedOnly (rg : ReaderGrep) (p : PatternInfo) (f : SrcFile) : Bool :=
  hidden P U rg (searchMode p) f ||
    (!p.patternMatchesContent && !p.patternMatchesPath && rg.matchString P U f.name &&
      !hits P U rg (searchMode p) f)

/-- When both searches give the same answer: on the fast path if the request is not negated,
otherwise if an accepted file is hit by the indexed query only just when the request is negated. -/
def AgreesOn (rg : ReaderGrep) (p : PatternInfo) (f : SrcFile) : Prop :=
  if fastPath rg (searchMode p) then p.isNegated = false
  else rg.matchPath.matchPath P f.name = true → p.isNegated = indexedOnly P U rg p f

section Lowering

variable {fold : ℕ → ℕ → Prop} {foldClass : List (ℕ × ℕ) → List (ℕ × ℕ)} {lower : ℕ → ℕ}
  {text : List ℕ} {K L K' L' : Language}

/-- The two languages match the same parts of the text, the second one as lowered. -/
def Corresponds (lower : ℕ → ℕ) (text : List ℕ) (L L' : Language) : Prop :=
  ∀ before s after, before ++ s ++ after = text →
    (L before s after ↔ L' (before.map lower) (s.map lower) (after.map lower))

theorem Corresponds.seq (hK : Corresponds lower text K K') (hL : Corresponds lower text L L') :
    Corresponds lower text (K.seq L) (K'.seq L') := by
  intro before s after htext
  constructor
  · rintro ⟨s₁, s₂, rfl, h₁, h₂⟩
    refine ⟨s₁.map lower, s₂.map lower, List.map_append, ?_, ?_⟩
    · rw [← List.map_append]
      exact (hK _ _ _ (by simpa using htext)).mp h₁
    · rw [← List.map_append]
      exact (hL _ _ _ (by simpa using htext)).mp h₂
  · rintro ⟨t₁, t₂, hs, h₁, h₂⟩
    obtain ⟨s₁, s₂, rfl, rfl, rfl⟩ := List.map_eq_append_iff.mp hs
    rw [← List.map_append] at h₁ h₂
    exact ⟨s₁, s₂, rfl, (hK _ _ _ (by simpa using htext)).mpr h₁,
      (hL _ _ _ (by simpa using htext)).mpr h₂⟩

theorem corresponds_empty : Corresponds lower text Language.empty Language.empty := by
  intro before s after _
  simp [Language.empty]

theorem Corresponds.power (h : Corresponds lower text L L') (n : ℕ) :
    Corresponds lower text (L.power n) (L'.power n) := by
  induction n with
  | zero => exact corresponds_empty
  | succ n ih => exact h.seq ih

theorem forall₂_spells {rs : List ℕ}
    (h : ∀ x ∈ s, ∀ r ∈ rs, Spells fold true x r ↔ Spells fold fc (lower x) r) :
    List.Forall₂ (Spells fold true) s rs ↔ List.Forall₂ (Spells fold fc) (s.map lower) rs := by
  rw [List.forall₂_map_left_iff]
  induction s generalizing rs with
  | nil => simp
  | cons x s ih =>
    cases rs with
    | nil => simp
    | cons r rs =>
      rw [List.forall₂_cons, List.forall₂_cons, h x (by simp) r (by simp),
        ih fun y hy q hq => h y (List.mem_cons_of_mem _ hy) q (List.mem_cons_of_mem _ hq)]

theorem corresponds_single {p q : ℕ → Prop} (h : ∀ x ∈ text, p x ↔ q (lower x)) :
    Corresponds lower text (fun _ s _ => ∃ x, s = [x] ∧ p x) (fun _ s _ => ∃ x, s = [x] ∧ q x) := by
  rintro before s after rfl
  constructor
  · rintro ⟨x, rfl, hx⟩
    exact ⟨lower x, rfl, (h x (by simp)).mp hx⟩
  · rintro ⟨y, hs, hy⟩
    obtain ⟨x, rfl, rfl⟩ := List.map_eq_singleton_iff.mp hs
    exact ⟨x, rfl, (h x (by simp)).mpr hy⟩

theorem all_option_map {o : Option ℕ} {p : ℕ → Prop} (h : ∀ x ∈ o, p x ↔ p (lower x)) :
    (∀ x ∈ o, p x) ↔ ∀ y ∈ o.map lower, p y := by
  cases o with
  | none => simp
  | some x => simpa using h x rfl

theorem atWordBoundary_map (hb : ∀ x ∈ before, isWordChar (lower x) = isWordChar x)
    (ha : ∀ x ∈ after, isWordChar (lower x) = isWordChar x) :
    AtWordBoundary before after ↔ AtWordBoundary (before.map lower) (after.map lower) := by
  have hany : ∀ o : Option ℕ, (∀ x ∈ o, isWordChar (lower x) = isWordChar x) →
      (o.map lower).any isWordChar = o.any isWordChar := by
    intro o ho
    cases o with
    | none => rfl
    | some x => exact ho x rfl
  rw [AtWordBoundary, AtWordBoundary, List.getLast?_map, List.head?_map,
    hany _ fun x hx => hb x (List.mem_of_getLast? hx), hany _ fun x hx => ha x (List.mem_of_head? hx)]

theorem corresponds_concat
    (h : ∀ sub ∈ subs, Corresponds lower text ((ignoringCase foldClass sub).language fold)
      (sub.language fold)) :
    Corresponds lower text (concatLanguage fold (ignoringCases foldClass subs))
      (concatLanguage fold subs) := by
  induction subs with
  | nil => exact corresponds_empty
  | cons sub subs ih =>
    exact (h sub (by simp)).seq (ih fun x hx => h x (List.mem_cons_of_mem _ hx))

theorem corresponds_alternate
    (h : ∀ sub ∈ subs, Corresponds lower text ((ignoringCase foldClass sub).language fold)
      (sub.language fold)) :
    Corresponds lower text (alternateLanguage fold (ignoringCases foldClass subs))
      (alternateLanguage fold subs) := by
  induction subs with
  | nil => exact fun _ _ _ _ => Iff.rfl
  | cons sub subs ih =>
    intro before s after htext
    exact or_congr (h sub (by simp) before s after htext)
      (ih (fun x hx => h x (List.mem_cons_of_mem _ hx)) before s after htext)

theorem AllFoldAsLowered.of_mem (h : AllFoldAsLowered fold foldClass lower x subs)
    (hsub : sub ∈ subs) : FoldsAsLowered fold foldClass lower x sub := by
  induction subs with
  | nil => cases hsub
  | cons first subs ih =>
    rcases List.mem_cons.mp hsub with rfl | hsub
    · exact h.1
    · exact ih h.2 hsub

/-- Matching a text under `(?i)` is matching it lowered, if its runes fold as they are lowered. -/
theorem corresponds_ignoringCase (re : Regexp)
    (h : ∀ x ∈ text, FoldsAsLowered fold foldClass lower x re) :
    Corresponds lower text ((ignoringCase foldClass re).language fold) (re.language fold) := by
  induction re with
  | literal fc rs =>
    rintro before s after rfl
    exact forall₂_spells fun x hx => h x (by simp [hx])
  | charClass ranges => exact corresponds_single h
  | anyCharNotNL => exact corresponds_single fun x hx => not_congr (h x hx)
  | anyChar =>
    intro before s after _
    simp [ignoringCase, Regexp.language]
  | beginLine =>
    rintro before s after rfl
    refine and_congr (by simp) ?_
    rw [List.getLast?_map]
    exact all_option_map fun x hx => h x (by simp [List.mem_of_getLast? hx])
  | endLine =>
    rintro before s after rfl
    refine and_congr (by simp) ?_
    rw [List.head?_map]
    exact all_option_map fun x hx => h x (by simp [List.mem_of_head? hx])
  | wordBoundary =>
    rintro before s after rfl
    exact and_congr (by simp) (atWordBoundary_map (fun x hx => h x (by simp [hx]))
      fun x hx => h x (by simp [hx]))
  | noWordBoundary =>
    rintro before s after rfl
    exact and_congr (by simp) (not_congr (atWordBoundary_map (fun x hx => h x (by simp [hx]))
      fun x hx => h x (by simp [hx])))
  | noMatch => exact fun _ _ _ _ => Iff.rfl
  | emptyMatch => exact corresponds_empty
  | beginText | endText =>
    intro before s after _
    simp [ignoringCase, Regexp.language]
  | capture sub ih => exact ih h
  | star sub ih => exact fun b s a htext => exists_congr fun n => (ih h).power n b s a htext
  | plus sub ih =>
    exact fun b s a htext => exists_congr fun n => and_congr_right fun _ =>
      (ih h).power n b s a htext
  | quest sub ih =>
    exact fun b s a htext => exists_congr fun n => and_congr_right fun _ =>
      (ih h).power n b s a htext
  | repetition min max sub ih =>
    exact fun b s a htext => exists_congr fun n => and_congr_right fun _ =>
      and_congr_right fun _ => (ih h).power n b s a htext
  | concat subs ih =>
    exact corresponds_concat fun sub hsub => ih sub hsub fun x hx => (h x hx).of_mem hsub
  | alternate subs ih =>
    exact corresponds_alternate fun sub hsub => ih sub hsub fun x hx => (h x hx).of_mem hsub

theorem hasMatch_iff_codes : HasMatch fold re buf ↔
    ∃ before s after, codes buf = before ++ s ++ after ∧ re.language fold before s after := by
  constructor
  · rintro ⟨m⟩
    refine ⟨_, _, _, ?_, m.language⟩
    rw [codes, m.runes_eq, List.map_append, List.map_append]
  · rintro ⟨before, s, after, hcodes, hlg⟩
    obtain ⟨front, post, hrunes, hfront, rfl⟩ := List.map_eq_append_iff.mp hcodes
    obtain ⟨pre, mid, rfl, rfl, rfl⟩ := List.map_eq_append_iff.mp hfront
    exact ⟨⟨pre, mid, post, hrunes, hlg⟩⟩

theorem hasMatch_lowered (h : ∀ x ∈ codes buf, FoldsAsLowered fold foldClass lower x re)
    (hlow : codes buf' = (codes buf).map lower) :
    HasMatch fold (ignoringCase foldClass re) buf ↔ HasMatch fold re buf' := by
  have hcor := corresponds_ignoringCase re h
  rw [hasMatch_iff_codes, hasMatch_iff_codes, hlow]
  constructor
  · rintro ⟨before, s, after, hcodes, hlg⟩
    exact ⟨_, _, _, by rw [hcodes, List.map_append, List.map_append],
      (hcor before s after hcodes.symm).mp hlg⟩
  · rintro ⟨before', s', after', hcodes, hlg⟩
    obtain ⟨front, after, hsplit, hfront, rfl⟩ := List.map_eq_append_iff.mp hcodes
    obtain ⟨before, s, rfl, rfl, rfl⟩ := List.map_eq_append_iff.mp hfront
    exact ⟨before, s, after, hsplit, (hcor before s after hsplit.symm).mpr hlg⟩

theorem lowerByte_alike (b : UInt8) : ByteAlike b (lowerByte b) := by
  by_cases hb : b.toNat < 0x80
  · refine .inr ⟨hb, ?_⟩
    have h := lowerByte_ofNat hb
    rw [ofNat_byte rfl] at h
    rw [h, toNat_ofNat (Nat.lt_trans (lowerASCII_lt hb) (by decide))]
    exact lowerASCII_lt hb
  · exact .inl (lowerByte_of_ge (by omega)).symm

theorem decodeRune_lowered (b : UInt8) (rest : Bytes) :
    (decodeRune (bytesToLowerASCII (b :: rest))).2 = (decodeRune (b :: rest)).2 ∧
      (decodeRune (bytesToLowerASCII (b :: rest))).1.toNat =
        lowerASCII (decodeRune (b :: rest)).1.toNat := by
  rw [bytesToLowerASCII, List.map_cons]
  by_cases hb : b.toNat < 0x80
  · have hlow : (lowerByte b).toNat = lowerASCII b.toNat := by
      have h := lowerByte_ofNat hb
      rw [ofNat_byte rfl] at h
      rw [h, toNat_ofNat (Nat.lt_trans (lowerASCII_lt hb) (by decide))]
    have hchar : ∀ n < 0x80, (Char.ofNat n).toNat = n := by decide
    have hlt := lowerASCII_lt hb
    rw [decodeRune_ascii (by rwa [hlow]), decodeRune_ascii hb, hlow, hchar _ hlt, hchar _ hb]
    exact ⟨rfl, rfl⟩
  · have hge : 0x80 ≤ (decodeRune (b :: rest)).1.toNat :=
      Nat.le_of_not_lt fun hlt => hb (decodeRune_lt hlt)
    have halike : List.Forall₂ ByteAlike rest (rest.map lowerByte) :=
      List.forall₂_map_right_iff.mpr (List.forall₂_same.mpr fun x _ => lowerByte_alike x)
    rw [lowerByte_of_ge (Nat.le_of_not_lt hb), ← decodeRune_alike b halike, lowerASCII_of_ge hge]
    exact ⟨rfl, rfl⟩

/-- Lowering the bytes of A-Z lowers the runes of a text. -/
theorem codes_bytesToLowerASCII (buf : Bytes) :
    codes (bytesToLowerASCII buf) = (codes buf).map lowerASCII := by
  cases buf with
  | nil => rfl
  | cons b rest =>
    obtain ⟨hwidth, hchar⟩ := decodeRune_lowered b rest
    have hpos := (decodeRune_width b rest).1
    have ih := codes_bytesToLowerASCII ((b :: rest).drop (decodeRune (b :: rest)).2)
    have hrest : bytesToLowerASCII ((b :: rest).drop (decodeRune (b :: rest)).2) =
        (bytesToLowerASCII (b :: rest)).drop (decodeRune (b :: rest)).2 := List.map_drop
    have hcodes : ∀ b rest, codes (b :: rest) = (decodeRune (b :: rest)).1.toNat ::
        codes ((b :: rest).drop (decodeRune (b :: rest)).2) := by
      intro b rest
      rw [codes, runes_cons]
      rfl
    rw [hcodes b, List.map_cons, ← ih, hrest, ← hchar, ← hwidth]
    exact hcodes _ _
termination_by buf.length
decreasing_by
  rw [List.length_drop, List.length_cons]
  omega

theorem codes_toLower {s : Bytes} (h : ∀ x ∈ codes s, Scalar (U.toLower x)) :
    codes (toLower U s) = (codes s).map U.toLower := by
  have hsca : ∀ r ∈ (codes s).map U.toLower, Scalar r := by
    intro r hr
    obtain ⟨x, hx, rfl⟩ := List.mem_map.mp hr
    exact h x hx
  have h := codes_encode hsca []
  rwa [List.append_nil, show codes [] = [] from rfl, List.append_nil] at h

end Lowering

variable {Z P U} {rg : ReaderGrep} {re : Compiled} {p : PatternInfo} {f : SrcFile}

theorem evalAll_append (f : SrcFile) (qs qs' : List Q) :
    evalAll Z f (qs ++ qs') = (evalAll Z f qs && evalAll Z f qs') := by
  induction qs with
  | nil => simp [evalAll]
  | cons q qs ih => simp [evalAll, ih, Bool.and_assoc]

theorem pathPart_eval (hz : SamePaths Z P p f) (h : pathPart P p pat = .ok part)
    (hc : P.compile (pathExpr p.pathPatternsAreCaseSensitive pat) = .ok c) :
    part.eval Z f = P.matchString c.tree f.name := by
  obtain ⟨tree, hprs, h⟩ := bind_eq_ok h
  cases h
  rw [Q.eval, hz pat tree c hprs hc]
  simp

theorem includeParts_eval (hz : SamePaths Z P p f) (h : includeParts P p pats = .ok pts)
    (hc : compileIncludes P p.pathPatternsAreCaseSensitive pats = .ok inc) :
    evalAll Z f pts = inc.all fun re => P.matchString re.tree f.name := by
  induction pats generalizing pts inc with
  | nil =>
    cases h
    cases hc
    rfl
  | cons pat pats ih =>
    obtain ⟨part, hpa, h⟩ := bind_eq_ok h
    obtain ⟨pts, hpts, h⟩ := bind_eq_ok h
    cases h
    rw [compileIncludes] at hc
    split at hc
    · cases hc
    · cases hc
    · rename_i re res hre hres
      cases hc
      rw [evalAll, pathPart_eval hz hpa hre, ih hpts hres, List.all_cons]

theorem pathParts_eval (hz : SamePaths Z P p f)
    (hpt : compilePathPatterns P p.includePatterns p.excludePattern
      p.pathPatternsAreCaseSensitive = .ok rg.matchPath)
    (hinc : includeParts P p p.includePatterns = .ok inc)
    (hexc : excludeParts P p = .ok exc) :
    evalAll Z f (inc ++ exc) = rg.matchPath.matchPath P f.name := by
  rw [evalAll_append]
  by_cases hnil : p.excludePattern = []
  · rw [compilePathPatterns, if_pos hnil] at hpt
    rw [excludeParts, if_pos hnil] at hexc
    obtain ⟨res, hres, hpt⟩ := map_eq_ok hpt
    cases hexc
    rw [includeParts_eval hz hinc hres, ← hpt]
    rfl
  rw [compilePathPatterns, if_neg hnil] at hpt
  rw [excludeParts, if_neg hnil] at hexc
  obtain ⟨part, hpa, hexc⟩ := bind_eq_ok hexc
  cases hexc
  split at hpt
  · cases hpt
  rename_i c hc
  obtain ⟨res, hres, hpt⟩ := map_eq_ok hpt
  rw [includeParts_eval hz hinc hres, ← hpt, evalAll, evalAll,
    Q.eval, pathPart_eval hz hpa hc, Bool.and_true]
  rfl

theorem matchesText_content (hz : Lawful Z P) (hra : rg.ignoreCase = true →
      ∀ x ∈ codes buf, FoldsAsLowered P.fold Z.foldClass lowerASCII x tree) :
    Z.matchesText (P.optimizeRegexp tree) (!rg.ignoreCase) buf =
      P.matchString tree (rg.fileMatchBuf buf) := by
  rw [Bool.eq_iff_iff, hz.matchesText, P.matchString_iff, ReaderGrep.fileMatchBuf]
  cases hig : rg.ignoreCase with
  | false => exact hasMatch_congr (P.optimizeRegexp_language tree)
  | true =>
    exact (hasMatch_congr (hz.optimize tree)).trans
      (hasMatch_lowered (hra hig) (codes_bytesToLowerASCII buf))

theorem matchesText_name (hz : Lawful Z P) (hre : rg.re = some re) (hra : rg.ignoreCase = true →
      ∀ x ∈ codes name, Scalar (U.toLower x) ∧
        FoldsAsLowered P.fold Z.foldClass U.toLower x re.tree) :
    Z.matchesText (P.optimizeRegexp re.tree) (!rg.ignoreCase) name = rg.matchString P U name := by
  rw [Bool.eq_iff_iff, hz.matchesText, ReaderGrep.matchString, hre]
  dsimp only
  rw [P.matchString_iff]
  cases hig : rg.ignoreCase with
  | false => exact hasMatch_congr (P.optimizeRegexp_language re.tree)
  | true =>
    exact (hasMatch_congr (hz.optimize re.tree)).trans
      (hasMatch_lowered (fun x hx => (hra hig x hx).2)
        (codes_toLower U fun x hx => (hra hig x hx).1))

theorem patternPart_eval (hz : Lawful Z P) (hc : compile P U p = .ok rg)
    (hra : rg.ignoreCase = true → ∀ re, rg.re = some re → RunesAgree Z P U p re f)
    (h : patternPart P p rg = .ok part) :
    part.eval Z f = (hits P U rg (searchMode p) f ||
      (!p.patternMatchesContent && !p.patternMatchesPath && rg.matchString P U f.name)) := by
  unfold patternPart at h
  cases hre : rg.re with
  | none =>
    rw [hre] at h
    cases h
    simp [Q.eval, hits, hre]
  | some re =>
    rw [hre] at h
    obtain ⟨tree, hprs, h⟩ := bind_eq_ok h
    obtain ⟨hpat, -⟩ := compile_eq_ok P U hc
    rw [hre] at hpat
    cases hprs.symm.trans (compilePattern_eq_ok P U hpat).1
    have hcon : (p.patternMatchesContent || !p.patternMatchesPath) = true →
        Z.matchesText (P.optimizeRegexp re.tree) (!rg.ignoreCase) f.data =
          P.matchString re.tree (rg.fileMatchBuf f.data) :=
      fun hflag => matchesText_content hz fun hig => (hra hig re hre).content hflag
    have hnm : (p.patternMatchesPath || !p.patternMatchesContent) = true →
        Z.matchesText (P.optimizeRegexp re.tree) (!rg.ignoreCase) f.name =
          rg.matchString P U f.name :=
      fun hflag => matchesText_name hz hre fun hig => (hra hig re hre).name hflag
    cases hmc : p.patternMatchesContent <;> cases hmp : p.patternMatchesPath <;>
      rw [hmc, hmp] at h hcon hnm <;> cases h <;>
      simp [Q.eval, evalAny, hits, hre, Mode.content, searchMode, hmc, hmp, hcon, hnm]

theorem zoektCompile_eval (hz : Lawful Z P) (hp : SamePaths Z P p f) (hc : compile P U p = .ok rg)
    (hra : rg.ignoreCase = true → ∀ re, rg.re = some re → RunesAgree Z P U p re f)
    (hq : zoektCompile Z P U p = .ok q) :
    q.eval Z f = (rg.matchPath.matchPath P f.name && (hits P U rg (searchMode p) f ||
      (!p.patternMatchesContent && !p.patternMatchesPath && rg.matchString P U f.name))) := by
  obtain ⟨rg', hc', hq⟩ := bind_eq_ok hq
  cases hc.symm.trans hc'
  obtain ⟨part, hpa, hq⟩ := bind_eq_ok hq
  obtain ⟨inc, hinc, hq⟩ := bind_eq_ok hq
  obtain ⟨exc, hexc, hq⟩ := bind_eq_ok hq
  cases hq
  obtain ⟨-, hpt⟩ := compile_eq_ok P U hc
  rw [hz.simplify, Q.eval, evalAll, patternPart_eval hz hc hra hpa,
    pathParts_eval hp hpt hinc hexc, Bool.and_comm]

theorem sends_iff_verdict : Sends P U rg p f ↔ verdict P U rg (searchMode p) f = true := by
  constructor
  · rintro ⟨sent, h, hse⟩
    have hpm := completed_perm h
    rw [hse] at hpm
    by_contra hv
    rw [List.filter_cons_of_neg hv] at hpm
    cases hpm.length_eq
  · intro hv
    obtain ⟨sent, h⟩ := @search_completes P U rg (searchMode p) [f]
    have hpm := completed_perm h
    rw [List.filter_cons_of_pos hv] at hpm
    exact ⟨sent, h, List.perm_singleton.mp hpm⟩

/-- An index that matches as it is assumed to and simplifies nothing. -/
noncomputable def plainZoekt (P : RegexpPackage) : Zoekt where
  matchesText tree caseSensitive s := open Classical in
    decide (HasMatch P.fold (if caseSensitive then tree else ignoringCase id tree) s)
  foldClass := id
  simplify q := q

theorem plainZoekt_lawful (tree : Regexp) (printed : Bytes) (texts : List Bytes) :
    Lawful (plainZoekt (onePattern tree printed texts)) (onePattern tree printed texts) :=
  ⟨fun _ _ => rfl, fun _ _ _ => by simp [plainZoekt], fun _ => rfl⟩

theorem plainZoekt_samePaths (hp : p.pathPatternsAreCaseSensitive = true) (f : SrcFile) :
    SamePaths (plainZoekt P) P p f := by
  intro pat tree c hprs hc
  rw [hp] at hc ⊢
  cases hprs.symm.trans (compile_tree P hc).2
  rw [Bool.eq_iff_iff, P.matchString_iff]
  simp [plainZoekt]

/-- A request for the content `x*foo`, ignoring case. -/
def contentFoo : PatternInfo :=
  { starFooInfo with
    isCaseSensitive := false, patternMatchesContent := true, pathPatternsAreCaseSensitive := true }

def contentFooGrep : ReaderGrep := { starFooGrep with ignoreCase := true }

def contentFooQuery : Q := .and [.regexp starFoo false true false]

theorem contentFoo_compiled : compile (onePattern starFoo (bytes "x*foo") [bytes "(?m:x*foo)"])
    latin1 contentFoo = .ok contentFooGrep := by rfl

/-- Every rune of `FOO` folds to the runes of `x*foo` as it is lowered. -/
theorem contentFoo_runesAgree (p : PatternInfo) (hp : p.patternMatchesContent = true)
    (hn : p.patternMatchesPath = false) (name : Bytes) :
    let P := onePattern starFoo (bytes "x*foo") [bytes "(?m:x*foo)"]
    RunesAgree (plainZoekt P) P latin1 p ⟨bytes "x*foo", starFoo⟩ ⟨name, bytes "FOO"⟩ := by
  refine ⟨fun _ => ?_, fun hflag => ?_⟩
  · have hcodes : codes (bytes "FOO") = [0x46, 0x4F, 0x4F] := by decide
    have hall : ∀ x ∈ [0x46, 0x4F, 0x4F], ∀ r ∈ [0x78, 0x66, 0x6F],
        (x = r ∨ lowerASCII r = lowerASCII x) ↔ lowerASCII x = r := by decide
    rw [hcodes]
    intro x hx
    have hspell : ∀ r ∈ [0x78, 0x66, 0x6F], Spells foldASCII true x r ↔
        Spells foldASCII false (lowerASCII x) r := by
      intro r hr
      simpa [Spells, foldASCII] using hall x hx r hr
    refine ⟨fun r hr => hspell r ?_, fun r hr => hspell r ?_, trivial⟩
    · simp_all
    · simp only [List.mem_cons] at hr ⊢
      tauto
  · rw [hp, hn] at hflag
    cases hflag

theorem starFoo_foo (fold : ℕ → ℕ → Prop) : HasMatch fold starFoo (bytes "foo") := by
  have hspl : List.Forall₂ (Spells fold false) [0x66, 0x6F, 0x6F] [0x66, 0x6F, 0x6F] :=
    List.forall₂_same.mpr fun _ _ => .inl rfl
  refine ⟨⟨[], runes (bytes "foo"), [], by decide, ?_⟩⟩
  exact ⟨[], _, rfl, ⟨0, rfl⟩, _, [], (List.append_nil _).symm, hspl, rfl⟩

end HybridQuery
