import Sourcegraph.GoDecimal
import Sourcegraph.SearchResults

/-! # The text of a structured diff

A diff travels as text: one line with the two names of each file, and hunks below it. The result
package prints its diffs in this format and reads it back. -/
namespace DiffText

open GoStrings GoDecimal List
open SearchResults (Hunk DiffFile)

def newline : UInt8 := 10

def space : UInt8 := 32

def backslash : UInt8 := 92

/-- The escaper of file names: a blank becomes a backslash and a blank. -/
def escape (name : Bytes) : Bytes :=
  name.flatMap fun b => if b = space then [backslash, space] else [b]

def unescape : Bytes → Bytes
  | [] => []
  | [b] => [b]
  | b :: c :: rest =>
    if b = backslash ∧ c = space then space :: unescape rest else b :: unescape (c :: rest)

def fileLine (f : DiffFile) : Bytes := escape f.origName ++ space :: escape f.newName

def hunkRange (h : Hunk) : Bytes :=
  bytes "@@ -" ++ formatInt h.oldStart ++ bytes "," ++ formatInt h.oldCount ++
    bytes " +" ++ formatInt h.newStart ++ bytes "," ++ formatInt h.newCount ++ bytes " @@"

/-- Only a non-empty header has a blank before it. -/
def hunkLine (h : Hunk) : Bytes :=
  hunkRange h ++ if h.header ≠ [] then space :: h.header else []

def unlines (lines : List Bytes) : Bytes := lines.flatMap fun line => line ++ [newline]

def fileLines (f : DiffFile) : List Bytes :=
  fileLine f :: f.hunks.flatMap fun h => hunkLine h :: h.lines

def formatDiffFiles (res : List DiffFile) : Bytes := unlines (res.flatMap fileLines)

inductive ParseError where
  | invalidDiff
  | number (e : NumError)
  deriving DecidableEq

/-- The match of `(.*[^\\]) (.*)` in a line: it is split at the last blank after a byte that is
not a backslash. -/
def splitRegex : Bytes → Option (Bytes × Bytes)
  | [] => none
  | b :: rest =>
    match splitRegex rest with
    | some (front, back) => some (b :: front, back)
    | none =>
      match rest with
      | c :: back => if b ≠ backslash ∧ c = space then some ([b], back) else none
      | [] => none

def splitDiffFiles (line : Bytes) : Except ParseError (Bytes × Bytes) :=
  match splitRegex line with
  | none => .error .invalidDiff
  | some (oldFile, newFile) => .ok (unescape oldFile, unescape newFile)

def literal (text s : Bytes) : Option Bytes :=
  if text.isPrefixOf s then some (s.drop text.length) else none

/-- The match of `(\d+)`, of which the longest is the only one that a comma or a blank can
follow. -/
def number (s : Bytes) : Option (Bytes × Bytes) :=
  if s.takeWhile isDigit = [] then none else some (s.takeWhile isDigit, s.dropWhile isDigit)

structure Groups where
  oldStart : Bytes
  oldCount : Bytes
  newStart : Bytes
  newCount : Bytes
  header : Bytes
  deriving DecidableEq

/-- The match of `@@ -(\d+),(\d+) \+(\d+),(\d+) @@\ ?(.*)` at the start of a line. -/
def headerAt (s : Bytes) : Option Groups := do
  let (oldStart, s) ← literal (bytes "@@ -") s >>= number
  let (oldCount, s) ← literal (bytes ",") s >>= number
  let (newStart, s) ← literal (bytes " +") s >>= number
  let (newCount, s) ← literal (bytes ",") s >>= number
  let s ← literal (bytes " @@") s
  some ⟨oldStart, oldCount, newStart, newCount,
    ((literal [space] s).getD s).takeWhile (· ≠ newline)⟩

/-- The leftmost match: the expression is not anchored. -/
def headerRegex : Bytes → Option Groups
  | [] => headerAt []
  | b :: rest => (headerAt (b :: rest)).or (headerRegex rest)

def atoiGroup (group : Bytes) : Except ParseError ℤ :=
  (atoi (asciiChars group)).mapError .number

def parseHunkHeader (line : Bytes) : Except ParseError Hunk :=
  match headerRegex line with
  | none => .error .invalidDiff
  | some groups => do
    let oldStart ← atoiGroup groups.oldStart
    let oldCount ← atoiGroup groups.oldCount
    let newStart ← atoiGroup groups.newStart
    let newCount ← atoiGroup groups.newCount
    .ok ⟨oldStart, newStart, oldCount, newCount, groups.header, []⟩

/-- What has been read: before the first file nothing, after the names of a file no hunk of it
yet, and then always a current hunk. -/
inductive State where
  | init
  | inDiff (res : List DiffFile) (currentDiff : DiffFile)
  | inHunk (res : List DiffFile) (currentDiff : DiffFile) (currentHunk : Hunk)

def finishHunk (currentDiff : DiffFile) (currentHunk : Hunk) : DiffFile :=
  { currentDiff with hunks := currentDiff.hunks ++ [currentHunk] }

/-- A non-empty line. -/
def parseLine (line : Bytes) : State → Except ParseError State
  | .init => (splitDiffFiles line).map fun names => .inDiff [] ⟨names.1, names.2, []⟩
  | .inDiff res currentDiff => (parseHunkHeader line).map fun hunk => .inHunk res currentDiff hunk
  | .inHunk res currentDiff currentHunk =>
    match line.head? with
    | some 45 | some 43 | some 32 =>
      .ok (.inHunk res currentDiff { currentHunk with lines := currentHunk.lines ++ [line] })
    | some 64 => (parseHunkHeader line).map fun hunk =>
      .inHunk res (finishHunk currentDiff currentHunk) hunk
    | _ => (splitDiffFiles line).map fun names =>
      .inDiff (res ++ [finishHunk currentDiff currentHunk]) ⟨names.1, names.2, []⟩

def parseLines : List Bytes → State → Except ParseError State
  | [], st => .ok st
  | line :: lines, st =>
    if line = [] then parseLines lines st else parseLine line st >>= parseLines lines

def emptyHunk : Hunk := ⟨0, 0, 0, 0, [], []⟩

/-- The hunk and the file that are being read are finished, also where there is none. -/
def State.finish : State → List DiffFile
  | .init => [finishHunk ⟨[], [], []⟩ emptyHunk]
  | .inDiff res currentDiff => res ++ [finishHunk currentDiff emptyHunk]
  | .inHunk res currentDiff currentHunk => res ++ [finishHunk currentDiff currentHunk]

def parseDiffString (diff : Bytes) : Except ParseError (List DiffFile) :=
  (parseLines (diff.splitOn newline) .init).map State.finish

@[simp] theorem escape_nil : escape [] = [] := rfl

theorem escape_cons (name : Bytes) :
    escape (b :: name) = (if b = space then [backslash, space] else [b]) ++ escape name := rfl

theorem escape_append : escape (a ++ b) = escape a ++ escape b :=
  flatMap_append

theorem escape_space (h : escape name = a ++ space :: b) : ∃ a', a = a' ++ [backslash] := by
  induction name generalizing a with
  | nil => simp at h
  | cons c name ih =>
    rw [escape_cons] at h
    split at h
    · cases a with
      | nil => simp [space, backslash] at h
      | cons x a =>
        obtain ⟨rfl, hta⟩ := cons.inj h
        cases a with
        | nil => exact ⟨[], rfl⟩
        | cons y a =>
          obtain ⟨a', rfl⟩ := ih (cons.inj hta).2
          exact ⟨backslash :: y :: a', rfl⟩
    · rename_i hc
      cases a with
      | nil => exact absurd (cons.inj h).1 hc
      | cons x a =>
        obtain ⟨a', rfl⟩ := ih (cons.inj h).2
        exact ⟨x :: a', rfl⟩

theorem unescape_cons (h : b ≠ backslash ∨ rest.head? ≠ some space) :
    unescape (b :: rest) = b :: unescape rest := by
  cases rest with
  | nil => rfl
  | cons c rest =>
    rw [unescape, if_neg]
    rintro ⟨hb, rfl⟩
    rcases h with h | h
    · exact h hb
    · exact h rfl

theorem escape_head (name : Bytes) : (escape name).head? ≠ some space := by
  cases name with
  | nil => simp
  | cons c name =>
    rw [escape_cons]
    split
    · simp [space, backslash]
    rename_i hc
    simpa using hc

theorem unescape_escape (name : Bytes) : unescape (escape name) = name := by
  induction name with
  | nil => rfl
  | cons c name ih =>
    rw [escape_cons]
    split
    · rename_i hc
      rw [cons_append, cons_append, nil_append, unescape, if_pos ⟨rfl, rfl⟩, ih, hc]
    · rw [cons_append, nil_append, unescape_cons (.inr (escape_head name)), ih]

theorem mem_escape (h : b ∈ escape name) : b ∈ name ∨ b = backslash := by
  obtain ⟨c, hc, hb⟩ := mem_flatMap.mp h
  split at hb
  · rename_i heq
    rw [heq] at hc
    rcases mem_pair.mp hb with rfl | rfl
    · exact .inr rfl
    · exact .inl hc
  · exact .inl (mem_singleton.mp hb ▸ hc)

theorem escape_eq_nil : escape name = [] ↔ name = [] := by
  constructor
  · intro h
    rw [← unescape_escape name, h]
    rfl
  · rintro rfl
    rfl

/-- A name that is printed on one line and does not swallow the blank after it. -/
structure Printable (name : Bytes) : Prop where
  single_line : newline ∉ name
  no_backslash : name.getLast? ≠ some backslash

instance (name : Bytes) : Decidable (Printable name) :=
  decidable_of_iff (newline ∉ name ∧ name.getLast? ≠ some backslash)
    ⟨fun h => ⟨h.1, h.2⟩, fun h => ⟨h.single_line, h.no_backslash⟩⟩

theorem Printable.escape_single_line (h : Printable name) : newline ∉ escape name := by
  intro hmem
  rcases mem_escape hmem with hmem | hmem
  · exact h.single_line hmem
  · simp [newline, backslash] at hmem

theorem Printable.escape_last (h : Printable name) : (escape name).getLast? ≠ some backslash := by
  by_cases hnil : name = []
  · simp [hnil]
  obtain ⟨fr, b, rfl⟩ : ∃ fr b, name = fr ++ [b] :=
    ⟨_, _, (dropLast_append_getLast hnil).symm⟩
  have hb : b ≠ backslash := by simpa using h.no_backslash
  rw [escape_append, escape_cons]
  split
  · simp [space, backslash]
  · simpa using hb

theorem fileLine_space (h : fileLine f = a ++ space :: b) (ha : a.getLast? ≠ some backslash) :
    a = escape f.origName ∧ b = escape f.newName := by
  have hla : ∀ name c d : Bytes, escape name = c ++ space :: d →
      ∀ fr : Bytes, (fr ++ c).getLast? = some backslash := by
    intro name c d hnm fr
    obtain ⟨c', rfl⟩ := escape_space hnm
    simp
  rcases append_eq_append_iff.mp h with ⟨c, hc, hrs⟩ | ⟨c, hc, hrs⟩
  · cases c with
    | nil => exact ⟨by simpa using hc, (cons.inj hrs).2.symm⟩
    | cons x c =>
      obtain ⟨rfl, hta⟩ := cons.inj hrs
      have := hla _ _ _ hta (escape f.origName ++ [space])
      rw [append_assoc, singleton_append, ← hc] at this
      exact absurd this ha
  · cases c with
    | nil => exact ⟨by simpa using hc.symm, (cons.inj hrs).2⟩
    | cons x c =>
      obtain ⟨rfl, hta⟩ := cons.inj hrs
      have := hla _ _ _ hc []
      exact absurd this ha

theorem splitRegex_some (h : splitRegex line = some (fr, back)) :
    line = fr ++ space :: back ∧ fr ≠ [] ∧ fr.getLast? ≠ some backslash := by
  revert h
  fun_induction splitRegex line generalizing fr with
  | case2 b rest fr' back' hrs ih =>
    rintro ⟨⟩
    obtain ⟨rfl, hne, hla⟩ := ih hrs
    refine ⟨rfl, by simp, ?_⟩
    rw [getLast?_cons_of_ne_nil hne]
    exact hla
  | case3 b c back hb =>
    rintro ⟨⟩
    rw [hb.2]
    simpa using hb.1
  | _ => nofun

theorem splitRegex_isSome {front back : Bytes} (hne : front ≠ [])
    (hla : front.getLast? ≠ some backslash) :
    (splitRegex (front ++ space :: back)).isSome = true := by
  induction front with
  | nil => exact absurd rfl hne
  | cons b front ih =>
    rw [cons_append]
    unfold splitRegex
    cases hrs : splitRegex (front ++ space :: back) with
    | some parts => rfl
    | none =>
      cases front with
      | nil =>
        have hb : b ≠ backslash := by simpa using hla
        simp [hb]
      | cons c front =>
        have := ih (by simp) hla
        rw [hrs] at this
        nomatch this

theorem splitDiffFiles_fileLine (h : Printable f.origName) : splitDiffFiles (fileLine f) =
      if f.origName = [] then .error .invalidDiff else .ok (f.origName, f.newName) := by
  unfold splitDiffFiles
  cases hspl : splitRegex (fileLine f) with
  | none =>
    by_cases hnm : f.origName = []
    · rw [if_pos hnm]
    have := @splitRegex_isSome (escape f.origName) (escape f.newName)
      (by rwa [Ne, escape_eq_nil]) h.escape_last
    rw [← fileLine, hspl] at this
    nomatch this
  | some parts =>
    obtain ⟨front, back⟩ := parts
    obtain ⟨hln, hne, hla⟩ := splitRegex_some hspl
    obtain ⟨rfl, rfl⟩ := fileLine_space hln hla
    rw [if_neg (by rwa [Ne, escape_eq_nil] at hne)]
    simp [unescape_escape]

theorem literal_append (text s : Bytes) : literal text (text ++ s) = some s := by
  unfold literal
  rw [if_pos (List.isPrefixOf_iff_prefix.mpr (prefix_append text s)), drop_left]

theorem literal_some (h : literal text s = some rest) : s = text ++ rest := by
  unfold literal at h
  split at h
  · rename_i hpre
    obtain ⟨t, rfl⟩ := List.isPrefixOf_iff_prefix.mp hpre
    rw [drop_left, Option.some.injEq] at h
    rw [h]
  · nomatch h

theorem number_some (h : number s = some (grp, rest)) :
    s = grp ++ rest ∧ grp ≠ [] ∧ ∀ b ∈ grp, isDigit b = true := by
  unfold number at h
  split at h
  · nomatch h
  rename_i hne
  obtain ⟨rfl, rfl⟩ := Prod.mk.inj (Option.some.inj h)
  refine ⟨takeWhile_append_dropWhile.symm, hne, ?_⟩
  intro b hb
  exact all_eq_true.mp all_takeWhile b hb

theorem number_append (hne : grp ≠ []) (hgrp : ∀ b ∈ grp, isDigit b = true)
    (hrs : rest.head?.map isDigit = some false) : number (grp ++ rest) = some (grp, rest) := by
  obtain ⟨hta, hdr⟩ : rest.takeWhile isDigit = [] ∧ rest.dropWhile isDigit = rest := by
    cases rest <;> simp_all
  unfold number
  rw [takeWhile_append_of_pos hgrp, dropWhile_append_of_pos hgrp, hta, hdr, append_nil, if_neg hne]

theorem read_formatInt (text : Bytes) (hrs : rest.head?.map isDigit = some false)
    (next : Bytes × Bytes → Option Groups) :
    ((literal text (text ++ (formatInt n ++ rest))).bind number).bind next =
      if n < 0 then none else next (digits n.natAbs, rest) := by
  rw [literal_append, Option.bind_some]
  unfold formatInt
  split
  · rw [cons_append, number, if_pos]
    · rfl
    · rw [takeWhile_cons_of_neg (by decide)]
  · rw [number_append digits_ne_nil digits_isDigit hrs, Option.bind_some]

def Signed (h : Hunk) : Prop :=
  h.oldStart < 0 ∨ h.oldCount < 0 ∨ h.newStart < 0 ∨ h.newCount < 0

instance (h : Hunk) : Decidable (Signed h) := inferInstanceAs (Decidable (_ ∨ _))

theorem headerAt_hunkRange (h : Hunk) (tail : Bytes) : headerAt (hunkRange h ++ tail) =
    if Signed h then none
    else some ⟨digits h.oldStart.natAbs, digits h.oldCount.natAbs, digits h.newStart.natAbs,
      digits h.newCount.natAbs, ((literal [space] tail).getD tail).takeWhile (· ≠ newline)⟩ := by
  unfold headerAt hunkRange
  simp only [append_assoc, Option.bind_eq_bind]
  rw [read_formatInt _ rfl, read_formatInt _ rfl, read_formatInt _ rfl, read_formatInt _ rfl,
    literal_append, Option.bind_some, ← ite_or, ← ite_or, ← ite_or]
  exact if_congr (by simp only [Signed, or_assoc]) rfl rfl

structure Groups.Matched (groups : Groups) : Prop where
  oldStart : groups.oldStart ≠ [] ∧ ∀ b ∈ groups.oldStart, isDigit b = true
  oldCount : groups.oldCount ≠ [] ∧ ∀ b ∈ groups.oldCount, isDigit b = true
  newStart : groups.newStart ≠ [] ∧ ∀ b ∈ groups.newStart, isDigit b = true
  newCount : groups.newCount ≠ [] ∧ ∀ b ∈ groups.newCount, isDigit b = true
  header : newline ∉ groups.header

theorem bind_number_some (h : (literal text s).bind number = some (grp, rest)) :
    s = text ++ (grp ++ rest) ∧ grp ≠ [] ∧ ∀ b ∈ grp, isDigit b = true := by
  obtain ⟨s', hs, hnum⟩ := Option.bind_eq_some_iff.mp h
  obtain ⟨rfl, hgrp⟩ := number_some hnum
  exact ⟨literal_some hs, hgrp⟩

theorem headerAt_some (h : headerAt s = some grs) :
    grs.Matched ∧ ∃ rest, s = bytes "@@ -" ++ (grs.oldStart ++ (bytes "," ++
      (grs.oldCount ++ (bytes " +" ++ rest)))) := by
  obtain ⟨⟨old, s₁⟩, h₁, hg₁⟩ := Option.bind_eq_some_iff.mp h
  obtain ⟨⟨oldC, s₂⟩, h₂, hg₂⟩ := Option.bind_eq_some_iff.mp hg₁
  obtain ⟨⟨new, s₃⟩, h₃, hg₃⟩ := Option.bind_eq_some_iff.mp hg₂
  obtain ⟨⟨newC, s₄⟩, h₄, hg₄⟩ := Option.bind_eq_some_iff.mp hg₃
  obtain ⟨s₅, _, hg₅⟩ := Option.bind_eq_some_iff.mp hg₄
  obtain ⟨rfl, hd₁⟩ := bind_number_some h₁
  obtain ⟨rfl, hd₂⟩ := bind_number_some h₂
  obtain ⟨rfl, hd₃⟩ := bind_number_some h₃
  obtain ⟨_, hd₄⟩ := bind_number_some h₄
  rw [Option.some.injEq] at hg₅
  subst hg₅
  refine ⟨⟨hd₁, hd₂, hd₃, hd₄, ?_⟩, _, rfl⟩
  intro hmem
  have := all_eq_true.mp all_takeWhile _ hmem
  simp at this

theorem headerRegex_some (h : headerRegex line = some grs) :
    ∃ fr rest, line = fr ++ rest ∧ headerAt rest = some grs := by
  induction line with
  | nil => exact ⟨[], [], rfl, h⟩
  | cons b line ih =>
    rw [headerRegex, Option.or_eq_some_iff] at h
    rcases h with h | ⟨_, h⟩
    · exact ⟨[], b :: line, rfl, h⟩
    obtain ⟨fr, rest, rfl, hrs⟩ := ih h
    exact ⟨b :: fr, rest, rfl, hrs⟩

/-- The line of a file is not read as a header: the header would have two blanks that are not
escaped. -/
theorem headerRegex_fileLine : headerRegex (fileLine f) = none := by
  cases hreg : headerRegex (fileLine f) with
  | none => rfl
  | some grs =>
    obtain ⟨fr, rest, hln, hrs⟩ := headerRegex_some hreg
    obtain ⟨hmat, rest', rfl⟩ := headerAt_some hrs
    obtain ⟨cnt, last, hcn⟩ : ∃ cnt last, grs.oldCount = cnt ++ [last] :=
      ⟨_, _, (dropLast_append_getLast hmat.oldCount.1).symm⟩
    have hla : isDigit last = true := hmat.oldCount.2 last (by simp [hcn])
    have hf : fileLine f = (fr ++ [64, 64]) ++ space :: (45 :: (grs.oldStart ++
        (bytes "," ++ (grs.oldCount ++ (bytes " +" ++ rest'))))) := by
      rw [hln, append_assoc]
      rfl
    have hsnd : fileLine f = (fr ++ (bytes "@@ -" ++ (grs.oldStart ++ (bytes "," ++
        (cnt ++ [last]))))) ++ space :: (43 :: rest') := by
      rw [hln, hcn]
      simp only [append_assoc]
      rfl
    have h₁ := (fileLine_space hf (by simp [backslash])).1
    have h₂ := (fileLine_space hsnd (by
      intro hba
      have : last = backslash := by simpa using hba
      rw [this] at hla
      exact absurd hla (by decide))).1
    have hlen := congrArg length (h₁.trans h₂.symm)
    have hop : (bytes "@@ -").length = 4 := by decide
    simp only [length_append, length_cons, length_nil, hop] at hlen
    omega

theorem parseHunkHeader_fileLine : parseHunkHeader (fileLine f) = .error .invalidDiff := by
  unfold parseHunkHeader
  rw [headerRegex_fileLine]

theorem hunkRange_single_line (h : Hunk) : newline ∉ hunkRange h := by
  have hint : ∀ n : ℤ, newline ∉ formatInt n := by
    intro n hmem
    rcases mem_formatInt hmem with hb | hb
    · exact absurd hb (by decide)
    · exact absurd hb (by decide)
  have htx : ∀ text ∈ [bytes "@@ -", bytes ",", bytes " +", bytes " @@"], newline ∉ text := by
    decide
  simp only [hunkRange, mem_append, not_or]
  simp [hint, htx]

theorem hunkLine_single_line (hhea : newline ∉ h.header) : newline ∉ hunkLine h := by
  unfold hunkLine
  split
  · simp only [mem_append, mem_cons, not_or]
    exact ⟨hunkRange_single_line h, by decide, hhea⟩
  · simpa using hunkRange_single_line h

theorem atoiGroup_ok (h : atoiGroup grp = .ok n) : atoi (asciiChars grp) = .ok n := by
  unfold atoiGroup at h
  cases hat : atoi (asciiChars grp) with
  | error e =>
    rw [hat] at h
    nomatch h
  | ok m =>
    rw [hat] at h
    exact congrArg Except.ok (Except.ok.inj h)

theorem parseHunkHeader_ok (hprs : parseHunkHeader line = .ok h) :
    ¬ Signed h ∧ newline ∉ h.header ∧ h.lines = [] := by
  unfold parseHunkHeader at hprs
  split at hprs
  · nomatch hprs
  rename_i grs hreg
  obtain ⟨_, _, _, hat⟩ := headerRegex_some hreg
  have hmat := (headerAt_some hat).1
  obtain ⟨old, h₁, hp₁⟩ := bind_eq_ok hprs
  obtain ⟨oldC, h₂, hp₂⟩ := bind_eq_ok hp₁
  obtain ⟨new, h₃, hp₃⟩ := bind_eq_ok hp₂
  obtain ⟨newC, h₄, hp₄⟩ := bind_eq_ok hp₃
  have hn₁ := atoi_nonneg hmat.oldStart.2 (atoiGroup_ok h₁)
  have hn₂ := atoi_nonneg hmat.oldCount.2 (atoiGroup_ok h₂)
  have hn₃ := atoi_nonneg hmat.newStart.2 (atoiGroup_ok h₃)
  have hn₄ := atoi_nonneg hmat.newCount.2 (atoiGroup_ok h₄)
  rw [Except.ok.injEq] at hp₄
  subst hp₄
  refine ⟨?_, hmat.header, rfl⟩
  unfold Signed
  dsimp only
  omega

structure InRange (h : Hunk) : Prop where
  oldStart : h.oldStart < 2 ^ 63
  oldCount : h.oldCount < 2 ^ 63
  newStart : h.newStart < 2 ^ 63
  newCount : h.newCount < 2 ^ 63

theorem atoiGroup_digits (h₀ : 0 ≤ n) (h : n < 2 ^ 63) : atoiGroup (digits n.natAbs) = .ok n := by
  unfold atoiGroup
  rw [atoi_digits (by omega)]
  exact congrArg Except.ok (Int.natAbs_of_nonneg h₀)

theorem parseHunkHeader_hunkRange (hrng : InRange h) (hsg : ¬ Signed h)
    (hhea : newline ∉ h.header) :
    parseHunkHeader (hunkRange h ++ space :: h.header) = .ok { h with lines := [] } := by
  have htx : (h.header.takeWhile fun b => decide (b ≠ newline)) = h.header := by
    have := @List.takeWhile_append_of_pos _ (fun b => decide (b ≠ newline)) h.header []
      (fun b hb => decide_eq_true (fun heq => hhea (heq ▸ hb)))
    simpa using this
  have hreg : headerRegex (hunkRange h ++ space :: h.header) =
      headerAt (hunkRange h ++ space :: h.header) := by
    obtain ⟨b, rest, hln⟩ := exists_cons_of_ne_nil
      (show hunkRange h ++ space :: h.header ≠ [] by simp)
    have hat := headerAt_hunkRange h (space :: h.header)
    rw [if_neg hsg] at hat
    rw [hln] at hat ⊢
    rw [headerRegex, hat]
    rfl
  have hsp : literal [space] (space :: h.header) = some h.header := literal_append [space] _
  unfold parseHunkHeader
  rw [hreg, headerAt_hunkRange, if_neg hsg, hsp]
  unfold Signed at hsg
  simp only [Option.getD_some, htx, atoiGroup_digits (by omega : 0 ≤ h.oldStart) hrng.oldStart,
    atoiGroup_digits (by omega : 0 ≤ h.oldCount) hrng.oldCount,
    atoiGroup_digits (by omega : 0 ≤ h.newStart) hrng.newStart,
    atoiGroup_digits (by omega : 0 ≤ h.newCount) hrng.newCount]
  rfl

/-- A header that is read with a blank before its text is printed as it was exactly when the text
is not empty and no number has a sign: any header inside the text of a signed one is another. -/
theorem hunkLine_parsed_iff (hrng : InRange h) (hhea : newline ∉ h.header)
    (hprs : parseHunkHeader (hunkRange h ++ space :: h.header) = .ok h') :
    hunkLine h' = hunkRange h ++ space :: h.header ↔ ¬ Signed h ∧ h.header ≠ [] := by
  by_cases hsg : Signed h
  · constructor
    · intro heq
      obtain ⟨hsg', _, _⟩ := parseHunkHeader_ok hprs
      have hat := headerAt_hunkRange h (space :: h.header)
      rw [if_pos hsg, ← heq, hunkLine, headerAt_hunkRange, if_neg hsg'] at hat
      nomatch hat
    · intro hco
      exact absurd hsg hco.1
  · rw [parseHunkHeader_hunkRange hrng hsg hhea, Except.ok.injEq] at hprs
    subst hprs
    by_cases hnil : h.header = [] <;> simp [hunkLine, hunkRange, hnil, hsg]

end DiffText
