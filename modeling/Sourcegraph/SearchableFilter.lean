import Sourcegraph.GoStrings

/-! # Which files of an archive are searched

The ignore file of the commit and the globs of the site configuration decide. With an ignore file
large files are left out before the globs are looked at. -/
namespace SearchableFilter

open GoStrings List

structure Header where
  name : String
  size : ℤ

def maxFileSize : ℤ := 2 * 2 ^ 20

/-- The packages `ignore` and `doublestar`; an error of a match counts as no match. -/
structure Packages where
  Matcher : Type
  parseIgnoreFile : Bytes → Except String Matcher
  matchName : Matcher → String → Bool
  pathMatch : String → String → Bool

variable (P : Packages)

def contains (s substr : String) : Bool := substr.toList <:+: s.toList

def newFilter (readFile : Except String Bytes) : Except String (Header → Bool) :=
  match readFile with
  | .error err => if contains err "file does not exist" then .ok fun _ => false else .error err
  | .ok ignoreFile => (P.parseIgnoreFile ignoreFile).map fun ig header =>
    if header.size > maxFileSize then true else P.matchName ig header.name

structure Filter where
  commitIgnore : Header → Bool
  searchLargeFiles : List String

def Filter.ignore (f : Filter) (hdr : Header) : Bool := f.commitIgnore hdr

def checkIsNegatePattern (pattern : String) : Bool × String :=
  match pattern.toList with
  | '!' :: rest => (true, String.ofList rest)
  | _ => (false, pattern)

/-- `strings.TrimSpace`. -/
def trimSpace (s : String) : String :=
  String.ofList ((s.toList.dropWhile isSpace).rdropWhile isSpace)

def negated (glob : String) : Bool := (checkIsNegatePattern (trimSpace glob)).1

def globMatches (name glob : String) : Bool :=
  P.pathMatch (checkIsNegatePattern (trimSpace glob)).2 name

/-- The loop over the globs, the last one first. -/
def skipFrom (name : String) : List String → Bool
  | [] => true
  | glob :: rest => if globMatches P name glob then negated glob else skipFrom name rest

def Filter.skipContent (f : Filter) (hdr : Header) : Bool :=
  if hdr.size ≤ maxFileSize then false else skipFrom P hdr.name f.searchLargeFiles.reverse

/-- The last glob that matches a name is not negated. -/
def Allowed (globs : List String) (name : String) : Prop :=
  ∃ glob, (globs.filter (globMatches P name)).getLast? = some glob ∧ negated glob = false

/-- The rules of the ignore file; without a file there are none. -/
def Ignored (readFile : Except String Bytes) (name : String) : Prop :=
  ∃ file ig, readFile = .ok file ∧ P.parseIgnoreFile file = .ok ig ∧ P.matchName ig name = true

variable {P}

theorem skipFrom_eq_false_iff (globs : List String) (name : String) :
    skipFrom P name globs.reverse = false ↔ Allowed P globs name := by
  unfold Allowed
  rw [← head?_reverse, ← filter_reverse]
  induction globs.reverse with
  | nil => simp [skipFrom]
  | cons glob rest ih =>
    by_cases hmatch : globMatches P name glob = true
    · simp [skipFrom, hmatch]
    · simpa [skipFrom, hmatch] using ih

theorem newFilter_ignore (h : newFilter P readFile = .ok ignores) (hdr : Header) :
    ignores hdr = false ↔
      ¬ Ignored P readFile hdr.name ∧ ¬ (readFile.isOk ∧ hdr.size > maxFileSize) := by
  cases readFile with
  | error err =>
    rw [newFilter] at h
    split at h
    · cases h
      simp [Ignored, Except.isOk, Except.toBool]
    · cases h
  | ok file =>
    obtain ⟨ig, hig, rfl⟩ := map_eq_ok h
    by_cases hsz : hdr.size > maxFileSize
    · simp [Except.isOk, Except.toBool, hsz]
    · simp [Ignored, hig, hsz]

/-- The rules and the globs decide if and only if it is not a large file of a commit whose ignore
file does not match it. -/
theorem searchable_iff {readFile : Except String Bytes} {commitIgnore : Header → Bool}
    (h : newFilter P readFile = .ok commitIgnore) (globs : List String) (hdr : Header) :
    let f : Filter := ⟨commitIgnore, globs⟩
    (f.ignore hdr = false ↔ ¬ Ignored P readFile hdr.name) ∧
      (f.ignore hdr = false ∧ f.skipContent P hdr = false ↔ ¬ Ignored P readFile hdr.name ∧
        (hdr.size ≤ maxFileSize ∨ Allowed P globs hdr.name)) ↔
      ¬ (readFile.isOk ∧ hdr.size > maxFileSize ∧ ¬ Ignored P readFile hdr.name) := by
  intro f
  have hsk : f.skipContent P hdr = false ↔ hdr.size ≤ maxFileSize ∨ Allowed P globs hdr.name := by
    rw [Filter.skipContent, ← skipFrom_eq_false_iff]
    split <;> simp [*, f]
  rw [Filter.ignore, newFilter_ignore h]
  tauto

/-- Ignore files without rules, and globs that match the name they spell. -/
def spelled : Packages := ⟨Unit, fun _ => .ok (), fun _ _ => false, fun glob name => glob = name⟩

theorem large_file_searched : ∃ commitIgnore,
    newFilter spelled (.error "file does not exist") = .ok commitIgnore ∧
      commitIgnore ⟨"big", maxFileSize + 1⟩ = false ∧
      Filter.skipContent spelled ⟨commitIgnore, ["!x", "big"]⟩ ⟨"big", maxFileSize + 1⟩ = false := by
  obtain ⟨hig, hsk⟩ := (@searchable_iff spelled (.error "file does not exist") _ rfl
    ["!x", "big"] ⟨"big", maxFileSize + 1⟩).mpr (by simp [Except.isOk, Except.toBool])
  have hru : ¬ Ignored spelled (.error "file does not exist") "big" := by simp [Ignored]
  exact ⟨_, rfl, hsk.mpr ⟨hru, .inr ⟨"big", by decide, by decide⟩⟩⟩

/-- An ignore file without rules hides a large file that is to be searched. -/
theorem large_file_hidden : ∃ commitIgnore, newFilter spelled (.ok []) = .ok commitIgnore ∧
    ¬ Ignored spelled (.ok []) "big" ∧ Allowed spelled ["big"] "big" ∧
    Filter.ignore ⟨commitIgnore, ["big"]⟩ ⟨"big", maxFileSize + 1⟩ = true :=
  ⟨_, rfl, by simp [Ignored, spelled], ⟨"big", by decide, by decide⟩, by decide⟩

end SearchableFilter
