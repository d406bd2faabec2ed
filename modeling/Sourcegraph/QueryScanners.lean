import Sourcegraph.GoStrings

/-! # Scanners of the query language

The scanners read the runes that are left in the buffer and report the scanned value and
the number of bytes to advance. -/
namespace QueryScanners

open GoStrings

def allFields : List String :=
  ["case", "repo", "r", "context", "g", "file", "f", "path", "fork", "archived", "lang", "l",
    "language", "type", "patterntype", "content", "visibility", "repohasfile",
    "repohascommitafter", "before", "until", "after", "since", "author", "committer", "message",
    "m", "msg", "index", "count", "timeout", "rule", "rev", "revision", "select"]

def aliases : List (String × String) :=
  [("r", "repo"), ("f", "file"), ("path", "file"), ("l", "lang"), ("language", "lang"),
    ("since", "after"), ("until", "before"), ("m", "message"), ("msg", "message"),
    ("revision", "rev")]

def resolveFieldAlias (field : String) : String := (aliases.lookup field).getD field

/-- The types that implement `Predicate`. -/
inductive PredicateKind where
  | repoContainsFile
  | repoContainsPath
  | repoContainsContent
  | repoContainsCommitAfter
  | repoHasDescription
  | repoHasTag
  | repoHasKVP
  | repoHasKey
  | repoHasMeta
  | repoHasTopic
  | repoContains
  | fileContainsContent
  | fileHasOwner
  deriving DecidableEq

abbrev PredicateTable := List (String × PredicateKind)

def repoPredicates : PredicateTable :=
  [("contains.file", .repoContainsFile), ("has.file", .repoContainsFile),
    ("contains.path", .repoContainsPath), ("has.path", .repoContainsPath),
    ("contains.content", .repoContainsContent), ("has.content", .repoContainsContent),
    ("contains.commit.after", .repoContainsCommitAfter),
    ("has.commit.after", .repoContainsCommitAfter), ("has.description", .repoHasDescription),
    ("has.tag", .repoHasTag), ("has", .repoHasKVP), ("has.key", .repoHasKey),
    ("has.meta", .repoHasMeta), ("has.topic", .repoHasTopic), ("contains", .repoContains)]

def filePredicates : PredicateTable :=
  [("contains.content", .fileContainsContent), ("has.content", .fileContainsContent),
    ("has.owner", .fileHasOwner)]

def defaultPredicateRegistry (field : String) : Option PredicateTable :=
  if field = "repo" then some repoPredicates
  else if field = "file" then some filePredicates
  else none

theorem defaultPredicateRegistry_eq_some (h : defaultPredicateRegistry fd = some tb) :
    fd = "repo" ∧ tb = repoPredicates ∨ fd = "file" ∧ tb = filePredicates := by
  revert h
  fun_cases defaultPredicateRegistry fd with
  | case1 hf => exact fun h => .inl ⟨hf, (Option.some.inj h).symm⟩
  | case2 _ hf => exact fun h => .inr ⟨hf, (Option.some.inj h).symm⟩
  | case3 => nofun

structure Scan where
  value : List Char := []
  count : ℕ := 0
  deriving DecidableEq

def Scan.push (r : Rune) (scan : Scan) : Scan := ⟨r.char :: scan.value, r.width + scan.count⟩

structure Field where
  name : List Char
  negated : Bool
  count : ℕ
  deriving DecidableEq

def scanAnyPattern : List Rune → Scan
  | [] => {}
  | r :: rest => if isSpace r.char then {} else (scanAnyPattern rest).push r

/-- The letters up to a colon, which is counted but not part of the name. -/
def scanFieldName : List Rune → Option Scan
  | [] => none
  | r :: rest =>
    if r.char.isAlpha then (scanFieldName rest).map (·.push r)
    else if r.char = ':' then some ⟨[], r.width⟩
    else none

def isField (name : List Char) : Bool :=
  allFields.contains (String.ofList (name.map Char.toLower))

def scanField : List Rune → Option Field
  | [] => none
  | r :: rest =>
    if r.char = '-' then
      match scanFieldName rest with
      | none => none
      | some scan =>
        if scan.value ≠ [] ∧ isField scan.value then
          some ⟨scan.value, true, r.width + scan.count⟩
        else none
    else if r.char.isAlpha then
      match scanFieldName rest with
      | none => none
      | some scan =>
        if isField (r.char :: scan.value) then
          some ⟨r.char :: scan.value, false, r.width + scan.count⟩
        else none
    else none

def lookahead (text : String) (rs : List Rune) : Bool :=
  text.length ≤ rs.length && equalFold ((rs.take text.length).map Rune.char) text.toList

def keepScanning (rs : List Rune) : Bool :=
  (scanField rs).isNone && !lookahead "and " rs && !lookahead "or " rs && !lookahead "not " rs

/-- The loop of `ScanBalancedPattern`, `none` if the scanner does not succeed. -/
def scanBalancedFrom : ℕ → List Rune → Option Scan
  | balanced, [] => if balanced = 0 then some {} else none
  | balanced, r :: rest =>
    if isSpace r.char ∧ balanced = 0 then some {}
    else if r.char = '(' then
      if keepScanning rest then (scanBalancedFrom (balanced + 1) rest).map (·.push r) else none
    else if r.char = ')' then
      if balanced = 0 then some {} else (scanBalancedFrom (balanced - 1) rest).map (·.push r)
    else if isSpace r.char then
      if keepScanning rest then (scanBalancedFrom balanced rest).map (·.push r) else none
    else if r.char = '\\' then
      match rest with
      | [] => (scanBalancedFrom balanced []).map (·.push r)
      | escaped :: rest' => (scanBalancedFrom balanced rest').map fun scan =>
          (scan.push escaped).push r
    else (scanBalancedFrom balanced rest).map (·.push r)

def scanBalancedPattern (rs : List Rune) : Option Scan :=
  if keepScanning rs then scanBalancedFrom 0 rs else none

/-- `unicode.IsLetter` up to the answer beyond ASCII, which no predicate name depends on: a
name that stops there is not followed by a parenthesis, and one that goes on is not registered. -/
def isLetter (r : Char) : Bool := r.isAlpha || 0x80 ≤ r.toNat

/-- The letters and dots before another character, `none` if the buffer ends or is not valid. -/
def scanPredicateLetters : List Rune → Option Scan
  | [] => none
  | r :: rest =>
    if r.char = runeError then none
    else if isLetter r.char || r.char = '.' then (scanPredicateLetters rest).map (·.push r)
    else some {}

def scanPredicateName (table : PredicateTable) (rs : List Rune) : Option Scan :=
  match scanPredicateLetters rs with
  | none => none
  | some name => if (table.lookup (String.ofList name.value)).isSome then some name else none

/-- The loop of `ScanBalancedParens`. The rune after a backslash is not looked at. -/
def scanParensFrom : ℕ → List Rune → Option Scan
  | _, [] => none
  | balance, r :: rest =>
    if r.char = runeError then none
    else if r.char = '(' then (scanParensFrom (balance + 1) rest).map (·.push r)
    else if r.char = ')' then
      if balance ≤ 1 then some (Scan.push r {}) else (scanParensFrom (balance - 1) rest).map (·.push r)
    else if r.char = '\\' then
      match rest with
      | [] => none
      | escaped :: rest' => (scanParensFrom balance rest').map fun scan =>
          (scan.push escaped).push r
    else (scanParensFrom balance rest).map (·.push r)

/-- `ScanBalancedParens`; the outer `none` is its panic. -/
def scanBalancedParensOrPanic : List Rune → Option (Option Scan)
  | [] => none
  | r :: rest => if r.char ≠ '(' then none else some ((scanParensFrom 1 rest).map (·.push r))

/-- What the parser sees of it, which never runs into the panic. -/
def scanBalancedParens (rs : List Rune) : Option Scan := (scanBalancedParensOrPanic rs).getD none

def scanPredicate (field : String) (rs : List Rune) : Option Scan :=
  match defaultPredicateRegistry (resolveFieldAlias field) with
  | none => none
  | some table =>
    match scanPredicateName table rs with
    | none => none
    | some name =>
      match rs.drop name.value.length with
      | [] => none
      | r :: rest =>
        if r.char = '(' then
          (scanBalancedParens (r :: rest)).map fun params =>
            ⟨name.value ++ params.value, name.count + params.count⟩
        else none

def unescape (strict : Bool) (delimiter r : Char) : Except String (List Char) :=
  if r ∈ ['a', 'b', 'f', 'v'] then .ok ['\\', r]
  else if r = 'n' then .ok ['\n']
  else if r = 'r' then .ok ['\r']
  else if r = 't' then .ok ['\t']
  else if r = '\\' ∨ r = delimiter then .ok [r]
  else if strict then .error "unrecognized escape sequence"
  else .ok ['\\', r]

/-- The loop of `ScanDelimited` after the opening delimiter. -/
def scanDelimitedFrom (strict : Bool) (delimiter : Char) : List Rune → Except String Scan
  | [] => .error ("unterminated literal: expected " ++ String.ofList [delimiter])
  | r :: rest =>
    if r.char = delimiter then .ok ⟨[], r.width⟩
    else if r.char = '\\' then
      match rest with
      | [] => .error "unterminated escape sequence"
      | escaped :: rest' =>
        match unescape strict delimiter escaped.char with
        | .error e => .error e
        | .ok cs => (scanDelimitedFrom strict delimiter rest').map fun scan =>
            ⟨cs ++ scan.value, r.width + escaped.width + scan.count⟩
    else (scanDelimitedFrom strict delimiter rest).map (·.push r)

/-- `ScanDelimited`; `none` is its panic. -/
def scanDelimitedOrPanic (strict : Bool) (delimiter : Char) :
    List Rune → Option (Except String Scan)
  | [] => none
  | r :: rest =>
    if r.char ≠ delimiter then none
    else some ((scanDelimitedFrom strict delimiter rest).map fun scan =>
      ⟨scan.value, r.width + scan.count⟩)

/-- What the parser sees of it, which never runs into the panic. -/
def scanDelimited (strict : Bool) (delimiter : Char) (rs : List Rune) : Except String Scan :=
  (scanDelimitedOrPanic strict delimiter rs).getD (.error "panic")

def scanValue (allowDanglingParens : Bool) : List Rune → Scan
  | [] => {}
  | r :: rest =>
    if isSpace r.char then {}
    else if r.char = '(' ∨ r.char = ')' then
      if allowDanglingParens then (scanValue allowDanglingParens rest).push r else {}
    else if r.char = '\\' then
      match rest with
      | [] => Scan.push r {}
      | escaped :: rest' => ((scanValue allowDanglingParens rest').push escaped).push r
    else (scanValue allowDanglingParens rest).push r

def Takes (rs : List Rune) (count : ℕ) : Prop :=
  ∃ taken left, rs = taken ++ left ∧ count = width taken

def Reads (rs : List Rune) (scan : Scan) : Prop :=
  ∃ taken left, rs = taken ++ left ∧ scan.value = taken.map Rune.char ∧ scan.count = width taken

theorem Reads.takes (h : Reads rs scan) : Takes rs scan.count := by
  obtain ⟨tk, left, hrs, -, hcn⟩ := h
  exact ⟨tk, left, hrs, hcn⟩

theorem Reads.nothing (rs : List Rune) : Reads rs {} := ⟨[], rs, rfl, rfl, rfl⟩

theorem Reads.push (h : Reads rs scan) (r : Rune) : Reads (r :: rs) (scan.push r) := by
  obtain ⟨tk, left, rfl, hv, hcn⟩ := h
  exact ⟨r :: tk, left, rfl, by simp [Scan.push, hv], by simp [Scan.push, hcn]⟩

theorem Takes.cons {rs : List Rune} {cnt : ℕ} (h : Takes rs cnt) (r : Rune) :
    Takes (r :: rs) (r.width + cnt) := by
  obtain ⟨tk, left, rfl, rfl⟩ := h
  exact ⟨r :: tk, left, rfl, by simp⟩

theorem scanAnyPattern_reads : Reads rs (scanAnyPattern rs) := by
  induction rs with
  | nil => exact .nothing []
  | cons r rest ih =>
    rw [scanAnyPattern]
    split
    · exact .nothing _
    · exact ih.push r

theorem scanFieldName_takes (h : scanFieldName rs = some scan) : Takes rs scan.count := by
  revert h
  fun_induction scanFieldName rs generalizing scan with
  | case2 r rest _ ih =>
    intro h
    obtain ⟨inn, hi, rfl⟩ := Option.map_eq_some_iff.mp h
    exact (ih hi).cons r
  | case3 r rest =>
    rintro ⟨⟩
    exact ⟨[r], rest, rfl, by simp⟩
  | _ => nofun

/-- What `ScanField` accepts: an optional dash and a known name before a colon. -/
theorem scanField_eq_some (h : scanField rs = some field) :
    ∃ r rest scan, rs = r :: rest ∧ scanFieldName rest = some scan ∧
      field.count = r.width + scan.count ∧ isField field.name = true ∧
      (r.char = '-' ∧ field.negated = true ∧ field.name = scan.value ∨
        r.char.isAlpha = true ∧ field.negated = false ∧ field.name = r.char :: scan.value) := by
  revert h
  fun_cases scanField rs with
  | case3 r rest hr scan hn hf =>
    rintro ⟨⟩
    exact ⟨r, rest, scan, rfl, hn, rfl, hf.2, .inl ⟨hr, rfl, rfl⟩⟩
  | case6 r rest _ hr scan hn hf =>
    rintro ⟨⟩
    exact ⟨r, rest, scan, rfl, hn, rfl, hf, .inr ⟨hr, rfl, rfl⟩⟩
  | _ => nofun

theorem scanField_takes (h : scanField rs = some field) : Takes rs field.count := by
  obtain ⟨r, rest, scan, rfl, hn, hcn, -⟩ := scanField_eq_some h
  rw [hcn]
  exact (scanFieldName_takes hn).cons r

theorem push_map {P : List Rune → Scan → Prop}
    (hpu : ∀ r {rs scan}, P rs scan → P (r :: rs) (scan.push r))
    (ih : ∀ {scan}, o = some scan → P rs scan) (h : o.map (·.push r) = some scan) :
    P (r :: rs) scan := by
  obtain ⟨inn, hi, rfl⟩ := Option.map_eq_some_iff.mp h
  exact hpu r (ih hi)

/-- What holds where the scanner stops, and is kept by every rune that it takes. -/
theorem scanBalancedFrom_invariant {P : List Rune → Scan → Prop}
    (hsp : ∀ rs, (∀ r ∈ rs.head?, isSpace r.char = true ∨ r.char = ')') → P rs {})
    (hpu : ∀ r {rs scan}, P rs scan → P (r :: rs) (scan.push r)) {bal : ℕ}
    (h : scanBalancedFrom bal rs = some scan) : P rs scan := by
  fun_induction scanBalancedFrom bal rs generalizing scan with
  | case1 => cases h; exact hsp _ (by simp)
  | case2 | case5 | case9 => cases h
  | case3 bal r rest hr => cases h; exact hsp _ (by simp [hr.1])
  | case4 bal r rest _ _ _ ih | case7 bal r rest _ _ _ _ ih
  | case8 bal r rest _ _ _ _ _ ih | case10 bal r _ _ _ _ _ ih
  | case12 bal r rest _ _ _ _ _ ih => exact push_map hpu ih h
  | case6 r rest _ hr => cases h; exact hsp _ (by simp [hr])
  | case11 bal r _ _ _ _ _ esc rest ih =>
    obtain ⟨inn, hi, rfl⟩ := Option.map_eq_some_iff.mp h
    exact hpu r (hpu esc (ih hi))

theorem scanBalancedFrom_reads (h : scanBalancedFrom bal rs = some scan) : Reads rs scan :=
  scanBalancedFrom_invariant (fun rs _ => .nothing rs) (fun r _ _ h => h.push r) h

theorem scanBalancedPattern_reads (h : scanBalancedPattern rs = some scan) : Reads rs scan := by
  rw [scanBalancedPattern] at h
  split at h
  · exact scanBalancedFrom_reads h
  · cases h

theorem scanPredicateLetters_reads (h : scanPredicateLetters rs = some scan) : Reads rs scan := by
  revert h
  fun_induction scanPredicateLetters rs generalizing scan with
  | case3 r rest _ _ ih =>
    intro h
    obtain ⟨inn, hi, rfl⟩ := Option.map_eq_some_iff.mp h
    exact (ih hi).push r
  | case4 =>
    rintro ⟨⟩
    exact .nothing _
  | _ => nofun

theorem scanParensFrom_invariant {P : List Rune → Scan → Prop}
    (hla : ∀ r rest, r.char = ')' → P (r :: rest) (Scan.push r {}))
    (hpu : ∀ r {rs scan}, P rs scan → P (r :: rs) (scan.push r)) {bal : ℕ}
    (h : scanParensFrom bal rs = some scan) : P rs scan := by
  fun_induction scanParensFrom bal rs generalizing scan with
  | case1 | case2 | case6 => cases h
  | case3 bal r rest _ _ ih | case5 bal r rest _ _ _ _ ih
  | case8 bal r rest _ _ _ _ ih => exact push_map hpu ih h
  | case4 bal r rest _ _ hr => cases h; exact hla r rest hr
  | case7 bal r _ _ _ _ esc rest ih =>
    obtain ⟨inn, hi, rfl⟩ := Option.map_eq_some_iff.mp h
    exact hpu r (hpu esc (ih hi))

theorem scanParensFrom_reads (h : scanParensFrom bal rs = some scan) : Reads rs scan :=
  scanParensFrom_invariant (fun r rest _ => (Reads.nothing rest).push r) (fun r _ _ h => h.push r) h

/-- What `ScanPredicate` accepts: a registered name and balanced parentheses. -/
theorem scanPredicate_eq_some (h : scanPredicate field rs = some scan) :
    ∃ table name r rest params, defaultPredicateRegistry (resolveFieldAlias field) = some table ∧
      scanPredicateLetters rs = some name ∧
      (table.lookup (String.ofList name.value)).isSome = true ∧
      rs.drop name.value.length = r :: rest ∧ r.char = '(' ∧
      scanParensFrom 1 rest = some params ∧
      scan = ⟨name.value ++ r.char :: params.value, name.count + (r.width + params.count)⟩ := by
  revert h
  fun_cases scanPredicate field rs with
  | case4 table ht name hn r rest hd hr =>
    intro h
    obtain ⟨params, hp, rfl⟩ := Option.map_eq_some_iff.mp h
    rw [scanBalancedParens, scanBalancedParensOrPanic, if_neg (not_not.mpr hr)] at hp
    obtain ⟨inner, hi, rfl⟩ := Option.map_eq_some_iff.mp hp
    revert hn
    fun_cases scanPredicateName table rs with
    | case2 letters hl hlk =>
      rintro ⟨⟩
      exact ⟨table, _, r, rest, inner, ht, hl, hlk, hd, hr, hi, rfl⟩
    | _ => nofun
  | _ => nofun

theorem scanPredicate_reads (h : scanPredicate field rs = some scan) : Reads rs scan := by
  obtain ⟨table, name, r, rest, params, -, hn, -, hd, -, hp, rfl⟩ := scanPredicate_eq_some h
  obtain ⟨taken, left, rfl, hv, hcn⟩ := scanPredicateLetters_reads hn
  obtain ⟨taken', left', rfl, hv', hcn'⟩ := scanParensFrom_reads hp
  have hl : left = r :: (taken' ++ left') := by simpa [hv] using hd
  refine ⟨taken ++ r :: taken', left', by simp [hl], by simp [hv, hv'], ?_⟩
  simp [hcn, hcn']

def EndsWith (k : Char) (rs : List Rune) (count : ℕ) : Prop :=
  ∃ taken r left, rs = taken ++ r :: left ∧ r.char = k ∧ count = width taken + r.width

theorem EndsWith.cons {k : Char} {rs : List Rune} {cnt : ℕ} (h : EndsWith k rs cnt) (r : Rune) :
    EndsWith k (r :: rs) (r.width + cnt) := by
  obtain ⟨tk, s, left, rfl, hs, rfl⟩ := h
  exact ⟨r :: tk, s, left, rfl, hs, by simp [Nat.add_assoc]⟩

theorem EndsWith.takes (h : EndsWith k rs cnt) : Takes rs cnt := by
  obtain ⟨tk, r, left, rfl, -, rfl⟩ := h
  exact ⟨tk ++ [r], left, by simp, by simp [width_append]⟩

theorem scanDelimitedFrom_ends (h : scanDelimitedFrom str dl rs = .ok scan) :
    EndsWith dl rs scan.count := by
  fun_induction scanDelimitedFrom str dl rs generalizing scan with
  | case1 | case3 | case4 => cases h
  | case2 r rest hr =>
    cases h
    exact ⟨[], r, rest, rfl, hr, by simp⟩
  | case5 r _ _ esc rest cs _ ih =>
    obtain ⟨inn, hi, rfl⟩ := map_eq_ok h
    rw [Nat.add_assoc]
    exact ((ih hi).cons esc).cons r
  | case6 r rest _ _ ih =>
    obtain ⟨inn, hi, rfl⟩ := map_eq_ok h
    exact (ih hi).cons r

theorem scanDelimited_eq_ok (h : scanDelimited str dl rs = .ok scan) :
    ∃ r rest inner, rs = r :: rest ∧ r.char = dl ∧ scanDelimitedFrom str dl rest = .ok inner ∧
      scan = ⟨inner.value, r.width + inner.count⟩ := by
  unfold scanDelimited at h
  revert h
  fun_cases scanDelimitedOrPanic str dl rs with
  | case3 r rest hr =>
    intro h
    obtain ⟨inn, hi, rfl⟩ := map_eq_ok h
    exact ⟨r, rest, inn, rfl, not_not.mp hr, hi, rfl⟩
  | _ => nofun

theorem scanDelimited_ends (h : scanDelimited str dl rs = .ok scan) :
    EndsWith dl rs scan.count := by
  obtain ⟨r, rest, inn, rfl, -, hi, rfl⟩ := scanDelimited_eq_ok h
  exact (scanDelimitedFrom_ends hi).cons r

theorem scanValue_reads : Reads rs (scanValue alw rs) := by
  fun_induction scanValue alw rs with
  | case1 | case2 | case4 => exact .nothing _
  | case3 r rest _ _ _ ih | case7 r rest _ _ _ ih => exact ih.push r
  | case5 r => exact (Reads.nothing []).push r
  | case6 r _ _ _ esc rest ih => exact (ih.push esc).push r

theorem scanField_progress (h : scanField (r :: rest) = some field) : r.width ≤ field.count := by
  obtain ⟨r', rest', scan, hrs, -, hcn, -⟩ := scanField_eq_some h
  obtain ⟨rfl, rfl⟩ := List.cons.inj hrs
  omega

theorem scanDelimited_progress (h : scanDelimited str dl (r :: rest) = .ok scan) :
    r.width ≤ scan.count := by
  obtain ⟨r', rest', inn, hrs, -, -, rfl⟩ := scanDelimited_eq_ok h
  obtain ⟨rfl, rfl⟩ := List.cons.inj hrs
  exact Nat.le_add_right _ _

theorem scanAnyPattern_progress (hs : isSpace r.char = false) :
    r.width ≤ (scanAnyPattern (r :: rest)).count := by
  simp [scanAnyPattern, hs, Scan.push]

theorem scanValue_progress {alw : Bool} (hs : isSpace r.char = false)
    (hp : r.char = '(' ∨ r.char = ')' → alw = true) :
    r.width ≤ (scanValue alw (r :: rest)).count := by
  rw [scanValue.eq_def]
  simp only [hs, Bool.false_eq_true, if_false]
  split
  · rename_i hr
    simp [hp hr, Scan.push]
  split
  · cases rest <;> simp [Scan.push]
  · simp [Scan.push]

theorem scanBalancedPattern_progress (hs : isSpace r.char = false) (hc : r.char ≠ ')')
    (h : scanBalancedPattern (r :: rest) = some scan) : r.width ≤ scan.count := by
  rw [scanBalancedPattern] at h
  split at h
  · refine scanBalancedFrom_invariant (P := fun rs scan => ∀ r ∈ rs.head?,
      isSpace r.char = false → r.char ≠ ')' → r.width ≤ scan.count) ?_ ?_ h r rfl hs hc
    · intro rs hsp r hr hs hc
      rcases hsp r hr with h | h
      · rw [hs] at h
        cases h
      · exact absurd h hc
    · rintro r rs scan - r' ⟨⟩ - -
      exact Nat.le_add_right _ _
  · cases h

end QueryScanners
