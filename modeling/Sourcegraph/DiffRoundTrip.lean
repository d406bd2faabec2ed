import Sourcegraph.DiffFormat

/-! # Reading back the diff text of gitserver

The result package parses the text that gitserver prints. Every line of it is one line of what is
parsed, so it is printed again as it was if every line is. -/
namespace DiffRoundTrip

open GoStrings DiffText DiffFormat List
open SearchResults (DiffFile)

def lines : State → List Bytes
  | .init => []
  | .inDiff res currentDiff => (res ++ [currentDiff]).flatMap fileLines
  | .inHunk res currentDiff currentHunk =>
    (res ++ [finishHunk currentDiff currentHunk]).flatMap fileLines

def Started : State → Prop
  | .init => False
  | _ => True

def InHunk : State → Prop
  | .inHunk .. => True
  | _ => False

def openHunk (h : SearchResults.Hunk) : State → State
  | .init => .init
  | .inDiff res currentDiff => .inHunk res currentDiff h
  | .inHunk res currentDiff currentHunk => .inHunk res (finishHunk currentDiff currentHunk) h

theorem fileLines_finishHunk (h : SearchResults.Hunk) :
    fileLines (finishHunk f h) = fileLines f ++ hunkLine h :: h.lines := by
  simp [fileLines, finishHunk, fileLine]

theorem InHunk.started (h : InHunk st) : Started st := by
  cases st with
  | inHunk => trivial
  | init | inDiff => exact h.elim

theorem openHunk_inHunk (hst : Started st) (h : SearchResults.Hunk) : InHunk (openHunk h st) := by
  cases st with
  | init => exact hst.elim
  | inDiff | inHunk => trivial

theorem lines_openHunk (hst : Started st) (h : SearchResults.Hunk) :
    lines (openHunk h st) = lines st ++ hunkLine h :: h.lines := by
  cases st with
  | init => exact hst.elim
  | inDiff res f | inHunk res f h' => simp [openHunk, lines, fileLines_finishHunk]

theorem formatDiffFiles_finish (h : InHunk st) :
    formatDiffFiles st.finish = unlines (lines st) := by
  cases st with
  | inHunk => rfl
  | init | inDiff => exact h.elim

theorem parseLines_append (a b : List Bytes) (st : State) :
    parseLines (a ++ b) st = parseLines a st >>= parseLines b := by
  induction a generalizing st with
  | nil => rfl
  | cons line a ih =>
    rw [cons_append, parseLines, parseLines]
    split
    · exact ih st
    cases parseLine line st with
    | error e => rfl
    | ok st' => exact ih st'

structure BodyLine (line : Bytes) : Prop where
  single_line : newline ∉ line
  origin : line.head? = some 43 ∨ line.head? = some 45 ∨ line.head? = some 32

theorem parseLine_body (h : line.head? = some 43 ∨ line.head? = some 45 ∨ line.head? = some 32) :
    parseLine line (.inHunk res f hunk) =
      .ok (.inHunk res f { hunk with lines := hunk.lines ++ [line] }) := by
  rcases h with h | h | h <;> simp [parseLine, h]

theorem parseLines_body (h : ∀ line ∈ body, BodyLine line) :
    parseLines body (.inHunk res f hunk) =
      .ok (.inHunk res f { hunk with lines := hunk.lines ++ body }) := by
  induction body generalizing hunk with
  | nil => rw [parseLines, append_nil]
  | cons line body ih =>
    have hln := h line mem_cons_self
    have hne : line ≠ [] := by
      rintro rfl
      simpa using hln.origin
    rw [parseLines, if_neg hne, parseLine_body hln.origin]
    change parseLines body _ = _
    rw [ih (forall_mem_cons.mp h).2, append_assoc]
    rfl

theorem parseLine_header (h : line.head? = some 64) (hst : Started st) :
    parseLine line st = (parseHunkHeader line).map fun hunk => openHunk hunk st := by
  cases st with
  | init => exact hst.elim
  | inDiff => rfl
  | inHunk => simp [parseLine, h, openHunk]

/-- The parser has read `sent`, which it prints as as many lines; these are the same exactly
if the condition holds. -/
def Echoes (st : State) (sent : List Bytes) (st' : State) (exact : Prop) : Prop :=
  ∃ printed, lines st' = lines st ++ printed ∧ printed.length = sent.length ∧
    (∀ line ∈ printed, newline ∉ line) ∧ (printed = sent ↔ exact)

variable {hunks : List SearchResults.Hunk}

theorem Echoes.trans (h₁ : Echoes st₁ a st₂ P) (h₂ : Echoes st₂ b st₃ Q) :
    Echoes st₁ (a ++ b) st₃ (P ∧ Q) := by
  obtain ⟨p, hp, hpl, hpcl, hpi⟩ := h₁
  obtain ⟨q, hq, hql, hqcl, hqi⟩ := h₂
  refine ⟨p ++ q, by rw [hq, hp, append_assoc], by simp [hpl, hql], ?_, ?_⟩
  · exact forall_mem_append.mpr ⟨hpcl, hqcl⟩
  · rw [← hpi, ← hqi]
    constructor
    · intro heq
      exact append_inj heq hpl
    · rintro ⟨rfl, rfl⟩
      rfl

theorem Echoes.refl (st : State) : Echoes st [] st True :=
  ⟨[], by simp, rfl, by simp, by simp⟩

theorem Echoes.congr (h : Echoes st sent st' P) (hiff : P ↔ Q) : Echoes st sent st' Q := by
  obtain ⟨pri, hlin, hlen, hcln, hex⟩ := h
  exact ⟨pri, hlin, hlen, hcln, hex.trans hiff⟩

structure SentHunk (h : SearchResults.Hunk) : Prop where
  range : InRange h
  header : newline ∉ h.header
  lines : ∀ line ∈ h.lines, BodyLine line

def Kept (h : SearchResults.Hunk) : Prop := ¬ Signed h ∧ h.header ≠ []

instance (h : SearchResults.Hunk) : Decidable (Kept h) := inferInstanceAs (Decidable (_ ∧ _))

theorem parseLines_sentHunk (hse : SentHunk h) (hst : Started st) : parseLines (sentHunk h) st =
      (parseHunkHeader (hunkRange h ++ space :: h.header)).map fun hunk =>
        openHunk { hunk with lines := h.lines } st := by
  have hhd : (hunkRange h ++ space :: h.header).head? = some 64 := rfl
  rw [sentHunk, parseLines, parseLine_header hhd hst]
  cases hprs : parseHunkHeader (hunkRange h ++ space :: h.header) with
  | error e => rfl
  | ok hunk =>
    have hnil := (parseHunkHeader_ok hprs).2.2
    change parseLines h.lines (openHunk hunk st) = .ok _
    cases st with
    | init => exact hst.elim
    | inDiff res f | inHunk res f h' => rw [openHunk, parseLines_body hse.lines, hnil]; rfl

theorem sentHunk_echoes (hse : SentHunk h) (hst : Started st)
    (hprs : parseLines (sentHunk h) st = .ok st') :
    InHunk st' ∧ Echoes st (sentHunk h) st' (Kept h) := by
  rw [parseLines_sentHunk hse hst] at hprs
  obtain ⟨hunk, hhea, rfl⟩ := map_eq_ok hprs
  refine ⟨openHunk_inHunk hst _, hunkLine hunk :: h.lines, lines_openHunk hst _, rfl, ?_, ?_⟩
  · exact forall_mem_cons.mpr ⟨hunkLine_single_line (parseHunkHeader_ok hhea).2.1,
      fun line hln => (hse.lines line hln).single_line⟩
  · rw [sentHunk, cons.injEq, and_iff_left rfl]
    exact hunkLine_parsed_iff hse.range hse.header hhea

theorem sentHunk_succeeds (hse : SentHunk h) (hkp : Kept h) (hst : Started st) :
    ∃ st', parseLines (sentHunk h) st = .ok st' := by
  rw [parseLines_sentHunk hse hst, parseHunkHeader_hunkRange hse.range hkp.1 hse.header]
  exact ⟨_, rfl⟩

theorem sentHunks_echoes (hse : ∀ h ∈ hunks, SentHunk h) (hst : Started st)
    (hprs : parseLines (hunks.flatMap sentHunk) st = .ok st') :
    (hunks ≠ [] → InHunk st') ∧ Echoes st (hunks.flatMap sentHunk) st' (∀ h ∈ hunks, Kept h) := by
  induction hunks generalizing st with
  | nil =>
    rw [Except.ok.inj hprs.symm]
    exact ⟨fun h => absurd rfl h, (Echoes.refl st).congr (by simp)⟩
  | cons h hunks ih =>
    rw [flatMap_cons, parseLines_append] at hprs
    obtain ⟨st₁, hf, hrs⟩ := bind_eq_ok hprs
    obtain ⟨hin, hec⟩ := sentHunk_echoes (hse h mem_cons_self) hst hf
    obtain ⟨hin', hec'⟩ := ih (forall_mem_cons.mp hse).2 hin.started hrs
    refine ⟨fun _ => ?_, ?_⟩
    · by_cases hnil : hunks = []
      · subst hnil
        rw [Except.ok.inj hrs.symm]
        exact hin
      · exact hin' hnil
    · exact (hec.trans hec').congr (by simp)

theorem sentHunks_succeeds (hse : ∀ h ∈ hunks, SentHunk h) (hkp : ∀ h ∈ hunks, Kept h)
    (hst : Started st) : ∃ st', parseLines (hunks.flatMap sentHunk) st = .ok st' := by
  induction hunks generalizing st with
  | nil => exact ⟨st, rfl⟩
  | cons h hunks ih =>
    obtain ⟨st₁, hf⟩ := sentHunk_succeeds (hse h mem_cons_self) (hkp h mem_cons_self) hst
    obtain ⟨hin, _⟩ := sentHunk_echoes (hse h mem_cons_self) hst hf
    rw [flatMap_cons, parseLines_append, hf]
    exact ih (forall_mem_cons.mp hse).2 (forall_mem_cons.mp hkp).2 hin.started

/-- The names of a file are accepted: a first file needs an old name, and the name of a later one
must not start like a hunk header. -/
def Enters : State → Bytes → Prop
  | .init, name => name ≠ []
  | .inDiff .., _ => False
  | .inHunk .., name => name.head? ≠ some 64

def AtFile : State → Prop
  | .inDiff .. => False
  | _ => True

def NamesRead (f : DiffFile) (st st' : State) : Prop :=
  Started st' ∧ lines st' = lines st ++ [fileLine f]

theorem parseLine_fileLine_init (hnm : Printable f.origName) :
    (Enters .init f.origName → ∃ st', parseLine (fileLine f) .init = .ok st' ∧
      NamesRead f .init st') ∧
    (¬ Enters .init f.origName → parseLine (fileLine f) .init = .error .invalidDiff) := by
  rw [parseLine, splitDiffFiles_fileLine hnm]
  constructor
  · intro hne
    rw [if_neg hne]
    exact ⟨_, rfl, trivial, rfl⟩
  · intro hnil
    rw [if_pos (not_not.mp hnil)]
    rfl

theorem parseLine_names (hb : line.head? = some b) (h : b ≠ 45 ∧ b ≠ 43 ∧ b ≠ 32 ∧ b ≠ 64)
    : parseLine line (.inHunk res g hunk) =
      (splitDiffFiles line).map fun nam =>
        .inDiff (res ++ [finishHunk g hunk]) ⟨nam.1, nam.2, []⟩ := by
  simp only [parseLine, hb]
  split <;> simp_all

theorem fileLine_head (h : f.origName = c :: name) :
    (fileLine f).head? = some (if c = space then backslash else c) := by
  rw [fileLine, h, escape_cons]
  split <;> rfl

theorem fileLine_as_body
    (h : (fileLine f).head? = some 43 ∨ (fileLine f).head? = some 45 ∨ (fileLine f).head? = some 32) :
    ∃ st', parseLine (fileLine f) (.inHunk res g hunk) = .ok st' ∧
        NamesRead f (.inHunk res g hunk) st' := by
  refine ⟨_, parseLine_body h, trivial, ?_⟩
  simp [lines, fileLines_finishHunk, hunkLine, hunkRange]

/-- A name that starts with a sign, or is empty, is read as a line of the hunk before it. That
line is printed as it was, too. -/
theorem parseLine_fileLine_inHunk (hnm : Printable f.origName) :
    (f.origName.head? ≠ some 64 → ∃ st', parseLine (fileLine f) (.inHunk res g hunk) = .ok st' ∧
      NamesRead f (.inHunk res g hunk) st') ∧
    (f.origName.head? = some 64 →
      parseLine (fileLine f) (.inHunk res g hunk) = .error .invalidDiff) := by
  cases hco : f.origName with
  | nil =>
    have hhd : (fileLine f).head? = some 32 := by simp [fileLine, hco, space]
    exact ⟨fun _ => fileLine_as_body (.inr (.inr hhd)), fun h => by cases h⟩
  | cons c name =>
    have hhd := fileLine_head hco
    constructor
    · intro hat
      replace hat : c ≠ 64 := by simpa using hat
      by_cases hsp : c = space
      · rw [if_pos hsp] at hhd
        rw [parseLine_names hhd (by decide), splitDiffFiles_fileLine hnm, if_neg (by simp [hco])]
        exact ⟨_, rfl, trivial, by simp [lines, fileLines, fileLine]⟩
      rw [if_neg hsp] at hhd
      by_cases hpl : c = 43
      · exact fileLine_as_body (.inl (hpl ▸ hhd))
      by_cases hmin : c = 45
      · exact fileLine_as_body (.inr (.inl (hmin ▸ hhd)))
      rw [parseLine_names hhd ⟨hmin, hpl, hsp, hat⟩, splitDiffFiles_fileLine hnm,
        if_neg (by simp [hco])]
      exact ⟨_, rfl, trivial, by simp [lines, fileLines, fileLine]⟩
    · intro hat
      obtain rfl : c = 64 := by simpa using hat
      rw [parseLine_header hhd (show Started (.inHunk res g hunk) from trivial),
        parseHunkHeader_fileLine]
      rfl

structure SentFile (f : DiffFile) : Prop where
  origName : Printable f.origName
  newName : newline ∉ f.newName
  hunks_ne : f.hunks ≠ []
  hunks : ∀ h ∈ f.hunks, SentHunk h

theorem SentFile.single_line (h : SentFile f) : newline ∉ fileLine f := by
  unfold fileLine
  simp only [mem_append, mem_cons, not_or]
  refine ⟨h.origName.escape_single_line, by decide, ?_⟩
  intro hmem
  rcases mem_escape hmem with hmem | hmem
  · exact h.newName hmem
  · exact absurd hmem (by decide)

theorem parseLine_fileLine (hnm : Printable f.origName) (hst : AtFile st) :
    (Enters st f.origName → ∃ st', parseLine (fileLine f) st = .ok st' ∧ NamesRead f st st') ∧
    (¬ Enters st f.origName → parseLine (fileLine f) st = .error .invalidDiff) := by
  cases st with
  | inDiff => exact hst.elim
  | init => exact parseLine_fileLine_init hnm
  | inHunk res g hunk =>
    obtain ⟨hok, herr⟩ := parseLine_fileLine_inHunk hnm
    exact ⟨hok, fun h => herr (not_not.mp h)⟩

theorem parseLines_sentFile : parseLines (sentFile f) st =
    parseLine (fileLine f) st >>= parseLines (f.hunks.flatMap sentHunk) := by
  rw [sentFile, parseLines, if_neg (by simp [fileLine])]

theorem sentFile_echoes (hse : SentFile f) (hst : AtFile st)
    (hprs : parseLines (sentFile f) st = .ok st') :
    Enters st f.origName ∧ InHunk st' ∧ Echoes st (sentFile f) st' (∀ h ∈ f.hunks, Kept h) := by
  rw [parseLines_sentFile] at hprs
  obtain ⟨st₁, hnms, hhun⟩ := bind_eq_ok hprs
  obtain ⟨hok, herr⟩ := parseLine_fileLine hse.origName hst
  by_cases hent : Enters st f.origName
  · obtain ⟨st₂, hst₂, hsta, hlin⟩ := hok hent
    obtain rfl : st₁ = st₂ := Except.ok.inj (hnms.symm.trans hst₂)
    obtain ⟨hin, hec⟩ := sentHunks_echoes hse.hunks hsta hhun
    refine ⟨hent, hin hse.hunks_ne, ?_⟩
    have hnm : Echoes st [fileLine f] st₁ True :=
      ⟨[fileLine f], hlin, rfl, by simpa using hse.single_line, by simp⟩
    exact (hnm.trans hec).congr (by simp)
  · rw [herr hent] at hnms
    nomatch hnms

theorem sentFile_succeeds (hse : SentFile f) (hkp : ∀ h ∈ f.hunks, Kept h) (hst : AtFile st)
    (hent : Enters st f.origName) : ∃ st', parseLines (sentFile f) st = .ok st' := by
  obtain ⟨st₁, hnms, hsta, _⟩ := (parseLine_fileLine hse.origName hst).1 hent
  rw [parseLines_sentFile, hnms]
  exact sentHunks_succeeds hse.hunks hkp hsta

theorem InHunk.atFile (h : InHunk st) : AtFile st := by
  cases st with
  | inHunk => trivial
  | init | inDiff => exact h.elim

theorem InHunk.enters_iff (h : InHunk st) (name : Bytes) :
    Enters st name ↔ name.head? ≠ some 64 := by
  cases st with
  | inHunk => exact Iff.rfl
  | init | inDiff => exact h.elim

variable {files : List DiffFile}

theorem sentFiles_echoes (hse : ∀ f ∈ files, SentFile f) (hst : InHunk st)
    (hprs : parseLines (files.flatMap sentFile) st = .ok st') :
    (∀ f ∈ files, f.origName.head? ≠ some 64) ∧ InHunk st' ∧
      Echoes st (files.flatMap sentFile) st' (∀ f ∈ files, ∀ h ∈ f.hunks, Kept h) := by
  induction files generalizing st with
  | nil =>
    rw [Except.ok.inj hprs.symm]
    exact ⟨by simp, hst, (Echoes.refl st).congr (by simp)⟩
  | cons f files ih =>
    rw [flatMap_cons, parseLines_append] at hprs
    obtain ⟨st₁, hf, hrs⟩ := bind_eq_ok hprs
    obtain ⟨hent, hin, hec⟩ := sentFile_echoes (hse f mem_cons_self) hst.atFile hf
    obtain ⟨hnms, hin', hec'⟩ := ih (forall_mem_cons.mp hse).2 hin hrs
    refine ⟨?_, hin', (hec.trans hec').congr (by simp)⟩
    rw [forall_mem_cons]
    exact ⟨(hst.enters_iff _).mp hent, hnms⟩

theorem sentFiles_succeeds (hse : ∀ f ∈ files, SentFile f)
    (hnms : ∀ f ∈ files, f.origName.head? ≠ some 64) (hkp : ∀ f ∈ files, ∀ h ∈ f.hunks, Kept h)
    (hst : InHunk st) : ∃ st', parseLines (files.flatMap sentFile) st = .ok st' := by
  induction files generalizing st with
  | nil => exact ⟨st, rfl⟩
  | cons f files ih =>
    have hfi := hse f mem_cons_self
    obtain ⟨st₁, hf⟩ := sentFile_succeeds hfi (hkp f mem_cons_self) hst.atFile
      ((hst.enters_iff _).mpr (hnms f mem_cons_self))
    obtain ⟨_, hin, _⟩ := sentFile_echoes hfi hst.atFile hf
    rw [flatMap_cons, parseLines_append, hf]
    exact ih (forall_mem_cons.mp hse).2 (forall_mem_cons.mp hnms).2 (forall_mem_cons.mp hkp).2 hin

theorem splitOn_unlines {lns : List Bytes} (h : ∀ line ∈ lns, newline ∉ line) :
    (unlines lns).splitOn newline = lns ++ [[]] := by
  have hjo : unlines lns = [newline].intercalate (lns ++ [[]]) := by
    clear h
    induction lns with
    | nil => rfl
    | cons line lns ih =>
      rw [unlines_cons, ih]
      cases lns <;> simp [intercalate]
  rw [hjo]
  exact splitOn_intercalate _ (forall_mem_append.mpr ⟨h, by simp⟩) (by simp)

theorem unlines_inj (ha : ∀ line ∈ a, newline ∉ line) (hb : ∀ line ∈ b, newline ∉ line)
    (h : unlines a = unlines b) : a = b := by
  have := splitOn_unlines ha
  rw [h, splitOn_unlines hb] at this
  exact (append_cancel_right this).symm

theorem parseDiffString_unlines (h : ∀ line ∈ sent, newline ∉ line) :
    parseDiffString (unlines sent) = (parseLines sent .init).map State.finish := by
  unfold parseDiffString
  rw [splitOn_unlines h, parseLines_append]
  cases parseLines sent .init with
  | error e | ok st => rfl

theorem sentFile_single_line (h : SentFile f) : ∀ line ∈ sentFile f, newline ∉ line := by
  intro line hln
  rcases mem_cons.mp hln with rfl | hln
  · exact h.single_line
  obtain ⟨hunk, hhu, hln⟩ := mem_flatMap.mp hln
  have hse := h.hunks hunk hhu
  rcases mem_cons.mp hln with rfl | hln
  · simp only [mem_append, mem_cons, not_or]
    exact ⟨hunkRange_single_line hunk, by decide, hse.header⟩
  · exact (hse.lines line hln).single_line

/-- The text can be parsed, and what is parsed is printed as the text. -/
def RoundTrips (text : Bytes) : Prop :=
  ∃ files, parseDiffString text = .ok files ∧ formatDiffFiles files = text

/-- When the printed files are told apart. A later name must not start like a hunk header. -/
structure Unambiguous (files : List DiffFile) : Prop where
  ne : files ≠ []
  first : ∀ f ∈ files.head?, f.origName ≠ []
  later : ∀ f ∈ files.tail, f.origName.head? ≠ some 64
  kept : ∀ f ∈ files, ∀ h ∈ f.hunks, Kept h

theorem sent_round_trips_iff (hse : ∀ f ∈ files, SentFile f) :
    RoundTrips (unlines (files.flatMap sentFile)) ↔ Unambiguous files := by
  have hcln : ∀ line ∈ files.flatMap sentFile, newline ∉ line := by
    intro line hln
    obtain ⟨f, hf, hln⟩ := mem_flatMap.mp hln
    exact sentFile_single_line (hse f hf) line hln
  unfold RoundTrips
  rw [parseDiffString_unlines hcln]
  cases files with
  | nil =>
    constructor
    · rintro ⟨res, hprs, htx⟩
      rw [← Except.ok.inj hprs] at htx
      exact absurd htx (by decide)
    · intro h
      exact absurd rfl h.ne
  | cons f files =>
    have hini : AtFile .init := trivial
    have hfil := hse f mem_cons_self
    have hfs : ∀ g ∈ files, SentFile g := (forall_mem_cons.mp hse).2
    constructor
    · rintro ⟨res, hprs, htx⟩
      obtain ⟨st, hst, rfl⟩ := map_eq_ok hprs
      rw [flatMap_cons, parseLines_append] at hst
      obtain ⟨st₁, hfi, hrs⟩ := bind_eq_ok hst
      obtain ⟨hent, hin₁, hec₁⟩ := sentFile_echoes hfil hini hfi
      obtain ⟨hnms, hin, hec₂⟩ := sentFiles_echoes hfs hin₁ hrs
      obtain ⟨pri, hlin, _, hpri, hex⟩ := hec₁.trans hec₂
      rw [formatDiffFiles_finish hin, hlin] at htx
      have heq := unlines_inj hpri hcln htx
      have hkp := hex.mp heq
      refine ⟨by simp, ?_, hnms, ?_⟩
      · intro g hg
        rw [← Option.some.inj hg]
        exact hent
      · rw [forall_mem_cons]
        exact hkp
    · intro h
      have hent : Enters .init f.origName := h.first f rfl
      obtain ⟨st₁, hfi⟩ := sentFile_succeeds hfil (h.kept f mem_cons_self) hini hent
      obtain ⟨_, hin₁, hec₁⟩ := sentFile_echoes hfil hini hfi
      have hkp : ∀ g ∈ files, ∀ h ∈ g.hunks, Kept h :=
        (forall_mem_cons.mp h.kept).2
      obtain ⟨st₂, hrs⟩ := sentFiles_succeeds hfs h.later hkp hin₁
      obtain ⟨_, hin, hec₂⟩ := sentFiles_echoes hfs hin₁ hrs
      obtain ⟨pri, hlin, _, _, hex⟩ := hec₁.trans hec₂
      have heq := hex.mpr ⟨h.kept f mem_cons_self, hkp⟩
      refine ⟨st₂.finish, ?_, ?_⟩
      · rw [flatMap_cons, parseLines_append, hfi]
        change (parseLines (files.flatMap sentFile) st₁).map State.finish = _
        rw [hrs]
        rfl
      · rw [formatDiffFiles_finish hin, hlin, heq]
        rfl

/-- Diffs as git prints them: names of one line that do not end in a backslash, bodies of added,
removed and context lines, and a hunk in every file that is shown. -/
structure Formattable (rawDiff : List FileDiff) (highlights : DiffFormat.IndexMap MatchedFileDiff) :
    Prop where
  names : ∀ f ∈ rawDiff, Printable f.origName ∧ Printable f.newName
  hunks : ∀ f ∈ printedFiles rawDiff highlights, f.hunks ≠ []
  lines : ∀ f ∈ rawDiff, ∀ h ∈ f.hunks, ∀ line ∈ CommitMatchTree.readLines h.body [],
    line = [] ∨ line.head? = some 43 ∨ line.head? = some 45 ∨ line.head? = some 32

theorem mem_printedHunks (h : r ∈ printedHunks f fdh) : Splitting.CutFrom f.hunks r := by
  obtain ⟨p, hp, rfl⟩ := mem_map.mp h
  exact splitHunkMatches_cut _ _ _ _ (mem_shown (mem_of_mem_take hp))

theorem printedHunk_inRange : InRange (printedHunk r) := by
  have hbd : ∀ n : Int32, n.toInt < 2 ^ 63 := by
    intro n
    have := n.toInt_lt
    omega
  exact ⟨hbd _, hbd _, hbd _, hbd _⟩

theorem Formattable.sentHunk (h : Formattable raw highlights) (hf : f ∈ raw)
    (hr : Splitting.CutFrom f.hunks r) : SentHunk (printedHunk r) := by
  refine ⟨printedHunk_inRange, r.sectionHeading.single_line, ?_⟩
  intro line hln
  obtain ⟨hunk, hhu, pie, hpie, hbo⟩ := hr
  obtain ⟨hrd, hne⟩ := mem_filter.mp hln
  rw [hbo] at hrd
  have hmem := mem_readLines_of_sublist hpie hrd
  refine ⟨readLines_single_line hmem, ?_⟩
  rcases h.lines f hf hunk hhu line hmem with hnil | hori
  · exact absurd hnil (by simpa using hne)
  · exact hori

theorem Formattable.sentFile (h : Formattable raw highlights) :
    ∀ f ∈ printedFiles raw highlights, SentFile f := by
  intro f hf
  have hne := h.hunks f hf
  obtain ⟨p, hp, rfl⟩ := mem_map.mp hf
  have hmem : p.1 ∈ raw := mem_shown (mem_of_mem_take hp)
  obtain ⟨hor, hnew⟩ := h.names p.1 hmem
  refine ⟨hor, hnew.single_line, hne, ?_⟩
  exact forall_mem_map.mpr fun r hr => h.sentHunk hmem (mem_printedHunks hr)

/-- The diff text is read back and printed again as it was exactly when the printed files can be
told apart. -/
theorem diff_round_trips_iff (h : Formattable rawDiff highlights) :
    RoundTrips (formatDiff rawDiff highlights).1 ↔
      Unambiguous (printedFiles rawDiff highlights) := by
  rw [formatDiff_text]
  exact sent_round_trips_iff h.sentFile

def addedLine (heading : SectionHeading) (names : List String) : List FileDiff :=
  names.map fun name =>
    ⟨bytes name, bytes name, [⟨1, 0, 1, 1, heading, bytes "+x\n"⟩]⟩

def mainHeading : SectionHeading := ⟨bytes "func main", by decide⟩

def noHeading : SectionHeading := ⟨[], by decide⟩

theorem headed_diff_round_trips :
    Formattable (addedLine mainHeading ["a.go", "b c"]) ∅ ∧
      RoundTrips (formatDiff (addedLine mainHeading ["a.go", "b c"]) ∅).1 := by
  have h : Formattable (addedLine mainHeading ["a.go", "b c"]) ∅ :=
    ⟨by decide, by decide, by decide⟩
  refine ⟨h, (diff_round_trips_iff h).mpr ⟨by decide, ?_, by decide, by decide⟩⟩
  intro f hf
  rw [← Option.some.inj hf]
  decide

/-- A hunk without a heading loses the blank after its ranges, and a second file whose name starts
with an at sign is taken for a hunk header. -/
theorem empty_heading_and_at_name_lost :
    (Formattable (addedLine noHeading ["a"]) ∅ ∧
      ¬ RoundTrips (formatDiff (addedLine noHeading ["a"]) ∅).1) ∧
    Formattable (addedLine mainHeading ["a", "@b"]) ∅ ∧
      ¬ RoundTrips (formatDiff (addedLine mainHeading ["a", "@b"]) ∅).1 := by
  refine ⟨⟨⟨by decide, by decide, by decide⟩, ?_⟩, ⟨by decide, by decide, by decide⟩, ?_⟩
  · rintro ⟨files, hprs, htx⟩
    have hpri : (parseDiffString (formatDiff (addedLine noHeading ["a"]) ∅).1).map
        formatDiffFiles = .ok (bytes "a a\n@@ -1,0 +1,1 @@\n+x\n") := by decide
    rw [hprs] at hpri
    exact absurd (htx.symm.trans (Except.ok.inj hpri)) (by decide)
  · rintro ⟨files, hprs, _⟩
    have herr : parseDiffString (formatDiff (addedLine mainHeading ["a", "@b"]) ∅).1 =
        .error .invalidDiff := by decide
    rw [hprs] at herr
    nomatch herr

end DiffRoundTrip
