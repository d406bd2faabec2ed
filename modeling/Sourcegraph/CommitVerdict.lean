import Sourcegraph.CommitMatchTree

/-! # What a match tree decides about a commit

A match tree stands for a boolean formula read per file: commit-level atoms are evaluated on the
commit, per-file atoms on one file of its diff. The computed pair of a commit flag and a file set is
related to that formula. -/
namespace CommitVerdict

open List
open GoStrings (Bytes Fault)
open CommitMatchTree

structure FileFacts where
  diffMatches : Regexp → Bool
  diffModifiesFile : Regexp → Bool

def unmatched : FileFacts := ⟨fun _ => false, fun _ => false⟩

def lineMatches (re : Regexp) (line : Bytes) : Bool := (changedLine line).any re.matches

def fileFacts (fileDiff : FileDiff) : FileFacts where
  diffMatches re := fileDiff.hunks.any fun body => (readLines body []).any (lineMatches re)
  diffModifiesFile re := re.matches fileDiff.origName || re.matches fileDiff.newName

mutual
def formula (lc : LazyCommit) (date : ℤ) (facts : FileFacts) : MatchTree → Bool
  | .authorMatches re => re.matches lc.authorName || re.matches lc.authorEmail
  | .committerMatches re => re.matches lc.committerName || re.matches lc.committerEmail
  | .commitBefore time => decide (date < time)
  | .commitAfter time => decide (time < date)
  | .messageMatches re => re.matches lc.message
  | .diffMatches re => facts.diffMatches re
  | .diffModifiesFile re => facts.diffModifiesFile re
  | .constant value => value
  | .operator .not operands => !formulaFirst lc date facts operands
  | .operator .and operands => formulaAll lc date facts operands
  | .operator .or operands => formulaAny lc date facts operands
def formulaFirst (lc : LazyCommit) (date : ℤ) (facts : FileFacts) : List MatchTree → Bool
  | [] => false
  | operand :: _ => formula lc date facts operand
def formulaAll (lc : LazyCommit) (date : ℤ) (facts : FileFacts) : List MatchTree → Bool
  | [] => true
  | operand :: rest => formula lc date facts operand && formulaAll lc date facts rest
def formulaAny (lc : LazyCommit) (date : ℤ) (facts : FileFacts) : List MatchTree → Bool
  | [] => false
  | operand :: rest => formula lc date facts operand || formulaAny lc date facts rest
end

structure Readable (lc : LazyCommit) (files : List FileDiff) (date : ℤ) : Prop where
  diff : lc.diff = .ok files
  date : lc.committerTime = .ok date

/-- A result read as a truth value on every view of the commit: the flag is its value on
a file that no per-file predicate matches, and a nil set contains every file. -/
def denote (c : CommitFilterResult) : Option ℕ → Bool
  | none => c.commitMatched
  | some i => match c.matchedFileDiffs with
    | none => true
    | some s => decide (i ∈ s)

/-- The facts of every view. `listed` are the regexps that are looked up in the diff at all. -/
def factsOf (listed : Regexp → Bool) (files : List FileDiff) : Option ℕ → FileFacts
  | none => unmatched
  | some i => match files[i]? with
    | none => unmatched
    | some fileDiff => { fileFacts fileDiff with
        diffModifiesFile := fun re => listed re && (fileFacts fileDiff).diffModifiesFile re }

def InDiff (n : ℕ) (view : Option ℕ) : Prop := ∀ i, view = some i → i < n

section Formulas

variable (lc : LazyCommit) (date : ℤ) (views : Option ℕ → FileFacts) (n : ℕ)

mutual
/-- Whether the set that is computed is nil. -/
def nilSet : MatchTree → Bool
  | .operator .not operands => !nilFirst operands &&
    (range n).all fun i => !formulaFirst lc date (views (some i)) operands
  | .operator .and operands => nilAll operands
  | .operator .or operands => nilAny operands
  | .diffMatches _ => false
  | .diffModifiesFile _ => false
  | .authorMatches re => formula lc date unmatched (.authorMatches re)
  | .committerMatches re => formula lc date unmatched (.committerMatches re)
  | .commitBefore time => formula lc date unmatched (.commitBefore time)
  | .commitAfter time => formula lc date unmatched (.commitAfter time)
  | .messageMatches re => formula lc date unmatched (.messageMatches re)
  | .constant value => value
def nilFirst : List MatchTree → Bool
  | [] => false
  | operand :: _ => nilSet operand
def nilAll : List MatchTree → Bool
  | [] => true
  | operand :: rest => nilSet operand && nilAll rest
def nilAny : List MatchTree → Bool
  | [] => false
  | operand :: rest => nilSet operand || nilAny rest
end

/-- What `Satisfies` answers: a nil set has no member to it. -/
def judged (truth : Option ℕ → Bool) (isNil : Bool) : Bool :=
  truth none || (!isNil && (range n).any fun i => truth (some i))

/-- The operands are true of every file and not of an unmatched one, and their set is nil: to
`Satisfies` they are true of nothing. -/
def Blind (operands : List MatchTree) : Prop :=
  formulaAll lc date (views none) operands = false ∧ nilAll lc date views n operands = true

def Refuted (operands : List MatchTree) : Prop :=
  nilAll lc date views n operands = false ∧
    ∀ i < n, formulaAll lc date (views (some i)) operands = false

def Reached (before : List MatchTree) : Prop :=
  ∀ pre, pre <+: before →
    judged n (fun view => formulaAll lc date (views view) pre) (nilAll lc date views n pre) = true

def IsAtom : MatchTree → Prop
  | .operator _ _ => False
  | _ => True

/-- A name in the diff that the regexp matches is not hidden by the listing of name-status. -/
def Seen (listed : Regexp → Bool) (files : List FileDiff) : MatchTree → Prop
  | .diffModifiesFile re => ∀ fileDiff ∈ files, (fileFacts fileDiff).diffModifiesFile re = true →
      listed re = modifiesMatchingFile re lc
  | _ => True

/-- No operator that is evaluated misjudges its operands: every file atom is seen, and no And stops
at blind operands although it is true of a file. -/
inductive Sighted (listed : Regexp → Bool) (files : List FileDiff) : MatchTree → Prop
  | atom {t : MatchTree} (h : IsAtom t) (hs : Seen lc listed files t) : Sighted listed files t
  | not {operand : MatchTree} {rest : List MatchTree} (h : Sighted listed files operand) :
    Sighted listed files (.operator .not (operand :: rest))
  | and {operands : List MatchTree}
    (h : ∀ before o after, operands = before ++ o :: after →
      Reached lc date (factsOf listed files) files.length before → Sighted listed files o)
    (hb : ∀ before, before <+: operands →
      Blind lc date (factsOf listed files) files.length before →
        Refuted lc date (factsOf listed files) files.length operands) :
    Sighted listed files (.operator .and operands)
  | or {operands : List MatchTree} (h : ∀ o ∈ operands, Sighted listed files o) :
    Sighted listed files (.operator .or operands)

end Formulas

section Semantics

variable {lc : LazyCommit} {date : ℤ} {views : Option ℕ → FileFacts} {n : ℕ}

theorem formulaAll_append {facts : FileFacts} (l l' : List MatchTree) :
    formulaAll lc date facts (l ++ l') =
      (formulaAll lc date facts l && formulaAll lc date facts l') := by
  induction l with
  | nil => rfl
  | cons o l ih => rw [cons_append, formulaAll, formulaAll, ih, Bool.and_assoc]

theorem nilAll_append (l l' : List MatchTree) :
    nilAll lc date views n (l ++ l') = (nilAll lc date views n l && nilAll lc date views n l') := by
  induction l with
  | nil => rfl
  | cons o l ih => rw [cons_append, nilAll, nilAll, ih, Bool.and_assoc]

mutual
/-- A nil set stands for a tree that is true of every file. -/
theorem formula_of_nilSet (hi : i < n) : ∀ t : MatchTree, nilSet lc date views n t = true →
    formula lc date (views (some i)) t = true
  | .operator .not _, h => all_eq_true.mp (Bool.and_eq_true_iff.mp h).2 i (mem_range.mpr hi)
  | .operator .and operands, h => formulaAll_of_nilAll hi operands h
  | .operator .or operands, h => formulaAny_of_nilAny hi operands h
  | .diffMatches _, h => absurd h Bool.false_ne_true
  | .diffModifiesFile _, h => absurd h Bool.false_ne_true
  | .authorMatches _, h | .committerMatches _, h | .commitBefore _, h | .commitAfter _, h
  | .messageMatches _, h | .constant _, h => h
theorem formulaAll_of_nilAll (hi : i < n) : ∀ l : List MatchTree,
    nilAll lc date views n l = true → formulaAll lc date (views (some i)) l = true
  | [], _ => rfl
  | o :: l, h => by
    obtain ⟨ho, hl⟩ := Bool.and_eq_true_iff.mp h
    rw [formulaAll, formula_of_nilSet hi o ho, formulaAll_of_nilAll hi l hl]
    rfl
theorem formulaAny_of_nilAny (hi : i < n) : ∀ l : List MatchTree,
    nilAny lc date views n l = true → formulaAny lc date (views (some i)) l = true
  | [], h => absurd h Bool.false_ne_true
  | o :: l, h => by
    rw [formulaAny, Bool.or_eq_true_iff]
    exact (Bool.or_eq_true_iff.mp h).imp (formula_of_nilSet hi o) (formulaAny_of_nilAny hi l)
end

end Semantics

/-- The flag and the set are the truth on every view, and it is known when the set is nil. -/
structure Decides (n : ℕ) (c : CommitFilterResult) (truth : Option ℕ → Bool) (isNil : Bool) :
    Prop where
  within : ∀ s, c.matchedFileDiffs = some s → ∀ i ∈ s, i < n
  agrees : ∀ view, InDiff n view → denote c view = truth view
  nil : c.matchedFileDiffs = none ↔ isNil = true

section Results

variable {n : ℕ} {c c' : CommitFilterResult} {truth truth' : Option ℕ → Bool} {isNil isNil' : Bool}

theorem denote_filterResult : denote (filterResult val) view = val := by
  cases val <;> cases view <;> simp [filterResult, denote]

theorem decides_filterResult (h : ∀ view, InDiff n view → truth view = val) :
    Decides n (filterResult val) truth val := by
  refine ⟨?_, fun view hv => by rw [denote_filterResult, h view hv], ?_⟩
  · cases val <;> simp [filterResult]
  · cases val <;> simp [filterResult]

theorem Decides.union (h : Decides n c truth isNil) (h' : Decides n c' truth' isNil') :
    Decides n (c.union c') (fun view => truth view || truth' view) (isNil || isNil') := by
  refine ⟨?_, fun view hv => ?_, ?_⟩
  · intro u hu i hi
    cases hs : c.matchedFileDiffs with
    | none => simp [CommitFilterResult.union, hs] at hu
    | some s =>
      cases ht : c'.matchedFileDiffs with
      | none => simp [CommitFilterResult.union, hs, ht] at hu
      | some t =>
        simp only [CommitFilterResult.union, hs, ht, Option.some.injEq] at hu
        rcases Finset.mem_union.mp (hu ▸ hi) with hi | hi
        · exact h.within s hs i hi
        · exact h'.within t ht i hi
  · rw [← h.agrees view hv, ← h'.agrees view hv]
    obtain ⟨flag, set⟩ := c
    obtain ⟨flag', set'⟩ := c'
    cases view with
    | none => rfl
    | some i => cases set <;> cases set' <;> simp [denote, CommitFilterResult.union]
  · rw [Bool.or_eq_true_iff, ← h.nil, ← h'.nil]
    obtain ⟨flag, set⟩ := c
    obtain ⟨flag', set'⟩ := c'
    cases set <;> cases set' <;> simp [CommitFilterResult.union]

theorem Decides.intersect (h : Decides n c truth isNil) (h' : Decides n c' truth' isNil') :
    Decides n (c.intersect c') (fun view => truth view && truth' view) (isNil && isNil') := by
  refine ⟨?_, fun view hv => ?_, ?_⟩
  · intro u hu i hi
    cases hs : c.matchedFileDiffs with
    | none =>
      simp only [CommitFilterResult.intersect, hs] at hu
      exact h'.within u hu i hi
    | some s =>
      refine h.within s hs i ?_
      cases ht : c'.matchedFileDiffs with
      | none =>
        simp only [CommitFilterResult.intersect, hs, ht, Option.some.injEq] at hu
        exact hu ▸ hi
      | some t =>
        simp only [CommitFilterResult.intersect, hs, ht, Option.some.injEq] at hu
        exact (Finset.mem_inter.mp (hu ▸ hi)).1
  · rw [← h.agrees view hv, ← h'.agrees view hv]
    obtain ⟨flag, set⟩ := c
    obtain ⟨flag', set'⟩ := c'
    cases view with
    | none => rfl
    | some i => cases set <;> cases set' <;> simp [denote, CommitFilterResult.intersect]
  · rw [Bool.and_eq_true_iff, ← h.nil, ← h'.nil]
    obtain ⟨flag, set⟩ := c
    obtain ⟨flag', set'⟩ := c'
    cases set <;> cases set' <;> simp [CommitFilterResult.intersect]

theorem mem_toggle : j ∈ CommitFilterResult.toggle s i ↔ if j = i then j ∉ s else j ∈ s := by
  unfold CommitFilterResult.toggle
  by_cases hj : j = i
  · subst j
    by_cases hi : i ∈ s <;> simp [hi]
  · by_cases hi : i ∈ s <;> simp [hi, hj]

theorem mem_foldl_toggle :
    j ∈ (range n).foldl CommitFilterResult.toggle s ↔ if j < n then j ∉ s else j ∈ s := by
  induction n with
  | zero => simp
  | succ n ih =>
    rw [range_succ, foldl_append, foldl_cons, foldl_nil, mem_toggle]
    by_cases hj : j = n
    · subst j
      simp [ih]
    have hlt : j < n + 1 ↔ j < n := by omega
    simp [hj, ih, hlt]

theorem Decides.invert {files : List FileDiff} (hd : lc.diff = .ok files)
    (h : Decides files.length c truth isNil) : ∃ c', c.invert lc = .ok c' ∧
      Decides files.length c' (fun view => !truth view)
        (!isNil && (range files.length).all fun i => !truth (some i)) := by
  have hfile : ∀ i < files.length, denote c (some i) = truth (some i) :=
    fun i hi => h.agrees (some i) (by simpa [InDiff] using hi)
  have hnil := h.nil
  obtain ⟨flag, set⟩ := c
  have hflag : flag = truth none := h.agrees none (by simp [InDiff])
  cases set with
  | none =>
    refine ⟨⟨!flag, some ∅⟩, rfl, by simp, fun view hv => ?_, by simp [hnil.mp rfl]⟩
    cases view with
    | none => exact congrArg (!·) hflag
    | some i => simp [denote, ← hfile i (hv i rfl)]
  | some s =>
    have hff : isNil = false := by simpa using hnil
    simp only [denote] at hfile
    by_cases hs : s = ∅
    · subst s
      refine ⟨⟨!flag, none⟩, rfl, by simp, fun view hv => ?_, ?_⟩
      · cases view with
        | none => exact congrArg (!·) hflag
        | some i => simp [denote, ← hfile i (hv i rfl)]
      · simp only [hff, Bool.not_false, Bool.true_and, true_iff, all_eq_true, mem_range]
        intro i hi
        simp [← hfile i hi]
    · have hcard : s.card ≠ 0 := by simpa using hs
      refine ⟨⟨!flag, some ((range files.length).foldl CommitFilterResult.toggle s)⟩,
        by simp [CommitFilterResult.invert, hcard, hd], ?_, fun view hv => ?_, ?_⟩
      · intro t ht i hi
        rw [← Option.some.inj ht, mem_foldl_toggle] at hi
        by_contra hge
        rw [if_neg hge] at hi
        exact hge (h.within s rfl i hi)
      · cases view with
        | none => exact congrArg (!·) hflag
        | some i =>
          have hi := hv i rfl
          simp [denote, mem_foldl_toggle, hi, ← hfile i hi]
      · obtain ⟨j, hj⟩ := Finset.nonempty_iff_ne_empty.mpr hs
        have hlt := h.within s rfl j hj
        simp only [hff, Bool.not_false, Bool.true_and, reduceCtorEq, false_iff, all_eq_true,
          mem_range, not_forall]
        exact ⟨j, hlt, by simp [← hfile j hlt, hj]⟩

theorem Decides.satisfies (h : Decides n c truth isNil) : c.satisfies = judged n truth isNil := by
  have hfile : ∀ i < n, denote c (some i) = truth (some i) :=
    fun i hi => h.agrees (some i) (by simpa [InDiff] using hi)
  have hflag : c.commitMatched = truth none := h.agrees none (by simp [InDiff])
  have hnil := h.nil
  rw [judged, ← hflag, CommitFilterResult.satisfies]
  congr 1
  cases hset : c.matchedFileDiffs with
  | none => simp [hnil.mp hset]
  | some s =>
    have hff : isNil = false := by
      rw [hset] at hnil
      simpa using hnil
    rw [hff, Bool.eq_iff_iff]
    simp only [decide_eq_true_eq, Finset.card_pos, Bool.not_false, Bool.true_and, any_eq_true,
      mem_range]
    refine exists_congr fun i => ⟨fun hi => ?_, fun ⟨hi, htrue⟩ => ?_⟩
    · have hlt := h.within s hset i hi
      refine ⟨hlt, ?_⟩
      rw [← hfile i hlt]
      simpa [denote, hset] using hi
    · rw [← hfile i hi] at htrue
      simpa [denote, hset] using htrue

end Results

section Matching

variable {lc : LazyCommit} {files : List FileDiff} {date : ℤ} {listed : Regexp → Bool}
  {t o : MatchTree} {operands : List MatchTree}

theorem factsOf_some (hi : i < files.length) : factsOf listed files (some i) =
    { fileFacts files[i] with
      diffModifiesFile := fun re => listed re && (fileFacts files[i]).diffModifiesFile re } := by
  simp [factsOf, hi]

theorem matchFiles_decides {truth : Option ℕ → Bool} (hn : truth none = false)
    (hs : ∀ i, (hi : i < files.length) → truth (some i) = (highlights files[i]).isSome) :
    Decides files.length (matchFiles highlights files).1 truth false := by
  have hmem : ∀ i, (∃ s, (matchFiles highlights files).1.matchedFileDiffs = some s ∧ i ∈ s) ↔
      ∃ h : i < files.length, (highlights files[i]).isSome = true := by
    intro i
    simp only [matchFiles, Option.some.injEq, exists_eq_left', mem_toFinset, mem_map,
      mem_filterMap, Option.map_eq_some_iff, Prod.exists, mk_mem_zipIdx_iff_getElem?,
      Option.isSome_iff_exists]
    constructor
    · rintro ⟨a, b, ⟨fd, j, hj, x, hx, he⟩, rfl⟩
      obtain ⟨rfl, rfl⟩ := Prod.mk.inj he
      obtain ⟨hlt, rfl⟩ := List.getElem?_eq_some_iff.mp hj
      exact ⟨hlt, x, hx⟩
    · rintro ⟨hlt, x, hx⟩
      exact ⟨i, x, ⟨files[i], i, by simp [hlt], x, hx, rfl⟩, rfl⟩
  refine ⟨fun s hset i hi => ((hmem i).mp ⟨s, hset, hi⟩).1, fun view hv => ?_, by simp [matchFiles]⟩
  cases view with
  | none => rw [hn]; rfl
  | some i =>
    have hi := hv i rfl
    rw [hs i hi]
    have hm := hmem i
    simp only [matchFiles, Option.some.injEq, exists_eq_left'] at hm
    simp [denote, matchFiles, hm, hi]

theorem isEmpty_filterMap_zipIdx (f : α × ℕ → Option β) (p : α → Bool)
    (h : ∀ x i, (f (x, i)).isSome = p x) (l : List α) (k : ℕ) :
    ((l.zipIdx k).filterMap f).isEmpty = !l.any p := by
  induction l generalizing k with
  | nil => rfl
  | cons x rest ih =>
    have hx := h x k
    rw [zipIdx_cons, filterMap_cons]
    cases hf : f (x, k) <;> rw [hf] at hx <;> simp [ih, ← hx]

theorem lineHighlights_isEmpty (re : Regexp) (body : Bytes) :
    (lineHighlights re body).isEmpty = !(readLines body []).any (lineMatches re) := by
  apply isEmpty_filterMap_zipIdx
  intro line i
  cases hl : changedLine line with
  | none => simp [lineMatches, hl]
  | some cnt => by_cases hm : re.matches cnt <;> simp [lineMatches, hl, hm]

theorem diffHighlights_isSome (re : Regexp) (fd : FileDiff) :
    (diffHighlights re fd).isSome = (fileFacts fd).diffMatches re := by
  have hempty : (hunkHighlights re fd).isEmpty = !(fileFacts fd).diffMatches re := by
    apply isEmpty_filterMap_zipIdx
    intro body i
    simp only [lineHighlights_isEmpty]
    by_cases hb : (readLines body []).any (lineMatches re) = true <;> simp [hb]
  unfold diffHighlights
  rw [hempty]
  by_cases hb : (fileFacts fd).diffMatches re = true <;> simp [hb]

theorem nameHighlights_isSome (re : Regexp) (fd : FileDiff) :
    (nameHighlights re fd).isSome = (fileFacts fd).diffModifiesFile re := by
  unfold nameHighlights fileFacts
  by_cases hb : (re.matches fd.origName || re.matches fd.newName) = true <;> simp [hb]

def Returns (n : ℕ) (truth : Option ℕ → Bool) (isNil : Bool)
    (outcome : Except Fault (CommitFilterResult × MatchedCommit)) : Prop :=
  ∃ r m, outcome = .ok (r, m) ∧ Decides n r truth isNil

/-- The tree is matched as its formula says. -/
def Right (lc : LazyCommit) (files : List FileDiff) (date : ℤ) (listed : Regexp → Bool)
    (t : MatchTree) : Prop :=
  Returns files.length (fun view => formula lc date (factsOf listed files view) t)
    (nilSet lc date (factsOf listed files) files.length t) (matchCommit lc t)

theorem modifies_right (hr : Readable lc files date)
    (hs : Seen lc listed files (.diffModifiesFile re)) :
    Right lc files date listed (.diffModifiesFile re) := by
  by_cases hm : modifiesMatchingFile re lc = true
  · refine ⟨_, _, by rw [matchCommit, if_pos hm, LazyCommit.fetch, hr.diff]; rfl, ?_⟩
    refine matchFiles_decides rfl fun i hi => ?_
    rw [nameHighlights_isSome, factsOf_some hi, formula, Bool.and_eq_right_iff_imp]
    intro hname
    rw [hs _ (getElem_mem hi) hname, hm]
  · refine ⟨filterResult false, .empty, by rw [matchCommit, if_neg hm],
      decides_filterResult fun view hv => ?_⟩
    cases view with
    | none => rfl
    | some i =>
      have hi := hv i rfl
      rw [factsOf_some hi, formula]
      by_cases hname : (fileFacts files[i]).diffModifiesFile re = true
      · simp [hs _ (getElem_mem hi) hname, hm]
      · simp [hname]

theorem atom_right (hr : Readable lc files date) (ht : IsAtom t) (hs : Seen lc listed files t) :
    Right lc files date listed t := by
  cases t with
  | authorMatches re | committerMatches re | constant val =>
    exact ⟨_, _, rfl, decides_filterResult fun _ _ => rfl⟩
  | commitBefore time | commitAfter time =>
    refine ⟨_, .empty, ?_, decides_filterResult fun _ _ => rfl⟩
    rw [matchCommit, hr.date]
    rfl
  | messageMatches re =>
    by_cases hm : re.matches lc.message = true
    · refine ⟨_, _, by rw [matchCommit, if_pos hm], ?_⟩
      rw [nilSet, formula, hm]
      exact decides_filterResult fun _ _ => hm
    · rw [Bool.not_eq_true] at hm
      refine ⟨_, _, by rw [matchCommit, if_neg (by simp [hm])], ?_⟩
      rw [nilSet, formula, hm]
      exact decides_filterResult fun _ _ => hm
  | diffMatches re =>
    refine ⟨_, _, by rw [matchCommit, LazyCommit.fetch, hr.diff]; rfl, ?_⟩
    refine matchFiles_decides rfl fun i hi => ?_
    rw [diffHighlights_isSome, factsOf_some hi]
    rfl
  | diffModifiesFile re => exact modifies_right hr hs
  | operator kind operands => exact ht.elim

theorem matchOr_right (h : ∀ o ∈ operands, Right lc files date listed o)
    (hm : Decides files.length merged truth isNil) (found : MatchedCommit) :
    Returns files.length
      (fun view => truth view || formulaAny lc date (factsOf listed files view) operands)
      (isNil || nilAny lc date (factsOf listed files) files.length operands)
      (matchOr lc operands merged found) := by
  induction operands generalizing merged truth isNil found with
  | nil =>
    refine ⟨_, _, rfl, hm.within, fun view hv => ?_, ?_⟩
    · rw [hm.agrees view hv, formulaAny, Bool.or_false]
    · rw [nilAny, Bool.or_false]
      exact hm.nil
  | cons o rest ih =>
    obtain ⟨r, m, hok, hd⟩ := h o mem_cons_self
    obtain ⟨r', m', hok', hd'⟩ := ih (forall_mem_cons.mp h).2 (hm.union hd)
      (if (merged.union r).satisfies then found.merge m else found)
    refine ⟨r', m', by rw [matchOr, hok]; exact hok', hd'.within, fun view hv => ?_, ?_⟩
    · rw [hd'.agrees view hv, formulaAny, Bool.or_assoc]
    · rw [hd'.nil, nilAny, Bool.or_assoc]

/-- An And that stops is false of an unmatched file and of every file, unless what it has seen so far
is blind. -/
theorem stopped_refuted (hpre : pre <+: operands)
    (hb : Blind lc date (factsOf listed files) files.length pre →
      Refuted lc date (factsOf listed files) files.length operands)
    (hstop : judged files.length (fun view => formulaAll lc date (factsOf listed files view) pre)
      (nilAll lc date (factsOf listed files) files.length pre) = false) :
    formulaAll lc date (factsOf listed files none) operands = false ∧
      Refuted lc date (factsOf listed files) files.length operands := by
  obtain ⟨rest, rfl⟩ := hpre
  obtain ⟨hnone, hfiles⟩ := Bool.or_eq_false_iff.mp hstop
  beta_reduce at hnone hfiles
  refine ⟨by rw [formulaAll_append, hnone, Bool.false_and], ?_⟩
  by_cases hnil : nilAll lc date (factsOf listed files) files.length pre = true
  · exact hb ⟨hnone, hnil⟩
  · rw [Bool.not_eq_true] at hnil
    rw [hnil, Bool.not_false, Bool.true_and, any_eq_false] at hfiles
    refine ⟨by rw [nilAll_append, hnil, Bool.false_and], fun i hi => ?_⟩
    have hfalse := hfiles i (mem_range.mpr hi)
    rw [Bool.not_eq_true] at hfalse
    rw [formulaAll_append, hfalse, Bool.false_and]

theorem matchAnd_right (he : operands = before ++ rest)
    (h : ∀ before o after, operands = before ++ o :: after →
      Reached lc date (factsOf listed files) files.length before → Right lc files date listed o)
    (hb : ∀ before, before <+: operands →
      Blind lc date (factsOf listed files) files.length before →
        Refuted lc date (factsOf listed files) files.length operands)
    (hreached : Reached lc date (factsOf listed files) files.length before)
    (hm : Decides files.length merged
      (fun view => formulaAll lc date (factsOf listed files view) before)
      (nilAll lc date (factsOf listed files) files.length before)) (found : MatchedCommit) :
    Returns files.length (fun view => formulaAll lc date (factsOf listed files view) operands)
      (nilAll lc date (factsOf listed files) files.length operands)
      (matchAnd lc rest merged found) := by
  induction rest generalizing before merged found with
  | nil =>
    rw [append_nil] at he
    subst he
    exact ⟨_, _, rfl, hm⟩
  | cons o rest ih =>
    obtain ⟨r, m, hok, hd⟩ := h before o rest he hreached
    have hnext : Decides files.length (merged.intersect r)
        (fun view => formulaAll lc date (factsOf listed files view) (before ++ [o]))
        (nilAll lc date (factsOf listed files) files.length (before ++ [o])) := by
      have hboth := hm.intersect hd
      simpa only [formulaAll_append, nilAll_append, formulaAll, nilAll, Bool.and_true] using hboth
    have hpre : before ++ [o] <+: operands := ⟨rest, by rw [he]; simp⟩
    rw [matchAnd, hok]
    by_cases hsat : (merged.intersect r).satisfies = true
    · have hreached' : Reached lc date (factsOf listed files) files.length (before ++ [o]) := by
        intro pre hpre
        rcases prefix_concat_iff.mp hpre with rfl | hpre
        · rw [← hnext.satisfies]
          exact hsat
        · exact hreached pre hpre
      have hrun := ih (by rw [he]; simp) hreached' hnext (found.merge m)
      simpa [Except.bind, hsat] using hrun
    · rw [hnext.satisfies, Bool.not_eq_true] at hsat
      obtain ⟨hnone, hnil, hfiles⟩ := stopped_refuted hpre (hb _ hpre) hsat
      refine ⟨filterResult false, .empty, by simp [Except.bind, hnext.satisfies, hsat], ?_⟩
      rw [hnil]
      refine decides_filterResult fun view hv => ?_
      cases view with
      | none => exact hnone
      | some i => exact hfiles i (hv i rfl)

/-- A sighted tree is matched as its formula says, whatever it negates. -/
theorem Sighted.right (hr : Readable lc files date) (h : Sighted lc date listed files t) :
    Right lc files date listed t := by
  induction h with
  | atom ha hs => exact atom_right hr ha hs
  | @not operand rest _ ih =>
    obtain ⟨r, m, hok, hd⟩ := ih
    obtain ⟨r', hinvert, hd'⟩ := hd.invert hr.diff
    exact ⟨r', .empty, by simp [matchCommit, matchNot, hok, Except.bind, hinvert, Except.map], hd'⟩
  | @and operands _ hb ih =>
    have he : operands = [] ++ operands := rfl
    have hstart : Reached lc date (factsOf listed files) files.length [] := by
      intro pre hpre
      rw [prefix_nil.mp hpre]
      rfl
    exact matchAnd_right he ih hb hstart (decides_filterResult fun _ _ => rfl) .empty
  | or _ ih =>
    have hstart : Decides files.length ⟨false, some ∅⟩ (fun _ => false) false :=
      decides_filterResult fun _ _ => rfl
    have hright := matchOr_right ih hstart .empty
    simp only [Bool.false_or] at hright
    exact hright

/-- The files as `Match` sees them. -/
def looked (lc : LazyCommit) (files : List FileDiff) : Option ℕ → FileFacts :=
  factsOf (fun re => modifiesMatchingFile re lc) files

theorem atom_nilSet (ht : IsAtom t) : nilSet lc date views n t = formula lc date unmatched t := by
  cases t <;> first | rfl | exact ht.elim

theorem atom_sighted (ht : IsAtom t) :
    Sighted lc date (fun re => modifiesMatchingFile re lc) files t := by
  refine .atom ht ?_
  cases t with
  | diffModifiesFile re => exact fun _ _ _ => rfl
  | _ => trivial

theorem formulaAll_unmatched (h : ∀ o ∈ operands, nilSet lc date views n o = true →
      formula lc date unmatched o = true) :
    nilAll lc date views n operands = true → formulaAll lc date unmatched operands = true := by
  induction operands with
  | nil => exact fun _ => rfl
  | cons o rest ih =>
    intro hnil
    obtain ⟨ho, hrest⟩ := Bool.and_eq_true_iff.mp hnil
    rw [formulaAll, h o mem_cons_self ho, ih (forall_mem_cons.mp h).2 hrest]
    rfl

theorem formulaAny_unmatched (h : ∀ o ∈ operands, nilSet lc date views n o = true →
      formula lc date unmatched o = true) :
    nilAny lc date views n operands = true → formulaAny lc date unmatched operands = true := by
  induction operands with
  | nil => exact fun hnil => absurd hnil Bool.false_ne_true
  | cons o rest ih =>
    intro hnil
    rw [formulaAny, Bool.or_eq_true_iff]
    exact (Bool.or_eq_true_iff.mp hnil).imp (h o mem_cons_self) (ih (forall_mem_cons.mp h).2)

end Matching

/-- `Match` satisfies a commit exactly when the formula holds at some file of its diff. -/
def DecidesPerFile (lc : LazyCommit) (files : List FileDiff) (date : ℤ) (t : MatchTree) : Prop :=
  ∃ r m, matchCommit lc t = .ok (r, m) ∧
    (r.satisfies = true ↔ ∃ fileDiff ∈ files, formula lc date (fileFacts fileDiff) t = true)

/-- The facts of the files alone, whatever name-status lists. -/
def perFile (files : List FileDiff) : Option ℕ → FileFacts := factsOf (fun _ => true) files

/-- True of a file that no per-file atom matches, and false of every file of the diff. -/
def Anomalous (lc : LazyCommit) (files : List FileDiff) (date : ℤ) (t : MatchTree) : Prop :=
  formula lc date unmatched t = true ∧
    ∀ fileDiff ∈ files, formula lc date (fileFacts fileDiff) t = false

theorem any_file_iff (files : List FileDiff) (p : FileFacts → Bool) :
    ((range files.length).any fun i => p (perFile files (some i))) = true ↔
      ∃ fileDiff ∈ files, p (fileFacts fileDiff) = true := by
  rw [any_eq_true]
  constructor
  · rintro ⟨i, hi, htrue⟩
    rw [mem_range] at hi
    rw [perFile, factsOf_some hi] at htrue
    exact ⟨files[i], getElem_mem hi, htrue⟩
  · rintro ⟨fileDiff, hmem, htrue⟩
    obtain ⟨i, hi, rfl⟩ := getElem_of_mem hmem
    refine ⟨i, mem_range.mpr hi, ?_⟩
    rw [perFile, factsOf_some hi]
    exact htrue

theorem verdict_right_iff (flag isNil holds : Bool) (h : isNil = true → holds = true) :
    ((flag || (!isNil && holds)) = true ↔ holds = true) ↔
      ¬ (flag = true ∧ holds = false) ∧ ¬ (flag = false ∧ isNil = true) := by
  cases flag <;> cases isNil <;> cases holds <;> simp_all

/-- The verdict on a sighted tree is right unless the tree is anomalous or blind. -/
theorem match_satisfies_per_file (hr : Readable lc files date) (hne : files ≠ []) (t : MatchTree)
    (ht : Sighted lc date (fun _ => true) files t) :
    DecidesPerFile lc files date t ↔ ¬ Anomalous lc files date t ∧
      ¬ Blind lc date (perFile files) files.length [t] := by
  obtain ⟨r, m, hok, hd⟩ := ht.right hr
  have hfile := any_file_iff files fun facts => formula lc date facts t
  have hcor : DecidesPerFile lc files date t ↔ (r.satisfies = true ↔
      ∃ fileDiff ∈ files, formula lc date (fileFacts fileDiff) t = true) := by
    constructor
    · rintro ⟨r', m', hok', hiff⟩
      rw [hok] at hok'
      obtain ⟨rfl, rfl⟩ := Prod.mk.inj (Except.ok.inj hok')
      exact hiff
    · exact fun hiff => ⟨r, m, hok, hiff⟩
  have hblind : Blind lc date (perFile files) files.length [t] ↔
      formula lc date unmatched t = false ∧ nilSet lc date (perFile files) files.length t = true := by
    rw [Blind, formulaAll, formulaAll, nilAll, nilAll, Bool.and_true, Bool.and_true]
    rfl
  have hanomalous : Anomalous lc files date t ↔ formula lc date unmatched t = true ∧
      ((range files.length).any fun i => formula lc date (perFile files (some i)) t) = false := by
    rw [Anomalous, ← Bool.not_eq_true, hfile]
    simp
  have hall : nilSet lc date (perFile files) files.length t = true →
      ((range files.length).any fun i => formula lc date (perFile files (some i)) t) = true := by
    intro hnil
    have hpos : 0 < files.length := length_pos_iff.mpr hne
    exact any_eq_true.mpr ⟨0, mem_range.mpr hpos, formula_of_nilSet hpos t hnil⟩
  rw [hcor, hd.satisfies, ← hfile, hblind, hanomalous, judged]
  exact verdict_right_iff _ _ _ hall

def exactly (text : String) : Regexp :=
  ⟨fun content => if content = GoStrings.bytes text then [(0, content.length)] else []⟩

def fooCommit : LazyCommit where
  authorName := GoStrings.bytes "x"
  authorEmail := []
  committerName := []
  committerEmail := []
  committerDate := GoStrings.bytes "0"
  message := []
  modifiedFiles := [GoStrings.bytes "M", GoStrings.bytes "foo"]
  diff := .ok [⟨GoStrings.bytes "foo", GoStrings.bytes "foo", []⟩]

def fooFiles : List FileDiff := [⟨GoStrings.bytes "foo", GoStrings.bytes "foo", []⟩]

theorem fooCommit_readable : Readable fooCommit fooFiles 0 := ⟨rfl, rfl⟩

/-- `author:x -file:foo` on that commit: no file qualifies and yet the commit is satisfied. -/
theorem author_without_foo_satisfied :
    Readable fooCommit fooFiles 0 ∧ fooFiles ≠ [] ∧
      ¬ DecidesPerFile fooCommit fooFiles 0
        (.operator .and [.authorMatches (exactly "x"),
          .operator .not [.diffModifiesFile (exactly "foo")]]) := by
  refine ⟨fooCommit_readable, by decide, ?_⟩
  rintro ⟨r, m, hok, hiff⟩
  have hrun : (matchCommit fooCommit (.operator .and [.authorMatches (exactly "x"),
      .operator .not [.diffModifiesFile (exactly "foo")]])).map (fun p => p.1.satisfies) =
      .ok true := by rfl
  rw [hok] at hrun
  obtain ⟨fd, hmem, ht⟩ := hiff.mp (Except.ok.inj hrun)
  have hfi : fd = ⟨GoStrings.bytes "foo", GoStrings.bytes "foo", []⟩ := by
    simpa [fooFiles] using hmem
  subst fd
  exact absurd ht (by decide)

/-- The inner negation is anomalous, and the And does not come to it. -/
theorem other_author_decided :
    DecidesPerFile fooCommit fooFiles 0 (.operator .and [.authorMatches (exactly "y"),
      .operator .not [.operator .not [.diffModifiesFile (exactly "foo")]]]) := by
  refine (match_satisfies_per_file fooCommit_readable (by decide) _ (.and ?_ ?_)).mpr ⟨?_, ?_⟩
  · intro before o after he hreached
    cases before with
    | nil =>
      obtain ⟨rfl, -⟩ := cons.inj he
      exact .atom trivial trivial
    | cons first before =>
      obtain ⟨rfl, -⟩ := cons.inj he
      exact absurd (hreached [.authorMatches (exactly "y")] (by simp)) (by decide)
  · intro before hbefore hblind
    cases before with
    | nil => exact absurd hblind.1 (by decide)
    | cons first before =>
      obtain ⟨rfl, -⟩ := cons_prefix_cons.mp hbefore
      exact absurd (Bool.and_eq_true_iff.mp hblind.2).1 (by decide)
  · rintro ⟨hflag, -⟩
    exact absurd hflag (by decide)
  · rintro ⟨-, hnil⟩
    exact absurd hnil (by decide)

end CommitVerdict
