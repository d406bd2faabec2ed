import Sourcegraph.CommitVerdict

/-! # Reduction and the matches of a commit query

The match tree built from the reduced query is compared with that of the query itself. A file atom
is looked up in the diff only if it matches a name that name-status lists, and a merged regexp may be
looked up where one of the two was not. -/
namespace CommitReduction

open List
open GoStrings (Bytes)
open CommitQueryReduce (MatchField Node Assignment Runtime union Shaped Scope eval reduce)
open CommitMatchTree
open CommitVerdict

def atomOf : MatchField → Regexp → MatchTree
  | .author => .authorMatches
  | .committer => .committerMatches
  | .message => .messageMatches
  | .diff => .diffMatches
  | .modifiesFile => .diffModifiesFile

theorem toMatchTree_regexp (fd : MatchField)
    : toMatchTree comp (.regexp fd expr ic) = (comp expr ic).map (atomOf fd) := by
  cases fd <;> rfl

theorem atomOf_isAtom (fd : MatchField) : CommitVerdict.IsAtom (atomOf fd re) := by
  cases fd <;> trivial

def Compiles (compileRegexp : Compiler) (expr : String) (ignoreCase : Bool) : Prop :=
  ∃ re, compileRegexp expr ignoreCase = .ok re

def RegexpsAlternate (compileRegexp : Compiler) : Prop :=
  ∀ left right ignoreCase l r, compileRegexp left ignoreCase = .ok l →
    compileRegexp right ignoreCase = .ok r →
    ∃ u, compileRegexp (union left right) ignoreCase = .ok u ∧
      ∀ content, u.matches content = (l.matches content || r.matches content)

/-- A name of the file matches `b`, which no listed name does, and only `a` is looked up. -/
def Unmasks (lc : LazyCommit) (a b : Regexp) (fileDiff : FileDiff) : Prop :=
  modifiesMatchingFile a lc = true ∧ modifiesMatchingFile b lc = false ∧
    (fileFacts fileDiff).diffModifiesFile a = false ∧
    (fileFacts fileDiff).diffModifiesFile b = true

def Agree (lc : LazyCommit) (files : List FileDiff) (a b : Regexp) : Prop :=
  ∀ fileDiff ∈ files, ¬ Unmasks lc a b fileDiff ∧ ¬ Unmasks lc b a fileDiff

def Mergeable (compileRegexp : Compiler) (lc : LazyCommit) (files : List FileDiff)
    (key : MatchField × Bool) (left right : String) : Prop :=
  ∃ l r, compileRegexp left key.2 = .ok l ∧ compileRegexp right key.2 = .ok r ∧
    (key.1 = .modifiesFile → Agree lc files l r)

theorem any_or_distrib (l : List α) (p q : α → Bool) :
    (l.any fun x => p x || q x) = (l.any p || l.any q) := by
  rw [Bool.eq_iff_iff]
  simp [and_or_left, exists_or]

section Atoms

variable {lc : LazyCommit} {files : List FileDiff} {date : ℤ} {u l r : Regexp}

theorem matches_either_union (h : ∀ content, u.matches content =
      (l.matches content || r.matches content)) (a b : Bytes) :
    (u.matches a || u.matches b) =
      ((l.matches a || l.matches b) || (r.matches a || r.matches b)) := by
  rw [h, h]
  cases l.matches a <;> cases r.matches a <;> simp

theorem modifiesMatchingFile_union (h : ∀ content, u.matches content =
      (l.matches content || r.matches content)) :
    modifiesMatchingFile u lc = (modifiesMatchingFile l lc || modifiesMatchingFile r lc) := by
  unfold modifiesMatchingFile
  rw [← any_or_distrib, funext h]

theorem fileFacts_union (h : ∀ content, u.matches content =
      (l.matches content || r.matches content)) (fileDiff : FileDiff) :
    (fileFacts fileDiff).diffModifiesFile u = ((fileFacts fileDiff).diffModifiesFile l ||
      (fileFacts fileDiff).diffModifiesFile r) :=
  matches_either_union h _ _

theorem agree_union {e : Regexp} (h : ∀ content, u.matches content =
      (l.matches content || r.matches content)) (hl : Agree lc files l e)
    (hr : Agree lc files r e) : Agree lc files u e := by
  intro fileDiff hf
  obtain ⟨hle, hel⟩ := hl fileDiff hf
  obtain ⟨hre, her⟩ := hr fileDiff hf
  unfold Unmasks at *
  rw [modifiesMatchingFile_union h, fileFacts_union h]
  grind

/-- Looking the merged regexp up is looking both up, exactly if they agree. -/
theorem lookup_union_iff (h : ∀ content, u.matches content =
      (l.matches content || r.matches content)) (fileDiff : FileDiff) :
    ((modifiesMatchingFile u lc && (fileFacts fileDiff).diffModifiesFile u) =
      (modifiesMatchingFile l lc && (fileFacts fileDiff).diffModifiesFile l ||
        modifiesMatchingFile r lc && (fileFacts fileDiff).diffModifiesFile r)) ↔
      ¬ Unmasks lc l r fileDiff ∧ ¬ Unmasks lc r l fileDiff := by
  unfold Unmasks
  rw [modifiesMatchingFile_union h, fileFacts_union h]
  cases modifiesMatchingFile l lc <;> cases modifiesMatchingFile r lc <;>
    cases (fileFacts fileDiff).diffModifiesFile l <;>
    cases (fileFacts fileDiff).diffModifiesFile r <;> simp

end Atoms

def compiledScope {compileRegexp : Compiler} (h : RegexpsAlternate compileRegexp)
    (lc : LazyCommit) (files : List FileDiff) : Scope where
  compiles := Compiles compileRegexp
  mergeable := Mergeable compileRegexp lc files
  symm := by
    rintro key left right ⟨l, r, hl, hr, hagree⟩
    exact ⟨r, l, hr, hl, fun hk fileDiff hf => (hagree hk fileDiff hf).symm⟩
  union_compiles := by
    rintro left right ignoreCase ⟨l, hl⟩ ⟨r, hr⟩
    obtain ⟨u, hu, _⟩ := h left right ignoreCase l r hl hr
    exact ⟨u, hu⟩
  union_mergeable := by
    rintro key left right expr ⟨l, e, hl, he, hle⟩ ⟨r, e', hr, he', hre⟩
    obtain rfl := Except.ok.inj (he.symm.trans he')
    obtain ⟨u, hu, hm⟩ := h left right key.2 l r hl hr
    exact ⟨u, e, hu, he, fun hk => agree_union hm (hle hk) (hre hk)⟩
  negatable := CommitQueryReduce.IsAtom

def assignment (compileRegexp : Compiler) (lc : LazyCommit) (date : ℤ) (facts : FileFacts) :
    Assignment where
  regexp field expr ignoreCase := match compileRegexp expr ignoreCase with
    | .error _ => false
    | .ok re => formula lc date facts (atomOf field re)
  commitBefore time := decide (date < time)
  commitAfter time := decide (time < date)

/-- Alternation of regexps carries over to the atoms, to `DiffModifiesFile` as far as the two
regexps agree. -/
theorem atoms_alternate (hm : ∀ content, u.matches content = (l.matches content || r.matches content))
    (field : MatchField) (hagree : field = .modifiesFile → Agree lc files l r)
    (hv : InDiff files.length view) :
    formula lc date (looked lc files view) (atomOf field u) =
      (formula lc date (looked lc files view) (atomOf field l) ||
        formula lc date (looked lc files view) (atomOf field r)) := by
  cases field with
  | author | committer => exact matches_either_union hm _ _
  | message => exact hm _
  | diff =>
    cases view with
    | none => rfl
    | some i =>
      rw [looked, factsOf_some (hv i rfl)]
      have hln : lineMatches u = fun line => lineMatches l line || lineMatches r line := by
        funext line
        cases hc : changedLine line <;> simp [lineMatches, hc, hm]
      simp [atomOf, formula, fileFacts, hln, any_or_distrib]
  | modifiesFile =>
    cases view with
    | none => rfl
    | some i =>
      have hi := hv i rfl
      rw [looked, factsOf_some hi]
      exact (lookup_union_iff hm files[i]).mpr (hagree rfl _ (getElem_mem hi))

theorem assignment_alternates (h : RegexpsAlternate comp) (hv : InDiff fs.length view) :
    (assignment comp lc date (looked lc fs view)).Alternates (Mergeable comp lc fs) := by
  rintro field left right ic ⟨l, r, hl, hr, hagree⟩
  obtain ⟨u, hu, hm⟩ := h left right ic l r hl hr
  simp only [assignment, hl, hr, hu]
  exact atoms_alternate hm field hagree hv

/-- A tree that negates atoms only is sighted, as its set is nil only if its flag is set. -/
structure Compiled (compileRegexp : Compiler) (lc : LazyCommit) (files : List FileDiff) (date : ℤ)
    (n : Node) (t : MatchTree) : Prop where
  sighted : Sighted lc date (fun re => modifiesMatchingFile re lc) files t
  flagged : nilSet lc date (looked lc files) files.length t = true →
    formula lc date unmatched t = true
  atom : CommitQueryReduce.IsAtom n → IsAtom t
  meaning : ∀ facts, formula lc date facts t = eval (assignment compileRegexp lc date facts) n

section Compilation

variable {comp : Compiler} {lc : LazyCommit} {fs : List FileDiff} {date : ℤ}
  {subs : List MatchTree} {os : List Node}

theorem Compiled.formulaAll (h : Forall₂ (Compiled comp lc fs date) os subs) :
    formulaAll lc date fcs subs = CommitQueryReduce.evalAll (assignment comp lc date fcs) os := by
  induction h with
  | nil => rfl
  | cons hc _ ih => rw [CommitVerdict.formulaAll, CommitQueryReduce.evalAll, hc.meaning, ih]

theorem Compiled.formulaAny (h : Forall₂ (Compiled comp lc fs date) os subs) :
    formulaAny lc date fcs subs = CommitQueryReduce.evalAny (assignment comp lc date fcs) os := by
  induction h with
  | nil => rfl
  | cons hc _ ih => rw [CommitVerdict.formulaAny, CommitQueryReduce.evalAny, hc.meaning, ih]

theorem Compiled.of_mem (h : Forall₂ (Compiled comp lc fs date) os subs) (ht : t ∈ subs) :
    ∃ n, Compiled comp lc fs date n t := by
  induction h with
  | nil => cases ht
  | cons hc _ ih =>
    rcases mem_cons.mp ht with rfl | ht
    · exact ⟨_, hc⟩
    · exact ih ht

theorem compiled_operator {kind : CommitQueryReduce.OperatorKind}
    (hneg : kind = .not → ∃ first rest, os = first :: rest ∧ CommitQueryReduce.IsAtom first)
    (h : Forall₂ (Compiled comp lc fs date) os subs) :
    Compiled comp lc fs date (.operator kind os) (.operator kind subs) := by
  have hsighted : ∀ o ∈ subs, Sighted lc date (fun re => modifiesMatchingFile re lc) fs o := by
    intro o ho
    obtain ⟨_, hc⟩ := Compiled.of_mem h ho
    exact hc.sighted
  have hflagged : ∀ o ∈ subs, nilSet lc date (looked lc fs) fs.length o = true →
      formula lc date unmatched o = true := by
    intro o ho
    obtain ⟨_, hc⟩ := Compiled.of_mem h ho
    exact hc.flagged
  cases kind with
  | and =>
    refine ⟨.and ?_ ?_, formulaAll_unmatched hflagged, fun ha => ha.elim,
      fun _ => Compiled.formulaAll h⟩
    · rintro before o after rfl -
      exact hsighted o (by simp)
    · rintro before hpre ⟨hfalse, hnil⟩
      have htrue := formulaAll_unmatched (fun o ho => hflagged o (hpre.subset ho)) hnil
      exact absurd (hfalse.symm.trans htrue) Bool.false_ne_true
  | or =>
    exact ⟨.or hsighted, formulaAny_unmatched hflagged, fun ha => ha.elim,
      fun _ => Compiled.formulaAny h⟩
  | not =>
    obtain ⟨first, rest, rfl, hat⟩ := hneg rfl
    cases h with
    | cons hc _ =>
      refine ⟨.not hc.sighted, fun hnil => ?_, fun ha => ha.elim, fun facts => ?_⟩
      · have hoff := (Bool.and_eq_true_iff.mp hnil).1
        rwa [nilFirst, atom_nilSet (hc.atom hat)] at hoff
      · exact congrArg (!·) (hc.meaning facts)

theorem toMatchTrees_compiled (h : ∀ o ∈ os, ∃ t, toMatchTree comp o = .ok t ∧
      Compiled comp lc fs date o t) :
    ∃ subs, toMatchTrees comp os = .ok subs ∧ Forall₂ (Compiled comp lc fs date) os subs := by
  induction os with
  | nil => exact ⟨[], rfl, .nil⟩
  | cons od rest ih =>
    obtain ⟨t, ht, hc⟩ := h od mem_cons_self
    obtain ⟨subs, hsu, hall⟩ := ih (forall_mem_cons.mp h).2
    refine ⟨t :: subs, ?_, .cons hc hall⟩
    rw [toMatchTrees, ht, hsu]
    rfl

theorem compiled_atom (ht : IsAtom t)
    (h : ∀ facts, formula lc date facts t = eval (assignment comp lc date facts) n) :
    Compiled comp lc fs date n t := by
  refine ⟨atom_sighted ht, fun hnil => ?_, fun _ => ht, h⟩
  rwa [atom_nilSet ht] at hnil

theorem compiled_regexp (hre : comp expr ic = .ok re) (field : MatchField) :
    Compiled comp lc fs date (.regexp field expr ic) (atomOf field re) :=
  compiled_atom (atomOf_isAtom field) fun _ => by simp [eval, assignment, hre]

theorem toMatchTree_compiled (h : RegexpsAlternate comp)
    (hn : Shaped (compiledScope h lc fs) n) :
    ∃ t, toMatchTree comp n = .ok t ∧ Compiled comp lc fs date n t := by
  induction hn with
  | regexp fd expr ic hre =>
    obtain ⟨re, hre⟩ := hre
    exact ⟨atomOf fd re, by rw [toMatchTree_regexp, hre]; rfl, compiled_regexp hre fd⟩
  | commitBefore time | commitAfter time | boolean val =>
    exact ⟨_, rfl, compiled_atom trivial fun _ => rfl⟩
  | operator kind os hneg _ _ ih =>
    obtain ⟨subs, hsu, hall⟩ := toMatchTrees_compiled ih
    exact ⟨.operator kind subs, by rw [toMatchTree, hsu]; rfl, compiled_operator hneg hall⟩

end Compilation

def fileSet (n : ℕ) (c : CommitFilterResult) : Finset ℕ := c.matchedFileDiffs.getD (.range n)

theorem mem_fileSet (hc : Decides n c truth isNil) :
    i ∈ fileSet n c ↔ i < n ∧ truth (some i) = true := by
  have hview : i < n → (denote c (some i) = truth (some i)) :=
    fun hi => hc.agrees (some i) (by simpa [InDiff] using hi)
  have hwithin := hc.within
  obtain ⟨flag, set⟩ := c
  cases set with
  | none =>
    simp only [fileSet, Option.getD_none, Finset.mem_range]
    exact ⟨fun hi => ⟨hi, (hview hi).symm⟩, fun hi => hi.1⟩
  | some s =>
    simp only [fileSet, Option.getD_some]
    constructor
    · intro hi
      have hlt := hwithin s rfl i hi
      exact ⟨hlt, by rw [← hview hlt]; simpa [denote] using hi⟩
    · rintro ⟨hi, htrue⟩
      rw [← hview hi] at htrue
      simpa [denote] using htrue

/-- Both pairs are equal exactly if the truths are. -/
theorem pairs_equal_iff (hc : Decides n c truth isNil) (hc' : Decides n c' truth' isNil') :
    (c'.commitMatched = c.commitMatched ∧ fileSet n c' = fileSet n c) ↔
      ∀ view, InDiff n view → truth' view = truth view := by
  have hnone : InDiff n none := by simp [InDiff]
  rw [show c.commitMatched = truth none from hc.agrees none hnone,
    show c'.commitMatched = truth' none from hc'.agrees none hnone, Finset.ext_iff]
  constructor
  · rintro ⟨hflag, hset⟩ (_ | i) hv
    · exact hflag
    · have hi := hv i rfl
      have hmem := hset i
      rw [mem_fileSet hc, mem_fileSet hc'] at hmem
      simpa [hi] using hmem
  · intro h
    refine ⟨h none hnone, fun i => ?_⟩
    rw [mem_fileSet hc, mem_fileSet hc']
    refine and_congr_right fun hi => ?_
    rw [h (some i) (by simpa [InDiff] using hi)]

/-- The match trees of the query and of the reduced query compute the same pair. -/
def Preserved (rt : Runtime) (compileRegexp : Compiler) (lc : LazyCommit) (files : List FileDiff)
    (n : Node) : Prop :=
  ∃ n' t t' r m r' m', reduce rt n = some n' ∧ toMatchTree compileRegexp n = .ok t ∧
    toMatchTree compileRegexp n' = .ok t' ∧ matchCommit lc t = .ok (r, m) ∧
    matchCommit lc t' = .ok (r', m') ∧ r'.commitMatched = r.commitMatched ∧
    fileSet files.length r' = fileSet files.length r

theorem preserved_iff {rt : Runtime} (hr : Readable lc fs date) (hred : reduce rt n = some n')
    (ht : toMatchTree comp n = .ok t) (ht' : toMatchTree comp n' = .ok t')
    (hc : Compiled comp lc fs date n t) (hc' : Compiled comp lc fs date n' t') :
    Preserved rt comp lc fs n ↔ ∀ view, InDiff fs.length view →
      eval (assignment comp lc date (looked lc fs view)) n' =
        eval (assignment comp lc date (looked lc fs view)) n := by
  obtain ⟨r, m, hok, hd⟩ := hc.sighted.right hr
  obtain ⟨r', m', hok', hd'⟩ := hc'.sighted.right hr
  simp only [hc.meaning] at hd
  simp only [hc'.meaning] at hd'
  rw [looked, ← pairs_equal_iff hd hd']
  constructor
  · rintro ⟨n₂, t₂, t₂', r₂, m₂, r₂', m₂', hred₂, ht₂, ht₂', hok₂, hok₂', heq⟩
    obtain rfl := Option.some.inj (hred.symm.trans hred₂)
    obtain rfl := Except.ok.inj (ht.symm.trans ht₂)
    obtain rfl := Except.ok.inj (ht'.symm.trans ht₂')
    obtain ⟨rfl, rfl⟩ := Prod.mk.inj (Except.ok.inj (hok.symm.trans hok₂))
    obtain ⟨rfl, rfl⟩ := Prod.mk.inj (Except.ok.inj (hok'.symm.trans hok₂'))
    exact heq
  · exact fun heq => ⟨n', t, t', r, m, r', m', hred, ht, ht', hok, hok', heq⟩

theorem preserved_of_shaped (h : RegexpsAlternate comp) (hr : Readable lc fs date)
    (hn : Shaped (compiledScope h lc fs) n) : Preserved rt comp lc fs n := by
  obtain ⟨n', hred, hn', hsm⟩ := CommitQueryReduce.reduce_shaped (fun x hx => hx) hn
  obtain ⟨t, ht, hc⟩ := toMatchTree_compiled h hn
  obtain ⟨t', ht', hc'⟩ := toMatchTree_compiled h hn'
  exact (preserved_iff hr hred ht ht' hc hc').mpr
    fun view hv => hsm _ (assignment_alternates h hv)

/-- `file:left or file:right`, the smallest query with two file atoms to merge. -/
def eitherFile (left right : String) (ignoreCase : Bool) : Node :=
  .operator .or [.regexp .modifiesFile left ignoreCase, .regexp .modifiesFile right ignoreCase]

theorem reduce_eitherFile (left right : String) (ic : Bool) :
    reduce rt (eitherFile left right ic) =
      some (.operator .or [.regexp .modifiesFile (union left right) ic]) := by
  have hone := perm_singleton.mp
    (rt.iterate_perm [] [.regexp .modifiesFile (union left right) ic])
  simp [reduce, eitherFile, CommitQueryReduce.reduceWith, CommitQueryReduce.reduceOperands,
    CommitQueryReduce.defaultReducers, CommitQueryReduce.applyReducers,
    CommitQueryReduce.propagateBoolean, CommitQueryReduce.filterOperands, Except.map,
    CommitQueryReduce.rewriteConjunctive, CommitQueryReduce.splitConjunctions,
    CommitQueryReduce.conjuncts, CommitQueryReduce.flatten, CommitQueryReduce.flattenOperand,
    CommitQueryReduce.mergeOrRegexp, CommitQueryReduce.Mergeable.add,
    CommitQueryReduce.Mergeable.merge, CommitQueryReduce.Mergeable.nodes,
    CommitQueryReduce.newOperator, CommitQueryReduce.sortAndByCost, hone]

theorem eitherFile_preserved_iff (h : RegexpsAlternate comp) (hr : Readable lc fs date)
    (hl : comp left ic = .ok l) (hri : comp right ic = .ok r) :
    Preserved rt comp lc fs (eitherFile left right ic) ↔ Agree lc fs l r := by
  obtain ⟨u, hu, hm⟩ := h left right ic l r hl hri
  have hc : Compiled comp lc fs date (eitherFile left right ic)
      (.operator .or [.diffModifiesFile l, .diffModifiesFile r]) :=
    compiled_operator (by simp) (.cons (compiled_regexp hl .modifiesFile)
      (.cons (compiled_regexp hri .modifiesFile) .nil))
  have hc' : Compiled comp lc fs date (.operator .or [.regexp .modifiesFile (union left right) ic])
      (.operator .or [.diffModifiesFile u]) :=
    compiled_operator (by simp) (.cons (compiled_regexp hu .modifiesFile) .nil)
  rw [preserved_iff hr (reduce_eitherFile left right ic) (by simp [eitherFile, toMatchTree,
    toMatchTrees, hl, hri, Except.map, Except.bind]) (by simp [toMatchTree, toMatchTrees, hu,
    Except.map, Except.bind]) hc hc']
  have hfile : ∀ i, (hi : i < fs.length) →
      ((eval (assignment comp lc date (looked lc fs (some i)))
          (.operator .or [.regexp .modifiesFile (union left right) ic]) =
        eval (assignment comp lc date (looked lc fs (some i))) (eitherFile left right ic)) ↔
      ¬ Unmasks lc l r fs[i] ∧ ¬ Unmasks lc r l fs[i]) := by
    intro i hi
    rw [← lookup_union_iff hm]
    simp [eitherFile, eval, CommitQueryReduce.evalAny, assignment, hl, hri, hu, atomOf, formula,
      looked, factsOf_some hi]
  constructor
  · intro heq fileDiff hmem
    obtain ⟨i, hi, rfl⟩ := getElem_of_mem hmem
    exact (hfile i hi).mp (heq (some i) (by simpa [InDiff] using hi))
  · rintro hagree (_ | i) hv
    · simp [eitherFile, eval, CommitQueryReduce.evalAny, assignment, hl, hri, hu, atomOf, formula,
        looked, factsOf, unmatched]
    · have hi := hv i rfl
      exact (hfile i hi).mpr (hagree _ (getElem_mem hi))

/-- A regexp language in which an expression is the class of the letters it contains. -/
def letterClass (expr : String) : Regexp :=
  ⟨fun content => content.zipIdx.filterMap fun (b, i) =>
    if (Char.ofNat b.toNat).isAlpha && expr.toList.contains (Char.ofNat b.toNat) then
      some (i, i + 1)
    else none⟩

theorem letterClass_matches (expr : String) (cnt : Bytes) :
    (letterClass expr).matches cnt = cnt.any fun b =>
      (Char.ofNat b.toNat).isAlpha && expr.toList.contains (Char.ofNat b.toNat) := by
  unfold Regexp.matches letterClass
  dsimp only
  rw [isEmpty_filterMap_zipIdx _ fun b : UInt8 =>
    (Char.ofNat b.toNat).isAlpha && expr.toList.contains (Char.ofNat b.toNat), Bool.not_not]
  intro b i
  split <;> simp_all

theorem letterClass_alternates : RegexpsAlternate fun expr _ => .ok (letterClass expr) := by
  rintro left right ic l r hl hr
  obtain rfl := Except.ok.inj hl
  obtain rfl := Except.ok.inj hr
  refine ⟨_, rfl, ?_⟩
  intro cnt
  simp only [letterClass_matches, ← any_or_distrib]
  congr 1
  funext b
  by_cases halp : (Char.ofNat b.toNat).isAlpha = true
  · have hne : ∀ c : Char, c.isAlpha = false → Char.ofNat b.toNat ≠ c := by
      rintro c hc rfl
      rw [halp] at hc
      cases hc
    simp [union, halp, hne]
  · simp [halp]

def stableRuntime : Runtime where
  iterate _ nodes := nodes
  iterate_perm _ _ := .refl _
  sortSlice _ nodes := nodes.mergeSort fun a b =>
    decide (CommitQueryReduce.estimatedNodeCost a ≤ CommitQueryReduce.estimatedNodeCost b)
  sortSlice_perm _ nodes := nodes.mergeSort_perm _
  sortSlice_ordered _ nodes := by
    refine (List.pairwise_mergeSort ?_ ?_ nodes).imp fun h => of_decide_eq_true h
    · intro a b c hab hbc
      exact decide_eq_true ((of_decide_eq_true hab).trans (of_decide_eq_true hbc))
    · intro a b
      simpa using Nat.le_total _ _

/-- A commit that creates `foo`, whose old name in the diff is `/dev/null`, and modifies `bar`. -/
def createsFoo : LazyCommit where
  authorName := GoStrings.bytes "x"
  authorEmail := []
  committerName := []
  committerEmail := []
  committerDate := GoStrings.bytes "0"
  message := []
  modifiedFiles := [GoStrings.bytes "A", GoStrings.bytes "foo", GoStrings.bytes "M",
    GoStrings.bytes "bar"]
  diff := .ok [⟨GoStrings.bytes "/dev/null", GoStrings.bytes "foo", []⟩,
    ⟨GoStrings.bytes "bar", GoStrings.bytes "bar", []⟩]

def createsFooFiles : List FileDiff :=
  [⟨GoStrings.bytes "/dev/null", GoStrings.bytes "foo", []⟩,
    ⟨GoStrings.bytes "bar", GoStrings.bytes "bar", []⟩]

end CommitReduction
