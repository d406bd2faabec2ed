import Sourcegraph.HybridQuery
import Sourcegraph.GitDiffNameStatus

/-! # Retrying the indexed part of hybrid search

The index may change between asking which commit is indexed and searching it. The services answer
anything at any time; a run of `hybrid` is determined by their answers. -/
namespace HybridSearch

open GoStrings RegexSearch List
open HybridQuery (Q)
open GitDiffNameStatus (parseGitDiffNameStatus)
open SearchResults (Location ChunkMatch Panic)

/-- Lines and columns of the index count from one. -/
structure ZoektLocation where
  byteOffset : ℤ
  lineNumber : ℤ
  column : ℤ
  deriving DecidableEq

structure ZoektChunk where
  fileName : Bool
  content : Bytes
  contentStart : ZoektLocation
  ranges : List (ZoektLocation × ZoektLocation)
  deriving DecidableEq

structure ZoektFile where
  name : Bytes
  version : Bytes
  chunkMatches : List ZoektChunk := []
  deriving DecidableEq

structure SearchResult where
  crashes : ℕ := 0
  files : List ZoektFile
  deriving DecidableEq

/-- The batches that a call of `StreamSearch` delivers, and how it ends. -/
structure Stream where
  batches : List SearchResult
  err : Option String := none
  deriving DecidableEq

/-- The default indexed commit of the repository, if it is indexed. -/
inductive ListAnswer where
  | error (message : String)
  | missing
  | indexed (commit : Bytes)
  deriving DecidableEq

structure Answers where
  list : ListAnswer
  diff : Except String Bytes := .ok []
  stream : Stream
  relist : ListAnswer := .missing

inductive ContextErr where
  | canceled
  | deadlineExceeded
  deriving DecidableEq

inductive RetryReason where
  | indexSearchChanged
  | indexSearchMissing
  | indexListMissing
  | indexListChanged
  deriving DecidableEq

/-- A request: the query compiled from its pattern, and the limit on the paths of a diff. -/
structure Request where
  query : Except String Q
  maxTotalPathsLength : ℕ

def toLocation (l : ZoektLocation) : Location := ⟨l.byteOffset, l.lineNumber - 1, l.column - 1⟩

def zoektChunkMatches (chunks : List ZoektChunk) : List ChunkMatch :=
  (chunks.filter fun cm => !cm.fileName).map fun cm =>
    { content := cm.content
      contentStart := toLocation cm.contentStart
      ranges := cm.ranges.map fun r => ⟨toLocation r.1, toLocation r.2⟩ }

def toFileMatch (fm : ZoektFile) : FileMatch :=
  { path := fm.name, chunkMatches := zoektChunkMatches fm.chunkMatches }

/-- The variables that the callback of `StreamSearch` writes, and what it has sent. -/
structure Callback where
  wrongCommit : Bool := false
  foundResults : Bool := false
  crashes : ℕ := 0
  sent : List FileMatch := []
  deriving DecidableEq

def receiveFiles (indexed : Bytes) (c : Callback) : List ZoektFile → Callback
  | [] => c
  | fm :: fms =>
    if fm.version ≠ indexed then { c with wrongCommit := true }
    else receiveFiles indexed { c with foundResults := true, sent := c.sent ++ [toFileMatch fm] } fms

def receive (indexed : Bytes) (c : Callback) (res : SearchResult) : Callback :=
  receiveFiles indexed { c with crashes := c.crashes + res.crashes } res.files

def retryReason (a : Answers) (indexed : Bytes) (c : Callback) : Except String (Option RetryReason) :=
  if c.wrongCommit then .ok (some .indexSearchChanged)
  else
    match a.stream.err with
    | some err => .error err
    | none =>
      if c.foundResults then .ok none
      else if c.crashes > 0 then .ok (some .indexSearchMissing)
      else
        match a.relist with
        | .error err => .error ("failed to double check indexed commit: " ++ err)
        | .missing => .ok (some .indexListMissing)
        | .indexed newIndexed =>
          if newIndexed ≠ indexed then .ok (some .indexListChanged) else .ok none

def zoektSearchIgnorePaths (req : Request) (a : Answers) (indexed : Bytes) :
    List FileMatch × Except String (Option RetryReason) :=
  match req.query with
  | .error err => ([], .error ("failed to compile query for zoekt: " ++ err))
  | .ok _ =>
    let c := a.stream.batches.foldl (receive indexed) {}
    (c.sent, retryReason a indexed c)

structure Return where
  unsearched : List Bytes := []
  ok : Bool
  err : Option String := none
  deriving DecidableEq

inductive Verdict where
  | retry (reason : RetryReason)
  | returned (r : Return)
  | panicked (message : Panic)
  deriving DecidableEq

def totalStringsLen (ss : List Bytes) : ℕ := (ss.map List.length).sum

/-- The part of a try before the search: the indexed commit and the paths left to unindexed search. -/
def prepare (req : Request) (a : Answers) : Except Verdict (Bytes × List Bytes) :=
  match a.list with
  | .error err => .error (.returned { ok := false, err := some err })
  | .missing => .error (.returned { ok := false })
  | .indexed indexed =>
    match a.diff with
    | .error err => .error (.returned { ok := false, err := some err })
    | .ok out =>
      match parseGitDiffNameStatus out with
      | .error (.error err) => .error (.returned { ok := false, err := some err })
      | .error (.panic message) => .error (.panicked message)
      | .ok (indexedIgnore, unindexedSearch) =>
        if totalStringsLen indexedIgnore > req.maxTotalPathsLength ∨
            totalStringsLen unindexedSearch > req.maxTotalPathsLength then
          .error (.returned { ok := false })
        else .ok (indexed, unindexedSearch)

def tryOnce (req : Request) (a : Answers) : List FileMatch × Verdict :=
  match prepare req a with
  | .error verdict => ([], verdict)
  | .ok (indexed, unindexedSearch) =>
    match zoektSearchIgnorePaths req a indexed with
    | (sent, .error err) => (sent, .returned { ok := false, err := some err })
    | (sent, .ok (some reason)) => (sent, .retry reason)
    | (sent, .ok none) => (sent, .returned { unsearched := unindexedSearch, ok := true })

/-- The deferred rewriting of the return values. -/
def deferred (ctxErr : Option ContextErr) (r : Return) : Return :=
  match r.err, ctxErr with
  | some _, some .canceled => { ok := true }
  | some err, some .deadlineExceeded => { ok := true, err := some err }
  | _, _ => r

/-- The matches that were passed to the sender, by try, and how the call ended. -/
structure Outcome where
  delivered : List (List FileMatch)
  result : Except Panic Return

def hybridFrom (req : Request) (ctxErr : Option ContextErr) (answers : ℕ → Answers) :
    ℕ → ℕ → Outcome
  | 0, _ => ⟨[], .ok (deferred ctxErr { ok := false })⟩
  | tries + 1, k =>
    match tryOnce req (answers k) with
    | (sent, .retry _) =>
      let o := hybridFrom req ctxErr answers tries (k + 1)
      { o with delivered := sent :: o.delivered }
    | (sent, .returned r) => ⟨[sent], .ok (deferred ctxErr r)⟩
    | (sent, .panicked message) => ⟨[sent], .error message⟩

def hybrid (req : Request) (ctxErr : Option ContextErr) (answers : ℕ → Answers) : Outcome :=
  hybridFrom req ctxErr answers 5 0

/-- The try that is reported as successful: the last one if `hybrid` returns `ok` without error. -/
def Outcome.successful (o : Outcome) : Option ℕ :=
  match o.result with
  | .ok r => if r.ok && r.err.isNone then some (o.delivered.length - 1) else none
  | .error _ => none

structure NeverStale (o : Outcome) : Prop where
  /-- Abandoned tries have delivered nothing. -/
  fresh : ∀ k sent, o.delivered[k]? = some sent → sent ≠ [] → o.successful = some k
  once : (o.delivered.flatten.map FileMatch.path).Nodup

def Searches (req : Request) (a : Answers) (indexed : Bytes) : Prop :=
  (∃ q, req.query = .ok q) ∧ ∃ unsearched, prepare req a = .ok (indexed, unsearched)

/-- The files of a stream that come before one of another commit in their batch. -/
def forwarded (indexed : Bytes) (stream : Stream) : List ZoektFile :=
  stream.batches.flatMap fun res => res.files.takeWhile fun fm => fm.version = indexed

/-- A file of another commit arrives. -/
def Strays (indexed : Bytes) (stream : Stream) : Prop :=
  ∃ res ∈ stream.batches, ∃ fm ∈ res.files, fm.version ≠ indexed

/-- Some batch begins with a file of the indexed commit. -/
def Begins (indexed : Bytes) (stream : Stream) : Prop :=
  ∃ res ∈ stream.batches, ∃ fm ∈ res.files.head?, fm.version = indexed

/-- The answers after which a try is repeated. -/
def Retries (req : Request) (a : Answers) : Prop :=
  ∃ indexed, Searches req a indexed ∧ (Strays indexed a.stream ∨
    (a.stream.err = none ∧ (∀ res ∈ a.stream.batches, res.files = []) ∧
      (0 < (a.stream.batches.map SearchResult.crashes).sum ∨ a.relist = .missing ∨
        ∃ commit, a.relist = .indexed commit ∧ commit ≠ indexed)))

/-- A stream some batch of which begins with a file of the indexed commit has no file of another
one, ends without an error unless the request was canceled, and has no path twice. -/
structure Clean (ctxErr : Option ContextErr) (indexed : Bytes) (stream : Stream) : Prop where
  version : ¬ Strays indexed stream
  err : stream.err = none ∨ ctxErr = some .canceled
  names : ((stream.batches.flatMap SearchResult.files).map ZoektFile.name).Nodup

def CleanAnswers (req : Request) (ctxErr : Option ContextErr) (answers : ℕ → Answers) : Prop :=
  ∀ k < 5, (∀ j < k, Retries req (answers j)) → ∀ indexed, Searches req (answers k) indexed →
    Begins indexed (answers k).stream → Clean ctxErr indexed (answers k).stream

theorem receiveFiles_sent (indexed : Bytes) (c : Callback) (fms : List ZoektFile) :
    (receiveFiles indexed c fms).sent =
      c.sent ++ (fms.takeWhile fun fm => fm.version = indexed).map toFileMatch := by
  induction fms generalizing c with
  | nil => simp [receiveFiles]
  | cons fm fms ih =>
    rw [receiveFiles]
    by_cases h : fm.version = indexed
    · rw [if_neg (not_not.mpr h), ih, takeWhile_cons_of_pos (by simpa using h)]
      simp
    rw [if_pos h, takeWhile_cons_of_neg (by simpa using h)]
    simp

theorem foldl_receive_sent (indexed : Bytes) (c : Callback) (batch : List SearchResult) :
    (batch.foldl (receive indexed) c).sent = c.sent ++ (batch.flatMap fun res =>
      res.files.takeWhile fun fm => fm.version = indexed).map toFileMatch := by
  induction batch generalizing c with
  | nil => simp
  | cons res batch ih =>
    rw [foldl_cons, ih, receive, receiveFiles_sent, flatMap_cons, map_append, append_assoc]

theorem tryOnce_sent (h : Searches req a indexed) :
    (tryOnce req a).1 = (forwarded indexed a.stream).map toFileMatch := by
  obtain ⟨⟨q, hq⟩, uns, hpre⟩ := h
  have hsch : (zoektSearchIgnorePaths req a indexed).1 =
      (forwarded indexed a.stream).map toFileMatch := by
    rw [zoektSearchIgnorePaths, hq]
    exact foldl_receive_sent indexed {} a.stream.batches
  rw [tryOnce, hpre]
  dsimp only
  split <;> simp_all

theorem tryOnce_not_searches (h : ∀ indexed, ¬ Searches req a indexed) :
    (tryOnce req a).1 = [] := by
  unfold tryOnce
  cases hpre : prepare req a with
  | error ver => rfl
  | ok pre =>
    cases hq : req.query with
    | ok q => exact absurd ⟨⟨q, hq⟩, pre.2, hpre⟩ (h pre.1)
    | error err => simp [zoektSearchIgnorePaths, hq]

theorem forwarded_ne_nil : forwarded indexed str ≠ [] ↔ Begins indexed str := by
  rw [forwarded, ne_eq, flatMap_eq_nil_iff, Begins, not_forall]
  refine exists_congr fun res => ?_
  rw [Classical.not_imp]
  refine and_congr_right fun _ => ?_
  cases hfs : res.files with
  | nil => simp
  | cons fm fms => by_cases h : fm.version = indexed <;> simp [h]

theorem forwarded_all (h : ¬ Strays indexed str) :
    forwarded indexed str = str.batches.flatMap SearchResult.files := by
  rw [forwarded]
  refine flatMap_congr fun res hres => takeWhile_eq_self_iff.mpr fun fm hfm => ?_
  by_contra hne
  exact h ⟨res, hres, fm, hfm, by simpa using hne⟩

theorem receiveFiles_flags (indexed : Bytes) (c : Callback) (fms : List ZoektFile) :
    (receiveFiles indexed c fms).crashes = c.crashes ∧
      ((receiveFiles indexed c fms).wrongCommit = true ↔
        c.wrongCommit = true ∨ ∃ fm ∈ fms, fm.version ≠ indexed) ∧
      ((receiveFiles indexed c fms).foundResults = true ↔
        c.foundResults = true ∨ ∃ fm ∈ fms.head?, fm.version = indexed) := by
  induction fms generalizing c with
  | nil => simp [receiveFiles]
  | cons fm fms ih =>
    rw [receiveFiles]
    by_cases h : fm.version = indexed
    · rw [if_neg (not_not.mpr h)]
      obtain ⟨hcr, hwr, hfo⟩ := ih { c with
        foundResults := true, sent := c.sent ++ [toFileMatch fm] }
      exact ⟨hcr, by simp [hwr, h], by simp [hfo, h]⟩
    · rw [if_pos h]
      exact ⟨rfl, by simp [h], by simp [h]⟩

theorem foldl_receive_flags (indexed : Bytes) (c : Callback) (batch : List SearchResult) :
    (batch.foldl (receive indexed) c).crashes = c.crashes + (batch.map SearchResult.crashes).sum ∧
      ((batch.foldl (receive indexed) c).wrongCommit = true ↔
        c.wrongCommit = true ∨ ∃ res ∈ batch, ∃ fm ∈ res.files, fm.version ≠ indexed) ∧
      ((batch.foldl (receive indexed) c).foundResults = true ↔
        c.foundResults = true ∨ ∃ res ∈ batch, ∃ fm ∈ res.files.head?, fm.version = indexed) := by
  induction batch generalizing c with
  | nil => simp
  | cons res batch ih =>
    obtain ⟨hcr, hwr, hfo⟩ := ih (receive indexed c res)
    obtain ⟨hcr', hwr', hfo'⟩ :=
      receiveFiles_flags indexed { c with crashes := c.crashes + res.crashes } res.files
    rw [foldl_cons]
    refine ⟨?_, ?_, ?_⟩
    · rw [hcr, receive, hcr', map_cons, sum_cons, Nat.add_assoc]
    · rw [hwr, receive, hwr', exists_mem_cons_iff, or_assoc]
    · rw [hfo, receive, hfo', exists_mem_cons_iff, or_assoc]

theorem searches_unique (h : Searches req a indexed) (h' : Searches req a indexed') :
    indexed = indexed' := by
  obtain ⟨-, uns, hpre⟩ := h
  obtain ⟨-, uns', hpre'⟩ := h'
  exact (Prod.mk.inj (Except.ok.inj (hpre.symm.trans hpre'))).1

/-- How a try that searches the index ends. -/
theorem tryOnce_verdict (h : Searches req a indexed) : ∃ uns, (tryOnce req a).2 =
    match retryReason a indexed (a.stream.batches.foldl (receive indexed) {}) with
    | .error err => .returned { ok := false, err := some err }
    | .ok (some reason) => .retry reason
    | .ok none => .returned { unsearched := uns, ok := true } := by
  obtain ⟨⟨q, hq⟩, uns, hpre⟩ := h
  refine ⟨uns, ?_⟩
  rw [tryOnce, hpre]
  dsimp only
  rw [zoektSearchIgnorePaths, hq]
  dsimp only
  split <;> simp_all

theorem received (indexed : Bytes) (a : Answers) :
    (a.stream.batches.foldl (receive indexed) {}).crashes =
        (a.stream.batches.map SearchResult.crashes).sum ∧
      ((a.stream.batches.foldl (receive indexed) {}).wrongCommit = true ↔ Strays indexed a.stream) ∧
      ((a.stream.batches.foldl (receive indexed) {}).foundResults = true ↔ Begins indexed a.stream) := by
  simpa [Strays, Begins] using foldl_receive_flags indexed {} a.stream.batches

theorem retryReason_iff (a : Answers) (ixd : Bytes) (c : Callback) :
    (∃ reason, retryReason a ixd c = .ok (some reason)) ↔ c.wrongCommit = true ∨
      (a.stream.err = none ∧ c.foundResults = false ∧ (0 < c.crashes ∨ a.relist = .missing ∨
        ∃ commit, a.relist = .indexed commit ∧ commit ≠ ixd)) := by
  unfold retryReason
  cases hw : c.wrongCommit with
  | true => simp
  | false =>
    cases herr : a.stream.err with
    | some err => simp
    | none =>
      cases hf : c.foundResults with
      | true => simp
      | false =>
        by_cases hc : 0 < c.crashes
        · simp [hc]
        · cases hre : a.relist with
          | error err => simp [hc]
          | missing => simp [hc]
          | indexed commit => by_cases heq : commit = ixd <;> simp [hc, heq]

theorem not_begins_iff (h : ¬ Strays indexed str) :
    ¬ Begins indexed str ↔ ∀ res ∈ str.batches, res.files = [] := by
  constructor
  · intro hb res hres
    cases hfs : res.files with
    | nil => rfl
    | cons fm fms =>
      refine absurd ⟨res, hres, fm, by simp [hfs], ?_⟩ hb
      by_contra hne
      exact h ⟨res, hres, fm, by simp [hfs], hne⟩
  · rintro hempty ⟨res, hres, fm, hfm, -⟩
    rw [hempty res hres] at hfm
    cases hfm

theorem prepare_error_ne_retry (h : prepare req a = .error ver) : ver ≠ .retry reason := by
  unfold prepare at h
  repeat' split at h
  all_goals cases h
  all_goals simp

theorem tryOnce_retry_iff : (∃ reason, (tryOnce req a).2 = .retry reason) ↔ Retries req a := by
  by_cases hs : ∃ indexed, Searches req a indexed
  · obtain ⟨indexed, hs⟩ := hs
    obtain ⟨uns, hver⟩ := tryOnce_verdict hs
    obtain ⟨hcr, hwr, hfo⟩ := received indexed a
    have hret : (∃ reason, (tryOnce req a).2 = .retry reason) ↔
        ∃ reason, retryReason a indexed (a.stream.batches.foldl (receive indexed) {}) =
          .ok (some reason) := by
      rw [hver]
      split <;> simp_all
    rw [hret, retryReason_iff, hwr, hcr, ← Bool.not_eq_true, hfo]
    constructor
    · intro h
      refine ⟨indexed, hs, ?_⟩
      by_cases hstray : Strays indexed a.stream
      · exact .inl hstray
      · obtain ⟨herr, hb, hwhy⟩ := h.resolve_left hstray
        exact .inr ⟨herr, (not_begins_iff hstray).mp hb, hwhy⟩
    · rintro ⟨indexed', hs', h⟩
      obtain rfl := searches_unique hs hs'
      by_cases hstray : Strays indexed a.stream
      · exact .inl hstray
      · obtain ⟨herr, hb, hwhy⟩ := h.resolve_left hstray
        exact .inr ⟨herr, (not_begins_iff hstray).mpr hb, hwhy⟩
  · refine iff_of_false ?_ fun ⟨indexed, hs', _⟩ => hs ⟨indexed, hs'⟩
    rintro ⟨reason, hret⟩
    unfold tryOnce at hret
    cases hpre : prepare req a with
    | error ver =>
      rw [hpre] at hret
      exact prepare_error_ne_retry hpre hret
    | ok pre =>
      cases hq : req.query with
      | ok q => exact hs ⟨pre.1, ⟨q, hq⟩, pre.2, hpre⟩
      | error err => simp [hpre, zoektSearchIgnorePaths, hq] at hret

/-- The request is reported as successful with this verdict. -/
def Verdict.Succeeds (ctxErr : Option ContextErr) (v : Verdict) : Prop :=
  ∃ r, v = .returned r ∧ (deferred ctxErr r).ok = true ∧ (deferred ctxErr r).err = none

theorem tryOnce_succeeds_iff (h : Searches req a indexed) (hb : Begins indexed a.stream) :
    (tryOnce req a).2.Succeeds ce ↔
      ¬ Strays indexed a.stream ∧ (a.stream.err = none ∨ ce = some .canceled) := by
  obtain ⟨uns, hver⟩ := tryOnce_verdict h
  obtain ⟨-, hwr, hfo⟩ := received indexed a
  rw [hver, retryReason, hfo.mpr hb]
  by_cases hstray : Strays indexed a.stream
  · rw [hwr.mpr hstray]
    simp [Verdict.Succeeds, hstray]
  · rw [Bool.eq_false_iff.mpr (mt hwr.mp hstray)]
    cases herr : a.stream.err with
    | none => simp [Verdict.Succeeds, deferred, hstray]
    | some err =>
      cases ce with
      | none => simp [Verdict.Succeeds, deferred]
      | some why => cases why <;> simp [Verdict.Succeeds, deferred, hstray]

theorem hybridFrom_successful_cons {o : Outcome}
    (h : ∀ i, o.successful = some i → i < o.delivered.length) :
    (⟨sent :: o.delivered, o.result⟩ : Outcome).successful = o.successful.map (· + 1) := by
  obtain ⟨del, res⟩ := o
  unfold Outcome.successful at h ⊢
  cases res with
  | error message => rfl
  | ok r =>
    by_cases hok : (r.ok && r.err.isNone) = true
    · have hlt : del.length - 1 < del.length := h _ (by simp only [hok, if_true])
      simp only [hok, if_true, length_cons, Option.map_some, Option.some.injEq]
      omega
    · simp only [hok]
      rfl

/-- A try is made if all before it are repeated, and is the successful one if it succeeds. -/
theorem hybridFrom_spec (tries k : ℕ) :
    (∀ i sent, (hybridFrom req ce ans tries k).delivered[i]? = some sent ↔
      i < tries ∧ (∀ j < i, Retries req (ans (k + j))) ∧ sent = (tryOnce req (ans (k + i))).1) ∧
    ∀ i, (hybridFrom req ce ans tries k).successful = some i ↔
      i < tries ∧ (∀ j < i, Retries req (ans (k + j))) ∧
        (tryOnce req (ans (k + i))).2.Succeeds ce := by
  induction tries generalizing k with
  | zero =>
    refine ⟨by simp [hybridFrom], fun i => ?_⟩
    simp [hybridFrom, Outcome.successful, deferred]
  | succ tries ih =>
    obtain ⟨hdel, hsuc⟩ := ih (k + 1)
    have hshift : ∀ i, (∀ j < i + 1, Retries req (ans (k + j))) ↔
        Retries req (ans k) ∧ ∀ j < i, Retries req (ans (k + 1 + j)) := by
      intro i
      rw [Nat.forall_lt_succ_left]
      simp only [Nat.add_zero, Nat.add_right_comm k 1, Nat.add_assoc]
    have hretry := @tryOnce_retry_iff req (ans k)
    obtain ⟨sent, ver, hver⟩ : ∃ sent ver, tryOnce req (ans k) = (sent, ver) := ⟨_, _, rfl⟩
    rw [hver] at hretry
    cases ver with
    | retry reason =>
      have hr : Retries req (ans k) := hretry.mp ⟨reason, rfl⟩
      rw [hybridFrom, hver]
      constructor
      · rintro (_ | i) s
        · simp [hver, eq_comm]
        · dsimp only
          rw [getElem?_cons_succ, hdel, hshift, Nat.add_lt_add_iff_right]
          simp [hr, Nat.add_right_comm k 1, Nat.add_assoc]
      · dsimp only
        rw [hybridFrom_successful_cons fun i hi =>
          (List.getElem?_eq_some_iff.mp ((hdel i _).mpr ⟨((hsuc i).mp hi).1, ((hsuc i).mp hi).2.1,
            rfl⟩)).1]
        rintro (_ | i)
        · simp [hver, Verdict.Succeeds]
        · rw [Option.map_eq_some_iff]
          simp only [Nat.add_right_cancel_iff, exists_eq_right]
          rw [hsuc, hshift, Nat.add_lt_add_iff_right]
          simp [hr, Nat.add_right_comm k 1, Nat.add_assoc]
    | returned | panicked =>
      have hr : ¬ Retries req (ans k) := by simpa using hretry
      rw [hybridFrom, hver]
      constructor
      · rintro (_ | i) s
        · simp [hver, eq_comm]
        · simp only [hshift, hr]
          simp
      · rintro (_ | i)
        · simp [Outcome.successful, hver, Verdict.Succeeds]
        · simp only [hshift, hr]
          simp [Outcome.successful]

theorem flatten_of_only {ls : List (List α)} {k : ℕ} (h : ∀ i l, ls[i]? = some l → i ≠ k → l = []) :
    ls.flatten = (ls[k]?).getD [] := by
  induction ls generalizing k with
  | nil => simp
  | cons l ls ih =>
    cases k with
    | zero =>
      have hrs : ls.flatten = [] := by
        rw [flatten_eq_nil_iff]
        intro l' hl'
        obtain ⟨i, hi⟩ := getElem?_of_mem hl'
        exact h (i + 1) l' hi (by omega)
      simp [hrs]
    | succ k =>
      have hl : l = [] := h 0 l rfl (by omega)
      have hrs := @ih k fun i l' hi hne => h (i + 1) l' hi (by omega)
      rw [flatten_cons, hl, nil_append, hrs, getElem?_cons_succ]

theorem once_iff (h : ∀ k sent, (hybrid req ce ans).delivered[k]? = some sent → sent ≠ [] →
    (hybrid req ce ans).successful = some k) :
    ((hybrid req ce ans).delivered.flatten.map FileMatch.path).Nodup ↔
      ∀ k sent, (hybrid req ce ans).delivered[k]? = some sent →
        (hybrid req ce ans).successful = some k → (sent.map FileMatch.path).Nodup := by
  constructor
  · intro hnd k sent hk _
    exact hnd.sublist ((sublist_flatten_of_mem (mem_of_getElem? hk)).map _)
  · intro hall
    have hon : ∀ i l, (hybrid req ce ans).delivered[i]? = some l →
        i ≠ (hybrid req ce ans).successful.getD 0 → l = [] := by
      intro i l hi hne
      by_contra hl
      exact hne (by rw [h i l hi hl, Option.getD_some])
    rw [flatten_of_only hon]
    cases hj : (hybrid req ce ans).delivered[(hybrid req ce ans).successful.getD 0]? with
    | none => exact nodup_nil
    | some sent =>
      by_cases hse : sent = []
      · simp [hse]
      · exact hall _ sent hj (h _ sent hj hse)

theorem toFileMatch_path (fms : List ZoektFile) :
    (fms.map toFileMatch).map FileMatch.path = fms.map ZoektFile.name := by
  rw [map_map]
  rfl

/-- No stale and no repeated match is delivered exactly if the answers are clean. -/
theorem never_stale_iff_clean (req : Request) (ctxErr : Option ContextErr) (answers : ℕ → Answers) :
    NeverStale (hybrid req ctxErr answers) ↔ CleanAnswers req ctxErr answers := by
  obtain ⟨hdel, hsuc⟩ := @hybridFrom_spec req ctxErr answers 5 0
  simp only [Nat.zero_add] at hdel hsuc
  change (∀ i sent, (hybrid req ctxErr answers).delivered[i]? = some sent ↔ _) at hdel
  change (∀ i, (hybrid req ctxErr answers).successful = some i ↔ _) at hsuc
  have hpaths : ∀ k indexed, Searches req (answers k) indexed →
      ¬ Strays indexed (answers k).stream → (tryOnce req (answers k)).1.map FileMatch.path =
        ((answers k).stream.batches.flatMap SearchResult.files).map ZoektFile.name := by
    intro k indexed hs hstray
    rw [tryOnce_sent hs, toFileMatch_path, forwarded_all hstray]
  constructor
  · rintro ⟨hfr, hon⟩ k hk hretry indexed hs hb
    have hget := (hdel k _).mpr ⟨hk, hretry, rfl⟩
    have hne : (tryOnce req (answers k)).1 ≠ [] := by
      rw [tryOnce_sent hs, ne_eq, map_eq_nil_iff]
      exact forwarded_ne_nil.mpr hb
    have hdone := hfr k _ hget hne
    obtain ⟨hstray, herr⟩ := (tryOnce_succeeds_iff hs hb).mp ((hsuc k).mp hdone).2.2
    refine ⟨hstray, herr, ?_⟩
    rw [← hpaths k indexed hs hstray]
    exact (once_iff hfr).mp hon k _ hget hdone
  · intro hclean
    have hall : ∀ k sent, (hybrid req ctxErr answers).delivered[k]? = some sent → sent ≠ [] →
        (hybrid req ctxErr answers).successful = some k ∧ (sent.map FileMatch.path).Nodup := by
      intro k sent hget hne
      obtain ⟨hk, hretry, rfl⟩ := (hdel k sent).mp hget
      obtain ⟨indexed, hs⟩ : ∃ indexed, Searches req (answers k) indexed := by
        by_contra hno
        exact hne (tryOnce_not_searches (not_exists.mp hno))
      have hb : Begins indexed (answers k).stream := by
        rw [tryOnce_sent hs, ne_eq, map_eq_nil_iff] at hne
        exact forwarded_ne_nil.mp hne
      obtain ⟨hstray, herr, hnames⟩ := hclean k hk hretry indexed hs hb
      refine ⟨(hsuc k).mpr ⟨hk, hretry, (tryOnce_succeeds_iff hs hb).mpr ⟨hstray, herr⟩⟩, ?_⟩
      rwa [hpaths k indexed hs hstray]
    have hfr := fun k sent hk hne => (hall k sent hk hne).1
    refine ⟨hfr, (once_iff hfr).mpr fun k sent hk _ => ?_⟩
    by_cases hne : sent = []
    · simp [hne]
    · exact (hall k sent hk hne).2

def oneFileRequest : Request := ⟨.ok (.const true), 100⟩

/-- The index moves from commit 1 to commit 2 after the first file of the first search. -/
def movingIndex : ℕ → Answers
  | 0 => { list := .indexed [1], stream := { batches := [{ files := [⟨[97], [1], []⟩, ⟨[98], [2], []⟩] }] } }
  | _ => { list := .indexed [2], stream := { batches := [{ files := [⟨[97], [2], []⟩, ⟨[98], [2], []⟩] }] } }

/-- The first file is delivered by the abandoned try and by the next one. -/
theorem file_delivered_twice :
    (hybrid oneFileRequest none movingIndex).result = .ok { ok := true } ∧
      (hybrid oneFileRequest none movingIndex).delivered.map (List.map FileMatch.path) =
        [[[97]], [[97], [98]]] ∧
      ¬ NeverStale (hybrid oneFileRequest none movingIndex) := by
  have hse : (hybrid oneFileRequest none movingIndex).delivered.map (map FileMatch.path) =
      [[[97]], [[97], [98]]] := by rfl
  refine ⟨by rfl, hse, fun h => ?_⟩
  have hon := h.once
  exact absurd hon (by decide)

end HybridSearch
