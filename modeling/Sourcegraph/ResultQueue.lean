import Sourcegraph.BinaryHeap

/-! # The queue that reorders results of Zoekt replicas

Priorities are floating-point numbers; no law of their comparisons is needed. Statistics travel
apart from the matches. -/
namespace ResultQueue

open List

structure SearchResult (F S P : Type) where
  files : List F
  stats : S
  priority : P
  maxPendingPriority : P
  deriving DecidableEq

structure Zoekt (F S P : Type) [AddCommMonoid S] where
  repository : F → String
  matchCount : S → Int64
  isZero : S → Bool
  crashed : S
  sizeBytes : SearchResult F S P → UInt64
  greater : P → P → Bool
  atLeast : P → P → Bool
  zeroPriority : P
  infinity : P
  negInfinity : P
  sortFiles : List F → List F
  sortFiles_perm : ∀ l, (sortFiles l).Perm l
  zero_unit : ∀ s, isZero s = true → s = 0

structure QueueSearchResult (F S P : Type) where
  result : SearchResult F S P
  sizeBytes : UInt64

structure SiteConfig where
  maxQueueDepth : ℤ
  maxMatchCount : ℤ
  maxSizeBytes : ℤ

structure Queue (F S P : Type) where
  config : SiteConfig
  matchCount : Int64
  sizeBytes : UInt64
  queue : List (QueueSearchResult F S P)
  endpointMaxPendingPriority : String → Option P
  stats : S

variable {F S P : Type} [AddCommMonoid S] (z : Zoekt F S P)

def newResultQueue (config : SiteConfig) (endpoints : List String) : Queue F S P :=
  { config := config
    matchCount := 0
    sizeBytes := 0
    queue := []
    endpointMaxPendingPriority := fun e => if e ∈ endpoints then some z.infinity else none
    stats := 0 }

def less (a b : QueueSearchResult F S P) : Bool :=
  z.greater a.result.priority b.result.priority

def isTopAbove (queue : List (QueueSearchResult F S P)) (limit : P) : Bool :=
  match queue with
  | [] => false
  | top :: _ => z.atLeast top.result.priority limit

/-- Results without files count towards the limits, too. -/
def enqueue (q : Queue F S P) (endpoint : String) (sr : SearchResult F S P) : Queue F S P :=
  { q with
    stats := q.stats + sr.stats
    matchCount := q.matchCount + z.matchCount sr.stats
    sizeBytes := q.sizeBytes + z.sizeBytes sr
    endpointMaxPendingPriority :=
      Function.update q.endpointMaxPendingPriority endpoint (some sr.maxPendingPriority)
    queue :=
      if sr.files.length ≠ 0 then BinaryHeap.push (less z) q.queue ⟨sr, z.sizeBytes sr⟩
      else q.queue }

def done (q : Queue F S P) (endpoint : String) : Queue F S P :=
  { q with
    endpointMaxPendingPriority := Function.update q.endpointMaxPendingPriority endpoint none }

def hasResultsToSend (maxPending : P) (q : Queue F S P) : Bool :=
  if q.queue.length = 0 then false
  else if q.config.maxQueueDepth ≥ 0 ∧ q.queue.length > q.config.maxQueueDepth then true
  else if q.config.maxMatchCount ≥ 0 ∧ q.matchCount.toInt > q.config.maxMatchCount then true
  else if q.config.maxSizeBytes ≥ 0 ∧ q.sizeBytes.toNat > q.config.maxSizeBytes then true
  else isTopAbove z q.queue maxPending

/-- The result takes along the statistics collected so far. -/
def pop (q : Queue F S P) : Option (SearchResult F S P × Queue F S P) :=
  (BinaryHeap.pop (less z) q.queue).map fun (sr, queue) =>
    ({ sr.result with stats := q.stats }, { q with
        queue := queue
        matchCount := q.matchCount - z.matchCount sr.result.stats
        sizeBytes := q.sizeBytes - sr.sizeBytes
        stats := 0 })

def sendWhile (more : Queue F S P → Bool) :
    ℕ → Queue F S P → List (SearchResult F S P) × Queue F S P
  | 0, q => ([], q)
  | fuel + 1, q =>
    if more q then
      match pop z q with
      | some (sr, q) => let (sent, q) := sendWhile more fuel q; (sr :: sent, q)
      | none => ([], q)
    else ([], q)

/-- `endpoints` are the keys of the map in the order in which they are visited. -/
def maxPending (q : Queue F S P) (endpoints : List String) : P :=
  endpoints.foldl (fun limit e =>
    match q.endpointMaxPendingPriority e with
    | some pri => if z.greater pri limit then pri else limit
    | none => limit) z.negInfinity

def flushReady (q : Queue F S P) (endpoints : List String) :
    List (SearchResult F S P) × Queue F S P :=
  sendWhile z (hasResultsToSend z (maxPending z q endpoints)) q.queue.length q

def flushAll (q : Queue F S P) : List (SearchResult F S P) × Queue F S P :=
  let (sent, q) := sendWhile z (fun q => decide (q.queue.length > 0)) q.queue.length q
  if z.isZero q.stats then (sent, q)
  else (sent ++ [⟨[], q.stats, z.zeroPriority, z.zeroPriority⟩], { q with stats := 0 })

def files (results : List (SearchResult F S P)) : List F := results.flatMap (·.files)

def sumStats (results : List (SearchResult F S P)) : S := (results.map (·.stats)).sum

def Queue.files (q : Queue F S P) : List F := q.queue.flatMap (·.result.files)

structure Conserves (q : Queue F S P) (sent : List (SearchResult F S P)) (q' : Queue F S P) :
    Prop where
  files : (ResultQueue.files sent ++ q'.files).Perm q.files
  stats : sumStats sent + q'.stats = q.stats

theorem conserves_nil (q : Queue F S P) : Conserves q [] q := ⟨.refl _, zero_add _⟩

variable {q q' : Queue F S P}

theorem Conserves.append (h : Conserves q sent q') (h' : Conserves q' sent' q'') :
    Conserves q (sent ++ sent') q'' := by
  constructor
  · rw [ResultQueue.files, flatMap_append, append_assoc]
    exact (Perm.append_left _ h'.files).trans h.files
  · rw [sumStats, map_append, sum_append, add_assoc]
    exact (congrArg (sumStats sent + ·) h'.stats).trans h.stats

theorem pop_conserves (h : pop z q = some (sr, q')) :
    Conserves q [sr] q' ∧ q.queue.length = q'.queue.length + 1 := by
  obtain ⟨⟨top, que⟩, hpop, heq⟩ := Option.map_eq_some_iff.mp h
  obtain ⟨rfl, rfl⟩ := Prod.mk.inj heq
  have hpm := BinaryHeap.pop_perm _ hpop
  refine ⟨⟨?_, ?_⟩, hpm.length_eq.symm⟩
  · have hfs := hpm.flatMap_right (·.result.files)
    simpa only [files, Queue.files, flatMap_cons, flatMap_nil, append_nil] using hfs
  · simp [sumStats]

theorem sendWhile_conserves (more : Queue F S P → Bool) (fuel : ℕ) (q : Queue F S P) :
    Conserves q (sendWhile z more fuel q).1 (sendWhile z more fuel q).2 := by
  fun_induction sendWhile z more fuel q with
  | case2 fuel q _ sr q' hpop sent q'' hrun ih =>
    rw [hrun] at ih
    exact (pop_conserves z hpop).1.append ih
  | _ => exact conserves_nil _

/-- With as much fuel as results the loop stops by its own condition. -/
theorem sendWhile_stops {more : Queue F S P → Bool}
    (hmo : ∀ q, more q = true → q.queue ≠ []) (fuel : ℕ) (q : Queue F S P)
    (hfu : q.queue.length ≤ fuel) : more (sendWhile z more fuel q).2 = false := by
  induction fuel generalizing q with
  | zero =>
    have hemp : q.queue = [] := length_eq_zero_iff.mp (Nat.le_zero.mp hfu)
    exact Bool.eq_false_iff.mpr fun ht => hmo q ht hemp
  | succ fuel ih =>
    rw [sendWhile]
    split
    · rename_i ht
      cases hpop : pop z q with
      | none =>
        have hemp := (BinaryHeap.pop_eq_none _).mp (Option.map_eq_none_iff.mp hpop)
        exact absurd hemp (hmo q ht)
      | some popp =>
        have hlen := (pop_conserves z hpop).2
        exact ih popp.2 (by omega)
    · rename_i hff
      exact Bool.eq_false_iff.mpr hff

theorem flushReady_conserves (q : Queue F S P) (eps : List String) :
    Conserves q (flushReady z q eps).1 (flushReady z q eps).2 :=
  sendWhile_conserves z _ _ q

theorem flushAll_conserves (q : Queue F S P) :
    Conserves q (flushAll z q).1 (flushAll z q).2 ∧ (flushAll z q).2.files = [] ∧
      (flushAll z q).2.stats = 0 := by
  have hse := sendWhile_conserves z (fun q => decide (q.queue.length > 0)) q.queue.length q
  have hmo : ∀ q : Queue F S P, decide (q.queue.length > 0) = true → q.queue ≠ [] :=
    fun _ hlt => ne_nil_of_length_pos (of_decide_eq_true hlt)
  have hsto := sendWhile_stops z hmo q.queue.length q (le_refl _)
  rw [flushAll]
  generalize sendWhile z (fun q => decide (q.queue.length > 0)) q.queue.length q = out at hse hsto
  obtain ⟨sent, q'⟩ := out
  have hfs : q'.files = [] := by
    have hemp : q'.queue = [] :=
      length_eq_zero_iff.mp (Nat.eq_zero_of_not_pos (of_decide_eq_false hsto))
    rw [Queue.files, hemp]
    rfl
  simp only
  split
  · rename_i hz
    exact ⟨hse, hfs, z.zero_unit _ hz⟩
  refine ⟨hse.append ⟨.refl _, ?_⟩, hfs, rfl⟩
  simp [sumStats]

theorem enqueue_files (q : Queue F S P) (ep : String) (sr : SearchResult F S P) :
    (enqueue z q ep sr).files.Perm (sr.files ++ q.files) := by
  rw [enqueue]
  split
  · have hpm := (BinaryHeap.push_perm (less z) q.queue ⟨sr, z.sizeBytes sr⟩).flatMap_right
      (·.result.files)
    rwa [flatMap_cons] at hpm
  rename_i hno
  have hnil : sr.files = [] := length_eq_zero_iff.mp (not_not.mp hno)
  rw [hnil]
  exact .refl _

end ResultQueue
