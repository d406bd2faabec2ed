import Sourcegraph.HorizontalSearch

/-! # Calls on the queue that reorders results -/
namespace ReorderQueue

open ResultQueue List

variable {F S P : Type} [AddCommMonoid S] (z : Zoekt F S P)

/-- `visited` are the endpoints in the order of the iteration over the pending priorities. -/
inductive Call (F S P : Type) where
  | enqueue (endpoint : String) (sr : SearchResult F S P)
  | done (endpoint : String)
  | flushReady (visited : List String)
  | flushAll

def call (q : Queue F S P) : Call F S P → List (SearchResult F S P) × Queue F S P
  | .enqueue endpoint sr => ([], enqueue z q endpoint sr)
  | .done endpoint => ([], done q endpoint)
  | .flushReady visited => flushReady z q visited
  | .flushAll => flushAll z q

def run (q : Queue F S P) : List (Call F S P) → List (SearchResult F S P) × Queue F S P
  | [] => ([], q)
  | c :: calls =>
    let (sent, q) := call z q c
    let (sent', q) := run q calls
    (sent ++ sent', q)

instance instAddCommGroupInt64 : AddCommGroup Int64 where
  add_assoc := Int64.add_assoc
  zero_add := Int64.zero_add
  add_zero := Int64.add_zero
  add_comm := Int64.add_comm
  neg_add_cancel := Int64.add_left_neg
  sub_eq_add_neg := Int64.sub_eq_add_neg
  nsmul := nsmulRec
  zsmul := zsmulRec

def heapMatchCount (q : Queue F S P) : Int64 :=
  (q.queue.map fun r => z.matchCount r.result.stats).sum

def heapSizeBytes (q : Queue F S P) : UInt64 := (q.queue.map fun r => z.sizeBytes r.result).sum

/-- The sums are those of the machine's integers. -/
structure Exact (q : Queue F S P) : Prop where
  matchCount : q.matchCount = heapMatchCount z q
  sizeBytes : q.sizeBytes = heapSizeBytes z q
  idle : q.queue = [] → q.matchCount = 0 ∧ q.sizeBytes = 0
  early : ∀ limit, hasResultsToSend z limit q = true → isTopAbove z q.queue limit = false →
    q.config.maxQueueDepth ≥ 0 ∧ q.queue.length > q.config.maxQueueDepth ∨
    q.config.maxMatchCount ≥ 0 ∧ (heapMatchCount z q).toInt > q.config.maxMatchCount ∨
    q.config.maxSizeBytes ≥ 0 ∧ (heapSizeBytes z q).toNat > q.config.maxSizeBytes

def tally (sr : SearchResult F S P) : Int64 × UInt64 := (z.matchCount sr.stats, z.sizeBytes sr)

def stray : Call F S P → Int64 × UInt64
  | .enqueue _ sr => if sr.files = [] then tally z sr else 0
  | .done _ | .flushReady _ | .flushAll => 0

/-- What was counted and is in no result of the heap. -/
structure Off (q : Queue F S P) (rest : Int64 × UInt64) : Prop where
  counts : (q.matchCount, q.sizeBytes) = (q.queue.map (tally z ·.result)).sum + rest
  cached : ∀ r ∈ q.queue, r.sizeBytes = z.sizeBytes r.result

theorem heap_tally :
    (q.queue.map (tally z ·.result)).sum = (heapMatchCount z q, heapSizeBytes z q) := by
  rw [heapMatchCount, heapSizeBytes]
  induction q.queue with
  | nil => rfl
  | cons r que ih =>
    rw [map_cons, sum_cons, ih]
    rfl

theorem exact_iff (h : Off z q rest) : Exact z q ↔ rest = 0 := by
  have hcts := h.counts
  rw [heap_tally] at hcts
  constructor
  · intro hex
    rwa [hex.matchCount, hex.sizeBytes, left_eq_add] at hcts
  · rintro rfl
    rw [add_zero] at hcts
    obtain ⟨hms, hsz⟩ := Prod.mk.inj hcts
    refine ⟨hms, hsz, fun hnil => ?_, fun limit hse htop => ?_⟩
    · rw [hms, hsz, heapMatchCount, heapSizeBytes, hnil]
      exact ⟨rfl, rfl⟩
    · rw [hasResultsToSend, hms, hsz] at hse
      split at hse
      · cases hse
      split at hse
      · exact .inl ‹_›
      split at hse
      · exact .inr (.inl ‹_›)
      split at hse
      · exact .inr (.inr ‹_›)
      · exact absurd (hse.symm.trans htop) Bool.noConfusion

theorem pop_off (h : Off z q rest) (hpop : pop z q = some (sr, q')) : Off z q' rest := by
  obtain ⟨⟨top, que⟩, htop, heq⟩ := Option.map_eq_some_iff.mp hpop
  obtain ⟨rfl, rfl⟩ := Prod.mk.inj heq
  have hpm := BinaryHeap.pop_perm _ htop
  have hcac : ∀ r ∈ top :: que, r.sizeBytes = z.sizeBytes r.result :=
    fun r hr => h.cached r (hpm.mem_iff.mp hr)
  refine ⟨?_, fun r hr => hcac r (mem_cons_of_mem top hr)⟩
  have hcts := h.counts
  rw [← (hpm.map (tally z ·.result)).sum_eq, map_cons, sum_cons, add_assoc,
    ← sub_eq_iff_eq_add'] at hcts
  rw [← hcts, hcac top mem_cons_self]
  rfl

theorem sendWhile_off (more : Queue F S P → Bool) (fuel : ℕ) (h : Off z q rest) :
    Off z (sendWhile z more fuel q).2 rest := by
  fun_induction sendWhile z more fuel q with
  | case2 fuel q _ sr q' hpop sent q'' hrun ih =>
    rw [hrun] at ih
    exact ih (pop_off z h hpop)
  | _ => exact h

theorem call_off (h : Off z q rest) (c : Call F S P) : Off z (call z q c).2 (rest + stray z c) := by
  cases c with
  | enqueue ep sr =>
    have hcts : (q.matchCount + z.matchCount sr.stats, q.sizeBytes + z.sizeBytes sr) =
        (q.queue.map (tally z ·.result)).sum + rest + tally z sr := by
      rw [← h.counts]
      rfl
    by_cases hfs : sr.files = []
    · refine ⟨?_, ?_⟩
      · simp only [call, enqueue, stray, hfs, length_nil, ne_eq, not_true, if_false, if_true]
        rw [hcts, add_assoc]
      · simpa [call, enqueue, hfs] using h.cached
    have hpm := BinaryHeap.push_perm (less z) q.queue ⟨sr, z.sizeBytes sr⟩
    have hlen : sr.files.length ≠ 0 := fun hz => hfs (length_eq_zero_iff.mp hz)
    refine ⟨?_, ?_⟩
    · simp only [call, enqueue, stray, if_pos hlen, if_neg hfs]
      rw [hcts, (hpm.map (tally z ·.result)).sum_eq, map_cons, sum_cons, add_zero,
        add_comm, add_assoc]
    · simp only [call, enqueue, if_pos hlen]
      intro r hr
      rcases mem_cons.mp (hpm.mem_iff.mp hr) with rfl | hr
      · rfl
      · exact h.cached r hr
  | done ep =>
    rw [stray, add_zero]
    exact ⟨h.counts, h.cached⟩
  | flushReady vis =>
    rw [stray, add_zero]
    exact sendWhile_off z _ _ h
  | flushAll =>
    rw [stray, add_zero]
    have hse := sendWhile_off z (fun q => decide (q.queue.length > 0)) q.queue.length h
    simp only [call, flushAll]
    split
    · exact hse
    · exact ⟨hse.counts, hse.cached⟩

theorem run_off (h : Off z q rest) (cls : List (Call F S P)) :
    Off z (run z q cls).2 (rest + (cls.map (stray z)).sum) := by
  induction cls generalizing q rest with
  | nil =>
    rw [map_nil, sum_nil, add_zero]
    exact h
  | cons c cls ih =>
    rw [map_cons, sum_cons, ← add_assoc]
    exact ih (call_off z h c)

/-- The states that a loop over the queue passes through. -/
def Popped : Queue F S P → Queue F S P → Prop :=
  Relation.ReflTransGen fun q q' => ∃ sr, pop z q = some (sr, q')

theorem popped_off (h : Off z q rest) (hpopped : Popped z q q') : Off z q' rest := by
  induction hpopped with
  | refl => exact h
  | tail _ hpop ih =>
    obtain ⟨sr, hpop⟩ := hpop
    exact pop_off z ih hpop

variable (config : SiteConfig) (endpoints : List String)

/-- The counters are exact throughout, also inside the loops that send results, unless a result
without files has matches or a size. -/
theorem accounts_exact_iff (calls : List (Call F S P)) :
    (∀ before, before <+: calls →
      ∀ q, Popped z (run z (newResultQueue z config endpoints) before).2 q → Exact z q) ↔
      ∀ endpoint sr, .enqueue endpoint sr ∈ calls → sr.files = [] →
        z.matchCount sr.stats = 0 ∧ z.sizeBytes sr = 0 := by
  have hex : ∀ before,
      (∀ q, Popped z (run z (newResultQueue z config endpoints) before).2 q → Exact z q) ↔
        (before.map (stray z)).sum = 0 := by
    intro before
    have hoff : Off z (newResultQueue z config endpoints) 0 := ⟨rfl, fun _ hr => by cases hr⟩
    have hrun := run_off z hoff before
    rw [zero_add] at hrun
    constructor
    · intro h
      exact (exact_iff z hrun).mp (h _ .refl)
    · intro h q hq
      exact (exact_iff z (popped_off z hrun hq)).mpr h
  simp only [hex]
  constructor
  · intro h endpoint sr hmem hfs
    obtain ⟨before, post, rfl⟩ := append_of_mem hmem
    have hbef := h before (prefix_append _ _)
    have hnx := h (before ++ [.enqueue endpoint sr]) ⟨post, by simp⟩
    rw [map_append, sum_append, hbef, zero_add, map_singleton,
      sum_singleton, stray, if_pos hfs] at hnx
    exact Prod.mk.inj hnx
  · intro h before hbef
    refine sum_eq_zero fun x hx => ?_
    obtain ⟨c, hc, rfl⟩ := mem_map.mp hx
    cases c with
    | enqueue endpoint sr =>
      rw [stray]
      split
      · obtain ⟨hms, hsz⟩ := h endpoint sr (hbef.subset hc) ‹_›
        rw [tally, hms, hsz]
        rfl
      · rfl
    | _ => rfl

/-- The matches of a result whose files another replica has sent stay counted, and the next result
is sent although its one match is within the limit. -/
theorem emptied_result_counted :
    (run HorizontalSearch.counting (newResultQueue HorizontalSearch.counting ⟨-1, 1, -1⟩ ["a", "b"])
      [.enqueue "a" ⟨[], 1, 5, 5⟩]).2.matchCount = 1 ∧
    (run HorizontalSearch.counting (newResultQueue HorizontalSearch.counting ⟨-1, 1, -1⟩ ["a", "b"])
      [.enqueue "a" ⟨[], 1, 5, 5⟩, .enqueue "a" ⟨[("r", 1)], 1, 5, 5⟩,
        .flushReady ["a", "b"]]).1.length = 1 := by
  decide

end ReorderQueue
