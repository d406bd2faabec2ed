import Sourcegraph.ResultQueue

/-! # Merging the streams of Zoekt replicas

During a rebalancing several replicas have the same repository. The first to send a match of it
owns it. -/
namespace HorizontalSearch

open ResultQueue List
open Function (update update_of_ne update_self)

variable {F S P : Type} [AddCommMonoid S] (z : Zoekt F S P)

abbrev Dedupper := String → Option String

structure Scan (F : Type) where
  lastRepo : String
  lastSeen : Bool
  dedup : List F

def scan (repoEndpoint : Dedupper) (endpoint : String) (s : Scan F) (fm : F) : Scan F :=
  if s.lastRepo = z.repository fm then
    if s.lastSeen then s
    else ⟨z.repository fm, false, s.dedup ++ [fm]⟩
  else
    match repoEndpoint (z.repository fm) with
    | some ep =>
      if ep ≠ endpoint then ⟨z.repository fm, true, s.dedup⟩
      else ⟨z.repository fm, false, s.dedup ++ [fm]⟩
    | none => ⟨z.repository fm, false, s.dedup ++ [fm]⟩

def claim (endpoint : String) (s : String × Dedupper) (fm : F) : String × Dedupper :=
  if s.1 ≠ z.repository fm then
    (z.repository fm, update s.2 (z.repository fm) (some endpoint))
  else s

/-- The matches that are left, and the owners after the batch. -/
def dedup (repoEndpoint : Dedupper) (endpoint : String) (fms : List F) : List F × Dedupper :=
  if fms.length = 0 then (fms, repoEndpoint)
  else
    let left := (fms.foldl (scan z repoEndpoint endpoint) ⟨"", false, []⟩).dedup
    (left, (left.foldl (claim z endpoint) ("", repoEndpoint)).2)

def foreign (repoEndpoint : Dedupper) (endpoint repo : String) : Bool :=
  match repoEndpoint repo with
  | some ep => decide (ep ≠ endpoint)
  | none => false

def inRepo (repo : String) (fm : F) : Bool := decide (z.repository fm = repo)

/-- The cached verdict is right, except for the empty name with which the scan starts. -/
def Cached (repoEndpoint : Dedupper) (endpoint : String) (s : Scan F) : Prop :=
  s.lastRepo ≠ "" → s.lastSeen = foreign repoEndpoint endpoint s.lastRepo

theorem scan_eq (rep : Dedupper) (endp : String) (s : Scan F) (fm : F)
    (h : Cached rep endp s) :
    ∃ seen, (z.repository fm ≠ "" → seen = foreign rep endp (z.repository fm)) ∧
      scan z rep endp s fm =
        ⟨z.repository fm, seen, if seen then s.dedup else s.dedup ++ [fm]⟩ := by
  rw [scan]
  by_cases hla : s.lastRepo = z.repository fm
  · refine ⟨s.lastSeen, fun hne => ?_, ?_⟩
    · rw [← hla] at hne ⊢
      exact h hne
    · rw [if_pos hla]
      obtain ⟨last, seen, left⟩ := s
      cases hla
      cases seen <;> rfl
  · refine ⟨foreign rep endp (z.repository fm), fun _ => rfl, ?_⟩
    rw [if_neg hla, foreign]
    cases rep (z.repository fm) with
    | none => rfl
    | some ep => by_cases hep : ep = endp <;> simp [hep]

theorem scan_filter (rep : Dedupper) (ep : String) (hrp : repo ≠ "") (fms : List F)
    (s : Scan F) (h : Cached rep ep s) :
    (fms.foldl (scan z rep ep) s).dedup.filter (inRepo z repo) =
      s.dedup.filter (inRepo z repo) ++
        if foreign rep ep repo then [] else fms.filter (inRepo z repo) := by
  induction fms generalizing s with
  | nil => rw [foldl_nil, filter_nil, ite_self, append_nil]
  | cons fm fms ih =>
    obtain ⟨seen, hse, hsc⟩ := scan_eq z rep ep s fm h
    have hcac : Cached rep ep (scan z rep ep s fm) := by
      rwa [hsc]
    rw [foldl_cons, ih _ hcac, hsc]
    by_cases hfm : z.repository fm = repo
    · have hin : inRepo z repo fm = true := decide_eq_true hfm
      rw [hse (by rwa [hfm]), hfm]
      cases foreign rep ep repo <;> simp [hin]
    have hout : inRepo z repo fm = false := decide_eq_false hfm
    cases seen <;> simp [hout]

theorem dedup_filter (rep : Dedupper) (ep : String) (hrp : repo ≠ "")
    (fms : List F) :
    (dedup z rep ep fms).1.filter (inRepo z repo) =
      if foreign rep ep repo then [] else fms.filter (inRepo z repo) := by
  rw [dedup]
  split
  · rename_i hno
    rw [length_eq_zero_iff.mp hno, filter_nil, ite_self]
  · exact scan_filter z rep ep hrp fms ⟨"", false, []⟩ fun hne => absurd rfl hne

theorem claim_foldl (ep : String) (fms : List F) (s : String × Dedupper)
    (h : s.1 = repo → s.2 repo = some ep) : (fms.foldl (claim z ep) s).2 repo =
      if fms.any (inRepo z repo) then some ep else s.2 repo := by
  induction fms generalizing s with
  | nil => rfl
  | cons fm fms ih =>
    rw [foldl_cons, any_cons, inRepo]
    by_cases hfm : z.repository fm = repo
    · have hown : (claim z ep s fm).2 repo = some ep := by
        rw [claim, hfm]
        split
        · exact update_self _ _ _
        rename_i hla
        exact h (not_not.mp hla)
      rw [ih _ fun _ => hown, hown, decide_eq_true hfm, ite_self, Bool.true_or, if_pos rfl]
    · have hoth : (claim z ep s fm).2 repo = s.2 repo ∧
          ((claim z ep s fm).1 = repo → s.1 = repo) := by
        rw [claim]
        split
        · exact ⟨update_of_ne (Ne.symm hfm) _ _, fun hla => absurd hla hfm⟩
        · exact ⟨rfl, id⟩
      rw [ih _ fun hla => hoth.1.trans (h (hoth.2 hla)), hoth.1, decide_eq_false hfm, Bool.false_or]

theorem dedup_owner (rep : Dedupper) (ep : String) (hrp : repo ≠ "") (fms : List F) :
    (dedup z rep ep fms).2 repo =
      if (dedup z rep ep fms).1.any (inRepo z repo) then some ep
      else rep repo := by
  rw [dedup]
  split
  · rename_i hno
    rw [length_eq_zero_iff.mp hno]
    rfl
  · exact claim_foldl z ep _ ("", rep) fun he => absurd he.symm hrp

/-- What a search does with the results of its endpoints before it forwards them. -/
structure Buffer (F S P B : Type) where
  initial : B
  send : B → String → SearchResult F S P → List String → List (SearchResult F S P) × B
  finish : B → String → Option (SearchResult F S P) → List (SearchResult F S P) × B
  flush : B → List (SearchResult F S P) × B
  /-- The ranked search has a timer whatever the configuration is, and its last flush is deferred,
  so that it also comes before an error is returned. -/
  deferred : Bool

def reorder (config : SiteConfig) (endpoints : List String) : Buffer F S P (Queue F S P) :=
  { initial := newResultQueue z config endpoints
    send := fun q endpoint sr visited => flushReady z (enqueue z q endpoint sr) visited
    finish := fun q endpoint crash =>
      ([], done (match crash with
        | some sr => enqueue z q endpoint sr
        | none => q) endpoint)
    flush := flushAll z
    deferred := false }

structure CollectSender (F S P : Type) where
  aggregate : Option (SearchResult F S P) := none
  overflow : List (SearchResult F S P) := []
  sizeBytes : UInt64 := 0

/-- `cut` is no field of the source: it keeps the files that are dropped. -/
structure FlushCollectSender (F S P : Type) where
  collectSender : Option (CollectSender F S P)
  firstResults : List String
  cut : List F

def CollectSender.send (c : CollectSender F S P) (r : SearchResult F S P) : CollectSender F S P :=
  let aggregate := c.aggregate.getD ⟨[], 0, z.zeroPriority, z.zeroPriority⟩
  { c with
    aggregate := some { aggregate with
      stats := aggregate.stats + r.stats
      files := aggregate.files ++ r.files }
    sizeBytes := c.sizeBytes + z.sizeBytes r }

def CollectSender.sendOverflow (c : CollectSender F S P) (r : SearchResult F S P) :
    CollectSender F S P :=
  { c with overflow := c.overflow ++ [r], sizeBytes := c.sizeBytes + z.sizeBytes r }

/-- The ranked files are cut off after `maxDocDisplayCount` of them. -/
def truncate (maxDocDisplayCount : ℤ) (ranked : List F) : List F × List F :=
  if maxDocDisplayCount > 0 ∧ ranked.length > maxDocDisplayCount then
    ranked.splitAt maxDocDisplayCount.toNat
  else (ranked, [])

def stopCollectingAndFlush (maxDocDisplayCount : ℤ) (f : FlushCollectSender F S P) :
    List (SearchResult F S P) × FlushCollectSender F S P :=
  match f.collectSender with
  | none => ([], f)
  | some ⟨none, _, _⟩ => ([], { f with collectSender := none })
  | some ⟨some aggregate, overflow, _⟩ =>
    let (kept, cut) := truncate maxDocDisplayCount (z.sortFiles aggregate.files)
    ({ aggregate with files := kept } :: overflow,
      { f with collectSender := none, cut := f.cut ++ cut })

def FlushCollectSender.send (maxDocDisplayCount maxSizeBytes : ℤ) (f : FlushCollectSender F S P)
    (endpoint : String) (event : SearchResult F S P) :
    List (SearchResult F S P) × FlushCollectSender F S P :=
  match f.collectSender with
  | none => ([event], f)
  | some c =>
    let c := if endpoint ∈ f.firstResults then c.send z event else c.sendOverflow z event
    let firstResults :=
      if endpoint ∈ f.firstResults ∧ event.files.length > 0 then
        f.firstResults.filter (· ≠ endpoint)
      else f.firstResults
    let f := { f with collectSender := some c, firstResults := firstResults }
    if firstResults.length = 0 ∨ maxSizeBytes ≥ 0 ∧ c.sizeBytes.toNat > maxSizeBytes then
      stopCollectingAndFlush z maxDocDisplayCount f
    else ([], f)

def FlushCollectSender.sendDone (maxDocDisplayCount : ℤ) (f : FlushCollectSender F S P)
    (endpoint : String) : List (SearchResult F S P) × FlushCollectSender F S P :=
  let f := { f with firstResults := f.firstResults.filter (· ≠ endpoint) }
  if f.firstResults.length = 0 then stopCollectingAndFlush z maxDocDisplayCount f else ([], f)

def collect (maxDocDisplayCount : ℤ) (config : SiteConfig) (endpoints : List String) :
    Buffer F S P (FlushCollectSender F S P) :=
  { initial := ⟨some {}, endpoints, []⟩
    send := fun f endpoint sr _ => f.send z maxDocDisplayCount config.maxSizeBytes endpoint sr
    finish := fun f endpoint crash =>
      let (sent, f) := match crash with
        | some sr => f.send z maxDocDisplayCount config.maxSizeBytes endpoint sr
        | none => ([], f)
      let (sent', f) := f.sendDone z maxDocDisplayCount endpoint
      (sent ++ sent', f)
    flush := stopCollectingAndFlush z maxDocDisplayCount
    deferred := true }

inductive Outcome where
  | finished | rollout | failed
  deriving DecidableEq

/-- What an endpoint sends, nil events included, and how its stream ends. -/
structure Stream (F S P : Type) where
  events : List (Option (SearchResult F S P))
  outcome : Outcome

def Stream.results (stream : Stream F S P) : List (SearchResult F S P) :=
  stream.events.filterMap fun event => event

inductive Phase where
  | searching | flushed | returned
  deriving DecidableEq

/-- `received` lists the results in the order in which they arrived, as they were sent. -/
structure Progress (F S P : Type) where
  phase : Phase
  sent : List (SearchResult F S P)
  received : List (String × SearchResult F S P)

structure Search (F S P B : Type) extends Progress F S P where
  dedupper : Dedupper
  buffer : B
  remaining : String → List (Option (SearchResult F S P))
  closed : List String
  timer : Bool

/-- `visited` are the endpoints in the order of the iteration over the pending priorities. -/
inductive Event where
  | receive (endpoint : String) (visited : List String)
  | finish (endpoint : String)
  | timer
  | complete
  | exit
  deriving DecidableEq

structure SearchOptions where
  useDocumentRanks : Bool
  maxDocDisplayCount : ℤ

structure Replicas (F S P : Type) where
  config : SiteConfig
  reorderTimer : Bool
  endpoints : List String
  streams : String → Stream F S P

section Steps

variable {B : Type} (b : Buffer F S P B) (r : Replicas F S P) (s : Search F S P B)

def start : Search F S P B :=
  { dedupper := fun _ => none
    buffer := b.initial
    remaining := fun e => (r.streams e).events
    closed := []
    timer := b.deferred || r.reorderTimer
    phase := .searching
    sent := []
    received := [] }

def crashEvent : SearchResult F S P := ⟨[], z.crashed, z.zeroPriority, z.zeroPriority⟩

/-- The new state of the buffer, and what is forwarded. -/
def forward (out : List (SearchResult F S P) × B) : Search F S P B :=
  { s with sent := s.sent ++ out.1, buffer := out.2 }

def receive (endpoint : String) (visited : List String) (sr : SearchResult F S P) :
    Search F S P B :=
  let (files, dedupper) := dedup z s.dedupper endpoint sr.files
  forward { s with dedupper := dedupper, received := s.received ++ [(endpoint, sr)] }
    (b.send s.buffer endpoint { sr with files := files } visited)

def crash (endpoint : String) : Option (SearchResult F S P) :=
  if (r.streams endpoint).outcome = .rollout then some (crashEvent z) else none

def finish (endpoint : String) : Search F S P B :=
  forward { s with closed := s.closed ++ [endpoint] }
    (b.finish s.buffer endpoint (crash z r endpoint))

def flush : Search F S P B := forward s (b.flush s.buffer)

def step : Event → Option (Search F S P B)
  | .receive e visited =>
    if e ∈ r.endpoints ∧ e ∉ s.closed then
      match s.remaining e with
      | [] => none
      | event :: rest =>
        let s := { s with remaining := update s.remaining e rest }
        some (match event with
          | none => s
          | some sr => receive z b s e visited sr)
    else none
  | .finish e =>
    if e ∈ r.endpoints ∧ e ∉ s.closed ∧ (s.remaining e).isEmpty then some (finish z b r s e)
    else none
  | .timer =>
    if s.timer then
      some (if s.phase = .returned then { s with timer := false }
        else { flush b s with timer := false })
    else none
  | .complete =>
    if s.phase = .searching ∧ ∀ e ∈ r.endpoints, e ∈ s.closed then
      -- An error that is no rollout error is returned before a flush that is not deferred.
      some (if ∃ e ∈ r.endpoints, (r.streams e).outcome = .failed then
          { (if b.deferred then flush b s else s) with phase := .returned }
        else { flush b s with phase := .flushed })
    else none
  | .exit => if s.phase = .flushed then some { s with phase := .returned } else none

end Steps

def run {B : Type} (b : Buffer F S P B) (r : Replicas F S P) (events : List Event) :
    Option (Search F S P B) :=
  events.foldlM (step z b r) (start b r)

def streamSearch (opts : Option SearchOptions) (r : Replicas F S P) (events : List Event) :
    Option (Progress F S P) :=
  match opts with
  | some ⟨true, maxDocDisplayCount⟩ =>
    (run z (collect z maxDocDisplayCount r.config r.endpoints) r events).map Search.toProgress
  | _ => (run z (reorder z r.config r.endpoints) r events).map Search.toProgress

def first (received : List (String × SearchResult F S P)) (repo : String) : Option String :=
  (received.find? fun b => b.2.files.any (inRepo z repo)).map (·.1)

def sentBy (received : List (String × SearchResult F S P)) (endpoint : String) :
    List (SearchResult F S P) :=
  (received.filter fun b => decide (b.1 = endpoint)).map (·.2)

/-- The matches in the repository of the endpoint that owns it. -/
def share (received : List (String × SearchResult F S P)) (repo : String) : List F :=
  match first z received repo with
  | some e => (files (sentBy received e)).filter (inRepo z repo)
  | none => []

theorem first_concat :
    first z (received ++ [(e, sr)]) repo = (first z received repo).or
      (if sr.files.any (inRepo z repo) then some e else none) := by
  rw [first, first, find?_append, find?_singleton]
  cases received.find? fun b => b.2.files.any (inRepo z repo) with
  | some b => rfl
  | none =>
    rw [Option.none_or, apply_ite (Option.map _)]
    rfl

omit [AddCommMonoid S] in
theorem sentBy_concat :
    sentBy (received ++ [(e, sr)]) e' = sentBy received e' ++ if e = e' then [sr] else [] := by
  rw [sentBy, sentBy, filter_append, map_append]
  by_cases he : e = e' <;> simp [he]

theorem any_iff_filter {fms : List F} :
    fms.any (inRepo z repo) = true ↔ fms.filter (inRepo z repo) ≠ [] := by
  simp

theorem sentBy_unseen (h : first z received repo = none) (e : String) :
    (files (sentBy received e)).filter (inRepo z repo) = [] := by
  rw [first, Option.map_eq_none_iff, find?_eq_none] at h
  rw [filter_eq_nil_iff]
  intro fm hfm hin
  obtain ⟨sr, hsr, hfm⟩ := mem_flatMap.mp hfm
  obtain ⟨b, hb, rfl⟩ := mem_map.mp hsr
  exact h b (mem_filter.mp hb).1 (any_eq_true.mpr ⟨fm, hfm, hin⟩)

/-- What the dedupper leaves of a new result is what the owner's share grows by. -/
theorem share_concat (hrp : repo ≠ "") (hown : dd repo = first z received repo)
    (e : String) :
    share z (received ++ [(e, sr)]) repo = share z received repo ++
      (dedup z dd e sr.files).1.filter (inRepo z repo) := by
  rw [dedup_filter z dd e hrp, foreign, hown, share, share, first_concat]
  cases hf : first z received repo with
  | some ep =>
    rw [Option.some_or]
    simp only
    rw [sentBy_concat, files, flatMap_append, ← files]
    by_cases he : e = ep
    · simp [he]
    · simp [he, Ne.symm he]
  | none =>
    rw [Option.none_or]
    by_cases hany : sr.files.any (inRepo z repo) = true
    · rw [if_pos hany]
      simp only
      rw [sentBy_concat, files, flatMap_append, filter_append, ← files,
        sentBy_unseen z hf e]
      simp
    rw [if_neg hany]
    exact (not_not.mp (mt (any_iff_filter z).mpr hany)).symm

theorem owner_concat (hrp : repo ≠ "") (hown : dd repo = first z received repo)
    (e : String) (sr : SearchResult F S P) :
    (dedup z dd e sr.files).2 repo = first z (received ++ [(e, sr)]) repo := by
  have hl := dedup_filter z dd e hrp sr.files
  rw [foreign, hown] at hl
  rw [dedup_owner z dd e hrp, first_concat, hown]
  cases hf : first z received repo with
  | some ep =>
    rw [hf] at hl
    rw [Option.some_or]
    split
    · rename_i hany
      rw [any_iff_filter, hl] at hany
      by_cases he : ep = e
      · rw [he]
      · simp [he] at hany
    · rfl
  | none =>
    rw [hf] at hl
    have hsm : (dedup z dd e sr.files).1.any (inRepo z repo) = sr.files.any (inRepo z repo) := by
      rw [Bool.eq_iff_iff, any_iff_filter, hl]
      simp
    rw [Option.none_or, hsm]

def crashes (r : Replicas F S P) (endpoints : List String) : List S :=
  (endpoints.filter fun e => decide ((r.streams e).outcome = .rollout)).map fun _ => z.crashed

/-- How a buffer accounts for what it holds. `lost` are the files that it never forwards, and `full`
are the results that are as long as they may be. -/
structure Account (F S P B : Type) where
  files : B → List F
  stats : B → S
  lost : B → List F
  full : SearchResult F S P → Prop
  ready : B → String → Prop

section Laws

variable {B : Type}

/-- Nothing but what came in is forwarded, and what is not forwarded is kept. -/
structure Passes (a : Account F S P B) (state : B) (fresh : List (SearchResult F S P))
    (out : List (SearchResult F S P) × B) (others : String → Prop) : Prop where
  files : (files out.1 ++ a.files out.2).Perm (a.files state ++ files fresh)
  stats : sumStats out.1 + a.stats out.2 = a.stats state + sumStats fresh
  lost : a.lost out.2 = a.lost state ∨ ∃ sr ∈ out.1, a.full sr
  ready : ∀ e, others e → a.ready state e → a.ready out.2 e

structure Lawful (b : Buffer F S P B) (endpoints : List String) (a : Account F S P B) :
    Prop where
  initial : a.files b.initial = [] ∧ a.stats b.initial = 0 ∧ a.lost b.initial = []
  known : ∀ e ∈ endpoints, a.ready b.initial e
  send : ∀ state e sr visited, a.ready state e →
    Passes a state [sr] (b.send state e sr visited) fun _ => True
  finish : ∀ state e crash, a.ready state e →
    Passes a state crash.toList (b.finish state e crash) (· ≠ e)
  flush : ∀ state, Passes a state [] (b.flush state) fun _ => True
  flushed : ∀ state, a.files (b.flush state).2 = a.lost (b.flush state).2 ∧
    a.stats (b.flush state).2 = 0

variable {a : Account F S P B} {state : B} {out out' : List (SearchResult F S P) × B}

theorem Passes.append (h : Passes a state fresh out others)
    (h' : Passes a out.2 [] out' others) :
    Passes a state fresh (out.1 ++ out'.1, out'.2) others where
  files := by
    have hkept := h'.files.trans (.of_eq (append_nil _))
    rw [ResultQueue.files, flatMap_append, append_assoc]
    exact (hkept.append_left _).trans h.files
  stats := by
    rw [sumStats, map_append, sum_append, add_assoc, ← h.stats]
    exact congrArg (sumStats out.1 + ·) (h'.stats.trans (add_zero _))
  lost := by
    rcases h'.lost with he | ⟨sr, hsr, hfull⟩
    · rcases h.lost with he' | ⟨sr, hsr, hfull⟩
      · exact .inl (he.trans he')
      · exact .inr ⟨sr, mem_append_left _ hsr, hfull⟩
    · exact .inr ⟨sr, mem_append_right _ hsr, hfull⟩
  ready e he hready := h'.ready e he (h.ready e he hready)

end Laws

def reorderAccount : Account F S P (Queue F S P) where
  files := Queue.files
  stats := Queue.stats
  lost _ := []
  full _ := False
  ready _ _ := True

theorem Conserves.passes {q q' : Queue F S P} (h : Conserves q sent q') (others : String → Prop) :
    Passes reorderAccount q [] (sent, q') others where
  files := h.files.trans (.of_eq (append_nil _).symm)
  stats := h.stats.trans (add_zero _).symm
  lost := .inl rfl
  ready _ _ _ := trivial

theorem enqueue_passes (q : Queue F S P) (e : String) (sr : SearchResult F S P)
    (others : String → Prop) : Passes reorderAccount q [sr] ([], enqueue z q e sr) others where
  files := by
    rw [show files [sr] = sr.files from flatMap_singleton _ _]
    exact (enqueue_files z q e sr).trans perm_append_comm
  stats := by simp [sumStats, reorderAccount, enqueue]
  lost := .inl rfl
  ready _ _ _ := trivial

theorem reorder_lawful (config : SiteConfig) (endpoints : List String) :
    Lawful (reorder z config endpoints) endpoints reorderAccount where
  initial := ⟨rfl, rfl, rfl⟩
  known _ _ := trivial
  send q e sr visited _ := (enqueue_passes z q e sr _).append
    (Conserves.passes (flushReady_conserves z (enqueue z q e sr) visited) _)
  finish q e crash _ := by
    cases crash with
    | none => exact { Conserves.passes (conserves_nil q) (· ≠ e) with }
    | some sr => exact { enqueue_passes z q e sr (· ≠ e) with }
  flush q := Conserves.passes (flushAll_conserves z q).1 _
  flushed q := (flushAll_conserves z q).2

/-- An endpoint may only send while nothing is collected if its first result is awaited: the
overflow alone would not be sent. -/
def collectAccount (maxDocDisplayCount : ℤ) : Account F S P (FlushCollectSender F S P) where
  files f := (match f.collectSender with
    | some ⟨some aggregate, overflow, _⟩ => aggregate.files ++ files overflow
    | _ => []) ++ f.cut
  stats f := match f.collectSender with
    | some ⟨some aggregate, overflow, _⟩ => aggregate.stats + sumStats overflow
    | _ => 0
  lost f := f.cut
  full sr := 0 < maxDocDisplayCount ∧ sr.files.length = maxDocDisplayCount
  ready f e := ∀ c ∈ f.collectSender, c.aggregate = none → e ∈ f.firstResults ∧ c.overflow = []

section Collecting

variable (m : ℤ) (f : FlushCollectSender F S P)

theorem truncate_spec (l : List F) : (truncate m l).1 ++ (truncate m l).2 = l ∧
    ((truncate m l).2 = [] ∨ 0 < m ∧ (truncate m l).1.length = m) := by
  rw [truncate]
  split
  · rename_i h
    rw [splitAt_eq]
    refine ⟨take_append_drop _ l, .inr ⟨h.1, ?_⟩⟩
    rw [length_take]
    omega
  · exact ⟨append_nil l, .inl rfl⟩

theorem stop_collectSender : (stopCollectingAndFlush z m f).2.collectSender = none := by
  unfold stopCollectingAndFlush
  split
  · assumption
  · rfl
  · rfl

theorem stop_passes (others : String → Prop) :
    Passes (collectAccount m) f [] (stopCollectingAndFlush z m f) others := by
  have hready : ∀ e, others e → (collectAccount m).ready f e →
      (collectAccount m).ready (stopCollectingAndFlush z m f).2 e := by
    intro e _ _ c hc
    rw [stop_collectSender] at hc
    cases hc
  obtain ⟨_ | ⟨_ | aggregate, overflow, size⟩, first, cut⟩ := f
  · exact ⟨.of_eq (append_nil _).symm, rfl, .inl rfl, hready⟩
  · exact ⟨.of_eq (append_nil _).symm, rfl, .inl rfl, hready⟩
  obtain ⟨hsplit, hcut⟩ := truncate_spec m (z.sortFiles aggregate.files)
  refine ⟨?_, ?_, ?_, hready⟩
  · have hperm := z.sortFiles_perm aggregate.files
    rw [← hsplit] at hperm
    simp only [stopCollectingAndFlush, collectAccount, files, flatMap_cons, flatMap_nil, append_nil,
      nil_append, append_assoc]
    rw [← append_assoc _ cut]
    refine (perm_append_comm.append_left _).trans ?_
    rw [← append_assoc]
    exact hperm.append_right _
  · simp [stopCollectingAndFlush, collectAccount, sumStats]
  · rcases hcut with hnil | hfull
    · left
      simp [stopCollectingAndFlush, collectAccount, hnil]
    · exact .inr ⟨_, mem_cons_self, hfull⟩

variable {f}

theorem Passes.stopped_if (h : Passes (collectAccount m) f fresh ([], f') others) (p : Prop)
    [Decidable p] : Passes (collectAccount m) f fresh
      (if p then stopCollectingAndFlush z m f' else ([], f')) others := by
  split
  · exact h.append (stop_passes z m f' others)
  · exact h

theorem collected_passes {c : CollectSender F S P} (hf : f.collectSender = some c)
    (hready : (collectAccount m).ready f e) (sr : SearchResult F S P) (first : List String)
    (others : String → Prop) : Passes (collectAccount m) f [sr] ([], { f with
      collectSender := some (if e ∈ f.firstResults then c.send z sr else c.sendOverflow z sr)
      firstResults := first }) others := by
  have hready := hready c hf
  obtain ⟨_, waiting, cut⟩ := f
  cases hf
  obtain ⟨_ | aggregate, overflow, size⟩ := c
  · obtain ⟨hmem, hnil⟩ := hready rfl
    cases hnil
    rw [if_pos hmem]
    refine ⟨?_, ?_, .inl rfl, fun e' _ _ c hc hnone => ?_⟩
    · simp [collectAccount, CollectSender.send, files, perm_append_comm]
    · simp [collectAccount, CollectSender.send, sumStats]
    · cases hc
      cases hnone
  · refine ⟨?_, ?_, .inl rfl, fun e' _ _ c hc hnone => ?_⟩
    · split
      · simp only [collectAccount, CollectSender.send, files, flatMap_cons, flatMap_nil, append_nil,
          nil_append, append_assoc, Option.getD_some]
        refine Perm.append_left _ (perm_append_comm.trans ?_)
        rw [append_assoc]
      · simp only [collectAccount, CollectSender.sendOverflow, files, flatMap_append, flatMap_cons,
          flatMap_nil, append_nil, nil_append, append_assoc]
        exact Perm.append_left _ (Perm.append_left _ perm_append_comm)
    · split
      · simp [collectAccount, CollectSender.send, sumStats, add_right_comm]
      · simp [collectAccount, CollectSender.sendOverflow, sumStats, add_assoc]
    · cases hc
      split at hnone <;> cases hnone

theorem send_passes (maxSizeBytes : ℤ) (hready : (collectAccount m).ready f e)
    (sr : SearchResult F S P) (others : String → Prop) :
    Passes (collectAccount m) f [sr] (f.send z m maxSizeBytes e sr) others := by
  unfold FlushCollectSender.send
  split
  · refine ⟨perm_append_comm, ?_, .inl rfl, fun _ _ h => h⟩
    exact add_comm _ _
  · rename_i c hf
    exact (collected_passes z m hf hready sr _ others).stopped_if z m _

theorem sendDone_passes :
    Passes (collectAccount m) f [] (f.sendDone z m e) (· ≠ e) := by
  have hpasses : Passes (collectAccount m) f []
      ([], { f with firstResults := f.firstResults.filter (· ≠ e) }) (· ≠ e) := by
    refine ⟨?_, (zero_add _).trans (add_zero _).symm, .inl rfl, fun e' hne h c hc hnone => ?_⟩
    · exact .of_eq (append_nil _).symm
    · obtain ⟨hmem, hnil⟩ := h c hc hnone
      exact ⟨mem_filter.mpr ⟨hmem, decide_eq_true hne⟩, hnil⟩
  exact hpasses.stopped_if z m _

theorem collect_lawful (config : SiteConfig) (endpoints : List String) :
    Lawful (collect z m config endpoints) endpoints (collectAccount m) where
  initial := ⟨rfl, rfl, rfl⟩
  known e he c hc _ := by
    cases hc
    exact ⟨he, rfl⟩
  send f e sr _ hready := send_passes z m config.maxSizeBytes hready sr _
  finish f e crash hready := by
    cases crash with
    | none => exact sendDone_passes z m
    | some sr =>
      exact (send_passes z m config.maxSizeBytes hready sr _).append (sendDone_passes z m)
  flush f := stop_passes z m f _
  flushed f := by
    have hnone := stop_collectSender z m f
    simp only [collect, collectAccount, hnone, nil_append, and_self]

end Collecting

structure Accounted {B : Type} (a : Account F S P B) (r : Replicas F S P) (s : Search F S P B) :
    Prop where
  owners : ∀ repo, repo ≠ "" → s.dedupper repo = first z s.received repo
  shares : ∀ repo, repo ≠ "" →
    ((files s.sent ++ a.files s.buffer).filter (inRepo z repo)).Perm (share z s.received repo)
  stats : sumStats s.sent + a.stats s.buffer =
    sumStats (s.received.map (·.2)) + (crashes z r s.closed).sum
  lost : a.lost s.buffer = [] ∨ ∃ sr ∈ s.sent, a.full sr
  ready : ∀ e ∈ r.endpoints, e ∉ s.closed → a.ready s.buffer e
  streams : ∀ e, sentBy s.received e ++ (s.remaining e).filterMap (fun event => event) =
    (r.streams e).results
  known : ∀ b ∈ s.received, b.1 ∈ r.endpoints
  drained : ∀ e ∈ s.closed, s.remaining e = []
  closed : s.closed.Nodup ∧ ∀ e ∈ s.closed, e ∈ r.endpoints

structure Flushed {B : Type} (a : Account F S P B) (r : Replicas F S P) (s : Search F S P B) :
    Prop where
  files : a.files s.buffer = a.lost s.buffer
  stats : a.stats s.buffer = 0
  closed : ∀ e ∈ r.endpoints, e ∈ s.closed

section Runs

variable {B : Type} {b : Buffer F S P B} {a : Account F S P B} {r : Replicas F S P}
  (hb : Lawful b r.endpoints a) {s : Search F S P B}

include hb in
theorem start_accounted : Accounted z a r (start b r) where
  owners _ _ := rfl
  shares _ _ := by
    rw [start, hb.initial.1]
    exact .refl _
  stats := by
    rw [start, hb.initial.2.1]
    rfl
  lost := .inl hb.initial.2.2
  ready e he _ := hb.known e he
  streams _ := rfl
  known _ hmem := absurd hmem not_mem_nil
  drained _ he := absurd he not_mem_nil
  closed := ⟨nodup_nil, fun _ he => absurd he not_mem_nil⟩

/-- The lost files stay lost, and a full result that was forwarded stays forwarded. -/
theorem Passes.lost_or (h : Passes a s.buffer fresh out others)
    (hlost : a.lost s.buffer = [] ∨ ∃ sr ∈ s.sent, a.full sr) :
    a.lost out.2 = [] ∨ ∃ sr ∈ s.sent ++ out.1, a.full sr := by
  rcases h.lost with he | ⟨sr, hsr, hfull⟩
  · rw [he]
    exact hlost.imp_right fun ⟨sr, hsr, hfull⟩ => ⟨sr, mem_append_left _ hsr, hfull⟩
  · exact .inr ⟨sr, mem_append_right _ hsr, hfull⟩

theorem Passes.files_forwarded (h : Passes a s.buffer fresh out others) :
    (ResultQueue.files (s.sent ++ out.1) ++ a.files out.2).Perm
      (ResultQueue.files s.sent ++ a.files s.buffer ++ ResultQueue.files fresh) := by
  rw [ResultQueue.files, flatMap_append, append_assoc, append_assoc]
  exact h.files.append_left _

theorem Passes.stats_forwarded (h : Passes a s.buffer fresh out others) :
    sumStats (s.sent ++ out.1) + a.stats out.2 =
      sumStats s.sent + a.stats s.buffer + sumStats fresh := by
  rw [sumStats, map_append, sum_append, add_assoc, add_assoc]
  exact congrArg (sumStats s.sent + ·) h.stats

include hb in
theorem flush_accounted (h : Accounted z a r s) : Accounted z a r (flush b s) :=
  have hpasses := hb.flush s.buffer
  { h with
    shares := fun repo hrepo => by
      refine Perm.trans (Perm.filter _ ?_) (h.shares repo hrepo)
      exact hpasses.files_forwarded.trans (.of_eq (append_nil _))
    stats := hpasses.stats_forwarded.trans ((add_zero _).trans h.stats)
    lost := hpasses.lost_or h.lost
    ready := fun e he hopen => hpasses.ready e trivial (h.ready e he hopen) }

section Receiving

variable (h : Accounted z a r s) {event : Option (SearchResult F S P)}
  {rest : List (Option (SearchResult F S P))} (he : s.remaining e = event :: rest)
  (hopen : e ∉ s.closed)

include h he in
theorem streams_advance (e' : String) :
    sentBy s.received e' ++ (if e = e' then event.toList else []) ++
      (update s.remaining e rest e').filterMap (fun event => event) =
    (r.streams e').results := by
  rw [← h.streams e']
  by_cases hsame : e = e'
  · subst hsame
    rw [if_pos rfl, update_self, he]
    cases event with
    | none | some sr => simp
  · rw [if_neg hsame, update_of_ne (Ne.symm hsame), append_nil]

include h hopen in
theorem drained_advance : ∀ e' ∈ s.closed, update s.remaining e rest e' = [] := by
  intro e' he'
  have hne : e' ≠ e := fun hsame => hopen (hsame ▸ he')
  rw [update_of_ne hne]
  exact h.drained e' he'

end Receiving

theorem skip_accounted (h : Accounted z a r s) (he : s.remaining e = none :: rest)
    (hopen : e ∉ s.closed) :
    Accounted z a r { s with remaining := update s.remaining e rest } :=
  { h with
    streams := fun e' => by
      have hstream := streams_advance z h he e'
      rwa [Option.toList_none, ite_self, append_nil] at hstream
    drained := drained_advance z h hopen }

include hb in
theorem receive_accounted (h : Accounted z a r s) (hmem : e ∈ r.endpoints)
    (he : s.remaining e = some sr :: rest) (hopen : e ∉ s.closed) (visited : List String) :
    Accounted z a r (receive z b { s with remaining := update s.remaining e rest } e visited sr) :=
  have hpasses := hb.send s.buffer e { sr with files := (dedup z s.dedupper e sr.files).1 } visited
    (h.ready e hmem hopen)
  { owners := fun repo hrepo => owner_concat z hrepo (h.owners repo hrepo) e sr
    shares := fun repo hrepo => by
      have hfiles := hpasses.files_forwarded.filter (inRepo z repo)
      rw [show files [{ sr with files := (dedup z s.dedupper e sr.files).1 }] =
        (dedup z s.dedupper e sr.files).1 from flatMap_singleton _ _,
        filter_append _ (dedup z s.dedupper e sr.files).1] at hfiles
      refine hfiles.trans (((h.shares repo hrepo).append_right _).trans (.of_eq ?_))
      exact (share_concat z hrepo (h.owners repo hrepo) e).symm
    stats := by
      refine hpasses.stats_forwarded.trans ?_
      rw [h.stats, add_right_comm]
      simp [receive, forward, sumStats]
    lost := hpasses.lost_or h.lost
    ready := fun e' he' hopen' => hpasses.ready e' trivial (h.ready e' he' hopen')
    streams := fun e' => by
      have hstream := streams_advance z h he e'
      rwa [Option.toList_some, ← sentBy_concat] at hstream
    known := forall_mem_append.mpr ⟨h.known, forall_mem_singleton.mpr hmem⟩
    drained := drained_advance z h hopen
    closed := h.closed }

include hb in
theorem finish_accounted (h : Accounted z a r s) (hmem : e ∈ r.endpoints) (hopen : e ∉ s.closed)
    (he : s.remaining e = []) : Accounted z a r (finish z b r s e) := by
  have hpasses := hb.finish s.buffer e (crash z r e) (h.ready e hmem hopen)
  have hcrash : sumStats (crash z r e).toList + (crashes z r s.closed).sum =
      (crashes z r (s.closed ++ [e])).sum := by
    rw [crashes, crashes, filter_append, map_append, sum_append, crash, add_comm]
    by_cases hrollout : (r.streams e).outcome = .rollout <;> simp [hrollout, sumStats, crashEvent]
  have hnone : files (crash z r e).toList = [] := by
    rw [crash]
    split <;> rfl
  refine { h with
    shares := fun repo hrepo => ?_
    stats := ?_
    lost := hpasses.lost_or h.lost
    ready := fun e' he' hopen' => ?_
    drained := forall_mem_append.mpr ⟨h.drained, forall_mem_singleton.mpr he⟩
    closed := ⟨?_, forall_mem_append.mpr ⟨h.closed.2, forall_mem_singleton.mpr hmem⟩⟩ }
  · refine Perm.trans (Perm.filter _ ?_) (h.shares repo hrepo)
    have hfiles := hpasses.files_forwarded
    rw [hnone, append_nil] at hfiles
    exact hfiles
  · refine hpasses.stats_forwarded.trans ?_
    rw [h.stats, add_assoc, add_comm _ (sumStats _), hcrash]
    rfl
  · have hold : e' ∉ s.closed := fun hmem => hopen' (mem_append_left _ hmem)
    have hne : e' ≠ e := fun hsame => hopen' (mem_append_right _ (mem_singleton.mpr hsame))
    exact hpasses.ready e' hne (h.ready e' he' hold)
  · exact nodup_append_comm.mp (nodup_cons.mpr ⟨hopen, h.closed.1⟩)

theorem Accounted.relabel (h : Accounted z a r s) (timer : Bool) (phase : Phase) :
    Accounted z a r { s with timer := timer, phase := phase } :=
  ⟨h.owners, h.shares, h.stats, h.lost, h.ready, h.streams, h.known, h.drained, h.closed⟩

include hb in
theorem flush_flushed (hclosed : ∀ e ∈ r.endpoints, e ∈ s.closed) : Flushed a r (flush b s) :=
  ⟨(hb.flushed s.buffer).1, (hb.flushed s.buffer).2, hclosed⟩

include hb in
theorem step_accounted (hfailed : ∀ e ∈ r.endpoints, (r.streams e).outcome ≠ .failed)
    (h : Accounted z a r s ∧ (s.phase ≠ .searching → Flushed a r s))
    (hstep : step z b r s event = some s') :
    Accounted z a r s' ∧ (s'.phase ≠ .searching → Flushed a r s') := by
  obtain ⟨haccounted, hflushed⟩ := h
  -- No endpoint is open after the last flush.
  have hsearching : ∀ e ∈ r.endpoints, e ∉ s.closed → s.phase = .searching := by
    intro e he hopen
    by_contra hphase
    exact hopen ((hflushed hphase).closed e he)
  cases event with
  | receive e visited =>
    simp only [step, Option.ite_none_right_eq_some] at hstep
    obtain ⟨⟨hmem, hopen⟩, hstep⟩ := hstep
    have hphase := hsearching e hmem hopen
    split at hstep
    · cases hstep
    rename_i event rest he
    cases hstep
    cases event with
    | none => exact ⟨skip_accounted z haccounted he hopen, fun hne => absurd hphase hne⟩
    | some sr =>
      exact ⟨receive_accounted z hb haccounted hmem he hopen visited,
        fun hne => absurd hphase hne⟩
  | finish e =>
    simp only [step, Option.ite_none_right_eq_some, Option.some.injEq] at hstep
    obtain ⟨⟨hmem, hopen, hempty⟩, rfl⟩ := hstep
    exact ⟨finish_accounted z hb haccounted hmem hopen (isEmpty_iff.mp hempty),
      fun hne => absurd (hsearching e hmem hopen) hne⟩
  | timer =>
    simp only [step, Option.ite_none_right_eq_some, Option.some.injEq] at hstep
    obtain ⟨-, rfl⟩ := hstep
    split
    · exact ⟨haccounted.relabel z false s.phase, fun hphase => { hflushed hphase with }⟩
    exact ⟨(flush_accounted z hb haccounted).relabel z false s.phase,
      fun hphase => { flush_flushed hb (hflushed hphase).closed with }⟩
  | complete =>
    simp only [step, Option.ite_none_right_eq_some, Option.some.injEq] at hstep
    obtain ⟨hguard, rfl⟩ := hstep
    rw [if_neg fun ⟨e, he, hout⟩ => hfailed e he hout]
    exact ⟨(flush_accounted z hb haccounted).relabel z s.timer .flushed,
      fun _ => { flush_flushed hb hguard.2 with }⟩
  | exit =>
    simp only [step, Option.ite_none_right_eq_some, Option.some.injEq] at hstep
    obtain ⟨hphase, rfl⟩ := hstep
    exact ⟨haccounted.relabel z s.timer .returned,
      fun _ => { hflushed (by rw [hphase]; exact Phase.noConfusion) with }⟩

theorem run_concat (events : List Event) (event : Event) :
    run z b r (events ++ [event]) = (run z b r events).bind fun s => step z b r s event := by
  rw [run, foldlM_append, run]
  cases foldlM (step z b r) (start b r) events with
  | none => rfl
  | some s => exact bind_pure (step z b r s event)

include hb in
theorem run_accounted (hfailed : ∀ e ∈ r.endpoints, (r.streams e).outcome ≠ .failed)
    (events : List Event) (hrun : run z b r events = some s) :
    Accounted z a r s ∧ (s.phase ≠ .searching → Flushed a r s) := by
  induction events using reverseRecOn generalizing s with
  | nil =>
    cases hrun
    exact ⟨start_accounted z hb, fun hne => absurd rfl hne⟩
  | append_singleton events event ih =>
    rw [run_concat] at hrun
    obtain ⟨t, ht, hstep⟩ := Option.bind_eq_some_iff.mp hrun
    exact step_accounted z hb hfailed (ih ht) hstep

theorem first_mem (h : first z received repo = some e) : ∃ b ∈ received, b.1 = e := by
  obtain ⟨b, hb, rfl⟩ := Option.map_eq_some_iff.mp h
  exact ⟨b, mem_of_find?_eq_some hb, rfl⟩

theorem Accounted.complete (h : Accounted z a r s) (hlast : Flushed a r s) (he : e ∈ r.endpoints) :
    sentBy s.received e = (r.streams e).results := by
  have hstream := h.streams e
  rwa [h.drained e (hlast.closed e he), filterMap_nil, append_nil] at hstream

theorem Accounted.crashes_eq (h : Accounted z a r s) (hlast : Flushed a r s)
    (hnodup : r.endpoints.Nodup) :
    (crashes z r s.closed).sum = (crashes z r r.endpoints).sum := by
  have hperm : s.closed.Perm r.endpoints := (perm_ext_iff_of_nodup h.closed.1 hnodup).mpr
    fun e => ⟨h.closed.2 e, hlast.closed e⟩
  exact ((hperm.filter _).map _).sum_eq

end Runs

/-- All results have arrived, the matches forwarded for a repository are, together with those that
were lost, those of its owner, each once, and the statistics add up. -/
structure Merges (r : Replicas F S P) (p : Progress F S P) (lost : List F) : Prop where
  received : ∀ e ∈ r.endpoints, sentBy p.received e = (r.streams e).results
  shares : ∀ repo, repo ≠ "" → ((files p.sent ++ lost).filter (inRepo z repo)).Perm
    (match first z p.received repo with
      | some e => (files (r.streams e).results).filter (inRepo z repo)
      | none => [])
  stats : sumStats p.sent = sumStats (p.received.map (·.2)) + (crashes z r r.endpoints).sum

theorem run_merges {B : Type} {b : Buffer F S P B} {a : Account F S P B} {r : Replicas F S P}
    (hb : Lawful b r.endpoints a) (hnodup : r.endpoints.Nodup)
    (hfailed : ∀ e ∈ r.endpoints, (r.streams e).outcome ≠ .failed)
    {s : Search F S P B} (hrun : run z b r events = some s) (hphase : s.phase ≠ .searching) :
    Merges z r s.toProgress (a.lost s.buffer) ∧
      (a.lost s.buffer = [] ∨ ∃ sr ∈ s.sent, a.full sr) := by
  obtain ⟨haccounted, hflushed⟩ := run_accounted z hb hfailed events hrun
  have hlast := hflushed hphase
  refine ⟨⟨fun e he => haccounted.complete z hlast he, fun repo hrepo => ?_, ?_⟩, haccounted.lost⟩
  · have hshare := haccounted.shares repo hrepo
    rw [hlast.files, share] at hshare
    cases hfirst : first z s.received repo with
    | none =>
      rw [hfirst] at hshare
      exact hshare
    | some e =>
      rw [hfirst] at hshare
      obtain ⟨batch, hbatch, rfl⟩ := first_mem z hfirst
      simp only at hshare ⊢
      rwa [← haccounted.complete z hlast (haccounted.known batch hbatch)]
  · have hstats := haccounted.stats
    rwa [hlast.stats, add_zero, haccounted.crashes_eq z hlast hnodup] at hstats

def counting : Zoekt (String × ℕ) ℕ ℤ :=
  { repository := fun fm => fm.1
    matchCount := Int64.ofNat
    isZero := fun s => decide (s = 0)
    crashed := 1
    sizeBytes := fun sr => UInt64.ofNat sr.files.length
    greater := fun a b => decide (a > b)
    atLeast := fun a b => decide (a ≥ b)
    zeroPriority := 0
    infinity := 1000
    negInfinity := -1000
    sortFiles := fun l => l
    sortFiles_perm := fun l => .refl l
    zero_unit := fun _ h => of_decide_eq_true h }

/-- Both replicas have the repository r; the second is shut down after its result. -/
def rebalancing : Replicas (String × ℕ) ℕ ℤ :=
  { config := ⟨24, -1, -1⟩
    reorderTimer := true
    endpoints := ["zoekt-0", "zoekt-1"]
    streams := fun e =>
      if e = "zoekt-0" then ⟨[some ⟨[("r", 1), ("r", 2)], 2, 7, 3⟩, none], .finished⟩
      else ⟨[some ⟨[("r", 1), ("s", 3)], 5, 9, 0⟩], .rollout⟩ }

def rollout : List Event :=
  [.receive "zoekt-0" ["zoekt-1", "zoekt-0"], .receive "zoekt-1" ["zoekt-0", "zoekt-1"], .timer,
    .finish "zoekt-1", .receive "zoekt-0" ["zoekt-0"], .finish "zoekt-0", .complete]

end HorizontalSearch
