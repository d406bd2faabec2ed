import Sourcegraph.SearchResults

/-! # The result limit under concurrent sends

A call of `limitStream.Send` is a thread of atomic actions, which interleave in any order: it
subtracts its count from the remaining one, sends its event on, and signals that the limit is hit.
-/
namespace LimitStream

open SearchResults List

/-- How far a call of `Send` is, with its local variables. -/
inductive Call where
  | start (event : SearchEvent)
  | subtracted (event : SearchEvent) (before after : ℤ)
  | sent (event : SearchEvent) (before after : ℤ)
  | signalled (event : SearchEvent) (before after : ℤ)
  | returned (event : SearchEvent) (before after : ℤ)
  | passed (event : SearchEvent)
  | panicked (message : Panic)
  deriving DecidableEq

structure State where
  remaining : ℤ
  calls : List Call
  received : List SearchEvent
  cancels : ℕ
  deriving DecidableEq

def eventCount (event : SearchEvent) : ℕ := resultCount event.results

def limitHitEvent : SearchEvent := { stats := { isLimitHit := true } }

def truncate (event : SearchEvent) (before after : ℤ) : Except Panic SearchEvent :=
  if after < 0 then
    (limit (if before < 0 then 0 else before) event.results).map fun r => { event with results := r.2 }
  else .ok event

structure Action where
  call : Call
  remaining : ℤ
  events : List SearchEvent := []
  cancels : ℕ := 0
  deriving DecidableEq

/-- The next action of a call; `none` if it has returned. -/
def Call.step (remaining : ℤ) : Call → Option Action
  | .start event =>
    let count : ℤ := eventCount event
    if count = 0 then some { call := .passed event, remaining, events := [event] }
    else
      let after := remaining - count
      some { call := .subtracted event (after + count) after, remaining := after }
  | .subtracted event before after =>
    match truncate event before after with
    | .error message => some { call := .panicked message, remaining }
    | .ok event' => some { call := .sent event' before after, remaining, events := [event'] }
  | .sent event before after =>
    if after ≤ 0 ∧ before > 0 then
      some { call := .signalled event before after, remaining, events := [limitHitEvent] }
    else some { call := .returned event before after, remaining }
  | .signalled event before after =>
    some { call := .returned event before after, remaining, cancels := 1 }
  | .returned _ _ _ => none
  | .passed _ => none
  | .panicked _ => none

def newLimitStream (limit : ℤ) (events : List SearchEvent) : State :=
  ⟨limit, events.map Call.start, [], 0⟩

inductive Step : State → State → Prop
  | act (s : State) (earlier later : List Call) (call : Call) (a : Action)
    (hcall : s.calls = earlier ++ call :: later) (hstep : call.step s.remaining = some a) :
    Step s ⟨a.remaining, earlier ++ a.call :: later, s.received ++ a.events, s.cancels + a.cancels⟩

inductive Execution : State → State → Prop
  | nil (s : State) : Execution s s
  | snoc {s t u : State} : Execution s t → Step t u → Execution s u

def Call.events : Call → List SearchEvent
  | .start _ => []
  | .subtracted _ _ _ => []
  | .sent event _ _ => [event]
  | .signalled event _ _ => [event, limitHitEvent]
  | .returned event before after =>
    if after ≤ 0 ∧ before > 0 then [event, limitHitEvent] else [event]
  | .passed event => [event]
  | .panicked _ => []

/-- What a call has subtracted, as the values before and after. -/
def Call.interval : Call → ℤ × ℤ
  | .start _ => (0, 0)
  | .subtracted _ before after => (before, after)
  | .sent _ before after => (before, after)
  | .signalled _ before after => (before, after)
  | .returned _ before after => (before, after)
  | .passed _ => (0, 0)
  | .panicked _ => (0, 0)

def Call.cancels : Call → ℕ
  | .returned _ before after => if after ≤ 0 ∧ before > 0 then 1 else 0
  | _ => 0

def kept (r : ℤ × ℤ) : ℤ := max r.1 0 - max r.2 0

def crossed (r : ℤ × ℤ) : ℤ := (if 0 < r.1 then 1 else 0) - if 0 < r.2 then 1 else 0

structure Forwards (event event' : SearchEvent) (before after : ℤ) : Prop where
  truncated : truncate event before after = .ok event'
  offered : before - after = eventCount event
  positive : eventCount event ≠ 0

def Serves (event : SearchEvent) : Call → Prop
  | .start e => e = event
  | .subtracted e before after => e = event ∧ before - after = eventCount event ∧
      eventCount event ≠ 0
  | .sent e before after => Forwards event e before after
  | .signalled e before after => Forwards event e before after ∧ after ≤ 0 ∧ before > 0
  | .returned e before after => Forwards event e before after
  | .passed e => e = event ∧ eventCount event = 0
  | .panicked _ => False

theorem truncate_spec {event : SearchEvent} {before after : ℤ}
    (h : before - after = eventCount event) :
    ∃ event', truncate event before after = .ok event' ∧ event'.stats = event.stats ∧
      (eventCount event' : ℤ) = kept (before, after) := by
  unfold truncate kept
  split
  · obtain ⟨left, results, hlim, hcn, -⟩ := limit_limited
      (show 0 ≤ if before < 0 then 0 else before by split <;> omega) event.results
    refine ⟨{ event with results }, by rw [hlim]; rfl, rfl, ?_⟩
    simp only [eventCount] at h ⊢
    split at hcn <;> omega
  refine ⟨event, rfl, rfl, ?_⟩
  omega

structure Advances (event : SearchEvent) (remaining : ℤ) (call : Call) (a : Action) : Prop where
  serves : Serves event a.call
  events : a.call.events = call.events ++ a.events
  cancels : a.call.cancels = call.cancels + a.cancels
  interval : a.call.interval = call.interval ∧ a.remaining = remaining ∨
    call.interval = (0, 0) ∧ a.call.interval = (remaining, a.remaining)

theorem step_advances (hs : Serves ev call) (h : call.step rem = some a) :
    Advances ev rem call a := by
  cases call with
  | start e =>
    obtain rfl : e = ev := hs
    simp only [Call.step] at h
    split at h <;> cases h
    · exact ⟨⟨rfl, by omega⟩, rfl, rfl, .inl ⟨rfl, rfl⟩⟩
    refine ⟨⟨rfl, by omega, by omega⟩, rfl, rfl, .inr ⟨rfl, ?_⟩⟩
    simp only [Call.interval, Prod.mk.injEq, and_true]
    omega
  | subtracted e pre post =>
    obtain ⟨rfl, hoff, hpos⟩ := hs
    obtain ⟨ev', htru, -⟩ := truncate_spec hoff
    simp only [Call.step, htru, Option.some.injEq] at h
    cases h
    exact ⟨⟨htru, hoff, hpos⟩, rfl, rfl, .inl ⟨rfl, rfl⟩⟩
  | sent e pre post =>
    simp only [Call.step] at h
    split at h <;> rename_i hcro <;> cases h
    · exact ⟨⟨hs, hcro⟩, rfl, rfl, .inl ⟨rfl, rfl⟩⟩
    · exact ⟨hs, by simp [Call.events, hcro], by simp [Call.cancels, hcro], .inl ⟨rfl, rfl⟩⟩
  | signalled e pre post =>
    obtain ⟨hs, hcro⟩ := hs
    cases h
    exact ⟨hs, by simp [Call.events, hcro], by simp [Call.cancels, hcro], .inl ⟨rfl, rfl⟩⟩
  | returned e pre post | passed e | panicked msg => cases h

structure Invariant (limit : ℤ) (events : List SearchEvent) (s : State) : Prop where
  serves : List.Forall₂ Serves events s.calls
  remaining : (s.calls.map fun c => c.interval.1 - c.interval.2).sum = limit - s.remaining
  within : (s.calls.map fun c => kept c.interval).sum = max limit 0 - max s.remaining 0
  crossing : (s.calls.map fun c => crossed c.interval).sum = crossed (limit, s.remaining)
  received : s.received.Perm (s.calls.flatMap Call.events)
  cancels : s.cancels = (s.calls.map Call.cancels).sum

theorem initial_invariant (limit : ℤ) (es : List SearchEvent) :
    Invariant limit es (newLimitStream limit es) := by
  have hz : ∀ f : Call → ℤ, (∀ e, f (.start e) = 0) →
      ((newLimitStream limit es).calls.map f).sum = 0 := by
    intro f hf
    simp [newLimitStream, Function.comp_def, hf]
  refine ⟨?_, ?_, ?_, ?_, ?_, ?_⟩
  · rw [newLimitStream, forall₂_map_right_iff]
    exact forall₂_same.mpr fun _ _ => rfl
  · rw [hz _ fun _ => rfl]
    simp [newLimitStream]
  · rw [hz _ fun _ => rfl]
    simp [newLimitStream]
  · rw [hz _ fun _ => rfl]
    simp only [newLimitStream, crossed]
    omega
  · simp [newLimitStream, flatMap_map, Call.events]
  · simp [newLimitStream, Function.comp_def, Call.cancels]

theorem forall₂_split (h : Forall₂ R es (ear ++ call :: lat)) :
    ∃ pre ev post, es = pre ++ ev :: post ∧ Forall₂ R pre ear ∧ R ev call ∧ Forall₂ R post lat := by
  obtain ⟨ev, post, hev, hpost, heq⟩ := forall₂_cons_right_iff.mp (forall₂_drop_append _ _ _ h)
  refine ⟨_, ev, post, ?_, forall₂_take_append _ _ _ h, hev, hpost⟩
  rw [← heq, take_append_drop]

variable {limit : ℤ}

theorem step_invariant (h : Invariant limit es s) (hst : Step s t) : Invariant limit es t := by
  cases hst with
  | act ear lat call a hc hact =>
    obtain ⟨hser, hrem, hwi, hcro, hrec, hcan⟩ := h
    rw [hc] at hser hrem hwi hcro hrec hcan
    obtain ⟨pre, ev, post, rfl, hbef, hev, haft⟩ := forall₂_split hser
    have hadv := step_advances hev hact
    simp only [map_append, map_cons, sum_append, sum_cons, flatMap_append,
      flatMap_cons] at hrem hwi hcro hrec hcan
    refine ⟨rel_append hbef (.cons hadv.serves haft), ?_, ?_, ?_, ?_, ?_⟩
    iterate 3
      simp only [map_append, map_cons, sum_append, sum_cons]
      rcases hadv.interval with ⟨hi, hr⟩ | ⟨hi, hr⟩
      · rw [hi, hr]
        assumption
      simp only [hi, hr, kept, crossed] at hrem hwi hcro ⊢
      omega
    · simp only [flatMap_append, flatMap_cons, hadv.events]
      refine (hrec.append_right a.events).trans ?_
      simp only [append_assoc]
      exact (perm_append_comm.append_left _).append_left _
    · simp only [map_append, map_cons, sum_append, sum_cons, hadv.cancels, hcan]
      omega

theorem execution_invariant (h : Execution (newLimitStream limit es) s) : Invariant limit es s := by
  generalize hs : newLimitStream limit es = ini at h
  induction h with
  | nil => exact hs ▸ initial_invariant limit es
  | snoc _ hst ih => exact step_invariant ih hst

def Call.hasReturned : Call → Bool
  | .returned _ _ _ => true
  | .passed _ => true
  | _ => false

def offered (events : List SearchEvent) : ℕ := (events.map eventCount).sum

structure Forwarded (event event' : SearchEvent) : Prop where
  stats : event'.stats = event.stats
  unchanged : eventCount event = 0 → event' = event

structure Contribution (event event' : SearchEvent) (call : Call) : Prop where
  forwarded : Forwarded event event'
  events : call.events = event' :: List.replicate call.cancels limitHitEvent
  count : (eventCount event' : ℤ) = kept call.interval
  total : call.interval.1 - call.interval.2 = eventCount event
  cancels : (call.cancels : ℤ) = crossed call.interval

theorem returned_contribution (h : Serves ev call) (hret : call.hasReturned = true) :
    ∃ ev', Contribution ev ev' call := by
  cases call with
  | returned e pre post =>
    obtain ⟨htru, hoff, hpos⟩ := h
    obtain ⟨ev', htr, hsta, hcn⟩ := truncate_spec hoff
    rw [htru] at htr
    cases htr
    refine ⟨e, ⟨hsta, fun hz => absurd hz hpos⟩, ?_, hcn, hoff, ?_⟩
    · simp only [Call.events, Call.cancels]
      split <;> rfl
    · simp only [Call.cancels, Call.interval, crossed]
      split <;> omega
  | passed e =>
    obtain ⟨rfl, hz⟩ := h
    exact ⟨e, ⟨rfl, fun _ => rfl⟩, rfl, by simp [hz, kept, Call.interval],
      by simp [hz, Call.interval], rfl⟩
  | _ => cases hret

structure Totals (events forwarded : List SearchEvent) (calls : List Call) : Prop where
  pairs : List.Forall₂ Forwarded events forwarded
  sent : (calls.flatMap Call.events).Perm
    (forwarded ++ List.replicate (calls.map Call.cancels).sum limitHitEvent)
  count : (offered forwarded : ℤ) = (calls.map fun c => kept c.interval).sum
  total : (calls.map fun c => c.interval.1 - c.interval.2).sum = offered events
  cancels : ((calls.map Call.cancels).sum : ℤ) = (calls.map fun c => crossed c.interval).sum

theorem returned_totals (h : Forall₂ Serves es cls)
    (hret : ∀ c ∈ cls, c.hasReturned = true) : ∃ fw, Totals es fw cls := by
  induction h with
  | nil => exact ⟨[], .nil, by simp, rfl, rfl, rfl⟩
  | @cons ev call es cls hser _ ih =>
    obtain ⟨ev', hfw, hev, hcn, hto, hca⟩ := returned_contribution hser (hret call (by simp))
    obtain ⟨fw, hpa, hse, hcs, htt, hcl⟩ := ih (forall_mem_cons.mp hret).2
    refine ⟨ev' :: fw, .cons hfw hpa, ?_, ?_, ?_, ?_⟩
    · rw [flatMap_cons, hev, map_cons, sum_cons, replicate_add, cons_append, cons_append]
      refine Perm.cons _ ((hse.append_left _).trans ?_)
      rw [← append_assoc, ← append_assoc]
      exact perm_append_comm.append_right _
    all_goals
      simp only [offered, map_cons, sum_cons] at *
      omega

def Call.left : Call → ℕ
  | .start _ => 4
  | .subtracted _ _ _ => 3
  | .sent _ _ _ => 2
  | .signalled _ _ _ => 1
  | .returned _ _ _ => 0
  | .passed _ => 0
  | .panicked _ => 0

theorem step_left (hs : Serves event call) (hret : call.hasReturned = false) (remaining : ℤ) :
    ∃ a, call.step remaining = some a ∧ a.call.left < call.left := by
  cases call with
  | start e | sent e before after =>
    simp only [Call.step]
    split
    · exact ⟨_, rfl, by simp [Call.left]⟩
    · exact ⟨_, rfl, by simp [Call.left]⟩
  | subtracted e before after =>
    obtain ⟨event', htru, -⟩ := @truncate_spec e before after (by rw [hs.1]; exact hs.2.1)
    simp only [Call.step, htru]
    exact ⟨_, rfl, by simp [Call.left]⟩
  | signalled e before after => exact ⟨_, rfl, by simp [Call.left]⟩
  | panicked message => exact hs.elim
  | _ => cases hret

theorem execution_completes (h : Execution ini s) (hinv : Invariant limit es s) :
    ∃ t, Execution ini t ∧ ∀ c ∈ t.calls, c.hasReturned = true := by
  generalize hfu : (s.calls.map Call.left).sum = fuel
  induction fuel using Nat.strongRecOn generalizing s with
  | _ fuel ih =>
    by_cases hall : ∀ c ∈ s.calls, c.hasReturned = true
    · exact ⟨s, h, hall⟩
    simp only [not_forall, Bool.not_eq_true] at hall
    obtain ⟨call, hmem, hret⟩ := hall
    obtain ⟨ear, lat, hcal⟩ := append_of_mem hmem
    have hser := hinv.serves
    rw [hcal] at hser
    obtain ⟨_, ev, _, -, -, hev, -⟩ := forall₂_split hser
    obtain ⟨a, hact, hle⟩ := step_left hev hret s.remaining
    have hst := Step.act s ear lat call a hcal hact
    refine ih _ ?_ (.snoc h hst) (step_invariant hinv hst) rfl
    rw [← hfu, hcal]
    simp only [map_append, map_cons, sum_append, sum_cons]
    omega

/-- What the parent has received, and how often the limit has been signalled. -/
structure LimitExact (limit : ℤ) (events : List SearchEvent) (s : State) : Prop where
  total : (offered s.received : ℤ) = min limit (offered events)
  received : ∃ forwarded, List.Forall₂ Forwarded events forwarded ∧
    s.received.Perm (forwarded ++ if limit ≤ offered events then [limitHitEvent] else [])
  cancels : s.cancels = if limit ≤ offered events then 1 else 0

theorem Invariant.not_panicked (h : Invariant limit es s) (msg : Panic) :
    .panicked msg ∉ s.calls := by
  intro hmem
  obtain ⟨ear, lat, hcal⟩ := append_of_mem hmem
  have hser := h.serves
  rw [hcal] at hser
  obtain ⟨_, _, _, -, -, hev, -⟩ := forall₂_split hser
  exact hev

/-- Whatever the order of the atomic actions, no call panics, all calls can return, and when they
have, the parent has got as many results as the limit allows, and the limit was signalled once if
and only if it is reached. -/
theorem limit_exact {limit : ℤ} (hpos : 0 < limit) {events : List SearchEvent} {s : State}
    (h : Execution (newLimitStream limit events) s) :
    (∀ message, .panicked message ∉ s.calls) ∧
    (∃ t, Execution s t ∧ ∀ c ∈ t.calls, c.hasReturned = true) ∧
    ((∀ c ∈ s.calls, c.hasReturned = true) → LimitExact limit events s) := by
  have hinv := execution_invariant h
  refine ⟨hinv.not_panicked, execution_completes (.nil s) hinv, fun hreturned => ?_⟩
  obtain ⟨fw, htot⟩ := returned_totals hinv.serves hreturned
  have hrem := hinv.remaining
  have hcan := hinv.crossing
  have hwi := hinv.within
  rw [htot.total] at hrem
  rw [← htot.cancels, crossed] at hcan
  rw [← htot.count] at hwi
  have hhi : (s.calls.map Call.cancels).sum = if limit ≤ offered events then 1 else 0 := by
    split <;> omega
  have hrec : s.received.Perm (fw ++ if limit ≤ offered events then [limitHitEvent] else []) := by
    refine (hinv.received.trans htot.sent).trans (Perm.of_eq ?_)
    rw [hhi]
    split <;> rfl
  refine ⟨?_, ⟨fw, htot.pairs, hrec⟩, hinv.cancels.trans hhi⟩
  have hsum : offered s.received = offered fw := by
    rw [offered, (hrec.map eventCount).sum_eq, map_append, sum_append]
    split <;> rfl
  omega

/-- Two concurrent events with two and one results, and room for two. -/
theorem two_events_limited : let range : Range := ⟨⟨0, 0, 0⟩, ⟨3, 0, 3⟩⟩
    let file : File := ⟨none, ⟨1, []⟩, [], []⟩
    let pair : SearchEvent := { results := [.file ⟨file, [⟨[], ⟨0, 0, 0⟩, [range, range]⟩], [], [], false⟩] }
    let repo : SearchEvent := { results := [.repo ⟨[], 1, [], [], []⟩] }
    ∃ s, Execution (newLimitStream 2 [pair, repo]) s ∧ LimitExact 2 [pair, repo] s := by
  intro range file pair repo
  obtain ⟨s, h, hret⟩ := (limit_exact (by decide) (.nil (newLimitStream 2 [pair, repo]))).2.1
  exact ⟨s, h, (limit_exact (by decide) h).2.2 hret⟩

end LimitStream
