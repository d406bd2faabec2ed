import Sourcegraph.UpdateQueueOrder

/-! # The loops of the update scheduler

Each configuration change cancels the running loops and starts new ones. A select first evaluates
its channel and then waits. Locked sections are atomic. The clock decides which of the scheduled
repositories are due, and the limiter of a loop when it grants a slot. -/
namespace SchedulerLoops

open UpdateQueue (Queue ConfiguredRepo)

/-- An update that was handed out. `entry` is the queue's entry for it and `epoch` the number of
resets before. -/
structure Flight where
  repo : ConfiguredRepo
  entry : ℕ
  epoch : ℕ
  deriving DecidableEq

structure Work where
  queue : Queue
  flights : List Flight
  resets : ℕ

def Work.enqueue (w : Work) (repo : ConfiguredRepo) (p : ℤ) : Option Work :=
  match w.queue.enqueue repo p with
  | .ok (_, q) => some { w with queue := q }
  | .error _ => none

def Work.remove (w : Work) (repo : ConfiguredRepo) : Option Work :=
  match w.queue.remove repo false with
  | .ok (_, q) => some { w with queue := q }
  | .error _ => none

def Work.finish (w : Work) (i : ℕ) : Option Work :=
  match w.flights[i]? with
  | some f =>
    match w.queue.remove f.repo true with
    | .ok (_, q) => some { w with queue := q, flights := w.flights.eraseIdx i }
    | .error _ => none
  | none => none

def Work.acquire (w : Work) : Bool × Work :=
  match w.queue.acquireNext with
  | (none, q) => (false, { w with queue := q })
  | (some repo, q) =>
    (true, { w with
      queue := q
      flights := w.flights ++ [⟨repo, w.queue.heap.headD 0, w.resets⟩] })

def Work.reset (w : Work) : Work := { w with queue := w.queue.reset, resets := w.resets + 1 }

def Work.take (w : Work) (channel : ℕ) : Option Work :=
  if w.queue.pending channel then
    some { w with queue :=
      { w.queue with pending := Function.update w.queue.pending channel false } }
  else none

inductive Timer where
  | stopped | armed | fired
  deriving DecidableEq

structure Schedule where
  known : List ConfiguredRepo
  timer : Timer
  wakeup : ℕ
  channels : ℕ
  pending : ℕ → Bool

def Schedule.rescheduleTimer (s : Schedule) : Schedule :=
  { s with timer := if s.known.isEmpty then .stopped else .armed }

def Schedule.knows (s : Schedule) (repo : ConfiguredRepo) : Bool :=
  s.known.any fun r => r.id = repo.id

def Schedule.push (s : Schedule) (repo : ConfiguredRepo) : Schedule :=
  { s with known := s.known ++ [repo] }

def Schedule.upsert (s : Schedule) (repo : ConfiguredRepo) : Schedule :=
  if s.knows repo then
    { s with known := s.known.map fun r => if r.id = repo.id then repo else r }
  else (s.push repo).rescheduleTimer

def Schedule.pushNew (s : Schedule) (repos : List ConfiguredRepo) : Schedule :=
  repos.foldl (fun s repo => if s.knows repo then s else s.push repo) s

def Schedule.insertNew (s : Schedule) (repos : List ConfiguredRepo) : Schedule :=
  if repos.any fun repo => !s.knows repo then (s.pushNew repos).rescheduleTimer else s

/-- `bumped` if one that is known was scheduled for too late a time. -/
def Schedule.prioritiseUncloned (s : Schedule) (repos : List ConfiguredRepo) (bumped : Bool) :
    Schedule :=
  if (bumped && repos.any s.knows) || repos.any fun repo => !s.knows repo then
    (s.pushNew repos).rescheduleTimer
  else s

def Schedule.updateInterval (s : Schedule) (repo : ConfiguredRepo) : Schedule :=
  if s.knows repo then s.rescheduleTimer else s

/-- `first` if the repository is the next that is due. -/
def Schedule.remove (s : Schedule) (repo : ConfiguredRepo) (first : Bool) : Schedule :=
  if s.knows repo then
    let s := { s with known := s.known.filter fun r => r.id ≠ repo.id }
    if first || s.known.isEmpty then s.rescheduleTimer else s
  else s

def Schedule.reset (s : Schedule) : Schedule :=
  { known := []
    timer := .stopped
    wakeup := s.channels
    channels := s.channels + 1
    pending := Function.update s.pending s.channels false }

def Schedule.fire (s : Schedule) : Option Schedule :=
  if s.timer = .armed then
    some { s with timer := .fired, pending := Function.update s.pending s.wakeup true }
  else none

def Schedule.take (s : Schedule) (channel : ℕ) : Option Schedule :=
  if s.pending channel then some { s with pending := Function.update s.pending channel false }
  else none

structure Rescheduled (t t' : Schedule) : Prop where
  timer : t'.timer = t.timer ∨ t'.timer ≠ .fired
  wakeup : t'.wakeup = t.wakeup
  channels : t'.channels = t.channels
  pending : t'.pending = t.pending

theorem Rescheduled.refl (t : Schedule) : Rescheduled t t := ⟨.inl rfl, rfl, rfl, rfl⟩

theorem rescheduleTimer_timer (t : Schedule) : t.rescheduleTimer.timer ≠ .fired := by
  rw [Schedule.rescheduleTimer]
  split
  · exact Timer.noConfusion
  · exact Timer.noConfusion

theorem Rescheduled.rescheduleTimer (h : Rescheduled t t') : Rescheduled t t'.rescheduleTimer :=
  ⟨.inr (rescheduleTimer_timer t'), h.wakeup, h.channels, h.pending⟩

theorem known_rescheduled (known : List ConfiguredRepo) :
    Rescheduled t { t with known := known } := ⟨.inl rfl, rfl, rfl, rfl⟩

theorem Rescheduled.ite [Decidable c] (h : Rescheduled t t') :
    Rescheduled t (if c then t'.rescheduleTimer else t) := by
  split
  · exact h.rescheduleTimer
  · exact .refl t

theorem upsert_rescheduled (t : Schedule) (repo : ConfiguredRepo) :
    Rescheduled t (t.upsert repo) := by
  rw [Schedule.upsert]
  split
  · exact known_rescheduled _
  · exact (known_rescheduled _).rescheduleTimer

theorem Rescheduled.trans (h : Rescheduled t t') (h' : Rescheduled t' t'') : Rescheduled t t'' := by
  refine ⟨?_, h'.wakeup.trans h.wakeup, h'.channels.trans h.channels, h'.pending.trans h.pending⟩
  rcases h'.timer with heq | hne
  · rw [heq]
    exact h.timer
  · exact .inr hne

theorem pushNew_rescheduled (t : Schedule) (rps : List ConfiguredRepo) :
    Rescheduled t (t.pushNew rps) := by
  rw [Schedule.pushNew]
  induction rps generalizing t with
  | nil => exact .refl t
  | cons repo rps ih =>
    rw [List.foldl_cons]
    split
    · exact ih t
    · exact (known_rescheduled _).trans (ih _)

theorem insertNew_rescheduled (t : Schedule) (rps : List ConfiguredRepo) :
    Rescheduled t (t.insertNew rps) := (pushNew_rescheduled t rps).ite

theorem prioritiseUncloned_rescheduled : Rescheduled t (t.prioritiseUncloned rps bum) :=
  (pushNew_rescheduled t rps).ite

theorem updateInterval_rescheduled : Rescheduled t (t.updateInterval repo) :=
  (Rescheduled.refl t).ite

theorem remove_rescheduled (t : Schedule) (repo : ConfiguredRepo) (first : Bool) :
    Rescheduled t (t.remove repo first) := by
  rw [Schedule.remove]
  split
  · simp only
    split
    · exact (known_rescheduled _).rescheduleTimer
    · exact known_rescheduled _
  · exact .refl t

/-- Where an update loop is. -/
inductive Position where
  | ready | waiting (channel : ℕ) | awake | granted | leaving | stopped
  deriving DecidableEq

/-- `running` holds the lock of the schedule. -/
inductive SchedulePosition where
  | ready | waiting (channel : ℕ) | awake | running | leaving | stopped
  deriving DecidableEq

structure Generation where
  update : Position
  schedule : Option SchedulePosition
  deriving DecidableEq

structure System where
  work : Work
  schedule : Schedule
  generations : List Generation
  autoGitUpdates : Option Bool

def initial : System :=
  { work := ⟨UpdateQueue.initial, [], 0⟩
    schedule := ⟨[], .stopped, 0, 1, fun _ => false⟩
    generations := []
    autoGitUpdates := none }

/-- Only the loops that were started last have a live context. -/
def System.cancelled (s : System) (k : ℕ) : Bool := k + 1 < s.generations.length

def System.locked (s : System) : Bool :=
  s.generations.any fun g => g.schedule = some .running

def System.setUpdate (s : System) (k : ℕ) (position : Position) : System :=
  { s with generations := s.generations.modify k fun g => { g with update := position } }

def System.setSchedule (s : System) (k : ℕ) (position : SchedulePosition) : System :=
  { s with generations := s.generations.modify k fun g => { g with schedule := some position } }

inductive UpdateAction where
  | select | receive | done | reset | grant | refuse | acquire
  deriving DecidableEq

inductive ScheduleAction where
  | select | receive | done | reset | lock | enqueue (repo : ConfiguredRepo) | unlock
  deriving DecidableEq

inductive Event where
  | enqueue (repo : ConfiguredRepo) (p : ℤ)
  | remove (repo : ConfiguredRepo)
  | finish (i : ℕ)
  | configure (autoGitUpdates : Bool)
  | update (k : ℕ) (action : UpdateAction)
  | schedule (k : ℕ) (action : ScheduleAction)
  | fire
  | upsert (repo : ConfiguredRepo)
  | insertNew (repos : List ConfiguredRepo)
  | prioritiseUncloned (repos : List ConfiguredRepo) (bumped : Bool)
  | updateInterval (repo : ConfiguredRepo)
  | unschedule (repo : ConfiguredRepo) (first : Bool)
  deriving DecidableEq

def System.configure (s : System) (autoGitUpdates : Bool) : System :=
  if s.autoGitUpdates = some autoGitUpdates then s
  else
    { s with
      generations := s.generations ++ [⟨.ready, if autoGitUpdates then some .ready else none⟩]
      autoGitUpdates := some autoGitUpdates }

/-- Both cases of a select, and both of a request for a slot, can be ready at once. -/
def System.updateStep (s : System) (k : ℕ) (position : Position) : UpdateAction → Option System
  | .select =>
    if position = .ready then some (s.setUpdate k (.waiting s.work.queue.notifyEnqueue)) else none
  | .receive =>
    match position with
    | .waiting c => (s.work.take c).map fun w => { s with work := w }.setUpdate k .awake
    | _ => none
  | .done =>
    match position with
    | .waiting _ => if s.cancelled k then some (s.setUpdate k .leaving) else none
    | _ => none
  | .reset =>
    if position = .leaving then some ({ s with work := s.work.reset }.setUpdate k .stopped)
    else none
  | .grant => if position = .awake then some (s.setUpdate k .granted) else none
  | .refuse =>
    if position = .awake ∧ s.cancelled k then some (s.setUpdate k .stopped) else none
  | .acquire =>
    if position = .granted then
      some ({ s with work := s.work.acquire.2 }.setUpdate k
        (if s.work.acquire.1 then .awake else .ready))
    else none

def System.scheduleStep (s : System) (k : ℕ) (position : SchedulePosition) :
    ScheduleAction → Option System
  | .select =>
    if position = .ready then some (s.setSchedule k (.waiting s.schedule.wakeup)) else none
  | .receive =>
    match position with
    | .waiting c => (s.schedule.take c).map fun t => { s with schedule := t }.setSchedule k .awake
    | _ => none
  | .done =>
    match position with
    | .waiting _ => if s.cancelled k then some (s.setSchedule k .leaving) else none
    | _ => none
  | .reset =>
    if position = .leaving ∧ !s.locked then
      some ({ s with schedule := s.schedule.reset }.setSchedule k .stopped)
    else none
  | .lock => if position = .awake ∧ !s.locked then some (s.setSchedule k .running) else none
  | .enqueue repo =>
    if position = .running ∧ repo ∈ s.schedule.known then
      (s.work.enqueue repo 0).map fun w => { s with work := w }
    else none
  | .unlock =>
    if position = .running then
      some ({ s with schedule := s.schedule.rescheduleTimer }.setSchedule k .ready)
    else none

def System.reschedule (s : System) (f : Schedule → Schedule) : Option System :=
  if s.locked then none else some { s with schedule := f s.schedule }

def System.step (s : System) : Event → Option System
  | .enqueue repo p => (s.work.enqueue repo p).map fun w => { s with work := w }
  | .remove repo => (s.work.remove repo).map fun w => { s with work := w }
  | .finish i => (s.work.finish i).map fun w => { s with work := w }
  | .configure autoGitUpdates => some (s.configure autoGitUpdates)
  | .update k action => s.generations[k]?.bind fun g => s.updateStep k g.update action
  | .schedule k action =>
    s.generations[k]?.bind fun g => g.schedule.bind fun position => s.scheduleStep k position action
  | .fire => s.schedule.fire.map fun t => { s with schedule := t }
  | .upsert repo => if repo.id = 0 then none else s.reschedule (·.upsert repo)
  | .insertNew repos => s.reschedule (·.insertNew repos)
  | .prioritiseUncloned repos bumped => s.reschedule (·.prioritiseUncloned repos bumped)
  | .updateInterval repo => if repo.id = 0 then none else s.reschedule (·.updateInterval repo)
  | .unschedule repo first => if repo.id = 0 then none else s.reschedule (·.remove repo first)

def run (events : List Event) : Option System := events.foldlM System.step initial

theorem run_concat (es : List Event) (e : Event) :
    run (es ++ [e]) = (run es).bind fun s => s.step e := by
  rw [run, List.foldlM_append, run]
  cases List.foldlM System.step initial es with
  | none => rfl
  | some s => exact bind_pure (s.step e)

inductive UpdateMove (s : System) (k : ℕ) : Position → UpdateAction → System → Prop where
  | select : UpdateMove s k .ready .select (s.setUpdate k (.waiting s.work.queue.notifyEnqueue))
  | receive {c : ℕ} {w : Work} (h : s.work.take c = some w) :
      UpdateMove s k (.waiting c) .receive ({ s with work := w }.setUpdate k .awake)
  | done {c : ℕ} (h : s.cancelled k = true) :
      UpdateMove s k (.waiting c) .done (s.setUpdate k .leaving)
  | reset : UpdateMove s k .leaving .reset ({ s with work := s.work.reset }.setUpdate k .stopped)
  | grant : UpdateMove s k .awake .grant (s.setUpdate k .granted)
  | refuse (h : s.cancelled k = true) : UpdateMove s k .awake .refuse (s.setUpdate k .stopped)
  | acquire : UpdateMove s k .granted .acquire
      ({ s with work := s.work.acquire.2 }.setUpdate k
        (if s.work.acquire.1 then .awake else .ready))

theorem updateStep_moves (h : s.updateStep k ps act = some s') : UpdateMove s k ps act s' := by
  cases act with
  | receive =>
    cases ps with
    | waiting c =>
      obtain ⟨w, hw, rfl⟩ := Option.map_eq_some_iff.mp h
      exact .receive hw
    | _ => cases h
  | done =>
    cases ps with
    | waiting c =>
      obtain ⟨hcan, ⟨⟩⟩ := Option.ite_none_right_eq_some.mp h
      exact .done hcan
    | _ => cases h
  | refuse =>
    obtain ⟨⟨rfl, hcan⟩, ⟨⟩⟩ := Option.ite_none_right_eq_some.mp h
    exact .refuse hcan
  | _ =>
    obtain ⟨rfl, ⟨⟩⟩ := Option.ite_none_right_eq_some.mp h
    constructor

inductive ScheduleMove (s : System) (k : ℕ) :
    SchedulePosition → ScheduleAction → System → Prop where
  | select : ScheduleMove s k .ready .select (s.setSchedule k (.waiting s.schedule.wakeup))
  | receive {c : ℕ} {t : Schedule} (h : s.schedule.take c = some t) :
      ScheduleMove s k (.waiting c) .receive ({ s with schedule := t }.setSchedule k .awake)
  | done {c : ℕ} (h : s.cancelled k = true) :
      ScheduleMove s k (.waiting c) .done (s.setSchedule k .leaving)
  | reset (h : s.locked = false) : ScheduleMove s k .leaving .reset
      ({ s with schedule := s.schedule.reset }.setSchedule k .stopped)
  | lock (h : s.locked = false) : ScheduleMove s k .awake .lock (s.setSchedule k .running)
  | enqueue {repo : ConfiguredRepo} {w : Work} (hknown : repo ∈ s.schedule.known)
      (h : s.work.enqueue repo 0 = some w) :
      ScheduleMove s k .running (.enqueue repo) { s with work := w }
  | unlock : ScheduleMove s k .running .unlock
      ({ s with schedule := s.schedule.rescheduleTimer }.setSchedule k .ready)

theorem scheduleStep_moves (h : s.scheduleStep k ps act = some s') :
    ScheduleMove s k ps act s' := by
  cases act with
  | receive =>
    cases ps with
    | waiting c =>
      obtain ⟨t, ht, rfl⟩ := Option.map_eq_some_iff.mp h
      exact .receive ht
    | _ => cases h
  | done =>
    cases ps with
    | waiting c =>
      obtain ⟨hcan, ⟨⟩⟩ := Option.ite_none_right_eq_some.mp h
      exact .done hcan
    | _ => cases h
  | enqueue repo =>
    obtain ⟨⟨rfl, hkn⟩, hmap⟩ := Option.ite_none_right_eq_some.mp h
    obtain ⟨w, hw, rfl⟩ := Option.map_eq_some_iff.mp hmap
    exact .enqueue hkn hw
  | select | unlock =>
    obtain ⟨rfl, ⟨⟩⟩ := Option.ite_none_right_eq_some.mp h
    constructor
  | _ =>
    obtain ⟨⟨rfl, hfr⟩, ⟨⟩⟩ := Option.ite_none_right_eq_some.mp h
    constructor
    rwa [Bool.not_eq_true'] at hfr

inductive Moves (s : System) : Event → System → Prop where
  | enqueue {repo : ConfiguredRepo} {p : ℤ} {w : Work} (h : s.work.enqueue repo p = some w) :
      Moves s (.enqueue repo p) { s with work := w }
  | remove {repo : ConfiguredRepo} {w : Work} (h : s.work.remove repo = some w) :
      Moves s (.remove repo) { s with work := w }
  | finish {i : ℕ} {w : Work} (h : s.work.finish i = some w) :
      Moves s (.finish i) { s with work := w }
  | configure (autoGitUpdates : Bool) :
      Moves s (.configure autoGitUpdates) (s.configure autoGitUpdates)
  | update {k : ℕ} {action : UpdateAction} {g : Generation} {position : Position} {s' : System}
      (hg : s.generations[k]? = some g) (hposition : g.update = position)
      (h : UpdateMove s k position action s') : Moves s (.update k action) s'
  | schedule {k : ℕ} {action : ScheduleAction} {g : Generation} {position : SchedulePosition}
      {s' : System} (hg : s.generations[k]? = some g) (hposition : g.schedule = some position)
      (h : ScheduleMove s k position action s') : Moves s (.schedule k action) s'
  | fire {t : Schedule} (h : s.schedule.fire = some t) : Moves s .fire { s with schedule := t }
  | reschedule {e : Event} {t : Schedule} (hevent : ∀ k action, e ≠ .update k action)
      (hlocked : s.locked = false) (h : Rescheduled s.schedule t) :
      Moves s e { s with schedule := t }

theorem step_moves (h : s.step e = some s') : Moves s e s' := by
  have hsch : ∀ f : Schedule → Schedule, (∀ k act, e ≠ .update k act) →
      (∀ t, Rescheduled t (f t)) → s.reschedule f = some s' → Moves s e s' := by
    intro f hev hf hs
    obtain ⟨hlo, ⟨⟩⟩ := Option.ite_none_left_eq_some.mp hs
    exact .reschedule hev (Bool.eq_false_iff.mpr hlo) (hf _)
  cases e with
  | enqueue repo p =>
    obtain ⟨w, hw, rfl⟩ := Option.map_eq_some_iff.mp h
    exact .enqueue hw
  | remove repo =>
    obtain ⟨w, hw, rfl⟩ := Option.map_eq_some_iff.mp h
    exact .remove hw
  | finish i =>
    obtain ⟨w, hw, rfl⟩ := Option.map_eq_some_iff.mp h
    exact .finish hw
  | configure agu =>
    cases h
    exact .configure agu
  | update k act =>
    obtain ⟨g, hg, h⟩ := Option.bind_eq_some_iff.mp h
    exact .update hg rfl (updateStep_moves h)
  | schedule k act =>
    obtain ⟨g, hg, h⟩ := Option.bind_eq_some_iff.mp h
    obtain ⟨ps, hps, h⟩ := Option.bind_eq_some_iff.mp h
    exact .schedule hg hps (scheduleStep_moves h)
  | fire =>
    obtain ⟨t, ht, rfl⟩ := Option.map_eq_some_iff.mp h
    exact .fire ht
  | upsert repo =>
    exact hsch _ (fun _ _ => Event.noConfusion) (fun t => upsert_rescheduled t repo)
      (Option.ite_none_left_eq_some.mp h).2
  | insertNew rps =>
    exact hsch _ (fun _ _ => Event.noConfusion) (fun t => insertNew_rescheduled t rps) h
  | prioritiseUncloned rps bum =>
    exact hsch _ (fun _ _ => Event.noConfusion) (fun t => prioritiseUncloned_rescheduled) h
  | updateInterval repo =>
    exact hsch _ (fun _ _ => Event.noConfusion) (fun t => updateInterval_rescheduled)
      (Option.ite_none_left_eq_some.mp h).2
  | unschedule repo first =>
    exact hsch _ (fun _ _ => Event.noConfusion) (fun t => remove_rescheduled t repo first)
      (Option.ite_none_left_eq_some.mp h).2

end SchedulerLoops
