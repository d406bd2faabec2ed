import Mathlib

/-! # The handlers of a worker

The dequeue loop of `Worker.Start`, the handler goroutines with their deferred clean-up, the
heartbeat routine and the cancellation by `Stop` interleave in any order. Each pass of the loop
that takes a slot of the semaphore is an attempt, whose number names the slot and the record. -/
namespace WorkerHandlers

open List

structure Options where
  numHandlers : ℕ
  numTotalJobs : ℤ
  maxActiveTime : ℤ

/-- Where a handler goroutine is. -/
inductive Phase where
  | spawned | handling | returned | finalized | released | done | removed
  deriving DecidableEq

@[simp] def Phase.holdsSlot : Phase → Bool
  | .spawned | .handling | .returned | .finalized => true
  | .released | .done | .removed => false

@[simp] def Phase.counted : Phase → Bool
  | .spawned | .handling | .returned | .finalized | .released => true
  | .done | .removed => false

@[simp] def Phase.called : Phase → Bool
  | .spawned => false
  | _ => true

/-- The clean-up has begun and has not removed the record from the running set. -/
@[simp] def Phase.cleaning : Phase → Bool
  | .finalized | .released | .done => true
  | _ => false

structure Job where
  attempt : ℕ
  record : String
  phase : Phase
  /-- The store has marked the handling finished. -/
  finished : Bool
  deriving DecidableEq

/-- Where the dequeue loop is. `leaving` says that the error of the attempt is that of the
cancelled dequeue context. -/
inductive Loop where
  | top
  | acquiring
  | holding (attempt : ℕ)
  | dequeued (attempt : ℕ) (record : String)
  | registered (attempt : ℕ) (record : String)
  | returning (attempt : ℕ) (leaving : Bool)
  | pausing
  | waiting
  | returned
  deriving DecidableEq

def Loop.slot : Loop → Option ℕ
  | .holding n | .dequeued n _ | .registered n _ | .returning n _ => some n
  | _ => none

def Loop.dequeue : Loop → Option ℕ
  | .dequeued n _ | .registered n _ => some n
  | _ => none

inductive Heartbeat where
  | resting
  | asking (ids : List String)
  | removing (unknown : List String)
  deriving DecidableEq

structure State where
  loop : Loop
  /-- What the semaphore channel holds. -/
  slots : ℕ
  cancelled : Bool
  numDequeues : ℕ
  jobs : List Job
  wg : ℕ
  runningIDSet : List String
  heartbeat : Heartbeat
  /-- How many slots were taken so far. -/
  attempts : ℕ
  givenBack : List ℕ
  dequeued : List ℕ
  /-- The attempts whose record was already in the running set. -/
  rejected : List ℕ
  handleCalls : List ℕ
  deriving DecidableEq

def State.inUse (s : State) : List ℕ :=
  s.loop.slot.toList ++ (s.jobs.filter (·.phase.holdsSlot)).map Job.attempt

def newWorker (o : Options) : State :=
  ⟨.top, o.numHandlers, false, 0, [], 0, [], .resting, 0, [], [], [], []⟩

inductive Event where
  | check
  | acquire
  | acquireCancelled
  | noRecord (attempt : ℕ) (leaving : Bool)
  | dequeue (attempt : ℕ) (record : String)
  | add (attempt : ℕ) (record : String)
  | spawn (attempt : ℕ) (record : String)
  | giveBack (attempt : ℕ) (leaving : Bool)
  | resume
  | leave
  | startReturns
  | stop
  | handle (job : Job)
  | handleReturns (job : Job)
  | mark (job : Job) (marked : Bool)
  | release (job : Job)
  | wgDone (job : Job)
  | remove (job : Job)
  | ask
  | askFails (ids : List String)
  | answer (ids known : List String)
  | removeUnknown (id : String) (unknown : List String)
  | rest
  deriving DecidableEq

/-- When an action can be taken. A send to the semaphore waits while the channel is full; the store
hands out a record only if its earlier handlings were marked finished. -/
def Enabled (o : Options) (s : State) : Event → Prop
  | .check => s.loop = .top
  | .acquire => s.loop = .acquiring ∧ 0 < s.slots
  | .acquireCancelled => s.loop = .acquiring ∧ s.cancelled
  | .noRecord n leaving => s.loop = .holding n ∧ (leaving → s.cancelled)
  | .dequeue n record => s.loop = .holding n ∧ ∀ j ∈ s.jobs, j.record = record → j.finished
  | .add n record => s.loop = .dequeued n record
  | .spawn n record => s.loop = .registered n record
  | .giveBack n leaving => s.loop = .returning n leaving ∧ s.slots < o.numHandlers
  | .resume => s.loop = .pausing
  | .leave => s.loop = .pausing ∧ (s.cancelled ∨ 0 < o.maxActiveTime)
  | .startReturns => s.loop = .waiting ∧ s.wg = 0
  | .stop => True
  | .handle j => j ∈ s.jobs ∧ j.phase = .spawned
  | .handleReturns j => j ∈ s.jobs ∧ j.phase = .handling
  | .mark j _ => j ∈ s.jobs ∧ j.phase = .returned
  | .release j => j ∈ s.jobs ∧ j.phase = .finalized ∧ s.slots < o.numHandlers
  | .wgDone j => j ∈ s.jobs ∧ j.phase = .released
  | .remove j => j ∈ s.jobs ∧ j.phase = .done
  | .ask => s.heartbeat = .resting
  | .askFails ids => s.heartbeat = .asking ids
  | .answer ids _ => s.heartbeat = .asking ids
  | .removeUnknown id unknown => s.heartbeat = .removing (id :: unknown)
  | .rest => s.heartbeat = .removing []

instance (o : Options) (s : State) (e : Event) : Decidable (Enabled o s e) := by
  cases e <;> simp only [Enabled] <;> infer_instance

def State.setJob (s : State) (old new : Job) : State := { s with jobs := new :: s.jobs.erase old }

def next (o : Options) (s : State) : Event → State
  | .check =>
    if o.numTotalJobs ≠ 0 ∧ o.numTotalJobs ≤ s.numDequeues then { s with loop := .waiting }
    else { s with loop := .acquiring }
  | .acquire =>
    { s with loop := .holding s.attempts, slots := s.slots - 1, attempts := s.attempts + 1 }
  | .acquireCancelled => { s with loop := .waiting }
  | .noRecord n leaving => { s with loop := .returning n leaving }
  | .dequeue n record => { s with loop := .dequeued n record, dequeued := n :: s.dequeued }
  | .add n record =>
    -- `ErrJobAlreadyExists`: the deferred function of the attempt gives the slot back
    if record ∈ s.runningIDSet then
      { s with loop := .returning n false, rejected := n :: s.rejected }
    else { s with loop := .registered n record, runningIDSet := record :: s.runningIDSet }
  | .spawn n record =>
    { s with loop := .pausing, numDequeues := s.numDequeues + 1, wg := s.wg + 1
             jobs := ⟨n, record, .spawned, false⟩ :: s.jobs }
  | .giveBack n leaving =>
    { s with loop := if leaving then .waiting else .pausing, slots := s.slots + 1
             givenBack := n :: s.givenBack }
  | .resume => { s with loop := .top }
  | .leave => { s with loop := .waiting }
  | .startReturns => { s with loop := .returned }
  | .stop => { s with cancelled := true }
  | .handle j =>
    { s.setJob j { j with phase := .handling } with handleCalls := j.attempt :: s.handleCalls }
  | .handleReturns j => s.setJob j { j with phase := .returned }
  | .mark j marked => s.setJob j { j with phase := .finalized, finished := marked }
  | .release j =>
    { s.setJob j { j with phase := .released } with
        slots := s.slots + 1, givenBack := j.attempt :: s.givenBack }
  | .wgDone j => { s.setJob j { j with phase := .done } with wg := s.wg - 1 }
  | .remove j =>
    { s.setJob j { j with phase := .removed } with
        runningIDSet := s.runningIDSet.filter (· ≠ j.record) }
  | .ask => { s with heartbeat := .asking s.runningIDSet }
  | .askFails _ => { s with heartbeat := .resting }
  | .answer ids known => { s with heartbeat := .removing (ids.filter (· ∉ known)) }
  | .removeUnknown id unknown =>
    { s with heartbeat := .removing unknown, runningIDSet := s.runningIDSet.filter (· ≠ id) }
  | .rest => { s with heartbeat := .resting }

inductive Execution (o : Options) : State → State → Prop where
  | refl (s : State) : Execution o s s
  | tail {s t : State} {e : Event} : Execution o s t → Enabled o t e → Execution o s (next o t e)

def Reachable (o : Options) (s : State) : Prop := Execution o (newWorker o) s

def run (o : Options) : State → List Event → Option State
  | s, [] => some s
  | s, e :: events => if Enabled o s e then run o (next o s e) events else none

theorem run_execution (hs : Execution o start s) (h : run o s es = some t) :
    Execution o start t := by
  induction es generalizing s with
  | nil => exact Option.some.inj h ▸ hs
  | cons e es ih =>
    rw [run] at h
    split at h
    · rename_i hena
      exact ih (hs.tail hena) h
    · cases h

structure Invariant (o : Options) (s : State) : Prop where
  slots : s.slots + s.inUse.length = o.numHandlers
  taken : (s.inUse ++ s.givenBack).Perm (List.range s.attempts)
  accounted : s.dequeued.Perm (s.loop.dequeue.toList ++ s.rejected ++ s.jobs.map Job.attempt)
  distinct : s.dequeued.Nodup
  numbered : ∀ n ∈ s.dequeued, n < s.attempts
  fresh : ∀ n, s.loop = .holding n → n ∉ s.dequeued
  called : s.handleCalls.Perm ((s.jobs.filter (·.phase.called)).map Job.attempt)
  wg : s.wg = s.jobs.countP (·.phase.counted)
  returned : s.loop = .returned → s.wg = 0
  finished : ∀ j ∈ s.jobs, j.finished → j.phase.cleaning ∨ j.phase = .removed
  running : ∀ id ∈ s.runningIDSet,
    (∃ n, s.loop = .registered n id) ∨ ∃ j ∈ s.jobs, j.record = id ∧ j.phase ≠ .removed
  handedOut : ∀ n record, s.loop = .dequeued n record → ∀ j ∈ s.jobs, j.record = record → j.finished

theorem newWorker_invariant (o : Options) : Invariant o (newWorker o) where
  slots := rfl
  taken := Perm.refl []
  accounted := Perm.refl []
  distinct := nodup_nil
  numbered := by simp [newWorker]
  fresh := by simp [newWorker]
  called := Perm.refl []
  wg := rfl
  returned _ := rfl
  finished := by simp [newWorker]
  running := by simp [newWorker]
  handedOut := by simp [newWorker]

theorem Invariant.perm (h : Invariant o s) (hjo : s.jobs.Perm jobs) :
    Invariant o { s with jobs := jobs } :=
  { h with
    slots := by
      have := ((hjo.filter (·.phase.holdsSlot)).map Job.attempt).length_eq
      have := h.slots
      simp only [State.inUse, length_append] at *
      omega
    taken := by
      refine Perm.trans ?_ h.taken
      exact ((((hjo.symm.filter _).map _).append_left _).append_right _)
    accounted := h.accounted.trans ((hjo.map _).append_left _)
    called := h.called.trans ((hjo.filter _).map _)
    wg := h.wg.trans (hjo.countP_eq _)
    finished := fun j hj => h.finished j (hjo.mem_iff.mpr hj)
    running := fun id hid => (h.running id hid).imp_right fun ⟨j, hj, hrs⟩ =>
      ⟨j, hjo.mem_iff.mp hj, hrs⟩
    handedOut := fun n reco hlp j hj =>
      h.handedOut n reco hlp j (hjo.mem_iff.mpr hj) }

theorem Invariant.running_job (h : Invariant o s) (hlp : ∀ n id, s.loop ≠ .registered n id)
    {id : String} (hid : id ∈ s.runningIDSet) :
    ∃ j ∈ s.jobs, j.record = id ∧ j.phase ≠ .removed := by
  rcases h.running id hid with ⟨n, hreg⟩ | hjob
  · exact absurd hreg (hlp n id)
  · exact hjob

theorem Invariant.setLoop (h : Invariant o s) {post : Loop} (hlp : s.loop = pre)
    (hsl : post.slot = pre.slot) (hbef : pre.dequeue = none)
    (haft : post.dequeue = none) (hhol : ∀ n, post ≠ .holding n)
    (hret : post = .returned → s.wg = 0) : Invariant o { s with loop := post } :=
  { h with
    slots := by simpa only [State.inUse, hlp, hsl] using h.slots
    taken := by simpa only [State.inUse, hlp, hsl] using h.taken
    accounted := by simpa only [hlp, hbef, haft] using h.accounted
    fresh := fun n hn => absurd hn (hhol n)
    returned := hret
    running := fun id hid => by
      refine .inr (h.running_job (fun n id hreg => ?_) hid)
      rw [← hlp, hreg] at hbef
      cases hbef
    handedOut := fun n reco hdeq => by
      rw [show post = .dequeued n reco from hdeq] at haft
      cases haft }

theorem Invariant.acquire (h : Invariant o s) (hlp : s.loop = .acquiring) (hsl : 0 < s.slots) :
    Invariant o (next o s .acquire) := by
  have hcn := h.slots
  have htk := h.taken
  have hacc := h.accounted
  simp only [State.inUse, hlp, Loop.slot, Option.toList, nil_append] at hcn htk hacc
  refine { h with
    slots := ?_
    taken := ?_
    accounted := hacc
    numbered := fun n hn => Nat.lt_succ_of_lt (h.numbered n hn)
    fresh := fun n hn hmem => ?_
    returned := nofun
    running := fun id hid => .inr (h.running_job (by simp [hlp]) hid)
    handedOut := nofun }
  · simp only [State.inUse, next, Loop.slot, Option.toList, singleton_append, length_cons]
    omega
  · rw [next, range_succ]
    exact (htk.cons _).trans (@List.perm_append_comm _ [s.attempts] _)
  · cases hn
    exact Nat.lt_irrefl _ (h.numbered _ hmem)

theorem Invariant.dequeue (h : Invariant o s) (hlp : s.loop = .holding n)
    (hrec : ∀ j ∈ s.jobs, j.record = reco → j.finished) :
    Invariant o (next o s (.dequeue n reco)) := by
  have hsl := h.slots
  have htk := h.taken
  have hacc := h.accounted
  simp only [State.inUse, hlp] at hsl htk hacc
  have hn : n < s.attempts :=
    mem_range.mp (htk.mem_iff.mp (mem_append_left _ (mem_append_left _ mem_cons_self)))
  exact { h with
      slots := hsl
      taken := htk
      accounted := hacc.cons n
      distinct := nodup_cons.mpr ⟨h.fresh n hlp, h.distinct⟩
      numbered := forall_mem_cons.mpr ⟨hn, h.numbered⟩
      fresh := nofun
      returned := nofun
      running := fun id hid => .inr (h.running_job (by simp [hlp]) hid)
      handedOut := fun m reco' hdeq => by
        cases hdeq
        exact hrec }

theorem Invariant.add (h : Invariant o s) (hlp : s.loop = .dequeued n reco) :
    Invariant o (next o s (.add n reco)) := by
  have hsl := h.slots
  have htk := h.taken
  have hacc := h.accounted
  simp only [State.inUse, hlp] at hsl htk hacc
  have hrun : ∀ id ∈ s.runningIDSet, ∃ j ∈ s.jobs, j.record = id ∧ j.phase ≠ .removed :=
    fun id hid => h.running_job (by simp [hlp]) hid
  rw [next]
  split
  all_goals refine { h with
    slots := hsl
    taken := htk
    accounted := hacc
    fresh := nofun
    returned := nofun
    running := ?_
    handedOut := nofun }
  · exact fun id hid => .inr (hrun id hid)
  · exact forall_mem_cons.mpr ⟨.inl ⟨n, rfl⟩, fun id hid => .inr (hrun id hid)⟩

theorem Invariant.spawn (h : Invariant o s) (hlp : s.loop = .registered n reco) :
    Invariant o (next o s (.spawn n reco)) := by
  have hsl := h.slots
  have htk := h.taken
  have hacc := h.accounted
  simp only [State.inUse, hlp, Loop.dequeue, Option.toList, singleton_append] at hsl htk hacc
  refine { h with
    slots := hsl
    taken := htk
    accounted := hacc.trans perm_middle.symm
    fresh := nofun
    wg := ?_
    returned := nofun
    finished := forall_mem_cons.mpr ⟨nofun, h.finished⟩
    running := fun id hid => ?_
    handedOut := nofun }
  · rw [next, h.wg]
    exact (countP_cons_of_pos rfl).symm
  · rcases h.running id hid with ⟨m, hreg⟩ | ⟨j, hj, hrs⟩
    · rw [hlp] at hreg
      cases hreg
      exact .inr ⟨_, mem_cons_self, rfl, Phase.noConfusion⟩
    · exact .inr ⟨j, mem_cons_of_mem _ hj, hrs⟩

theorem Invariant.giveBack (h : Invariant o s) (hlp : s.loop = .returning n lea) :
    Invariant o (next o s (.giveBack n lea)) := by
  have hsl := h.slots
  have htk := h.taken
  have hacc := h.accounted
  simp only [State.inUse, hlp, Loop.slot, Option.toList, singleton_append,
    length_cons] at hsl htk hacc
  have hcnt : s.slots + 1 + ((s.jobs.filter (·.phase.holdsSlot)).map Job.attempt).length =
      o.numHandlers := by omega
  cases lea with
  | _ =>
    exact { h with
        slots := hcnt
        taken := perm_middle.trans htk
        accounted := hacc
        fresh := nofun
        returned := nofun
        running := fun id hid => .inr (h.running_job (by simp [hlp]) hid)
        handedOut := nofun }

theorem Invariant.setJob (h : Invariant o s) (hj : j ∈ s.jobs) {slots wg : ℕ}
    (hatt : new.attempt = j.attempt) (hrec : new.record = j.record)
    (hkp : j.finished → new.finished)
    (hfin : new.finished → new.phase.cleaning ∨ new.phase = .removed)
    (hsl : slots + ([new].filter (·.phase.holdsSlot)).length =
      s.slots + ([j].filter (·.phase.holdsSlot)).length)
    (htk : (([new].filter (·.phase.holdsSlot)).map Job.attempt ++ givenBack).Perm
      (([j].filter (·.phase.holdsSlot)).map Job.attempt ++ s.givenBack))
    (hwg : wg + [j].countP (·.phase.counted) = s.wg + [new].countP (·.phase.counted))
    (hfw : [new].countP (·.phase.counted) ≤ [j].countP (·.phase.counted)) (hcal : ∀ others,
      s.handleCalls.Perm (([j].filter (·.phase.called)).map Job.attempt ++ others) →
      handleCalls.Perm (([new].filter (·.phase.called)).map Job.attempt ++ others))
    (hids : ∀ id ∈ ids, id ∈ s.runningIDSet ∧ (new.phase = .removed → id ≠ j.record)) :
    Invariant o { s.setJob j new with
      slots := slots, wg := wg, runningIDSet := ids
      givenBack := givenBack, handleCalls := handleCalls } := by
  obtain ⟨rest, hrs⟩ : ∃ rest, s.jobs.erase j = rest := ⟨_, rfl⟩
  have hpm := h.perm (perm_cons_erase hj)
  rw [hrs] at hpm
  have hco : ∀ (q : Job → Bool) (k : Job), ((k :: rest).filter q).map Job.attempt =
      ([k].filter q).map Job.attempt ++ (rest.filter q).map Job.attempt := by
    intro q k
    rw [← map_append, ← filter_append, singleton_append]
  have hcn : ∀ k : Job, (k :: rest).countP (·.phase.counted) =
      [k].countP (·.phase.counted) + rest.countP (·.phase.counted) :=
    fun k => @countP_append _ _ [k] rest
  have hbef : s.wg = _ := hpm.wg.trans (hcn j)
  simp only [State.setJob, hrs]
  constructor
  case slots =>
    have := hpm.slots
    simp only [State.inUse, hco, length_append, length_map] at this ⊢
    omega
  case taken =>
    have := hpm.taken
    simp only [State.inUse, hco] at this ⊢
    refine Perm.trans ?_ this
    rw [append_assoc, append_assoc, append_assoc, append_assoc]
    refine Perm.append_left _ ?_
    refine (perm_append_comm_assoc _ _ _).trans ?_
    exact (htk.append_left _).trans (perm_append_comm_assoc _ _ _)
  case accounted =>
    have := hpm.accounted
    simpa only [map_cons, hatt] using this
  case distinct => exact h.distinct
  case numbered => exact h.numbered
  case fresh => exact h.fresh
  case called =>
    have := hpm.called
    simp only [hco] at this ⊢
    exact hcal _ this
  case wg =>
    simp only [hcn]
    omega
  case returned =>
    intro hret
    have hz := h.returned hret
    simp only
    omega
  case finished =>
    exact forall_mem_cons.mpr ⟨hfin, fun k hk => hpm.finished k (mem_cons_of_mem _ hk)⟩
  case running =>
    intro id hid
    obtain ⟨hid, hne⟩ := hids id hid
    rcases hpm.running id hid with hlp | ⟨k, hk, hk_record, hk_phase⟩
    · exact .inl hlp
    rcases mem_cons.mp hk with rfl | hk
    · refine .inr ⟨new, mem_cons_self, hrec.trans hk_record, fun hrem => ?_⟩
      exact hne hrem hk_record.symm
    · exact .inr ⟨k, mem_cons_of_mem _ hk, hk_record, hk_phase⟩
  case handedOut =>
    intro n record hlp k hk hk_record
    rcases mem_cons.mp hk with rfl | hk
    · have hj_record := hrec.symm.trans hk_record
      exact hkp (hpm.handedOut n record hlp j mem_cons_self hj_record)
    · exact hpm.handedOut n record hlp k (mem_cons_of_mem _ hk) hk_record

theorem Invariant.not_finished (h : Invariant o s) (hj : j ∈ s.jobs)
    (hcle : j.phase.cleaning = false) (hrem : j.phase ≠ .removed) : j.finished = false := by
  cases hfin : j.finished with
  | false => rfl
  | true =>
    rcases h.finished j hj hfin with hph | hph
    · rw [hcle] at hph
      cases hph
    · exact absurd hph hrem

theorem Invariant.next (h : Invariant o s) {e : Event} (he : Enabled o s e) :
    Invariant o (next o s e) := by
  cases e with
  | check =>
    rw [WorkerHandlers.next]
    split
    · exact h.setLoop he rfl rfl rfl (by simp) (by simp)
    · exact h.setLoop he rfl rfl rfl (by simp) (by simp)
  | acquire => exact h.acquire he.1 he.2
  | acquireCancelled | noRecord n leaving | leave =>
    exact h.setLoop he.1 rfl rfl rfl (by simp) (by simp)
  | dequeue n record => exact h.dequeue he.1 he.2
  | add n record => exact h.add he
  | spawn n record => exact h.spawn he
  | giveBack n leaving => exact h.giveBack he.1
  | resume => exact h.setLoop he rfl rfl rfl (by simp) (by simp)
  | startReturns => exact h.setLoop he.1 rfl rfl rfl (by simp) fun _ => he.2
  | handle j =>
    obtain ⟨hj, hph⟩ := he
    have hfin := h.not_finished hj (by simp [hph]) (by simp [hph])
    apply h.setJob hj
    all_goals simp [State.setJob, hph, hfin]
  | handleReturns j | mark j marked =>
    obtain ⟨hj, hph⟩ := he
    have hfin := h.not_finished hj (by simp [hph]) (by simp [hph])
    apply h.setJob hj
    all_goals simp [hph, hfin]
  | release j =>
    obtain ⟨hj, hph, hsl⟩ := he
    apply h.setJob hj
    all_goals simp [State.setJob, hph]
  | wgDone j =>
    obtain ⟨hj, hph⟩ := he
    have hpos : 0 < s.wg := by
      rw [h.wg]
      exact countP_pos_iff.mpr ⟨j, hj, by simp [hph]⟩
    apply h.setJob hj
    case hwg =>
      simp only [countP_singleton, hph, Phase.counted]
      exact Nat.sub_add_cancel hpos
    all_goals simp [State.setJob, hph]
  | remove j =>
    obtain ⟨hj, hph⟩ := he
    apply h.setJob hj
    all_goals simp [State.setJob, hph]
  | removeUnknown id unknown =>
    exact { h with running := fun id' hid => h.running id' (mem_filter.mp hid).1 }
  | _ => exact { h with }

theorem reachable_invariant (h : Reachable o s) : Invariant o s := by
  obtain ⟨start, hst⟩ : ∃ start, newWorker o = start := ⟨_, rfl⟩
  induction h with
  | refl => exact hst ▸ newWorker_invariant o
  | tail _ hena ih => exact ih.next hena

/-- What holds of the worker whatever the store hands out again, and when. -/
structure Safe (o : Options) (s : State) : Prop where
  limit : s.jobs.countP (·.phase = .handling) ≤ o.numHandlers
  slots : (s.inUse ++ s.givenBack).Perm (List.range s.attempts)
  allBack : s.loop = .returned → s.slots = o.numHandlers ∧ s.inUse = []
  noHandler : s.loop = .returned → ∀ j ∈ s.jobs, j.phase = .done ∨ j.phase = .removed
  dequeuedOnly : ∀ n ∈ s.handleCalls, n ∈ s.dequeued
  atMostOnce : ∀ n, s.handleCalls.count n ≤ 1

theorem Invariant.attempts_nodup (h : Invariant o s) : (s.jobs.map Job.attempt).Nodup :=
  (nodup_append.mp (h.accounted.nodup_iff.mp h.distinct)).2.1

theorem Invariant.called_nodup (h : Invariant o s) : s.handleCalls.Nodup :=
  h.called.nodup_iff.mpr (h.attempts_nodup.sublist (filter_sublist.map _))

theorem Invariant.job_dequeued (h : Invariant o s) (hj : j ∈ s.jobs) : j.attempt ∈ s.dequeued :=
  h.accounted.mem_iff.mpr (mem_append_right _ (mem_map_of_mem hj))

theorem Invariant.handling_le (h : Invariant o s) :
    s.jobs.countP (·.phase = .handling) ≤ o.numHandlers := by
  have hsl := h.slots
  have hle : s.jobs.countP (·.phase = .handling) ≤ s.jobs.countP (·.phase.holdsSlot) := by
    refine countP_mono_left fun j _ hph => ?_
    rw [of_decide_eq_true hph]
    rfl
  rw [countP_eq_length_filter (p := fun j : Job => j.phase.holdsSlot)] at hle
  simp only [State.inUse, length_append, length_map] at hsl
  omega

theorem Invariant.no_handler (h : Invariant o s) (hlp : s.loop = .returned) :
    ∀ j ∈ s.jobs, j.phase = .done ∨ j.phase = .removed := by
  intro j hj
  have hcnt := h.wg.symm.trans (h.returned hlp)
  have hph := countP_eq_zero.mp hcnt j hj
  cases hj_phase : j.phase with
  | done => exact .inl rfl
  | removed => exact .inr rfl
  | _ => simp [hj_phase] at hph

theorem Invariant.inUse_nil (h : Invariant o s) (hlp : s.loop = .returned) : s.inUse = [] := by
  have hfil : s.jobs.filter (·.phase.holdsSlot) = [] := by
    refine filter_eq_nil_iff.mpr fun j hj => ?_
    rcases h.no_handler hlp j hj with hph | hph <;> simp [hph]
  rw [State.inUse, hlp, hfil]
  rfl

theorem Invariant.safe (h : Invariant o s) : Safe o s where
  limit := h.handling_le
  slots := h.taken
  allBack hlp := by
    have hsl := h.slots
    rw [h.inUse_nil hlp] at hsl
    exact ⟨hsl, h.inUse_nil hlp⟩
  noHandler := h.no_handler
  dequeuedOnly n hn := by
    obtain ⟨j, hj, rfl⟩ := mem_map.mp (h.called.mem_iff.mp hn)
    exact h.job_dequeued (mem_filter.mp hj).1
  atMostOnce := nodup_iff_count_le_one.mp h.called_nodup

/-- A record is refused only while an earlier handling of it, already marked finished, has not
removed it from the running set. -/
theorem Invariant.refused (h : Invariant o s) (hlp : s.loop = .dequeued n reco)
    (hrec : reco ∈ s.runningIDSet) :
    ∃ j ∈ s.jobs, j.record = reco ∧ j.finished ∧ j.phase.cleaning := by
  obtain ⟨j, hj, hj_record, hrem⟩ := h.running_job (by simp [hlp]) hrec
  have hfin := h.handedOut n reco hlp j hj hj_record
  rcases h.finished j hj hfin with hph | hph
  · exact ⟨j, hj, hj_record, hfin, hph⟩
  · exact absurd hph hrem

theorem Invariant.handled_iff (h : Invariant o s) (hn : n ∈ s.dequeued)
    (hlp : s.loop.dequeue ≠ some n) (hspa : ∀ j ∈ s.jobs, j.attempt = n → j.phase ≠ .spawned)
    : s.handleCalls.count n = 1 ↔ n ∉ s.rejected := by
  have hmem : s.handleCalls.count n = 1 ↔ n ∈ s.handleCalls := by
    have := nodup_iff_count_le_one.mp h.called_nodup n
    rw [← count_pos_iff]
    omega
  rw [hmem]
  constructor
  · intro hcal hrej
    obtain ⟨j, hj, hatt⟩ := mem_map.mp (h.called.mem_iff.mp hcal)
    have hnd := (nodup_append.mp (h.accounted.nodup_iff.mp h.distinct)).2.2
    exact hnd n (mem_append_right _ hrej) n (mem_map.mpr ⟨j, (mem_filter.mp hj).1, hatt⟩) rfl
  · intro hrej
    have hwhe := h.accounted.mem_iff.mp hn
    simp only [mem_append, Option.mem_toList, hlp, hrej, or_false, false_or] at hwhe
    obtain ⟨j, hj, hatt⟩ := mem_map.mp hwhe
    refine h.called.mem_iff.mpr (mem_map.mpr ⟨j, mem_filter.mpr ⟨hj, ?_⟩, hatt⟩)
    have hph := hspa j hj hatt
    cases hj_phase : j.phase with
    | spawned => exact absurd hj_phase hph
    | _ => simp

/-- In every reachable state the worker keeps its limit, each slot taken is in use or was given back
once, and no handler runs once `Start` has returned. A dequeued record whose attempt is over and
whose goroutine has begun is handled exactly once iff it was not refused, and it is refused only
between the marking of its last handling and the end of the clean-up. -/
theorem dequeued_handled_iff {o : Options} {s : State} (h : Reachable o s) :
    Safe o s ∧
    (∀ n ∈ s.dequeued, s.loop.dequeue ≠ some n →
      (∀ j ∈ s.jobs, j.attempt = n → j.phase ≠ .spawned) →
      (s.handleCalls.count n = 1 ↔ n ∉ s.rejected)) ∧
    (s.loop = .returned →
      ((∀ n ∈ s.dequeued, s.handleCalls.count n = 1) ↔ s.rejected = [])) ∧
    (∀ n record, s.loop = .dequeued n record → record ∈ s.runningIDSet →
      ∃ j ∈ s.jobs, j.record = record ∧ j.finished ∧ j.phase.cleaning) := by
  have hinv := reachable_invariant h
  refine ⟨hinv.safe, fun n hn hlp hspa => hinv.handled_iff hn hlp hspa, ?_,
    fun n record hlp hrec => hinv.refused hlp hrec⟩
  intro hlp
  have hover : ∀ n ∈ s.dequeued, (s.handleCalls.count n = 1 ↔ n ∉ s.rejected) := by
    intro n hn
    refine hinv.handled_iff hn (by simp [hlp, Loop.dequeue]) fun j hj _ => ?_
    rcases hinv.no_handler hlp j hj with hph | hph <;> simp [hph]
  constructor
  · intro hall
    refine eq_nil_iff_forall_not_mem.mpr fun n hn => ?_
    have hdeq : n ∈ s.dequeued :=
      hinv.accounted.mem_iff.mpr (mem_append_left _ (mem_append_right _ hn))
    exact (hover n hdeq).mp (hall n hdeq) hn
  · intro hrej n hn
    rw [hover n hn, hrej]
    exact not_mem_nil

def accept (n : ℕ) (record : String) : List Event :=
  [.check, .acquire, .dequeue n record, .add n record, .spawn n record]

def handleAll (n : ℕ) (record : String) : List Event :=
  [.handle ⟨n, record, .spawned, false⟩, .handleReturns ⟨n, record, .handling, false⟩,
    .mark ⟨n, record, .returned, false⟩ true, .release ⟨n, record, .finalized, true⟩]

def cleanUp (n : ℕ) (record : String) : List Event :=
  [.wgDone ⟨n, record, .released, true⟩, .remove ⟨n, record, .done, true⟩]

/-- A record that is handed out again after the clean-up of its first handling. -/
theorem record_handled_twice :
    ∃ s, Reachable ⟨2, 0, 0⟩ s ∧ s.loop = .returned ∧ s.dequeued = [1, 0] ∧
      ∀ n ∈ s.dequeued, s.handleCalls.count n = 1 := by
  let es := accept 0 "1" ++ handleAll 0 "1" ++ cleanUp 0 "1" ++ [.resume] ++ accept 1 "1" ++
    handleAll 1 "1" ++ cleanUp 1 "1" ++ [.stop, .leave, .startReturns]
  have hrun : (run ⟨2, 0, 0⟩ (newWorker ⟨2, 0, 0⟩) es).map
      (fun s => (s.loop, s.dequeued, s.rejected)) = some (.returned, [1, 0], []) := by
    decide +kernel
  obtain ⟨s, hs, hfds⟩ := Option.map_eq_some_iff.mp hrun
  simp only [Prod.mk.injEq] at hfds
  have hrea : Reachable ⟨2, 0, 0⟩ s := run_execution (.refl _) hs
  exact ⟨s, hrea, hfds.1, hfds.2.1, ((dequeued_handled_iff hrea).2.2.1 hfds.1).mpr hfds.2.2⟩

/-- The first handling of the record is marked finished and has given its slot back, but the record
is still in the running set when the store hands it out again. The second dequeue is never
handled. -/
theorem record_dropped :
    ∃ s, Reachable ⟨1, 0, 0⟩ s ∧ s.loop = .returned ∧ 1 ∈ s.dequeued ∧
      s.handleCalls.count 1 = 0 := by
  let es := accept 0 "1" ++ handleAll 0 "1" ++ [.resume, .check, .acquire, .dequeue 1 "1",
    .add 1 "1", .giveBack 1 false] ++ cleanUp 0 "1" ++ [.stop, .leave, .startReturns]
  have hrun : (run ⟨1, 0, 0⟩ (newWorker ⟨1, 0, 0⟩) es).map
      (fun s => (s.loop, s.dequeued, s.handleCalls)) = some (.returned, [1, 0], [0]) := by
    decide +kernel
  obtain ⟨s, hs, hfds⟩ := Option.map_eq_some_iff.mp hrun
  simp only [Prod.mk.injEq] at hfds
  refine ⟨s, run_execution (.refl _) hs, hfds.1, ?_, ?_⟩
  · simp [hfds.2.1]
  · simp [hfds.2.2]

end WorkerHandlers
