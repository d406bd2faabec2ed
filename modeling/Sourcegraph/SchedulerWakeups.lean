import Sourcegraph.UpdateExclusion

/-! # Wake-ups of the scheduler's loops -/
namespace SchedulerWakeups

open UpdateQueue UpdateQueueOrder SchedulerLoops UpdateExclusion List
open Function (update_of_ne update_self)

def Pending (q : Queue) : Prop := ∃ a ∈ q.heap, (q.objects a).updating = false

instance (q : Queue) : Decidable (Pending q) :=
  inferInstanceAs (Decidable (∃ a ∈ q.heap, (q.objects a).updating = false))

/-- The loop is between its wake-up and its next failing acquireNext, or a token is in the channel
on which it waits or, before its select, is about to wait. -/
def UpdateHears (q : Queue) : Position → Prop
  | .ready => q.pending q.notifyEnqueue = true
  | .waiting c => q.pending c = true
  | .awake | .granted => True
  | .leaving | .stopped => False

def ScheduleHears (t : Schedule) : SchedulePosition → Prop
  | .ready => t.pending t.wakeup = true
  | .waiting c => t.pending c = true
  | .awake | .running => True
  | .leaving | .stopped => False

/-- No wake-up of the loops with a live context is lost. -/
structure Attentive (s : System) : Prop where
  update : ∀ k g, s.generations[k]? = some g → s.cancelled k = false → Pending s.work.queue →
    UpdateHears s.work.queue g.update
  schedule : ∀ k g position, s.generations[k]? = some g → g.schedule = some position →
    s.cancelled k = false → s.schedule.timer = .fired → ScheduleHears s.schedule position

theorem pending_iff (h : Coherent q) :
    Pending q ↔ ∃ id u, q.contents id = some u ∧ u.updating = false := by
  constructor
  · rintro ⟨a, ha, hfr⟩
    exact ⟨_, _, contents_of_mem h ha, hfr⟩
  · rintro ⟨id, u, hu, hfr⟩
    obtain ⟨a, ha, _, rfl⟩ := (contents_eq_some h).mp hu
    exact ⟨a, ha, hfr⟩

/-- Whatever becomes pending comes with a token in the queue's channel, and no token is taken. -/
structure Rings (q q' : Queue) : Prop where
  sound : Sound q'
  rung : Pending q' → Pending q ∨ q'.pending q'.notifyEnqueue = true
  channel : q'.notifyEnqueue = q.notifyEnqueue
  tokens : ∀ c, q.pending c = true → q'.pending c = true

theorem rings_of_wires (hq : Sound q) (h : Sound q') (hwir : q'.wires = q.wires)
    (hfr : ∀ id u, q'.contents id = some u → u.updating = false →
      ∃ id u, q.contents id = some u ∧ u.updating = false) : Rings q q' := by
  obtain ⟨hcha, hrs⟩ := Prod.mk.inj hwir
  obtain ⟨_, hpen⟩ := Prod.mk.inj hrs
  refine ⟨h, fun hp => .inl ?_, hcha, fun c hc => by rw [hpen, hc]⟩
  obtain ⟨id, u, hu, hu'⟩ := (pending_iff h.toCoherent).mp hp
  exact (pending_iff hq.toCoherent).mpr (hfr id u hu hu')

variable {w : Work}

theorem enqueue_rings (hq : Sound w.queue) (h : w.enqueue repo p = some w') :
    Rings w.queue w'.queue := by
  rw [Work.enqueue] at h
  split at h
  · cases h
    have hh := enqueued_of_ok hq ‹_›
    have hwir := hh.wires
    cases hmov : moves (w.queue.contents repo.id) p with
    | true =>
      rw [hmov] at hwir
      obtain ⟨hcha, hrs⟩ := Prod.mk.inj hwir
      obtain ⟨_, hpen⟩ := Prod.mk.inj hrs
      refine ⟨hh.sound, fun _ => .inr ?_, hcha, fun c hc => ?_⟩
      · rw [hpen, hcha]
        exact update_self _ _ _
      · rw [hpen]
        by_cases hsm : c = w.queue.notifyEnqueue
        · rw [hsm]
          exact update_self _ _ _
        · exact (update_of_ne hsm _ _).trans hc
    | false =>
      rw [hmov] at hwir
      refine rings_of_wires hq hh.sound hwir fun id u hu hfr => ?_
      rw [hh.contents] at hu
      by_cases hsm : id = repo.id
      · rw [hsm, update_self] at hu
        obtain ⟨old, hold, _⟩ := merged_stays hmov repo w.queue.seq
        have hupd := merged_updating (w.queue.contents repo.id) repo p w.queue.seq
        rw [Option.some.inj hu, hfr, hold] at hupd
        exact ⟨repo.id, old, hold, hupd.symm⟩
      rw [update_of_ne hsm] at hu
      exact ⟨id, u, hu, hfr⟩
  · cases h

theorem remove_rings (hq : Sound q) (h : q.remove repo flag = .ok (rem, q')) : Rings q q' := by
  have hh := removed_of_ok hq h
  refine rings_of_wires hq hh.sound hh.wires fun id u hu hfr => ?_
  rw [hh.contents] at hu
  by_cases hsm : id = repo.id
  · rw [hsm, update_self, Option.filter_eq_some_iff] at hu
    exact ⟨repo.id, u, hu.1, hfr⟩
  rw [update_of_ne hsm] at hu
  exact ⟨id, u, hu, hfr⟩

theorem acquire_rings (hq : Sound w.queue) : Rings w.queue w.acquire.2.queue ∧
    (w.acquire.1 = false → ¬ Pending w.acquire.2.queue) := by
  rcases acquireNext_spec hq with ⟨heq, hall⟩ | ⟨u, q, hu, hfr, _, heq, _, hh⟩
  · rw [Work.acquire, heq]
    refine ⟨⟨hq, .inl, rfl, fun _ hc => hc⟩, fun _ hp => ?_⟩
    obtain ⟨id, u, hu, hfr⟩ := (pending_iff hq.toCoherent).mp hp
    rw [hall id u hu] at hfr
    cases hfr
  rw [Work.acquire, heq]
  refine ⟨rings_of_wires hq hh.sound hh.wires fun _ _ _ _ => ⟨_, u, hu, hfr⟩, ?_⟩
  exact fun hff => absurd hff.symm Bool.false_ne_true

def UpdateListens (q : Queue) : Position → Prop
  | .ready => Pending q → q.pending q.notifyEnqueue = true
  | .waiting c => c = q.notifyEnqueue ∧ (Pending q → q.pending q.notifyEnqueue = true)
  | .awake | .granted => True
  | .leaving | .stopped => False

def ScheduleListens (t : Schedule) : SchedulePosition → Prop
  | .ready => t.timer = .fired → t.pending t.wakeup = true
  | .waiting c => c = t.wakeup ∧ (t.timer = .fired → t.pending t.wakeup = true)
  | .awake | .running => True
  | .leaving | .stopped => False

/-- An entry waits for the live loop to be woken. -/
def UpdateDue (s : System) : Prop :=
  Pending s.work.queue ∧
    ∃ live ∈ s.generations.getLast?, live.update ≠ .awake ∧ live.update ≠ .granted

def ScheduleDue (s : System) : Prop :=
  s.schedule.timer = .fired ∧ ∃ live ∈ s.generations.getLast?, ∃ position ∈ live.schedule,
    position ≠ .awake ∧ position ≠ .running

/-- What a step must not do: start loops while a wake-up is only known to a loop that is
cancelled, let a cancelled loop take a token that the live one needs, and replace the channel on
which the live loop waits. -/
def Careful (s : System) : Event → Prop
  | .configure autoGitUpdates => s.autoGitUpdates ≠ some autoGitUpdates →
      (Pending s.work.queue → s.work.queue.pending s.work.queue.notifyEnqueue = true) ∧
      (autoGitUpdates = true → s.schedule.timer = .fired →
        s.schedule.pending s.schedule.wakeup = true)
  | .update k .receive => s.cancelled k = true → ∀ g ∈ s.generations[k]?,
      g.update = .waiting s.work.queue.notifyEnqueue → ¬ UpdateDue s
  | .update _ .reset => ∀ live ∈ s.generations.getLast?,
      live.update ≠ .waiting s.work.queue.notifyEnqueue
  | .schedule k .receive => s.cancelled k = true → ∀ g ∈ s.generations[k]?,
      g.schedule = some (.waiting s.schedule.wakeup) → ¬ ScheduleDue s
  | .schedule _ .reset => ∀ live ∈ s.generations.getLast?,
      live.schedule ≠ some (.waiting s.schedule.wakeup)
  | _ => True

def CarefulRun : System → List Event → Prop
  | _, [] => True
  | s, e :: events => Careful s e ∧ ∀ s' ∈ s.step e, CarefulRun s' events

structure Listening (s : System) : Prop where
  sound : Sound s.work.queue
  update : ∀ live ∈ s.generations.getLast?, UpdateListens s.work.queue live.update
  schedule : ∀ live ∈ s.generations.getLast?, ∀ position, live.schedule = some position →
    ScheduleListens s.schedule position

theorem live_iff {s : System} (hg : s.generations[k]? = some g) :
    s.cancelled k = false ↔ s.generations.length = k + 1 := by
  have hlt := (List.getElem?_eq_some_iff.mp hg).1
  rw [System.cancelled, decide_eq_false_iff_not]
  omega

theorem live_last {s : System} (hg : s.generations[k]? = some g) (h : s.cancelled k = false) :
    s.generations.getLast? = some g := by
  rw [getLast?_eq_getElem?, (live_iff hg).mp h]
  exact hg

theorem mem_last_modify {s : System} (hg : s.generations[k]? = some g)
    (h : live ∈ (s.generations.modify k f).getLast?) :
    s.cancelled k = true ∧ live ∈ s.generations.getLast? ∨ s.cancelled k = false ∧ live = f g := by
  rw [getLast?_eq_getElem?, getElem?_modify, length_modify] at h
  cases hcan : s.cancelled k with
  | false =>
    rw [(live_iff hg).mp hcan, Nat.add_sub_cancel, hg] at h
    exact .inr ⟨rfl, by simpa using h.symm⟩
  | true =>
    have hlt : k + 1 < s.generations.length := of_decide_eq_true hcan
    have hne : k ≠ s.generations.length - 1 := by omega
    rw [← getLast?_eq_getElem?] at h
    exact .inl ⟨rfl, by simpa [hne] using h⟩

theorem listens_hears (h : UpdateListens q ps) (hp : Pending q) : UpdateHears q ps := by
  cases ps with
  | ready => exact h hp
  | waiting c =>
    obtain ⟨rfl, htok⟩ := h
    exact htok hp
  | awake | granted => trivial
  | leaving | stopped => exact h

theorem schedule_listens_hears (h : ScheduleListens t ps) (hfir : t.timer = .fired) :
    ScheduleHears t ps := by
  cases ps with
  | ready => exact h hfir
  | waiting c =>
    obtain ⟨rfl, htok⟩ := h
    exact htok hfir
  | awake | running => trivial
  | leaving | stopped => exact h

theorem Listening.attentive (h : Listening s) : Attentive s where
  update _ g hg hlive hp := listens_hears (h.update g (live_last hg hlive)) hp
  schedule _ g position hg hps hlive hfir :=
    schedule_listens_hears (h.schedule g (live_last hg hlive) position hps) hfir

theorem Rings.listens (h : Rings q q') (hq : UpdateListens q ps) : UpdateListens q' ps := by
  have htok : (Pending q → q.pending q.notifyEnqueue = true) → Pending q' →
      q'.pending q'.notifyEnqueue = true := by
    intro hq hp
    rcases h.rung hp with hold | hnew
    · rw [h.channel]
      exact h.tokens _ (hq hold)
    · exact hnew
  cases ps with
  | ready => exact htok hq
  | waiting c => exact ⟨hq.1.trans h.channel.symm, htok hq.2⟩
  | awake | granted => trivial
  | leaving | stopped => exact hq

theorem Listening.work (h : Listening s) (hw : Rings s.work.queue w.queue) :
    Listening { s with work := w } :=
  ⟨hw.sound, fun g hg => hw.listens (h.update g hg), h.schedule⟩

theorem ScheduleListens.imp (hwak : t'.wakeup = t.wakeup)
    (htok : (t.timer = .fired → t.pending t.wakeup = true) → t'.timer = .fired →
      t'.pending t'.wakeup = true) (ht : ScheduleListens t ps) :
    ScheduleListens t' ps := by
  cases ps with
  | ready => exact htok ht
  | waiting c => exact ⟨ht.1.trans hwak.symm, htok ht.2⟩
  | awake | running => trivial
  | leaving | stopped => exact ht

theorem Rescheduled.listens (h : Rescheduled t t') :
    ScheduleListens t ps → ScheduleListens t' ps := by
  refine ScheduleListens.imp h.wakeup fun ht hfir => ?_
  rcases h.timer with hsm | hne
  · rw [h.pending, h.wakeup]
    exact ht (hsm.symm.trans hfir)
  · exact absurd hfir hne

theorem fire_listens (h : t.fire = some t') : ScheduleListens t ps → ScheduleListens t' ps := by
  obtain ⟨_, ⟨⟩⟩ := Option.ite_none_right_eq_some.mp h
  exact ScheduleListens.imp rfl fun _ _ => update_self _ _ _

theorem Listening.reschedule (h : Listening s)
    (ht : ∀ ps, ScheduleListens s.schedule ps → ScheduleListens t ps) :
    Listening { s with schedule := t } :=
  ⟨h.sound, h.update, fun g hg ps hps => ht _ (h.schedule g hg ps hps)⟩

section Moving

variable {s : System} {k : ℕ} {g : Generation} (h : Listening s)
  (hg : s.generations[k]? = some g)

include h hg

/-- A loop moves, and the queue keeps what the live loop relies on. -/
theorem Listening.move_update (hsnd : Sound w.queue)
    (hold : s.cancelled k = true → ∀ live ∈ s.generations.getLast?,
      UpdateListens w.queue live.update)
    (hlive : s.cancelled k = false → UpdateListens w.queue ps) :
    Listening ({ s with work := w }.setUpdate k ps) := by
  refine ⟨hsnd, fun live hl => ?_, fun live hl ps' hps => ?_⟩
  · rcases mem_last_modify hg hl with ⟨hcan, hl⟩ | ⟨hcan, rfl⟩
    · exact hold hcan live hl
    · exact hlive hcan
  · rcases mem_last_modify hg hl with ⟨-, hl⟩ | ⟨hcan, rfl⟩
    · exact h.schedule live hl ps' hps
    · exact h.schedule g (live_last hg hcan) ps' hps

theorem Listening.move_schedule
    (hold : s.cancelled k = true → ∀ live ∈ s.generations.getLast?, ∀ position,
      live.schedule = some position → ScheduleListens t position)
    (hlive : s.cancelled k = false → ScheduleListens t ps) :
    Listening ({ s with schedule := t }.setSchedule k ps) := by
  refine ⟨h.sound, fun live hl => ?_, fun live hl ps' hps => ?_⟩
  · rcases mem_last_modify hg hl with ⟨-, hl⟩ | ⟨hcan, rfl⟩
    · exact h.update live hl
    · exact h.update g (live_last hg hcan)
  · rcases mem_last_modify hg hl with ⟨hcan, hl⟩ | ⟨hcan, rfl⟩
    · exact hold hcan live hl ps' hps
    · cases hps
      exact hlive hcan

end Moving

theorem take_listens (hw : w.take c = some w') (h : UpdateListens w.queue ps)
    (hfree : c = w.queue.notifyEnqueue → Pending w.queue → ps = .awake ∨ ps = .granted) :
    UpdateListens w'.queue ps := by
  obtain ⟨_, ⟨⟩⟩ := Option.ite_none_right_eq_some.mp hw
  have htok : (Pending w.queue → w.queue.pending w.queue.notifyEnqueue = true) →
      ps ≠ .awake → ps ≠ .granted → Pending w.queue →
      Function.update w.queue.pending c false w.queue.notifyEnqueue = true := by
    intro h hna hng hp
    by_cases hc : c = w.queue.notifyEnqueue
    · rcases hfree hc hp with rfl | rfl
      · exact absurd rfl hna
      · exact absurd rfl hng
    · rw [update_of_ne (Ne.symm hc)]
      exact h hp
  cases ps with
  | ready => exact htok h (by simp) (by simp)
  | waiting d => exact ⟨h.1, htok h.2 (by simp) (by simp)⟩
  | awake | granted => trivial
  | leaving | stopped => exact h

theorem take_schedule_listens (ht : t.take c = some t') (h : ScheduleListens t ps)
    (hfree : c = t.wakeup → t.timer = .fired → ps = .awake ∨ ps = .running) :
    ScheduleListens t' ps := by
  obtain ⟨_, ⟨⟩⟩ := Option.ite_none_right_eq_some.mp ht
  have htok : (t.timer = .fired → t.pending t.wakeup = true) → ps ≠ .awake → ps ≠ .running →
      t.timer = .fired → Function.update t.pending c false t.wakeup = true := by
    intro h hna hng hfir
    by_cases hc : c = t.wakeup
    · rcases hfree hc hfir with rfl | rfl
      · exact absurd rfl hna
      · exact absurd rfl hng
    · rw [update_of_ne (Ne.symm hc)]
      exact h hfir
  cases ps with
  | ready => exact htok h (by simp) (by simp)
  | waiting d => exact ⟨h.1, htok h.2 (by simp) (by simp)⟩
  | awake | running => trivial
  | leaving | stopped => exact h

theorem reset_listens (h : UpdateListens q ps) (hps : ps ≠ .waiting q.notifyEnqueue) :
    UpdateListens q.reset ps := by
  have hno : ¬ Pending q.reset := fun ⟨a, ha, _⟩ => absurd ha not_mem_nil
  cases ps with
  | ready => exact fun hp => absurd hp hno
  | waiting c => exact absurd (congrArg Position.waiting h.1) hps
  | awake | granted => trivial
  | leaving | stopped => exact h

theorem reset_schedule_listens (h : ScheduleListens t ps) (hps : ps ≠ .waiting t.wakeup) :
    ScheduleListens t.reset ps := by
  cases ps with
  | ready => exact fun hfir => Timer.noConfusion hfir
  | waiting c => exact absurd (congrArg SchedulePosition.waiting h.1) hps
  | awake | running => trivial
  | leaving | stopped => exact h

theorem update_listening (h : Listening s) (hcareful : Careful s (.update k act))
    (hg : s.generations[k]? = some g) (hmo : UpdateMove s k g.update act s') : Listening s' := by
  have hlis : s.cancelled k = false → UpdateListens s.work.queue g.update :=
    fun hlive => h.update g (live_last hg hlive)
  generalize hps : g.update = ps at hmo hlis
  cases hmo with
  | select => exact h.move_update hg h.sound (fun _ => h.update) fun hlive => ⟨rfl, hlis hlive⟩
  | @receive c w hw =>
    have hsnd : Sound w.queue := by
      obtain ⟨_, ⟨⟩⟩ := Option.ite_none_right_eq_some.mp hw
      exact h.sound.with_pending _
    refine h.move_update hg hsnd (fun hcan live hl => ?_) fun _ => trivial
    refine take_listens hw (h.update live hl) fun hc hp => ?_
    have hdue := hcareful hcan g hg (hps.trans (congrArg Position.waiting hc))
    by_contra hno
    rw [not_or] at hno
    exact hdue ⟨hp, live, hl, hno⟩
  | done hcan | refuse hcan =>
    refine h.move_update hg h.sound (fun _ => h.update) fun hlive => ?_
    rw [hcan] at hlive
    cases hlive
  | reset =>
    refine h.move_update hg (reset_sound _) (fun _ live hl => ?_) fun hlive => (hlis hlive).elim
    exact reset_listens (h.update live hl) (hcareful live hl)
  | grant => exact h.move_update hg h.sound (fun _ => h.update) fun _ => trivial
  | acquire =>
    obtain ⟨hrin, hfai⟩ := acquire_rings h.sound
    refine h.move_update hg hrin.sound (fun _ live hl => hrin.listens (h.update live hl))
      fun _ => ?_
    cases hacq : s.work.acquire.1 with
    | true => trivial
    | false => exact fun hp => absurd hp (hfai hacq)

theorem schedule_listening (h : Listening s) (hcareful : Careful s (.schedule k act))
    (hg : s.generations[k]? = some g) (hps : g.schedule = some ps)
    (hmo : ScheduleMove s k ps act s') : Listening s' := by
  have hlis : s.cancelled k = false → ScheduleListens s.schedule ps :=
    fun hlive => h.schedule g (live_last hg hlive) ps hps
  cases hmo with
  | select => exact h.move_schedule hg (fun _ => h.schedule) fun hlive => ⟨rfl, hlis hlive⟩
  | @receive c t ht =>
    refine h.move_schedule hg (fun hcan live hl position hlps => ?_) fun _ => trivial
    refine take_schedule_listens ht (h.schedule live hl position hlps) fun hc hfir => ?_
    have hdue := hcareful hcan g hg (by rw [hps, hc])
    by_contra hno
    rw [not_or] at hno
    exact hdue ⟨hfir, live, hl, position, hlps, hno⟩
  | lock _ => exact h.move_schedule hg (fun _ => h.schedule) fun _ => trivial
  | done hcan =>
    refine h.move_schedule hg (fun _ => h.schedule) fun hlive => ?_
    rw [hcan] at hlive
    cases hlive
  | reset _ =>
    refine h.move_schedule hg (fun _ live hl position hlps => ?_) fun hlive => (hlis hlive).elim
    refine reset_schedule_listens (h.schedule live hl position hlps) fun hwait => ?_
    exact hcareful live hl (by rw [hlps, hwait])
  | enqueue _ hw => exact h.work (enqueue_rings h.sound hw)
  | unlock =>
    refine h.move_schedule hg (fun _ live hl position hlps => ?_) fun _ hfir => ?_
    · exact Rescheduled.listens (Rescheduled.refl _).rescheduleTimer
        (h.schedule live hl position hlps)
    · exact absurd hfir (rescheduleTimer_timer s.schedule)

theorem step_listening (h : Listening s) (hcareful : Careful s e) (hst : s.step e = some s') :
    Listening s' := by
  cases step_moves hst with
  | enqueue hw => exact h.work (enqueue_rings h.sound hw)
  | remove hw =>
    refine h.work ?_
    rw [Work.remove] at hw
    split at hw
    · cases hw
      exact remove_rings h.sound ‹_›
    · cases hw
  | finish hw =>
    refine h.work ?_
    rw [Work.finish] at hw
    split at hw
    · split at hw
      · cases hw
        exact remove_rings h.sound ‹_›
      · cases hw
    · cases hw
  | configure agu =>
    rw [System.configure]
    split
    · exact h
    rename_i hcha
    obtain ⟨htok, hsch⟩ := hcareful hcha
    refine ⟨h.sound, fun live hl => ?_, fun live hl ps hps => ?_⟩ <;>
      rw [getLast?_concat] at hl <;> cases hl
    · exact htok
    · cases agu with
      | true =>
        cases hps
        exact hsch rfl
      | false => cases hps
  | update hg hps hmo =>
    subst hps
    exact update_listening h hcareful hg hmo
  | schedule hg hps hmo => exact schedule_listening h hcareful hg hps hmo
  | fire ht => exact h.reschedule fun _ => fire_listens ht
  | reschedule _ _ ht => exact h.reschedule fun _ => Rescheduled.listens ht

theorem run_listening (es : List Event) (h : Listening s) (hcareful : CarefulRun s es)
    (hrun : es.foldlM System.step s = some s') : Listening s' := by
  induction es generalizing s with
  | nil =>
    cases hrun
    exact h
  | cons e es ih =>
    rw [foldlM_cons] at hrun
    obtain ⟨t, hst, hrun⟩ := Option.bind_eq_some_iff.mp hrun
    exact ih (step_listening h hcareful.1 hst) (hcareful.2 t hst) hrun

theorem initial_listening : Listening initial :=
  ⟨initial_sound, fun _ hg => (by cases hg), fun _ hg => (by cases hg)⟩

/-- No wake-up is lost in a run of careful steps. -/
theorem attentive_of_careful (events : List Event) (s : System) (hrun : run events = some s)
    (hcareful : CarefulRun initial events) : Attentive s :=
  (run_listening events initial_listening hcareful hrun).attentive

def unheard : ConfiguredRepo := ⟨1, "unheard"⟩

/-- The second loop waits on the channel that the first replaces when it leaves. -/
def deaf : List Event :=
  [.configure true, .update 0 .select, .configure false, .update 1 .select, .update 0 .done,
    .update 0 .reset, .enqueue unheard 0]

/-- The same for the loops of the schedule, of which the second generation has none. -/
def deafSchedule : List Event :=
  [.configure true, .schedule 0 .select, .configure false, .configure true, .schedule 2 .select,
    .schedule 0 .done, .schedule 0 .reset, .upsert unheard, .fire]

theorem deaf_run : ∃ s, run deaf = some s ∧
    s.generations = [⟨.stopped, some .ready⟩, ⟨.waiting 0, none⟩] ∧ Pending s.work.queue ∧
    s.work.queue.pending 0 = false := by
  have hrun : (run deaf).map (fun s => (s.generations, s.work.queue.heap,
      (s.work.queue.objects 0).updating, s.work.queue.pending 0)) =
      some ([⟨.stopped, some .ready⟩, ⟨.waiting 0, none⟩], [0], false, false) := by decide
  obtain ⟨s, hs, hend⟩ := Option.map_eq_some_iff.mp hrun
  simp only [Prod.mk.injEq] at hend
  obtain ⟨hgenerations, hhp, hfr, htok⟩ := hend
  exact ⟨s, hs, hgenerations, ⟨0, by rw [hhp]; exact mem_singleton_self 0, hfr⟩, htok⟩

theorem deafSchedule_run : ∃ s, run deafSchedule = some s ∧
    s.generations = [⟨.ready, some .stopped⟩, ⟨.ready, none⟩, ⟨.ready, some (.waiting 0)⟩] ∧
    s.schedule.timer = .fired ∧ s.schedule.pending 0 = false := by
  have hrun : (run deafSchedule).map (fun s => (s.generations, s.schedule.timer,
      s.schedule.pending 0)) =
      some ([⟨.ready, some .stopped⟩, ⟨.ready, none⟩, ⟨.ready, some (.waiting 0)⟩], .fired,
        false) := by decide
  obtain ⟨s, hs, hend⟩ := Option.map_eq_some_iff.mp hrun
  simp only [Prod.mk.injEq] at hend
  exact ⟨s, hs, hend⟩

/-- The live loop waits on a channel without a token, for the queue and for the schedule. -/
theorem wakeups_lost :
    (∃ s, run deaf = some s ∧ s.generations = [⟨.stopped, some .ready⟩, ⟨.waiting 0, none⟩] ∧
      Pending s.work.queue ∧ ¬ UpdateHears s.work.queue (.waiting 0)) ∧
    ∃ s, run deafSchedule = some s ∧
      s.generations = [⟨.ready, some .stopped⟩, ⟨.ready, none⟩, ⟨.ready, some (.waiting 0)⟩] ∧
      s.schedule.timer = .fired ∧ ¬ ScheduleHears s.schedule (.waiting 0) := by
  obtain ⟨s, hs, hgenerations, hp, htok⟩ := deaf_run
  obtain ⟨t, ht, hgenerations', hfir, htok'⟩ := deafSchedule_run
  refine ⟨⟨s, hs, hgenerations, hp, ?_⟩, t, ht, hgenerations', hfir, ?_⟩
  · rw [UpdateHears, htok]
    exact Bool.false_ne_true
  · rw [ScheduleHears, htok']
    exact Bool.false_ne_true

/-- The first loop leaves before the second evaluates its select. -/
def heard : List Event :=
  [.configure true, .update 0 .select, .configure false, .update 0 .done, .update 0 .reset,
    .update 1 .select, .enqueue unheard 0]

theorem heard_attentive : CarefulRun initial heard ∧ ∃ s, run heard = some s ∧
    Pending s.work.queue ∧ s.generations = [⟨.stopped, some .ready⟩, ⟨.waiting 1, none⟩] ∧
    Attentive s := by
  have hcareful : CarefulRun initial heard := by
    have hno : ¬ Pending initial.work.queue := fun ⟨a, ha, _⟩ => absurd ha not_mem_nil
    refine ⟨fun _ => ⟨fun hp => absurd hp hno, fun _ hfir => Timer.noConfusion hfir⟩, ?_⟩
    rintro s ⟨⟩
    refine ⟨trivial, ?_⟩
    rintro s ⟨⟩
    refine ⟨fun _ => ⟨fun hp => absurd hp hno, fun h => absurd h (by decide)⟩, ?_⟩
    rintro s ⟨⟩
    refine ⟨trivial, ?_⟩
    rintro s ⟨⟩
    refine ⟨fun live hl => ?_, ?_⟩
    · cases hl
      exact Position.noConfusion
    rintro s ⟨⟩
    refine ⟨trivial, ?_⟩
    rintro s ⟨⟩
    exact ⟨trivial, fun _ _ => trivial⟩
  have hrun : (run heard).map (fun s => (decide (Pending s.work.queue), s.generations)) =
      some (true, [⟨.stopped, some .ready⟩, ⟨.waiting 1, none⟩]) := by decide
  obtain ⟨s, hs, hend⟩ := Option.map_eq_some_iff.mp hrun
  obtain ⟨hp, hgenerations⟩ := Prod.mk.inj hend
  exact ⟨hcareful, s, hs, of_decide_eq_true hp, hgenerations,
    attentive_of_careful heard s hs hcareful⟩

end SchedulerWakeups
