import Sourcegraph.SchedulerLoops

/-! # At most one update of a repository at a time -/
namespace UpdateExclusion

open UpdateQueue UpdateQueueOrder SchedulerLoops List
open Function (update update_of_ne update_self)

inductive WorkStep (w : Work) : Work → Prop where
  | same : WorkStep w w
  | enqueue {w' : Work} (repo : ConfiguredRepo) (p : ℤ) (h : w.enqueue repo p = some w') :
      WorkStep w w'
  | remove {w' : Work} (repo : ConfiguredRepo) (h : w.remove repo = some w') : WorkStep w w'
  | finish {w' : Work} (i : ℕ) (h : w.finish i = some w') : WorkStep w w'
  | take {w' : Work} (c : ℕ) (h : w.take c = some w') : WorkStep w w'
  | reset : WorkStep w w.reset

theorem step_work {s : System} (hst : s.step e = some s') :
    WorkStep s.work s'.work ∨ ∃ k, e = .update k .acquire ∧ s'.work = s.work.acquire.2 := by
  cases step_moves hst with
  | enqueue h => exact .inl (.enqueue _ _ h)
  | remove h => exact .inl (.remove _ h)
  | finish h => exact .inl (.finish _ h)
  | configure auto =>
    rw [System.configure]
    split
    · exact .inl .same
    · exact .inl .same
  | update _ _ h =>
    cases h with
    | receive h => exact .inl (.take _ h)
    | reset => exact .inl .reset
    | acquire => exact .inr ⟨_, rfl, rfl⟩
    | _ => exact .inl .same
  | schedule _ _ h =>
    cases h with
    | enqueue _ h => exact .inl (.enqueue _ _ h)
    | _ => exact .inl .same
  | fire _ | reschedule _ _ _ => exact .inl .same

def busy (q : Queue) (id : ℤ) : Option ℕ := (q.index id).filter fun a => (q.objects a).updating

theorem busy_eq (id : ℤ) :
    busy q id = if (q.contents id).any RepoUpdate.updating then q.index id else none := by
  rw [busy, Queue.contents]
  cases q.index id with
  | none => rfl
  | some a => rw [Option.filter_some, Option.map_some, Option.any_some, setIndex]

variable {flights : List Flight}

theorem busy_update (hcs : q'.contents = update q.contents c x) (hi : i ≠ c)
    (hix : q'.index i = q.index i) : busy q' i = busy q i := by
  rw [busy_eq, busy_eq, hcs, update_of_ne hi, hix]

theorem merged_updating (old : Option RepoUpdate) (repo : ConfiguredRepo) (p : ℤ) (seq : ℕ) :
    (merged old repo p seq).updating = old.any RepoUpdate.updating := by
  cases old with
  | none => rfl
  | some u =>
    rw [merged]
    split
    · rfl
    split
    · rfl
    · rfl

theorem busy_enqueue (h : Enqueued q repo p q') : busy q' = busy q := by
  funext i
  by_cases hi : i = repo.id
  · subst hi
    rw [busy_eq, busy_eq, h.contents, update_self, Option.any_some, merged_updating, h.index]
    cases q.contents repo.id with
    | none | some u => rfl
  refine busy_update h.contents hi ?_
  rw [h.index]
  split
  · rw [update_of_ne hi]
  · rfl

theorem busy_remove (h : Removed q repo flag q') :
    busy q' = if flag then update (busy q) repo.id none else busy q := by
  funext i
  by_cases hi : i = repo.id
  · subst hi
    rw [busy_eq, h.contents, update_self, h.index]
    cases hold : q.contents repo.id with
    | none => cases flag <;> simp [busy_eq, hold]
    | some u => cases hu : u.updating <;> cases flag <;> simp [busy_eq, hold, hu]
  · have hne : busy q' i = busy q i := by
      refine busy_update h.contents hi ?_
      rw [h.index]
      split
      · rw [update_of_ne hi]
      · rfl
    cases flag <;> simp [hne, hi]

structure Exclusive (w : Work) : Prop where
  one : (w.flights.map fun f => f.repo.id).Nodup
  own : ∀ f ∈ w.flights, ∀ a, busy w.queue f.repo.id = some a → a = f.entry

/-- The next repository to be handed out is still being updated since before a reset. -/
def Stale (w : Work) : Prop :=
  ∃ repo, w.queue.acquireNext.1 = some repo ∧
    ∃ f ∈ w.flights, f.repo.id = repo.id ∧ f.epoch ≠ w.resets

structure Orderly (w : Work) : Prop where
  sound : Sound w.queue
  past : ∀ f ∈ w.flights, f.epoch ≤ w.resets
  held : ∀ f ∈ w.flights, f.epoch = w.resets → busy w.queue f.repo.id = some f.entry
  owned : ∀ id a, busy w.queue id = some a → ∃ f ∈ w.flights, f.epoch = w.resets ∧ f.repo.id = id
  one : (w.flights.map fun f => f.repo.id).Nodup

theorem flight_unique (h : (flights.map fun f => f.repo.id).Nodup) (hf : f ∈ flights)
    (hg : g ∈ flights) (hid : f.repo.id = g.repo.id) : f = g :=
  inj_on_of_nodup_map h hf hg hid

theorem Orderly.exclusive (h : Orderly w) : Exclusive w := by
  refine ⟨h.one, fun f hf a ha => ?_⟩
  obtain ⟨g, hg, hep, hid⟩ := h.owned _ a ha
  obtain rfl := flight_unique h.one hg hf hid
  rw [h.held g hg hep] at ha
  exact (Option.some.inj ha).symm

theorem Orderly.same_busy (h : Orderly w) (hq : Sound q) (hbu : busy q = busy w.queue) :
    Orderly { w with queue := q } := by
  refine ⟨hq, h.past, fun f hf => ?_, fun id a ha => ?_, h.one⟩
  · rw [hbu]
    exact h.held f hf
  · rw [hbu] at ha
    exact h.owned id a ha

theorem split_at (h : flights[i]? = some f) :
    ∃ l₁ l₂, flights = l₁ ++ f :: l₂ ∧ flights.eraseIdx i = l₁ ++ l₂ := by
  obtain ⟨hi, hget⟩ := List.getElem?_eq_some_iff.mp h
  refine ⟨flights.take i, flights.drop (i + 1), ?_, eraseIdx_eq_take_drop_succ _ _⟩
  rw [← hget, getElem_cons_drop, take_append_drop]

theorem finish_orderly (h : Orderly w) (hfin : w.finish i = some w') : Orderly w' := by
  rw [Work.finish] at hfin
  split at hfin
  · rename_i f hf
    obtain ⟨l₁, l₂, hfli, hera⟩ := split_at hf
    split at hfin
    · rename_i rem q hrun
      cases hfin
      have hrem := removed_of_ok h.sound hrun
      have hbu := busy_remove hrem
      rw [if_pos rfl] at hbu
      have hpm : w.flights.Perm (f :: (l₁ ++ l₂)) := hfli ▸ perm_middle
      have hone := (hpm.map fun f => f.repo.id).nodup_iff.mp h.one
      rw [map_cons, nodup_cons] at hone
      have hin : ∀ g ∈ l₁ ++ l₂, g ∈ w.flights := fun g hg =>
        hpm.mem_iff.mpr (mem_cons_of_mem _ hg)
      have hne : ∀ g ∈ l₁ ++ l₂, g.repo.id ≠ f.repo.id := fun g hg heq =>
        hone.1 (mem_map.mpr ⟨g, hg, heq⟩)
      rw [hera]
      refine ⟨hrem.sound, fun g hg => h.past g (hin g hg), fun g hg hep => ?_,
        fun id a ha => ?_, hone.2⟩
      · rw [hbu, update_of_ne (hne g hg)]
        exact h.held g (hin g hg) hep
      · rw [hbu] at ha
        by_cases hsm : id = f.repo.id
        · rw [hsm, update_self] at ha
          cases ha
        rw [update_of_ne hsm] at ha
        obtain ⟨g, hg, hep, hgid⟩ := h.owned id a ha
        rcases mem_cons.mp (hpm.mem_iff.mp hg) with rfl | hg
        · exact absurd hgid.symm hsm
        · exact ⟨g, hg, hep, hgid⟩
    · cases hfin
  · cases hfin

theorem reset_orderly (h : Orderly w) : Orderly w.reset := by
  have hold : ∀ f ∈ w.flights, f.epoch ≠ w.resets + 1 := fun f hf =>
    Nat.ne_of_lt (Nat.lt_succ_of_le (h.past f hf))
  refine ⟨reset_sound w.queue, fun f hf => Nat.le_succ_of_le (h.past f hf),
    fun f hf hep => absurd hep (hold f hf), fun id a ha => ?_, h.one⟩
  cases ha

theorem acquire_orderly (h : Orderly w) (hsta : ¬ Stale w) : Orderly w.acquire.2 := by
  rcases acquireNext_spec h.sound with ⟨heq, _⟩ | ⟨u, q, hu, hfr, _, heq, hhd, hh⟩
  · rw [Work.acquire, heq]
    exact h
  rw [Work.acquire, heq]
  have hnew : ∀ f ∈ w.flights, f.repo.id ≠ u.repo.id := by
    intro f hf hid
    have hep : f.epoch = w.resets := by
      by_contra hne
      exact hsta ⟨u.repo, by rw [heq], f, hf, hid, hne⟩
    have hbu := h.held f hf hep
    rw [busy_eq, hid, hu, Option.any_some, hfr] at hbu
    cases hbu
  have hbu : ∀ i, i ≠ u.repo.id → busy q i = busy w.queue i := fun i hi =>
    busy_update hh.contents hi (by rw [hh.index])
  have hsf : busy q u.repo.id = some (w.queue.heap.headD 0) := by
    rw [busy_eq, hh.contents, update_self, Option.any_some, if_pos rfl, hh.index, hhd]
  refine ⟨hh.sound, forall_mem_append.mpr ⟨h.past, by simp⟩,
    forall_mem_append.mpr ⟨fun f hf hep => ?_, by simpa using hsf⟩, fun id a ha => ?_, ?_⟩
  · exact (hbu _ (hnew f hf)).trans (h.held f hf hep)
  · by_cases hid : id = u.repo.id
    · exact ⟨_, mem_append_right _ (mem_singleton_self _), rfl, hid.symm⟩
    · obtain ⟨f, hf, hrs⟩ := h.owned id a ((hbu id hid).symm.trans ha)
      exact ⟨f, mem_append_left _ hf, hrs⟩
  · rw [map_append]
    refine nodup_append_comm.mp (nodup_cons.mpr ⟨fun hmem => ?_, h.one⟩)
    obtain ⟨f, hf, hid⟩ := mem_map.mp hmem
    exact hnew f hf hid

theorem work_orderly (h : Orderly w) (hst : WorkStep w w') : Orderly w' := by
  cases hst with
  | same => exact h
  | enqueue repo p hw =>
    rw [Work.enqueue] at hw
    split at hw
    · cases hw
      have henq := enqueued_of_ok h.sound ‹_›
      exact h.same_busy henq.sound (busy_enqueue henq)
    · cases hw
  | remove repo hw =>
    rw [Work.remove] at hw
    split at hw
    · cases hw
      have hrem := removed_of_ok h.sound ‹_›
      exact h.same_busy hrem.sound (busy_remove hrem)
    · cases hw
  | finish i hw => exact finish_orderly h hw
  | take c hw =>
    obtain ⟨_, ⟨⟩⟩ := Option.ite_none_right_eq_some.mp hw
    exact h.same_busy (h.sound.with_pending _) rfl
  | reset => exact reset_orderly h

theorem initial_orderly : Orderly initial.work :=
  ⟨initial_sound, fun _ hf => absurd hf not_mem_nil, fun _ hf => absurd hf not_mem_nil,
    fun _ _ ha => (by cases ha), nodup_nil⟩

theorem run_orderly (es : List Event)
    (h : ∀ pre k, pre ++ [.update k .acquire] <+: es → ∀ t t', run pre = some t →
      run (pre ++ [.update k .acquire]) = some t' → ¬ Stale t.work) :
    ∀ pre, pre <+: es → ∀ t, run pre = some t → Orderly t.work := by
  intro pre
  induction pre using reverseRecOn with
  | nil =>
    intro _ t ht
    cases ht
    exact initial_orderly
  | append_singleton pre e ih =>
    intro hpre t' ht'
    have hrun := ht'
    rw [run_concat] at hrun
    obtain ⟨t, ht, hst⟩ := Option.bind_eq_some_iff.mp hrun
    have hord := ih ((prefix_append pre [e]).trans hpre) t ht
    rcases step_work hst with hwo | ⟨k, rfl, hwo⟩
    · exact work_orderly hord hwo
    rw [hwo]
    exact acquire_orderly hord (h pre k hpre t t' ht ht')

theorem stale_not_exclusive (h : Stale w) : ¬ Exclusive w.acquire.2 := by
  obtain ⟨repo, hrp, f, hf, hid, _⟩ := h
  intro hexc
  have hone := hexc.one
  obtain ⟨q, heq⟩ : ∃ q, w.queue.acquireNext = (some repo, q) := ⟨_, Prod.ext hrp rfl⟩
  rw [Work.acquire, heq] at hone
  rw [map_append, nodup_append] at hone
  exact hone.2.2 f.repo.id (mem_map.mpr ⟨f, hf, rfl⟩) repo.id (mem_singleton_self _) hid

/-- No repository is updated twice at once exactly if none is handed out while an update of it
from before a reset is still running. -/
theorem exclusive_iff (events : List Event) :
    (∀ before, before <+: events → ∀ t, run before = some t → Exclusive t.work) ↔
    ∀ before k, before ++ [.update k .acquire] <+: events → ∀ t t', run before = some t →
      run (before ++ [.update k .acquire]) = some t' → ¬ Stale t.work := by
  constructor
  · intro h before k hpre t t' ht ht' hsta
    have hexc := h _ hpre t' ht'
    rw [run_concat, ht] at ht'
    have hmov : t.step (.update k .acquire) = some t' := ht'
    cases step_moves hmov with
    | update _ _ h =>
      cases h with
      | acquire => exact stale_not_exclusive hsta hexc
    | reschedule hev => exact absurd rfl (hev k .acquire)
  · intro h before hpre t ht
    exact (run_orderly events h before hpre t ht).exclusive

def overtaken : ConfiguredRepo := ⟨1, "overtaken"⟩

/-- A configuration change cancels the first loop during an update. It resets the queue, and the
second loop hands out the repository again. -/
def restarted : List Event :=
  [.configure true, .enqueue overtaken 0, .update 0 .select, .update 0 .receive, .update 0 .grant,
    .update 0 .acquire, .update 0 .grant, .update 0 .acquire, .update 0 .select, .configure false,
    .update 0 .done, .update 0 .reset, .enqueue overtaken 0, .update 1 .select, .update 1 .receive,
    .update 1 .grant, .update 1 .acquire]

/-- Two updates of the repository are in flight, and the end of the first would remove the entry of
the second. -/
theorem updated_twice : ∃ t, run restarted = some t ∧
    t.work.flights.map (fun f => f.repo.id) = [1, 1] ∧
    ∃ f ∈ t.work.flights, ∃ a, busy t.work.queue f.repo.id = some a ∧ a ≠ f.entry := by
  have hrun : (run restarted).map (fun t => (t.work.flights, busy t.work.queue 1)) =
      some ([⟨overtaken, 0, 0⟩, ⟨overtaken, 1, 1⟩], some 1) := by decide
  obtain ⟨t, ht, hend⟩ := Option.map_eq_some_iff.mp hrun
  obtain ⟨hfli, hbu⟩ := Prod.mk.inj hend
  refine ⟨t, ht, by rw [hfli]; rfl, ⟨overtaken, 0, 0⟩, ?_, 1, hbu, by decide⟩
  rw [hfli]
  exact mem_cons_self

end UpdateExclusion
