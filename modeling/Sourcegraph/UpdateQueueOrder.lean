import Sourcegraph.UpdateQueue

/-! # What the update queue hands out

Each call is described by what it does to the contents of the queue, apart from the heap. -/
namespace UpdateQueueOrder

open UpdateQueue List
open Function (update update_of_ne update_self)

def ring (wires : ℕ × ℕ × (ℕ → Bool)) : ℕ × ℕ × (ℕ → Bool) :=
  (wires.1, wires.2.1, update wires.2.2 wires.1 true)

theorem holds_notify (h : Holds q c index seq w) : Holds q.notify c index seq (ring w) where
  sound := h.sound.with_pending _
  contents := h.contents
  index := h.index
  seq := h.seq
  wires := by
    rw [← h.wires]
    rfl

theorem holds_self (h : Sound q) : Holds q q.contents q.index q.seq q.wires :=
  ⟨h, rfl, rfl, rfl, rfl⟩

theorem empty_sound (hhp : q.heap = []) (hix : q.index = fun _ => none) : Sound q := by
  have hlen : q.len = 0 := by rw [Queue.len, hhp, length_nil]
  have hmem : ∀ a, a ∉ q.heap := fun a => by
    rw [hhp]
    exact not_mem_nil
  refine ⟨⟨by rw [hhp]; exact nodup_nil, fun a ha => absurd ha (hmem a), fun k hk => ?_,
    fun id a => ⟨fun h => ?_, fun h => absurd h.1 (hmem a)⟩⟩, fun k _ hk => ?_⟩
  · omega
  · rw [hix] at h
    exact absurd h (Option.some_ne_none a).symm
  · omega

theorem initial_sound : Sound initial := empty_sound rfl rfl

theorem reset_sound (q : Queue) : Sound q.reset := empty_sound rfl rfl

def moves (old : Option RepoUpdate) (p : ℤ) : Bool :=
  match old with
  | none => true
  | some u => !u.updating && decide (u.priority < p)

def merged (old : Option RepoUpdate) (repo : ConfiguredRepo) (p : ℤ) (seq : ℕ) : RepoUpdate :=
  match old with
  | none => ⟨repo, p, nextSeq seq, false, 0⟩
  | some u =>
    if u.updating then u
    else if p ≤ u.priority then { u with repo := repo }
    else raise p (nextSeq seq) { u with repo := repo }

theorem update_same {id : ℤ} (h : c id = x) : update c id x = c := by
  rw [← h, Function.update_eq_self]

def Enqueued (q : Queue) (repo : ConfiguredRepo) (p : ℤ) (q' : Queue) : Prop :=
  Holds q' (update q.contents repo.id (some (merged (q.contents repo.id) repo p q.seq)))
    (if q.contents repo.id = none then update q.index repo.id (some q.allocated)
      else q.index)
    (if moves (q.contents repo.id) p then nextSeq q.seq else q.seq)
    (if moves (q.contents repo.id) p then ring q.wires else q.wires)

theorem enqueue_spec (h : Sound q) (hid : repo.id ≠ 0) (p : ℤ) :
    ∃ upd q', q.enqueue repo p = .ok (upd, q') ∧ Enqueued q repo p q' := by
  rw [Queue.enqueue, if_neg hid]
  unfold Enqueued
  cases hold : q.contents repo.id with
  | none =>
    have habs := contents_eq_none.mp hold
    rw [habs]
    exact ⟨_, _, rfl, holds_notify (heapPush_holds ⟨repo, p, 0, false, 0⟩ h habs)⟩
  | some u =>
    obtain ⟨a, hix, ha, hu⟩ := contents_index h.toCoherent hold
    have hrp : (q.objects a).repo.id = repo.id := ((h.indexed _ a).mp hix).2
    have hupd : (q.objects a).updating = u.updating := by rw [← hu, setIndex]
    have hpr : (q.objects a).priority = u.priority := by rw [← hu, setIndex]
    have hset := modify_holds (f := fun u => { u with repo := repo }) ha rfl hrp.symm h rfl
    rw [hrp] at hset
    rw [hix]
    simp only [merged, modify_self, hupd, hpr]
    by_cases hbu : u.updating = true
    · have hsty : moves (some u) p = false := by simp [moves, hbu]
      rw [if_pos hbu, if_pos hbu, hsty, update_same hold]
      exact ⟨_, _, rfl, holds_self h⟩
    rw [if_neg hbu, if_neg hbu]
    by_cases hp : p ≤ u.priority
    · have hsty : moves (some u) p = false := by simp [moves, hp]
      rw [if_pos hp, if_pos hp, hsty]
      refine ⟨_, _, rfl, ?_⟩
      rw [← hu]
      exact hset
    have hmov : moves (some u) p = true := by simp [moves, hbu, not_le.mp hp]
    rw [if_neg hp, if_neg hp, hmov]
    refine ⟨_, _, rfl, ?_⟩
    have hmem : a ∈ (q.modify a fun u => { u with repo := repo }).heap := ha
    have hfix := heapFix_holds (f := raise p (nextSeq q.seq)) hmem rfl rfl (nextSeq q.seq)
      hset.sound
    rw [modify_self, modify_self, hset.contents, Function.update_idem] at hfix
    rw [← hu]
    exact holds_notify hfix

theorem enqueued_of_ok (h : Sound q) (hrun : q.enqueue repo p = .ok (upd, q')) :
    Enqueued q repo p q' := by
  by_cases hid : repo.id = 0
  · rw [Queue.enqueue, if_pos hid] at hrun
    cases hrun
  obtain ⟨_, _, heq, hh⟩ := enqueue_spec h hid p
  rw [heq] at hrun
  cases hrun
  exact hh

def Removed (q : Queue) (repo : ConfiguredRepo) (updating : Bool) (q' : Queue) : Prop :=
  Holds q' (update q.contents repo.id
      ((q.contents repo.id).filter fun u => u.updating != updating))
    (if (q.contents repo.id).any (fun u => u.updating == updating)
      then update q.index repo.id none else q.index) q.seq q.wires

theorem remove_spec (h : Sound q) (hid : repo.id ≠ 0) (upd : Bool) :
    ∃ rem q', q.remove repo upd = .ok (rem, q') ∧ Removed q repo upd q' := by
  rw [Queue.remove, if_neg hid]
  unfold Removed
  cases hold : q.contents repo.id with
  | none =>
    rw [contents_eq_none.mp hold]
    rw [Option.filter_none, update_same hold]
    exact ⟨_, _, rfl, holds_self h⟩
  | some u =>
    obtain ⟨a, hix, ha, hu⟩ := contents_index h.toCoherent hold
    have hrp : (q.objects a).repo.id = repo.id := ((h.indexed _ a).mp hix).2
    have hupd : (q.objects a).updating = u.updating := by rw [← hu, setIndex]
    rw [hix, Option.filter_some]
    simp only [hupd]
    by_cases hfl : u.updating = upd
    · rw [if_pos hfl, if_neg (by simp [hfl]), if_pos (by simp [hfl]), ← hrp]
      exact ⟨_, _, rfl, heapRemove_holds h ha⟩
    rw [if_neg hfl, if_pos (by simp [hfl]), if_neg (by simp [hfl]), update_same hold]
    exact ⟨_, _, rfl, holds_self h⟩

theorem removed_of_ok (h : Sound q) (hrun : q.remove repo upd = .ok (rem, q')) :
    Removed q repo upd q' := by
  by_cases hid : repo.id = 0
  · rw [Queue.remove, if_pos hid] at hrun
    cases hrun
  obtain ⟨_, _, heq, hh⟩ := remove_spec h hid upd
  rw [heq] at hrun
  cases hrun
  exact hh

theorem head_key_le (h : Sound q) (hhp : q.heap = a :: rest) (hb : b ∈ q.heap) :
    (q.objects a).key ≤ (q.objects b).key := by
  obtain ⟨k, hk, hkb, _⟩ := exists_position h.toCoherent hb
  have hle := h.sorted.head_le hk
  have hhd : q.heap.getD 0 0 = a := by rw [hhp, getD_cons_zero]
  rw [← hkb, ← hhd]
  exact hle

theorem acquireNext_spec (h : Sound q) :
    (q.acquireNext = (none, q) ∧ ∀ id u, q.contents id = some u → u.updating = true) ∨
    ∃ u q', q.contents u.repo.id = some u ∧ u.updating = false ∧
      (∀ id v, q.contents id = some v → u.key ≤ v.key) ∧ q.acquireNext = (some u.repo, q') ∧
      q.index u.repo.id = some (q.heap.headD 0) ∧
      Holds q' (update q.contents u.repo.id (some { u with updating := true })) q.index
        q.seq q.wires := by
  rw [Queue.acquireNext]
  cases hhp : q.heap with
  | nil =>
    refine .inl ⟨rfl, fun id u hu => ?_⟩
    obtain ⟨a, ha, _⟩ := (contents_eq_some h.toCoherent).mp hu
    rw [hhp] at ha
    exact absurd ha not_mem_nil
  | cons a rest =>
    have ha : a ∈ q.heap := by
      rw [hhp]
      exact mem_cons_self
    have hlea : ∀ id v, q.contents id = some v → (q.objects a).key ≤ v.key := by
      intro id v hv
      obtain ⟨b, hb, _, rfl⟩ := (contents_eq_some h.toCoherent).mp hv
      exact head_key_le h hhp hb
    simp only
    by_cases hupd : (q.objects a).updating = true
    · rw [if_pos hupd]
      refine .inl ⟨rfl, fun id v hv => ?_⟩
      have hle := hlea id v hv
      by_contra hff
      refine absurd ((key_lt_iff v (q.objects a)).mpr (.inl ?_)) (not_lt.mpr hle)
      rw [Bool.eq_false_iff.mpr hff, hupd]
      exact Bool.false_lt_true
    · rw [if_neg hupd]
      have hfix := heapFix_holds (f := fun u => { u with updating := true }) ha rfl rfl q.seq h
      refine .inr ⟨setIndex 0 (q.objects a), _,
        (contents_eq_some h.toCoherent).mpr ⟨a, ha, rfl, rfl⟩, Bool.eq_false_iff.mpr hupd,
        hlea, Prod.ext ?_ rfl, ?_, hfix⟩
      · obtain ⟨i, hi, _, hps⟩ := exists_position h.toCoherent ha
        have hre := (rearranged_sift (q.modify a fun u => { u with updating := true }) hi
          (le_refl q.len)).1
        have hsto := repo_congr (hre.stored a)
        rw [modify_self] at hsto ⊢
        simp only [Queue.heapFix, hps, Int.toNat_natCast]
        exact congrArg some hsto
      · exact (h.indexed _ a).mpr ⟨ha, rfl⟩

inductive Op where
  | enqueue (repo : ConfiguredRepo) (p : ℤ)
  | remove (repo : ConfiguredRepo) (updating : Bool)
  | acquireNext
  | reset
  deriving DecidableEq

/-- A call that panics does so before it changes the queue. -/
def step (q : Queue) : Op → Queue
  | .enqueue repo p =>
    match q.enqueue repo p with
    | .ok (_, q') => q'
    | .error _ => q
  | .remove repo updating =>
    match q.remove repo updating with
    | .ok (_, q') => q'
    | .error _ => q
  | .acquireNext => q.acquireNext.2
  | .reset => q.reset

def pushedOrRaised (before after : Option RepoUpdate) : Bool :=
  match before, after with
  | none, some _ => true
  | some u, some u' => decide (u.priority < u'.priority)
  | _, none => false

structure Timed where
  queue : Queue
  since : ℤ → ℕ
  time : ℕ

def record (s : Timed) (q : Queue) : Timed :=
  { queue := q
    since := fun id =>
      if pushedOrRaised (s.queue.contents id) (q.contents id) then s.time else s.since id
    time := s.time + 1 }

def timed (ops : List Op) : Timed :=
  ops.foldl (fun s op => record s (step s.queue op)) ⟨initial, fun _ => 0, 0⟩

def enqueuesSinceReset (ops : List Op) : ℕ :=
  ops.foldl (fun n op => match op with
    | .reset => 0
    | .enqueue _ _ => n + 1
    | _ => n) 0

theorem timed_concat (op : Op) :
    timed (ops ++ [op]) = record (timed ops) (step (timed ops).queue op) := by
  rw [timed, foldl_append]
  rfl

theorem enqueuesSinceReset_concat (op : Op) :
    enqueuesSinceReset (ops ++ [op]) = match op with
      | .reset => 0
      | .enqueue _ _ => enqueuesSinceReset ops + 1
      | _ => enqueuesSinceReset ops := by
  rw [enqueuesSinceReset, foldl_append]
  rfl

inductive Changes (q q' : Queue) : Op → Prop where
  | kept {op : Op} (hop : op ≠ .reset) (seq : q'.seq = q.seq)
      (entries : ∀ i u', q'.contents i = some u' →
        ∃ u, q.contents i = some u ∧ u'.seq = u.seq ∧ u'.priority = u.priority) : Changes q q' op
  | moved {repo : ConfiguredRepo} {p : ℤ} (u' : RepoUpdate) (seq : q'.seq = nextSeq q.seq)
      (contents : q'.contents = update q.contents repo.id (some u'))
      (fresh : u'.seq = nextSeq q.seq)
      (raised : pushedOrRaised (q.contents repo.id) (some u') = true) :
      Changes q q' (.enqueue repo p)
  | cleared (seq : q'.seq = 0) (contents : q'.contents = fun _ => none) : Changes q q' .reset

theorem merged_stays (h : moves old p = false) (repo : ConfiguredRepo) (seq : ℕ) :
    ∃ u, old = some u ∧ (merged old repo p seq).seq = u.seq ∧
      (merged old repo p seq).priority = u.priority := by
  fun_cases merged old repo p seq with
  | case1 => nomatch h
  | case2 u | case3 u => exact ⟨u, rfl, rfl, rfl⟩
  | case4 u hfr hgt => simp [moves, hfr, not_le.mp hgt] at h

theorem merged_moves (h : moves old p = true) (seq : ℕ) :
    (merged old repo p seq).seq = nextSeq seq ∧
      pushedOrRaised old (some (merged old repo p seq)) = true := by
  fun_cases merged old repo p seq with
  | case1 => exact ⟨rfl, rfl⟩
  | case2 u hbu => simp [moves, hbu] at h
  | case3 u _ hle => simp [moves, not_lt.mpr hle] at h
  | case4 u _ hgt => exact ⟨rfl, decide_eq_true (not_le.mp hgt)⟩

theorem changes_update (hop : op ≠ .reset) {id : ℤ}
    (h : Holds q' (update q.contents id x) ix seq w) (hseq : seq = q.seq)
    (hx : ∀ u', x = some u' →
      ∃ u, q.contents id = some u ∧ u'.seq = u.seq ∧ u'.priority = u.priority) :
    Changes q q' op := by
  refine .kept hop (h.seq.trans hseq) fun i u' hu' => ?_
  rw [h.contents] at hu'
  by_cases hi : i = id
  · rw [hi, update_self] at hu'
    rw [hi]
    exact hx u' hu'
  rw [update_of_ne hi] at hu'
  exact ⟨u', hu', rfl, rfl⟩

theorem changes_enqueue (h : Enqueued q repo p q') : Changes q q' (.enqueue repo p) := by
  cases hmov : moves (q.contents repo.id) p with
  | true =>
    have hseq := h.seq
    rw [hmov] at hseq
    obtain ⟨hfr, hrai⟩ := merged_moves hmov q.seq
    exact .moved _ hseq h.contents hfr hrai
  | false =>
    obtain ⟨u, hu, hsm⟩ := merged_stays hmov repo q.seq
    refine changes_update Op.noConfusion h (by simp [hmov]) fun u' hu' => ?_
    rw [← Option.some.inj hu']
    exact ⟨u, hu, hsm⟩

theorem changes_self (h : op ≠ .reset) : Changes q q op :=
  .kept h rfl fun _ u hu => ⟨u, hu, rfl, rfl⟩

theorem step_spec (h : Sound q) (op : Op) : Sound (step q op) ∧ Changes q (step q op) op := by
  cases op with
  | enqueue repo p =>
    cases heq : q.enqueue repo p with
    | error _ =>
      simp only [step, heq]
      exact ⟨h, changes_self Op.noConfusion⟩
    | ok _ =>
      have hh := enqueued_of_ok h heq
      simp only [step, heq]
      exact ⟨hh.sound, changes_enqueue hh⟩
  | remove repo upd =>
    cases heq : q.remove repo upd with
    | error _ =>
      simp only [step, heq]
      exact ⟨h, changes_self Op.noConfusion⟩
    | ok _ =>
      have hh := removed_of_ok h heq
      simp only [step, heq]
      refine ⟨hh.sound, changes_update Op.noConfusion hh rfl fun u' hu' => ?_⟩
      exact ⟨u', (Option.filter_eq_some_iff.mp hu').1, rfl, rfl⟩
  | acquireNext =>
    rcases acquireNext_spec h with ⟨heq, _⟩ | ⟨u, q', hu, _, _, heq, _, hh⟩
    · simp only [step, heq]
      exact ⟨h, changes_self Op.noConfusion⟩
    simp only [step, heq]
    refine ⟨hh.sound, changes_update Op.noConfusion hh rfl fun u' hu' => ?_⟩
    rw [← Option.some.inj hu']
    exact ⟨u, hu, rfl, rfl⟩
  | reset => exact ⟨reset_sound q, .cleared rfl rfl⟩

theorem timed_sound (ops : List Op) : Sound (timed ops).queue := by
  induction ops using reverseRecOn with
  | nil => exact initial_sound
  | append_singleton ops op ih =>
    rw [timed_concat]
    exact (step_spec ih op).1

structure Timely (s : Timed) : Prop where
  distinct : ∀ i j u v, s.queue.contents i = some u → s.queue.contents j = some v →
    u.seq = v.seq → i = j
  later : ∀ i j u v, s.queue.contents i = some u → s.queue.contents j = some v →
    u.seq < v.seq → s.since i < s.since j
  drawn : ∀ i u, s.queue.contents i = some u → u.seq ≤ s.queue.seq
  past : ∀ i u, s.queue.contents i = some u → s.since i < s.time

theorem timely_kept (h : Timely s) (hseq : q.seq = s.queue.seq)
    (hkp : ∀ i u', q.contents i = some u' →
      ∃ u, s.queue.contents i = some u ∧ u'.seq = u.seq ∧ u'.priority = u.priority) :
    Timely (record s q) := by
  have hsin : ∀ i u', q.contents i = some u' → (record s q).since i = s.since i := by
    intro i u' hu'
    obtain ⟨u, hu, _, hpr⟩ := hkp i u' hu'
    simp [record, hu, hu', pushedOrRaised, hpr]
  constructor
  · intro i j u v hu hv heq
    obtain ⟨u₀, hu₀, hus, _⟩ := hkp i u hu
    obtain ⟨v₀, hv₀, hvs, _⟩ := hkp j v hv
    exact h.distinct i j u₀ v₀ hu₀ hv₀ (by rw [← hus, ← hvs, heq])
  · intro i j u v hu hv hlt
    obtain ⟨u₀, hu₀, hus, _⟩ := hkp i u hu
    obtain ⟨v₀, hv₀, hvs, _⟩ := hkp j v hv
    rw [hsin i u hu, hsin j v hv]
    exact h.later i j u₀ v₀ hu₀ hv₀ (by rwa [← hus, ← hvs])
  · intro i u hu
    obtain ⟨u₀, hu₀, hus, _⟩ := hkp i u hu
    rw [hus]
    exact le_trans (h.drawn i u₀ hu₀) (le_of_eq hseq.symm)
  · intro i u hu
    obtain ⟨u₀, hu₀, _⟩ := hkp i u hu
    rw [hsin i u hu]
    exact Nat.lt_succ_of_lt (h.past i u₀ hu₀)

theorem timely_moved (h : Timely s) {id : ℤ} (hbd : s.queue.seq + 1 < 2 ^ 64)
    (hseq : q.seq = nextSeq s.queue.seq) (hcs : q.contents = update s.queue.contents id (some u'))
    (hfr : u'.seq = nextSeq s.queue.seq)
    (hrai : pushedOrRaised (s.queue.contents id) (some u') = true) : Timely (record s q) := by
  rw [nextSeq, Nat.mod_eq_of_lt hbd] at hseq hfr
  -- An entry is the new one or an older one, which keeps its time.
  have hcas : ∀ i u, q.contents i = some u →
      i = id ∧ u = u' ∧ (record s q).since i = s.time ∨
        s.queue.contents i = some u ∧ (record s q).since i = s.since i ∧ u.seq < u'.seq := by
    intro i u hu
    by_cases hi : i = id
    · subst hi
      have hnew : q.contents i = some u' := by rw [hcs, update_self]
      refine .inl ⟨rfl, Option.some.inj (hu.symm.trans hnew), ?_⟩
      simp [record, hnew, hrai]
    have hold : s.queue.contents i = some u := by
      rwa [hcs, update_of_ne hi] at hu
    refine .inr ⟨hold, ?_, hfr ▸ Nat.lt_succ_of_le (h.drawn i u hold)⟩
    simp [record, hold, hu, pushedOrRaised]
  constructor
  · intro i j u v hu hv heq
    rcases hcas i u hu with ⟨rfl, rfl, -⟩ | ⟨hu, -, hlt⟩
    · rcases hcas j v hv with ⟨rfl, -, -⟩ | ⟨-, -, hlt⟩
      · rfl
      · omega
    rcases hcas j v hv with ⟨-, rfl, -⟩ | ⟨hv, -, -⟩
    · omega
    · exact h.distinct i j u v hu hv heq
  · intro i j u v hu hv hse
    rcases hcas i u hu with ⟨-, rfl, -⟩ | ⟨hu, hsin, -⟩
    · rcases hcas j v hv with ⟨-, rfl, -⟩ | ⟨-, -, hlt⟩ <;> omega
    rw [hsin]
    rcases hcas j v hv with ⟨-, -, hnow⟩ | ⟨hv, hsin', -⟩
    · rw [hnow]
      exact h.past i u hu
    rw [hsin']
    exact h.later i j u v hu hv hse
  · intro i u hu
    show u.seq ≤ q.seq
    rcases hcas i u hu with ⟨-, rfl, -⟩ | ⟨-, -, hlt⟩ <;> omega
  · intro i u hu
    show _ < s.time + 1
    rcases hcas i u hu with ⟨-, -, hnow⟩ | ⟨hu, hsin, -⟩
    · omega
    rw [hsin]
    exact Nat.lt_succ_of_lt (h.past i u hu)

theorem timely_empty (h : s.queue.contents = fun _ => none) : Timely s := by
  have hno : ∀ i u, s.queue.contents i ≠ some u := by
    intro i u hu
    rw [h] at hu
    exact absurd hu (Option.some_ne_none u).symm
  exact ⟨fun i _ u _ hu => absurd hu (hno i u), fun i _ u _ hu => absurd hu (hno i u),
    fun i u hu => absurd hu (hno i u), fun i u hu => absurd hu (hno i u)⟩

theorem enqueues_le_concat (ops : List Op) (h : op ≠ .reset) :
    enqueuesSinceReset ops ≤ enqueuesSinceReset (ops ++ [op]) := by
  rw [enqueuesSinceReset_concat]
  cases op with
  | enqueue repo p => exact Nat.le_succ _
  | remove repo upd | acquireNext => exact le_refl _
  | reset => exact absurd rfl h

theorem seq_le_enqueues (ops : List Op) : (timed ops).queue.seq ≤ enqueuesSinceReset ops := by
  induction ops using reverseRecOn with
  | nil => exact le_refl 0
  | append_singleton ops op ih =>
    rw [timed_concat]
    show (step (timed ops).queue op).seq ≤ _
    cases (step_spec (timed_sound ops) op).2 with
    | kept hop hseq => exact hseq ▸ le_trans ih (enqueues_le_concat ops hop)
    | moved _ hseq =>
      rw [hseq, enqueuesSinceReset_concat]
      exact le_trans (Nat.mod_le _ _) (Nat.succ_le_succ ih)
    | cleared hseq => exact hseq ▸ Nat.zero_le _

theorem timely (ops : List Op) (h : enqueuesSinceReset ops < 2 ^ 64) : Timely (timed ops) := by
  induction ops using reverseRecOn with
  | nil => exact timely_empty rfl
  | append_singleton ops op ih =>
    rw [timed_concat]
    cases (step_spec (timed_sound ops) op).2 with
    | kept hop hseq hkp =>
      exact timely_kept (ih (lt_of_le_of_lt (enqueues_le_concat ops hop) h)) hseq hkp
    | moved u' hseq hcs hfr hrai =>
      have hse := seq_le_enqueues ops
      rw [enqueuesSinceReset_concat] at h
      have hbd : enqueuesSinceReset ops + 1 < 2 ^ 64 := h
      exact timely_moved (ih (by omega)) (by omega) hseq hcs hfr hrai
    | cleared _ hcs => exact timely_empty hcs

structure Arranged (q : Queue) : Prop where
  indexed : ∀ id a, q.index id = some a ↔ a ∈ q.heap ∧ (q.objects a).repo.id = id
  nodup : q.heap.Nodup
  one : ∀ a ∈ q.heap, ∀ b ∈ q.heap, (q.objects a).repo.id = (q.objects b).repo.id → a = b
  position : ∀ i, i < q.heap.length → (q.objects (q.heap.getD i 0)).index = i

/-- Among the entries of one priority the earliest is served first if `unwrapped`. -/
structure Serves (unwrapped : Prop) (s : Timed) : Prop where
  exhausted : s.queue.acquireNext.1 = none → ∀ a ∈ s.queue.heap, (s.queue.objects a).updating = true
  next : ∀ repo, s.queue.acquireNext.1 = some repo → ∃ a ∈ s.queue.heap,
    (s.queue.objects a).repo = repo ∧ (s.queue.objects a).updating = false ∧
    ∀ b ∈ s.queue.heap, (s.queue.objects b).updating = false →
      (s.queue.objects b).priority ≤ (s.queue.objects a).priority ∧
        (unwrapped → (s.queue.objects b).priority = (s.queue.objects a).priority →
          s.since (s.queue.objects a).repo.id ≤ s.since (s.queue.objects b).repo.id)

def Distinct (q : Queue) : Prop :=
  ∀ a ∈ q.heap, ∀ b ∈ q.heap, (q.objects a).seq = (q.objects b).seq → a = b

theorem arranged (h : Coherent q) : Arranged q where
  indexed := h.indexed
  nodup := h.nodup
  one a ha b hb heq := by
    have hix := (h.indexed _ b).mpr ⟨hb, rfl⟩
    rw [← heq, (h.indexed _ a).mpr ⟨ha, rfl⟩] at hix
    exact Option.some.inj hix
  position := h.positioned

theorem contents_of_mem (h : Coherent q) (ha : a ∈ q.heap) :
    q.contents (q.objects a).repo.id = some (setIndex 0 (q.objects a)) :=
  (contents_eq_some h).mpr ⟨a, ha, rfl, rfl⟩

theorem Timely.distinct_heap (h : Timely s) (hq : Coherent s.queue) : Distinct s.queue := by
  intro a ha b hb heq
  exact (arranged hq).one a ha b hb
    (h.distinct _ _ _ _ (contents_of_mem hq ha) (contents_of_mem hq hb) heq)

theorem serves (hq : Sound s.queue) (h : unwrapped → Timely s) : Serves unwrapped s := by
  have hmem := fun {a} => contents_of_mem hq.toCoherent (a := a)
  rcases acquireNext_spec hq with ⟨heq, hall⟩ | ⟨u, q', hu, hfr, hlea, heq, _⟩
  · constructor
    · intro _ a ha
      exact hall _ (setIndex 0 _) (hmem ha)
    · intro repo hrp
      rw [heq] at hrp
      exact absurd hrp (Option.some_ne_none _).symm
  constructor
  · intro hno
    rw [heq] at hno
    exact absurd hno (Option.some_ne_none _)
  · intro repo hrp
    rw [heq] at hrp
    obtain ⟨a, ha, hid, rfl⟩ := (contents_eq_some hq.toCoherent).mp hu
    refine ⟨a, ha, Option.some.inj hrp, hfr, fun b hb hbfr => ?_⟩
    have hle := hlea _ _ (hmem hb)
    have hnot := mt (key_lt_iff (s.queue.objects b) (s.queue.objects a)).mpr (not_lt.mpr hle)
    have hsm : (s.queue.objects b).updating = (s.queue.objects a).updating :=
      hbfr.trans hfr.symm
    refine ⟨not_lt.mp fun hgt => hnot (.inr ⟨hsm, .inl hgt⟩), fun hun hpr => ?_⟩
    have hseq : (s.queue.objects a).seq ≤ (s.queue.objects b).seq :=
      not_lt.mp fun hlt => hnot (.inr ⟨hsm, .inr ⟨hpr, hlt⟩⟩)
    rcases lt_or_eq_of_le hseq with hlt | hseq
    · exact le_of_lt ((h hun).later _ _ _ _ (hmem ha) (hmem hb) hlt)
    · rw [(h hun).distinct_heap hq.toCoherent a ha b hb hseq]

/-- With fewer than 2^64 enqueues since the last reset no sequence number is drawn twice. -/
theorem queue_correct (ops : List Op) : Arranged (timed ops).queue ∧
    Serves (enqueuesSinceReset ops < 2 ^ 64) (timed ops) ∧
    (enqueuesSinceReset ops < 2 ^ 64 → Distinct (timed ops).queue) := by
  have hsnd := timed_sound ops
  exact ⟨arranged hsnd.toCoherent, serves hsnd (timely ops),
    fun h => (timely ops h).distinct_heap hsnd.toCoherent⟩

def waiting : ConfiguredRepo := ⟨1, "waiting"⟩

def passing : ConfiguredRepo := ⟨2, "passing"⟩

def rounds (n : ℕ) : List Op :=
  .enqueue waiting 0 :: (List.replicate n [.enqueue passing 0, .remove passing false]).flatten

theorem rounds_succ :
    rounds (n + 1) = rounds n ++ [.enqueue passing 0] ++ [.remove passing false] := by
  rw [rounds, replicate_succ', flatten_append, append_assoc]
  rfl

structure Waited (q : Queue) (n : ℕ) : Prop where
  sound : Sound q
  first : ∃ u, q.contents waiting.id = some u ∧ u.seq = 1
  gone : q.contents passing.id = none
  seq : q.seq = (n + 1) % 2 ^ 64

theorem enqueue_passing (h : Waited q n) :
    Sound (step q (.enqueue passing 0)) ∧ (step q (.enqueue passing 0)).seq = (n + 2) % 2 ^ 64 ∧
      (step q (.enqueue passing 0)).contents = update q.contents passing.id
        (some ⟨passing, 0, (n + 2) % 2 ^ 64, false, 0⟩) := by
  obtain ⟨upd, q', heq, hh⟩ := enqueue_spec h.sound (show passing.id ≠ 0 by decide) 0
  have hseq : nextSeq q.seq = (n + 2) % 2 ^ 64 := by
    rw [h.seq, nextSeq, Nat.mod_add_mod]
  simp only [Enqueued, h.gone, moves, merged, if_true, hseq] at hh
  simp only [step, heq]
  exact ⟨hh.sound, hh.seq, hh.contents⟩

theorem waited_rounds (n : ℕ) : Waited (timed (rounds n)).queue n := by
  induction n with
  | zero =>
    obtain ⟨upd, q', heq, hh⟩ :=
      enqueue_spec initial_sound (show waiting.id ≠ 0 by decide) 0
    have hque : (timed (rounds 0)).queue = q' := by
      show step initial (.enqueue waiting 0) = q'
      simp [step, heq]
    rw [hque]
    refine ⟨hh.sound, ⟨_, by rw [hh.contents, update_self], by decide⟩, ?_, hh.seq⟩
    rw [hh.contents]
    rfl
  | succ n ih =>
    obtain ⟨hsnd, hseq, hcs⟩ := enqueue_passing ih
    obtain ⟨rem, q', heq, hh⟩ := remove_spec hsnd (show passing.id ≠ 0 by decide) false
    have hque : (timed (rounds (n + 1))).queue = q' := by
      rw [rounds_succ, timed_concat, timed_concat]
      show step (step (timed (rounds n)).queue (.enqueue passing 0)) (.remove passing false) = q'
      simp only [step] at heq ⊢
      rw [heq]
    rw [hque]
    obtain ⟨u, hu, hus⟩ := ih.first
    refine ⟨hh.sound, ⟨u, ?_, hus⟩, ?_, hh.seq.trans hseq⟩
    · rw [hh.contents, update_of_ne (by decide), hcs, update_of_ne (by decide), hu]
    · rw [hh.contents, hcs]
      rfl

theorem drawn_again (hwra : (n + 2) % 2 ^ 64 = 1) :
    ¬ Distinct (timed (rounds n ++ [.enqueue passing 0])).queue := by
  intro hdis
  have hwai := waited_rounds n
  obtain ⟨hsou, _, hcs⟩ := enqueue_passing hwai
  obtain ⟨u, hu, hus⟩ := hwai.first
  rw [timed_concat] at hdis
  have hf : (step (timed (rounds n)).queue (.enqueue passing 0)).contents waiting.id =
      some u := by rw [hcs, update_of_ne (by decide), hu]
  have hsnd := congrFun hcs passing.id
  obtain ⟨a, ha, haid, hau⟩ := (contents_eq_some hsou.toCoherent).mp hf
  obtain ⟨b, hb, hbid, hbu⟩ := (contents_eq_some hsou.toCoherent).mp hsnd
  have has := congrArg RepoUpdate.seq hau
  have hbs := congrArg RepoUpdate.seq hbu
  have hab : a = b := hdis a ha b hb (has.trans (hus.trans (hbs.trans hwra).symm))
  rw [hab, hbid] at haid
  exact absurd haid (by decide)

/-- The counter wraps around after 2^64 draws, and a number still in the queue is drawn again. -/
theorem repeated_sequence_number :
    ¬ Distinct (timed (rounds (2 ^ 64 - 1) ++ [.enqueue passing 0])).queue :=
  drawn_again (by decide)

end UpdateQueueOrder
