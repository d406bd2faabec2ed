import Mathlib

/-! # Workers that share a counter

Concurrent workers take the items of a list by incrementing a shared counter, work on them and send
what they find, in any interleaving. -/
namespace WorkQueue

open List

inductive Worker (α β : Type) where
  | ready
  | busy (item : α)
  | sending (out : Option β)
  | done

structure State (α β : Type) where
  next : ℕ
  workers : List (Worker α β)
  sent : List β

variable {α β γ : Type}

/-- One atomic action of a worker. -/
inductive Action (items : List α) (works : α → Option β → Prop) :
    ℕ → Worker α β → ℕ → Worker α β → List β → Prop
  | claim {next : ℕ} {item : α} (h : items[next]? = some item) :
    Action items works next .ready (next + 1) (.busy item) []
  | finish {next : ℕ} (h : items.length ≤ next) : Action items works next .ready (next + 1) .done []
  | work {next : ℕ} {item : α} {out : Option β} (h : works item out) :
    Action items works next (.busy item) next (.sending out) []
  | send {next : ℕ} {out : Option β} : Action items works next (.sending out) next .ready out.toList

inductive Step (items : List α) (works : α → Option β → Prop) : State α β → State α β → Prop
  | act {next next' : ℕ} {earlier later : List (Worker α β)} {w w' : Worker α β} {sent out : List β}
    (h : Action items works next w next' w' out) :
    Step items works ⟨next, earlier ++ w :: later, sent⟩
      ⟨next', earlier ++ w' :: later, sent ++ out⟩

inductive Execution (items : List α) (works : α → Option β → Prop) : State α β → State α β → Prop
  | nil (s : State α β) : Execution items works s s
  | snoc {s t u : State α β} : Execution items works s t → Step items works t u →
    Execution items works s u

def initial (n : ℕ) : State α β := ⟨0, List.replicate n .ready, []⟩

def State.Done (s : State α β) : Prop := ∀ w ∈ s.workers, w = .done

/-- What a worker will still send, as `observe` sees it, where `expected` is what it sees of an
item. -/
def Worker.pending (expected : α → List γ) (observe : β → γ) : Worker α β → List γ
  | .ready => []
  | .busy item => expected item
  | .sending out => out.toList.map observe
  | .done => []

structure Invariant (items : List α) (expected : α → List γ) (observe : β → γ) (s : State α β) :
    Prop where
  accounted : (s.sent.map observe ++ s.workers.flatMap (Worker.pending expected observe)).Perm
    ((items.take s.next).flatMap expected)
  exhausted : .done ∈ s.workers → items.length ≤ s.next

variable {observe : β → γ}

theorem initial_invariant (n : ℕ) : Invariant items expected observe (initial n : State α β) where
  accounted := by
    have : ∀ w ∈ replicate n (Worker.ready : Worker α β), w.pending expected observe = [] :=
      fun w hw => by rw [eq_of_mem_replicate hw]; rfl
    rw [initial, flatMap_eq_nil_iff.mpr this]
    exact Perm.refl []
  exhausted h := by cases eq_of_mem_replicate h

theorem Action.accounted {next next' : ℕ}
    (hwor : ∀ item out, wks item out → out.toList.map observe = ex item)
    (h : Action its wks next w next' w' out) :
    (its.take next').flatMap ex ++ w.pending ex observe =
      (its.take next).flatMap ex ++ (out.map observe ++ w'.pending ex observe) := by
  cases h with
  | claim h =>
    rw [take_add_one, h]
    simp [Worker.pending]
  | finish h =>
    rw [take_of_length_le h, take_of_length_le (by omega)]
    simp [Worker.pending]
  | work h => simp [Worker.pending, hwor _ _ h]
  | send => simp [Worker.pending]

variable {s t : State α β}

theorem step_invariant (hwor : ∀ item out, wks item out → out.toList.map observe = ex item)
    (hs : Invariant its ex observe s) (h : Step its wks s t) : Invariant its ex observe t := by
  obtain ⟨hact⟩ := h
  rename_i next next' ear lat w w' sent out
  constructor
  · have hbef := Multiset.coe_eq_coe.mpr hs.accounted
    have hit := congrArg (fun l : List γ => (l : Multiset γ)) (hact.accounted hwor)
    refine Multiset.coe_eq_coe.mp ?_
    simp only [flatMap_append, flatMap_cons, map_append, ← Multiset.coe_add] at hbef hit ⊢
    apply add_right_cancel (b := (w.pending ex observe : Multiset γ))
    rw [hit, ← hbef]
    abel
  · intro hdo
    have hle : next ≤ next' := by
      cases hact <;> omega
    rcases mem_append.mp hdo with hdo | hdo
    · exact Nat.le_trans (hs.exhausted (mem_append_left _ hdo)) hle
    rcases mem_cons.mp hdo with hw | hdo
    · cases hact with
      | finish h => exact Nat.le_succ_of_le h
      | _ => cases hw
    · exact Nat.le_trans (hs.exhausted (by simp [hdo])) hle

theorem execution_invariant
    (hwor : ∀ item out, works item out → out.toList.map observe = expected item)
    (h : Execution items works (initial n) s) : Invariant items expected observe s := by
  generalize hst : (initial n : State α β) = start at h
  induction h with
  | nil => exact hst ▸ initial_invariant n
  | snoc _ hste ih => exact step_invariant hwor ih hste

theorem step_workers (h : Step its wks s t) : t.workers.length = s.workers.length := by
  obtain ⟨hact⟩ := h
  simp

theorem execution_workers (h : Execution its wks s t) : t.workers.length = s.workers.length := by
  induction h with
  | nil => rfl
  | snoc _ hst ih => rw [step_workers hst, ih]

/-- When all workers are done, every item has been worked on exactly once. -/
theorem done_perm (hn : 0 < n) (hwor : ∀ item out, wks item out → out.toList.map observe = ex item)
    (h : Execution its wks (initial n) s) (hdo : s.Done) :
    (s.sent.map observe).Perm (its.flatMap ex) := by
  have hinv := execution_invariant hwor h
  have hlen : s.workers.length = n := by
    rw [execution_workers h]
    simp [initial]
  obtain ⟨w, hw⟩ := exists_mem_of_length_pos (show 0 < s.workers.length by omega)
  have hpen : s.workers.flatMap (Worker.pending ex observe) = [] :=
    flatMap_eq_nil_iff.mpr fun v hv => by rw [hdo v hv]; rfl
  have hacc := hinv.accounted
  rwa [hpen, append_nil, take_of_length_le (hinv.exhausted (hdo w hw ▸ hw))] at hacc

/-- How many actions a worker has left, not counting those on items it has not taken yet. -/
def Worker.remaining : Worker α β → ℕ
  | .ready => 1
  | .busy _ => 3
  | .sending _ => 2
  | .done => 0

def State.remaining (items : List α) (s : State α β) : ℕ :=
  3 * (items.length - s.next) + (s.workers.map Worker.remaining).sum

theorem step_remaining (h : Step its wks s t) : t.remaining its < s.remaining its := by
  obtain ⟨hact⟩ := h
  rename_i next next' ear lat w w' sent out
  have hact : 3 * (its.length - next') + w'.remaining < 3 * (its.length - next) + w.remaining := by
    cases hact with
    | claim h =>
      have := (List.getElem?_eq_some_iff.mp h).1
      simp only [Worker.remaining]
      omega
    | finish h =>
      simp only [Worker.remaining]
      omega
    | work h | send => simp [Worker.remaining]
  simp only [State.remaining, map_append, map_cons, sum_append, sum_cons]
  omega

theorem step_of_not_done (htot : ∀ item, ∃ out, wks item out) (h : ¬ s.Done) :
    ∃ t, Step its wks s t := by
  obtain ⟨next, wor, sent⟩ := s
  simp only [State.Done, not_forall] at h
  obtain ⟨w, hw, hne⟩ := h
  obtain ⟨ear, lat, rfl⟩ := append_of_mem hw
  cases w with
  | ready =>
    cases hit : its[next]? with
    | none => exact ⟨_, .act (.finish (getElem?_eq_none_iff.mp hit))⟩
    | some item => exact ⟨_, .act (.claim hit)⟩
  | busy item =>
    obtain ⟨out, hout⟩ := htot item
    exact ⟨_, .act (.work hout)⟩
  | sending out => exact ⟨_, .act .send⟩
  | done => exact absurd rfl hne

/-- Every execution can be continued until all workers are done. -/
theorem execution_completes (htot : ∀ item, ∃ out, wks item out) (h : Execution its wks s t) :
    ∃ u, Execution its wks s u ∧ u.Done := by
  generalize hn : t.remaining its = n
  induction n using Nat.strongRecOn generalizing t with
  | ind n ih =>
    by_cases hdo : t.Done
    · exact ⟨t, h, hdo⟩
    obtain ⟨u, hst⟩ := step_of_not_done htot hdo
    exact ih _ (hn ▸ step_remaining hst) (h.snoc hst) rfl

end WorkQueue
