import Sourcegraph.GoStrings

/-! # The disk cache

The calls for one key use the file at its path, the temporary file beside it and the mutex of the
path. SHA-256 is taken to keep the paths of different keys apart. -/
namespace DiskCache

open List Function
open GoStrings (Bytes)

structure File where
  content : Bytes
  synced : Bool
  deriving DecidableEq

/-- How far `OpenWithPath` has come; `doFetch` is from `locked` to `unlocking`. `fetching` has what
the writes of the fetcher make of an empty file. No step writes to a file that is not at the
temporary path, so an open file is what was at the path. -/
inductive Phase where
  | start
  | waiting
  | locked
  | missing
  | removed
  | fetching (written : Bytes)
  | fetched
  | synced
  | renamed
  | placed
  | cleaning (f : Option File)
  | unlocking (f : Option File)
  | returned (f : Option File)
  deriving DecidableEq

def Phase.locks : Phase → Bool
  | .start | .waiting | .returned _ => false
  | _ => true

structure Entry where
  path : Option File := none
  tmpPath : Option File := none
  calls : List Phase := []
  /-- What the fetchers that succeeded have written. -/
  outputs : List Bytes := []

/-- The next step of a call, which may fail. A call without its directory stays at `start`, and a
caller that gave up does not read the result. -/
def act (e : Entry) (ok : Bool) : Phase → Entry × Phase
  | .start => (e, if ok ∧ e.path.isSome then .returned e.path else .waiting)
  | .waiting => (e, if ok then .locked else .unlocking none)
  | .locked => (e, if ok ∧ e.path.isSome then .unlocking e.path else .missing)
  | .missing => (if ok then { e with path := none } else e, .removed)
  | .removed =>
    if ok then ({ e with tmpPath := some ⟨[], false⟩ }, .fetching []) else (e, .unlocking none)
  | .fetching w =>
    if ok then ({ e with outputs := w :: e.outputs }, .fetched) else (e, .cleaning none)
  | .fetched =>
    if ok then ({ e with tmpPath := e.tmpPath.map ({ · with synced := true }) }, .synced)
    else (e, .cleaning none)
  | .synced =>
    if ok then ({ e with path := e.tmpPath, tmpPath := none }, .renamed) else (e, .cleaning none)
  | .renamed => (e, if ok then .placed else .cleaning none)
  | .placed => (e, .cleaning (if ok then e.path else none))
  | .cleaning f => (if ok then { e with tmpPath := none } else e, .unlocking f)
  | .unlocking f | .returned f => (e, .returned f)

/-- `Evict` removes files at paths of keys; by which sizes and times it chooses is left open. -/
inductive Step (e : Entry) : Entry → Prop where
  | call : Step e { e with calls := .start :: e.calls }
  | act (ok : Bool) (hc : e.calls.Perm (p :: others))
      (hmutex : p = .waiting → ∀ q ∈ others, ¬ q.locks) :
      Step e { (act e ok p).1 with calls := (act e ok p).2 :: others }
  | write (g : Bytes → Bytes) (hc : e.calls.Perm (.fetching w :: others)) :
      Step e { e with
        tmpPath := e.tmpPath.map fun f => ⟨g f.content, false⟩, calls := .fetching (g w) :: others }
  | evict : Step e { e with path := none }

/-- What was not synced may have changed when the process is back. -/
def crash (lost : File → Bytes) (e : Entry) : Entry :=
  let left f := if f.synced then f else ⟨lost f, false⟩
  { e with path := e.path.map left, tmpPath := e.tmpPath.map left, calls := [] }

inductive Reachable [DecidableEq Key] : (Key → Entry) → Prop where
  | start : Reachable fun _ => {}
  | step (h : Reachable s) (hs : Step (s key) e) : Reachable (update s key e)
  | crash (h : Reachable s) (lost : Key → File → Bytes) :
      Reachable fun key => crash (lost key) (s key)

def Complete (e : Entry) (f : File) : Prop := f.content ∈ e.outputs ∧ f.synced = true

def Holds (e : Entry) : Phase → Prop
  | .fetching w => ∀ f ∈ e.tmpPath, f.content = w
  | .fetched => ∀ f ∈ e.tmpPath, f.content ∈ e.outputs
  | .synced => ∀ f ∈ e.tmpPath, Complete e f
  | .cleaning r | .unlocking r | .returned r => ∀ f ∈ r, Complete e f
  | _ => True

structure Safe (e : Entry) : Prop where
  path : ∀ f ∈ e.path, Complete e f
  alone : e.calls.Pairwise fun p q => ¬ (p.locks ∧ q.locks)
  calls : ∀ p ∈ e.calls, Holds e p

theorem Holds.mono (h : Holds e p) (hp : ¬ p.locks) (hsub : e.outputs ⊆ e'.outputs) :
    Holds e' p := by
  cases p with
  | start | waiting => trivial
  | returned r => exact fun f hf => (h f hf).imp_left fun hm => hsub hm
  | _ => exact absurd rfl hp

theorem act_entry (hp : ¬ p.locks) : (act e ok p).1 = e := by
  cases p with
  | start | waiting | returned r => rfl
  | _ => exact absurd rfl hp

theorem act_locks (h : (act e ok p).2.locks) : p.locks ∨ p = .waiting := by
  cases p with
  | start =>
    rw [act] at h
    split at h <;> cases h
  | waiting => exact .inr rfl
  | returned r => cases h
  | _ => exact .inl rfl

theorem act_spec (h : ∀ f ∈ e.path, Complete e f) (hp : Holds e p) (ok : Bool) :
    (∀ f ∈ (act e ok p).1.path, Complete (act e ok p).1 f) ∧ Holds (act e ok p).1 (act e ok p).2 ∧
      e.outputs ⊆ (act e ok p).1.outputs := by
  cases p with
  | start | locked =>
    refine ⟨h, ?_, Subset.refl _⟩
    rw [act]
    split
    · exact h
    · trivial
  | _ => cases ok <;> simp_all [act, Holds, Complete]

theorem Safe.perm (h : Safe e) (hc : e.calls.Perm (p :: others)) :
    (p :: others).Pairwise (fun p q => ¬ (p.locks ∧ q.locks)) ∧ Holds e p ∧
      ∀ q ∈ others, Holds e q := by
  rw [← hc.pairwise_iff (mt And.symm), ← forall_mem_cons (p := Holds e)]
  exact ⟨h.alone, fun q hq => h.calls q (hc.mem_iff.mpr hq)⟩

theorem step_safe (h : Safe e) (hs : Step e e') : Safe e' := by
  cases hs with
  | call =>
    refine ⟨h.path, h.alone.cons ?_, forall_mem_cons.mpr ⟨trivial, h.calls⟩⟩
    simp [Phase.locks]
  | evict => exact ⟨by simp, h.alone, h.calls⟩
  | write g hc =>
    obtain ⟨hal, hp, hot⟩ := h.perm hc
    obtain ⟨hone, hal⟩ := pairwise_cons.mp hal
    refine ⟨h.path, hal.cons hone, forall_mem_cons.mpr ⟨fun f hf => ?_, fun q hq => ?_⟩⟩
    · obtain ⟨f', hf', rfl⟩ := Option.mem_map.mp hf
      exact congrArg g (hp f' hf')
    · exact (hot q hq).mono (fun hq' => hone q hq ⟨rfl, hq'⟩) (Subset.refl _)
  | @act p others ok hc hmutex =>
    obtain ⟨hal, hp, hot⟩ := h.perm hc
    obtain ⟨hpa, hnew, hsub⟩ := act_spec h.path hp ok
    obtain ⟨hone, hal⟩ := pairwise_cons.mp hal
    refine ⟨hpa, hal.cons fun q hq hlk => ?_, forall_mem_cons.mpr ⟨hnew, fun q hq => ?_⟩⟩
    · rcases act_locks hlk.1 with hl | hw
      · exact hone q hq ⟨hl, hlk.2⟩
      · exact hmutex hw q hq hlk.2
    · by_cases hl : p.locks
      · exact (hot q hq).mono (fun hq' => hone q hq ⟨hl, hq'⟩) hsub
      · show Holds (act e ok p).1 q
        rw [act_entry hl]
        exact hot q hq

theorem crash_safe (h : Safe e) : Safe (crash lost e) := by
  refine ⟨fun f hf => ?_, .nil, by simp [crash]⟩
  obtain ⟨g, hg, rfl⟩ := Option.mem_map.mp hf
  rw [if_pos (h.path g hg).2]
  exact h.path g hg

theorem reachable_safe [DecidableEq Key] {s : Key → Entry} (h : Reachable s) (key : Key) :
    Safe (s key) := by
  induction h generalizing key with
  | start => exact ⟨by simp, .nil, by simp⟩
  | @step s k e h hs ih =>
    by_cases hk : key = k
    · subst hk
      rw [update_self]
      exact step_safe (ih key) hs
    · rw [update_of_ne hk]
      exact ih key
  | crash h lost ih => exact crash_safe (ih key)

/-- A returned file has the complete output of a fetcher, and no two fetchers run at once. -/
theorem returned_complete [DecidableEq Key] {s : Key → Entry} (h : Reachable s) (key : Key) :
    (∀ f, .returned (some f) ∈ (s key).calls → f.content ∈ (s key).outputs) ∧
      (s key).calls.Pairwise fun p q => ∀ w w', ¬ (p = .fetching w ∧ q = .fetching w') := by
  obtain ⟨-, hal, hca⟩ := reachable_safe h key
  refine ⟨fun f hf => (hca _ hf f rfl).1, hal.imp ?_⟩
  rintro p q hlk w w' ⟨rfl, rfl⟩
  exact hlk ⟨rfl, rfl⟩

theorem Reachable.next (h : Reachable (const Unit e)) (hs : Step e e') :
    Reachable (const Unit e') := by
  rw [← update_eq_const_of_subsingleton () e' (const Unit e)]
  exact h.step hs

/-- The next step of the only call, which does not fail. -/
def alone (e : Entry) : Entry :=
  match e.calls with
  | [p] => { (act e true p).1 with calls := [(act e true p).2] }
  | _ => e

theorem Reachable.alone (h : Reachable (const Unit e)) : Reachable (const Unit (alone e)) := by
  fun_cases DiskCache.alone e with
  | case1 p hc => exact h.next (.act true (.of_eq hc) (by simp))
  | case2 => exact h

theorem fetched_file_returned : ∃ s : Unit → Entry, Reachable s ∧
    .returned (some ⟨[1], true⟩) ∈ (s ()).calls ∧ [1] ∈ (s ()).outputs := by
  have hfet := (Reachable.start.next .call).alone.alone.alone.alone.alone
  have hret := (hfet.next (.write (· ++ [1]) (.refl _))).alone.alone.alone.alone.alone.alone.alone
  have hmem := mem_singleton_self (Phase.returned (some ⟨[1], true⟩))
  exact ⟨_, hret, hmem, (returned_complete hret ()).1 _ hmem⟩

theorem step_outputs (hs : Step e e') : e.outputs ⊆ e'.outputs := by
  cases hs with
  | @act p others ok hc hmutex =>
    show e.outputs ⊆ (act e ok p).1.outputs
    cases p <;> cases ok <;> simp [act]
  | _ => exact Subset.refl _

/-- As long as the directory is not synced, a crash can undo renames and removals. So `past` has
the files that were at the path of a key, and each of them can be there again. -/
inductive Recovers [DecidableEq Key] : (Key → Entry) → (Key → List File) → Prop where
  | start : Recovers (fun _ => {}) fun _ => []
  | step (h : Recovers s past) (key : Key) (hs : Step (s key) e) :
      Recovers (update s key e) (update past key (e.path.toList ++ past key))
  | crash (h : Recovers s past) (lost : Key → File → Bytes) (found : Key → Option File)
      (hfound : ∀ key, ∀ f ∈ found key, f ∈ past key) :
      Recovers (fun key => crash (lost key) { s key with path := found key }) past

theorem recovers_safe [DecidableEq Key] {s : Key → Entry} (h : Recovers s past) (key : Key) :
    Safe (s key) ∧ ∀ f ∈ past key, Complete (s key) f := by
  induction h generalizing key with
  | start => exact ⟨⟨by simp, .nil, by simp⟩, by simp⟩
  | @step s past e h k hs ih =>
    by_cases hk : key = k
    · subst hk
      have hsafe := step_safe (ih key).1 hs
      simp only [update_self, mem_append, Option.mem_toList]
      exact ⟨hsafe, fun f hf => hf.elim (hsafe.path f) fun hf =>
        ((ih key).2 f hf).imp_left fun hm => step_outputs hs hm⟩
    · rw [update_of_ne hk, update_of_ne hk]
      exact ih key
  | crash h lost found hfound ih =>
    obtain ⟨hsafe, hpast⟩ := ih key
    exact ⟨crash_safe ⟨fun f hf => hpast f (hfound key f hf), hsafe.alone, hsafe.calls⟩, hpast⟩

theorem recovered_complete [DecidableEq Key] {s : Key → Entry} (h : Recovers s past) (key : Key) :
    (∀ f ∈ (s key).path, f.content ∈ (s key).outputs) ∧
      ∀ f, .returned (some f) ∈ (s key).calls → f.content ∈ (s key).outputs := by
  obtain ⟨hpa, -, hca⟩ := (recovers_safe h key).1
  exact ⟨fun f hf => (hpa f hf).1, fun f hf => (hca _ hf f rfl).1⟩

theorem undone_removal_complete : ∃ (s : Unit → Entry) (past : Unit → List File),
    Recovers s past ∧ (s ()).path = some ⟨[1], true⟩ ∧ [1] ∈ (s ()).outputs := by
  have next {s : Unit → Entry} {past p} (h : Recovers s past) (hc : (s ()).calls = [p]) :=
    h.step () (.act true (.of_eq hc) (by simp))
  have h : Recovers (fun _ : Unit => {}) fun _ => [] := .start
  have h := next (next (next (next (next (h.step () .call) rfl) rfl) rfl) rfl) rfl
  have h := h.step () (.write (· ++ [1]) (.refl _))
  have h := (next (next (next h rfl) rfl) rfl).step () .evict
  have hr := h.crash (fun _ _ => [7]) (fun _ => some ⟨[1], true⟩) (by simp [DiskCache.act])
  exact ⟨_, _, hr, rfl, (recovered_complete hr ()).1 _ rfl⟩

end DiskCache
