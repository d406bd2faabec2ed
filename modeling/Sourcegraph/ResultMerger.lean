import Sourcegraph.SearchResults
import Sourcegraph.MapEntries

/-! # Merging the results of several sources

`AndJob` and `OrJob` run their children concurrently and hand every batch of matches to one merger.
`AddMatches` holds its lock, so that an execution is a list of calls, in any order, each with its
source. -/
namespace ResultMerger

open GoStrings SearchResults List

/-- The operations of the package `bitset`. -/
class BitSets (B : Type) where
  new : ℕ → B
  set : B → ℕ → B
  test : B → ℕ → Bool
  len : B → ℕ
  count : B → ℕ
  all : B → Bool

/-- What its documentation says of a set whose bits are set within its length. -/
class LawfulBitSets (B : Type) [BitSets B] : Prop where
  new_len : ∀ n, BitSets.len (BitSets.new n : B) = n
  new_test : ∀ n i, BitSets.test (BitSets.new n : B) i = false
  set_len : ∀ (b : B) i, i < BitSets.len b → BitSets.len (BitSets.set b i) = BitSets.len b
  set_test : ∀ (b : B) i j, BitSets.test (BitSets.set b i) j = (decide (j = i) || BitSets.test b j)
  all_iff : ∀ b : B, BitSets.all b = true ↔ ∀ i < BitSets.len b, BitSets.test b i = true

variable {B : Type} [BitSets B]

structure MergeVal (B : Type) where
  match_ : Match
  seen : B
  sent : Bool

structure Merger (B : Type) where
  numSources : ℕ
  matches_ : AList fun _ : Key => MergeVal B

def newMerger (numSources : ℕ) : Merger B := ⟨numSources, ∅⟩

/-- The type switch on the added match; the assertions on the previous match may fail. -/
def mergeInto (prev : Match) : Match → Except Panic Match
  | .file v => match prev with
    | .file p => .ok (.file (p.appendMatches v))
    | _ => .error "interface conversion: not a *FileMatch"
  | .commit v => match prev with
    | .commit p => .ok (.commit (p.appendMatches v))
    | _ => .error "interface conversion: not a *CommitMatch"
  | .repo v => match prev with
    | .repo p => .ok (.repo (p.appendMatches v))
    | _ => .error "interface conversion: not a *RepoMatch"
  | .commitDiff _ => .ok prev
  | .owner _ => .ok prev

def Merger.addMatch (lm : Merger B) (m : Match) (source : ℕ) :
    Except Panic (Merger B × Option Match) :=
  match lm.matches_.lookup m.key with
  | none =>
    let newVal := ⟨m, BitSets.set (BitSets.new lm.numSources) source, false⟩
    .ok ({ lm with matches_ := lm.matches_.insert m.key newVal }, none)
  | some prev =>
    if prev.sent then .ok (lm, none)
    else match mergeInto prev.match_ m with
      | .error e => .error e
      | .ok merged =>
        let seen := BitSets.set prev.seen source
        if BitSets.all seen then
          .ok ({ lm with matches_ := lm.matches_.insert m.key ⟨merged, seen, true⟩ }, some merged)
        else
          .ok ({ lm with matches_ := lm.matches_.insert m.key ⟨merged, seen, false⟩ }, none)

def Merger.addMatches (lm : Merger B) : List Match → ℕ → Except Panic (Merger B × List Match)
  | [], _ => .ok (lm, [])
  | m :: rest, source =>
    match lm.addMatch m source with
    | .error e => .error e
    | .ok (lm', streamable) =>
      (lm'.addMatches rest source).map fun r => (r.1, streamable.toList ++ r.2)

def Merger.run (lm : Merger B) : List (ℕ × List Match) → Except Panic (Merger B × List (List Match))
  | [] => .ok (lm, [])
  | (source, batch) :: calls =>
    match lm.addMatches batch source with
    | .error e => .error e
    | .ok (lm', streamable) => (lm'.run calls).map fun r => (r.1, streamable :: r.2)

/-- The results of `UnsentTracked`: the map is enumerated in any order, and the sort by
the number of sources need not be stable. -/
def Merger.UnsentTracked (lm : Merger B) (res : List Match) : Prop :=
  ∃ vals : List (MergeVal B),
    vals.Perm ((lm.matches_.entries.map Sigma.snd).filter fun v => !v.sent) ∧
    vals.Pairwise (fun v w => BitSets.count w.seen ≤ BitSets.count v.seen) ∧
    res = vals.map MergeVal.match_

theorem unsentTracked_exists (lm : Merger B) : ∃ res, lm.UnsentTracked res := by
  refine ⟨_, ((lm.matches_.entries.map Sigma.snd).filter fun v => !v.sent).mergeSort
    (fun v w => decide (BitSets.count w.seen ≤ BitSets.count v.seen)), mergeSort_perm _ _, ?_, rfl⟩
  have hsrt := @List.pairwise_mergeSort (MergeVal B)
    (fun v w => decide (BitSets.count w.seen ≤ BitSets.count v.seen))
    (by simp only [decide_eq_true_eq]; omega)
    (by simp only [Bool.or_eq_true, decide_eq_true_eq]; omega)
    ((lm.matches_.entries.map Sigma.snd).filter fun v => !v.sent)
  simpa using hsrt

variable {lm lm' : Merger B} {w : MergeVal B}

variable {m : Match} {fm : FileMatch}

theorem typeRank_file (h : m.key = fm.key) : ∃ fm', m = .file fm' := by
  have hra := congrArg Key.typeRank h
  cases m with
  | file fm' => exact ⟨fm', rfl⟩
  | commit m =>
    simp only [Match.key, CommitMatch.key, FileMatch.key] at hra
    split at hra <;> cases hra
  | _ => cases hra

theorem mergeInto_ok {prev : Match} (h : prev.key = m.key) :
    ∃ mg, mergeInto prev m = .ok mg ∧ mg.key = m.key := by
  have hra := congrArg Key.typeRank h
  have hpt := congrArg Key.path h
  cases m with
  | file v =>
    obtain ⟨p, rfl⟩ := typeRank_file h
    exact ⟨_, rfl, h⟩
  | commit v =>
    cases prev with
    | commit p => exact ⟨_, rfl, h⟩
    | commitDiff p => exact absurd hpt p.path_ne
    | _ =>
      simp only [Match.key, CommitMatch.key, FileMatch.key, RepoMatch.key, OwnerMatch.key] at hra
      split at hra <;> cases hra
  | repo v =>
    cases prev with
    | repo p => exact ⟨_, rfl, h⟩
    | commit p =>
      simp only [Match.key, CommitMatch.key, RepoMatch.key] at hra
      split at hra <;> cases hra
    | _ => cases hra
  | commitDiff v | owner v => exact ⟨prev, rfl, h⟩

def AddedBy (added : List (ℕ × Match)) (source : ℕ) (key : Key) : Prop :=
  ∃ m, (source, m) ∈ added ∧ m.key = key

def Added (added : List (ℕ × Match)) (key : Key) : Prop := ∃ source, AddedBy added source key

theorem addedBy_snoc :
    AddedBy (added ++ [(src, m)]) s key ↔ AddedBy added s key ∨ s = src ∧ m.key = key := by
  simp only [AddedBy, mem_append, mem_singleton, Prod.mk.injEq, or_and_right, exists_or, and_assoc,
    exists_and_left, exists_eq_left]

theorem addedBy_snoc_ne (h : m.key ≠ key) :
    AddedBy (added ++ [(src, m)]) s key ↔ AddedBy added s key := by
  rw [addedBy_snoc]
  exact or_iff_left fun hk => h hk.2

structure Tracked (n : ℕ) (added : List (ℕ × Match)) (key : Key) (v : MergeVal B) : Prop where
  key_eq : v.match_.key = key
  length : BitSets.len v.seen = n
  seen : ∀ s < n, BitSets.test v.seen s = true ↔ AddedBy added s key
  sent : v.sent = BitSets.all v.seen

theorem Tracked.snoc_ne (h : Tracked n added key w) (hne : m.key ≠ key) :
    Tracked n (added ++ [(src, m)]) key w :=
  ⟨h.key_eq, h.length, fun s hs => (h.seen s hs).trans (addedBy_snoc_ne hne).symm, h.sent⟩

def Once (added : List (ℕ × Match)) : Prop := (added.map fun a => (a.1, a.2.key)).Nodup

def filesFor (added : List (ℕ × Match)) (key : Key) : List (ℕ × FileMatch) :=
  added.filterMap fun a => match a.2 with
    | .file fm => if fm.key = key then some (a.1, fm) else none
    | _ => none

structure Holds (added : List (ℕ × Match)) (key : Key) (fm : FileMatch) : Prop where
  chunkMatches : fm.chunkMatches = (filesFor added key).flatMap fun a => a.2.chunkMatches
  symbols : fm.symbols = (filesFor added key).flatMap fun a => a.2.symbols

theorem Once.not_addedBy (h : Once (added ++ [(src, m)])) :
    Once added ∧ ¬ AddedBy added src m.key := by
  rw [Once, map_append, nodup_append] at h
  refine ⟨h.1, ?_⟩
  rintro ⟨m', hm', hkey⟩
  exact h.2.2 _ (mem_map_of_mem hm') _ (mem_map_of_mem (mem_singleton_self _)) (by rw [hkey])

theorem filesFor_snoc_ne (h : m.key ≠ key) :
    filesFor (added ++ [(src, m)]) key = filesFor added key := by
  cases m with
  | file fm =>
    have hne : fm.key ≠ key := h
    simp [filesFor, hne]
  | _ => simp [filesFor]

theorem filesFor_snoc_file :
    filesFor (added ++ [(src, .file fm)]) fm.key = filesFor added fm.key ++ [(src, fm)] := by
  simp [filesFor]

theorem filesFor_eq_nil (h : ¬ Added added key) : filesFor added key = [] := by
  rw [filesFor, filterMap_eq_nil_iff]
  rintro ⟨src, m⟩ hm
  cases m with
  | file fm =>
    have hne : fm.key ≠ key := fun hkey => h ⟨src, .file fm, hm, hkey⟩
    simp [hne]
  | _ => rfl

theorem Holds.first (h : ¬ Added added fm.key) : Holds (added ++ [(src, .file fm)]) fm.key fm := by
  constructor <;> rw [filesFor_snoc_file, filesFor_eq_nil h] <;> simp

theorem Holds.append (h : Holds added v.key p) :
    Holds (added ++ [(src, .file v)]) v.key (p.appendMatches v) := by
  constructor <;> rw [filesFor_snoc_file, flatMap_append]
  · rw [← h.chunkMatches]
    simp [FileMatch.appendMatches]
  · rw [← h.symbols]
    simp [FileMatch.appendMatches]

structure Invariant (n : ℕ) (added : List (ℕ × Match)) (returned : List Match) (lm : Merger B) :
    Prop where
  numSources : lm.numSources = n
  entry : ∀ key v, lm.matches_.lookup key = some v → Tracked n added key v
  missing : ∀ key, lm.matches_.lookup key = none ↔ ¬ Added added key
  stored : ∀ m ∈ returned, ∃ v, lm.matches_.lookup m.key = some v ∧ v.sent = true ∧ v.match_ = m
  sent : ∀ key v, lm.matches_.lookup key = some v → v.sent = true → v.match_ ∈ returned
  once : (returned.map Match.key).Nodup
  holds : Once added → ∀ key v fm, lm.matches_.lookup key = some v → v.match_ = .file fm →
    Holds added key fm

theorem initial_invariant (n : ℕ) : Invariant n [] [] (newMerger n : Merger B) := by
  refine ⟨rfl, ?_, fun key => ?_, by simp, ?_, by simp, fun _ => ?_⟩
  · simp [newMerger]
  · simp [newMerger, Added, AddedBy]
  · simp [newMerger]
  · simp [newMerger]

theorem added_snoc : Added (added ++ [(src, m)]) key ↔ Added added key ∨ m.key = key := by
  simp only [Added, addedBy_snoc, exists_or, exists_eq_left]

theorem Invariant.insert (h : Invariant n added ret lm)
    {v : MergeVal B} (hv : Tracked n (added ++ [(src, m)]) m.key v)
    (hfr : ∀ prev, lm.matches_.lookup m.key = some prev → prev.sent = false)
    (hh : Once added → ∀ fm, v.match_ = .file fm → Holds (added ++ [(src, m)]) m.key fm) :
    Invariant n (added ++ [(src, m)]) (ret ++ if v.sent then [v.match_] else [])
      { lm with matches_ := lm.matches_.insert m.key v } := by
  have hold : ∀ m' ∈ ret, m'.key ≠ m.key := by
    intro m' hm' hkey
    obtain ⟨prev, hlk, hse, -⟩ := h.stored m' hm'
    rw [hkey] at hlk
    rw [hfr prev hlk] at hse
    cases hse
  have hcas : ∀ key w, (lm.matches_.insert m.key v).lookup key = some w →
      key = m.key ∧ w = v ∨ m.key ≠ key ∧ lm.matches_.lookup key = some w := by
    intro key w hw
    by_cases hkey : key = m.key
    · subst hkey
      rw [AList.lookup_insert] at hw
      exact .inl ⟨rfl, (Option.some.inj hw).symm⟩
    rw [AList.lookup_insert_ne hkey] at hw
    exact .inr ⟨Ne.symm hkey, hw⟩
  refine ⟨h.numSources, ?_, ?_, ?_, ?_, ?_, ?_⟩
  · intro key w hw
    rcases hcas key w hw with ⟨rfl, rfl⟩ | ⟨hne, hw⟩
    · exact hv
    · exact (h.entry key w hw).snoc_ne hne
  · intro key
    rw [added_snoc, AList.lookup_insert_eq_none, h.missing, not_or, ne_comm]
    exact and_comm
  · refine forall_mem_append.mpr ⟨fun m' hm' => ?_, fun m' hm' => ?_⟩
    · obtain ⟨w, hw, hrs⟩ := h.stored m' hm'
      exact ⟨w, by rw [AList.lookup_insert_ne (hold m' hm')]; exact hw, hrs⟩
    · rw [mem_ite_nil_right, mem_singleton] at hm'
      obtain ⟨hse, rfl⟩ := hm'
      exact ⟨v, by rw [hv.key_eq, AList.lookup_insert], hse, rfl⟩
  · intro key w hw hse
    rcases hcas key w hw with ⟨rfl, rfl⟩ | ⟨-, hw⟩
    · simp [hse]
    · exact mem_append_left _ (h.sent key w hw hse)
  · rw [map_append, nodup_append]
    refine ⟨h.once, by split <;> simp, forall_mem_map.mpr fun m' hm' => ?_⟩
    refine forall_mem_map.mpr fun w hw => ?_
    rw [mem_ite_nil_right, mem_singleton] at hw
    rw [hw.2, hv.key_eq]
    exact hold m' hm'
  · intro hon key w fm hw hfi
    rcases hcas key w hw with ⟨rfl, rfl⟩ | ⟨hne, hw⟩
    · exact hh hon.not_addedBy.1 fm hfi
    obtain ⟨hchu, hsym⟩ := h.holds hon.not_addedBy.1 key w fm hw hfi
    constructor
    · rw [filesFor_snoc_ne hne, hchu]
    · rw [filesFor_snoc_ne hne, hsym]

theorem Invariant.unsent_perm (h : Invariant n added ret lm) (hres : lm.UnsentTracked res) :
    (res.map Match.key).Perm ((lm.matches_.entries.filter fun e => !e.2.sent).map Sigma.fst) := by
  obtain ⟨vals, hpm, -, rfl⟩ := hres
  rw [filter_map] at hpm
  refine ((hpm.map MergeVal.match_).map Match.key).trans (Perm.of_eq ?_)
  rw [map_map, map_map]
  apply map_congr_left
  rintro ⟨key, v⟩ he
  have hlk : lm.matches_.lookup key = some v :=
    AList.mem_lookup_iff.mpr (mem_of_mem_filter he)
  exact (h.entry key v hlk).key_eq

theorem Invariant.unsent_nodup (h : Invariant n added ret lm) (hres : lm.UnsentTracked res) :
    (res.map Match.key).Nodup := by
  rw [(h.unsent_perm hres).nodup_iff]
  exact (filter_sublist.map Sigma.fst).nodup lm.matches_.keys_nodup

theorem Invariant.unsent_iff (h : Invariant n added ret lm) (hres : lm.UnsentTracked res)
    (key : Key) : key ∈ res.map Match.key ↔ Added added key ∧ key ∉ ret.map Match.key := by
  have hret : ∀ v, lm.matches_.lookup key = some v → (v.sent = true ↔ key ∈ ret.map Match.key) := by
    intro v hlk
    constructor
    · intro hse
      exact mem_map.mpr ⟨_, h.sent _ _ hlk hse, (h.entry _ _ hlk).key_eq⟩
    · intro hkey
      obtain ⟨m, hm, rfl⟩ := mem_map.mp hkey
      obtain ⟨w, hw, hse, -⟩ := h.stored m hm
      rw [hlk] at hw
      cases hw
      exact hse
  rw [(h.unsent_perm hres).mem_iff, mem_map]
  constructor
  · rintro ⟨⟨key, v⟩, he, rfl⟩
    obtain ⟨hent, hse⟩ := mem_filter.mp he
    have hlk : lm.matches_.lookup key = some v := AList.mem_lookup_iff.mpr hent
    refine ⟨?_, fun hkey => ?_⟩
    · by_contra hnot
      rw [← h.missing, hlk] at hnot
      cases hnot
    · rw [(hret v hlk).mpr hkey] at hse
      cases hse
  · rintro ⟨hadd, hnot⟩
    cases hlk : lm.matches_.lookup key with
    | none => exact absurd hadd ((h.missing key).mp hlk)
    | some v =>
      refine ⟨⟨key, v⟩, mem_filter.mpr ⟨AList.mem_lookup_iff.mp hlk, ?_⟩, rfl⟩
      have hse := mt (hret v hlk).mp hnot
      simpa using hse

theorem run_cons (h : lm.run ((src, batch) :: cls) = .ok (lm', outs)) :
    ∃ lm₁ str more, lm.addMatches batch src = .ok (lm₁, str) ∧
      lm₁.run cls = .ok (lm', more) ∧ outs = str :: more := by
  rw [Merger.run] at h
  split at h
  · cases h
  rename_i lm₁ str hadd
  obtain ⟨⟨lm₂, more⟩, hrs, h⟩ := map_eq_ok h
  cases h
  exact ⟨lm₁, str, more, hadd, hrs, rfl⟩

theorem run_take (h : lm.run cls = .ok (lm', outs)) (i : ℕ) :
    ∃ lm'', lm.run (cls.take i) = .ok (lm'', outs.take i) := by
  induction cls generalizing lm outs i with
  | nil =>
    cases h
    exact ⟨lm', by simp [Merger.run]⟩
  | cons call rest ih =>
    obtain ⟨lm₁, str, more, hadd, hrs, rfl⟩ := run_cons h
    cases i with
    | zero => exact ⟨lm, rfl⟩
    | succ i =>
      obtain ⟨lm₂, hta⟩ := ih hrs i
      refine ⟨lm₂, ?_⟩
      rw [take_succ_cons, Merger.run, hadd]
      simp only [hta, Except.map, take_succ_cons]

variable [LawfulBitSets B]

theorem Tracked.complete (h : Tracked n added key w) :
    w.sent = true ↔ ∀ s < n, AddedBy added s key := by
  rw [h.sent, LawfulBitSets.all_iff, h.length]
  exact forall_congr' fun s => forall_congr' fun hs => h.seen s hs

theorem Tracked.set (h : Tracked n added m.key w) (hsrc : src < n) (hkey : mg.key = m.key)
    {sent : Bool} (hse : sent = BitSets.all (BitSets.set w.seen src)) :
    Tracked n (added ++ [(src, m)]) m.key ⟨mg, BitSets.set w.seen src, sent⟩ := by
  have hlen : src < BitSets.len w.seen := by rw [h.length]; exact hsrc
  refine ⟨hkey, (LawfulBitSets.set_len _ _ hlen).trans h.length, fun s hs => ?_, hse⟩
  rw [LawfulBitSets.set_test, Bool.or_eq_true, decide_eq_true_eq, h.seen s hs, addedBy_snoc,
    or_comm, and_iff_left rfl]

theorem Invariant.ignore (h : Invariant n added ret lm) (hsrc : src < n)
    {prev : MergeVal B} (hpr : lm.matches_.lookup m.key = some prev) (hse : prev.sent = true) :
    Invariant n (added ++ [(src, m)]) ret lm := by
  have hcom := (h.entry _ _ hpr).complete.mp hse
  refine ⟨h.numSources, ?_, ?_, h.stored, h.sent, h.once,
    fun hon => absurd (hcom src hsrc) hon.not_addedBy.2⟩
  · intro key v hv
    have ht := h.entry key v hv
    refine ⟨ht.key_eq, ht.length, fun s hs => (ht.seen s hs).trans ?_, ht.sent⟩
    rw [addedBy_snoc, or_iff_left_of_imp]
    rintro ⟨-, rfl⟩
    exact hcom s hs
  · intro key
    rw [h.missing, added_snoc, not_or]
    refine ⟨fun hnot => ⟨hnot, ?_⟩, And.left⟩
    rintro rfl
    rw [← h.missing, hpr] at hnot
    cases hnot

theorem new_set_all (hn : 2 ≤ n) (hsrc : src < n) :
    BitSets.all (BitSets.set (BitSets.new n : B) src) = false := by
  have hlen : src < BitSets.len (BitSets.new n : B) := by rwa [LawfulBitSets.new_len]
  rw [Bool.eq_false_iff, ne_eq, LawfulBitSets.all_iff, LawfulBitSets.set_len _ _ hlen,
    LawfulBitSets.new_len]
  intro hall
  obtain ⟨other, hoth, hne⟩ : ∃ other < n, other ≠ src := by
    by_cases hz : src = 0
    · exact ⟨1, by omega, by omega⟩
    · exact ⟨0, by omega, by omega⟩
  have hbit := hall other hoth
  simp [LawfulBitSets.set_test, LawfulBitSets.new_test, hne] at hbit

theorem Invariant.first (h : Invariant n added ret lm) (hn : 2 ≤ n) (hsrc : src < n)
    (hno : lm.matches_.lookup m.key = none) :
    Tracked n (added ++ [(src, m)]) m.key
      ⟨m, BitSets.set (BitSets.new lm.numSources : B) src, false⟩ := by
  rw [h.numSources]
  have hlen : src < BitSets.len (BitSets.new n : B) := by rwa [LawfulBitSets.new_len]
  refine ⟨rfl, (LawfulBitSets.set_len _ _ hlen).trans (LawfulBitSets.new_len n), fun s hs => ?_,
    (new_set_all hn hsrc).symm⟩
  have hnot : ¬ AddedBy added s m.key := fun hs' => (h.missing _).mp hno ⟨s, hs'⟩
  rw [LawfulBitSets.set_test, addedBy_snoc]
  simp [hnot, LawfulBitSets.new_test]

/-- One match: it never fails, and a key is returned with the last source that adds it. -/
theorem addMatch_invariant (h : Invariant n added ret lm) (hn : 2 ≤ n) (hsrc : src < n) :
    ∃ lm' str, lm.addMatch m src = .ok (lm', str) ∧
      Invariant n (added ++ [(src, m)]) (ret ++ str.toList) lm' := by
  unfold Merger.addMatch
  cases hlk : lm.matches_.lookup m.key with
  | none =>
    have hh : ∀ fm, m = .file fm → Holds (added ++ [(src, m)]) m.key fm := by
      rintro fm rfl
      exact Holds.first ((h.missing _).mp hlk)
    have hins := h.insert (h.first hn hsrc hlk) (by simp [hlk]) fun _ => hh
    exact ⟨_, none, rfl, by simpa using hins⟩
  | some prev =>
    have htra := h.entry _ _ hlk
    cases hse : prev.sent with
    | true => exact ⟨lm, none, by simp [hse], by simpa using h.ignore hsrc hlk hse⟩
    | false =>
      have hfr : ∀ v, lm.matches_.lookup m.key = some v → v.sent = false := by
        intro v hv
        rw [hlk] at hv
        cases hv
        exact hse
      obtain ⟨mg, hmer, hkey⟩ := mergeInto_ok htra.key_eq
      have hh : Once added → ∀ fm, mg = .file fm → Holds (added ++ [(src, m)]) m.key fm := by
        rintro hon fm rfl
        obtain ⟨v, rfl⟩ := typeRank_file hkey.symm
        obtain ⟨p, hp⟩ := typeRank_file htra.key_eq
        rw [hp] at hmer
        cases hmer
        exact (h.holds hon _ _ _ hlk hp).append
      simp only [hse, Bool.false_eq_true, if_false, hmer]
      have hins := h.insert (htra.set hsrc hkey rfl) hfr hh
      cases hall : BitSets.all (BitSets.set prev.seen src) with
      | true => exact ⟨_, some mg, rfl, by simpa [hall] using hins⟩
      | false => exact ⟨_, none, rfl, by simpa [hall] using hins⟩

def callMatches (call : ℕ × List Match) : List (ℕ × Match) := call.2.map fun m => (call.1, m)

theorem addMatches_invariant (h : Invariant n added ret lm) (hn : 2 ≤ n) (hsrc : src < n) :
    ∃ lm' str, lm.addMatches batch src = .ok (lm', str) ∧
      Invariant n (added ++ callMatches (src, batch)) (ret ++ str) lm' := by
  induction batch generalizing added ret lm with
  | nil => exact ⟨lm, [], rfl, by simpa [callMatches] using h⟩
  | cons m rest ih =>
    obtain ⟨lm₁, str, hadd, h₁⟩ := addMatch_invariant h hn hsrc
    obtain ⟨lm₂, more, hrs, h₂⟩ := ih h₁
    refine ⟨lm₂, str.toList ++ more, ?_, ?_⟩
    · rw [Merger.addMatches, hadd]
      simp only [hrs]
      rfl
    · simpa [callMatches] using h₂

def addedMatches (calls : List (ℕ × List Match)) : List (ℕ × Match) := calls.flatMap callMatches

theorem run_invariant (h : Invariant n added ret lm) (hn : 2 ≤ n)
    (cls : List (ℕ × List Match)) (hcal : ∀ call ∈ cls, call.1 < n) :
    ∃ lm' outs, lm.run cls = .ok (lm', outs) ∧ outs.length = cls.length ∧
      Invariant n (added ++ addedMatches cls) (ret ++ outs.flatten) lm' := by
  induction cls generalizing added ret lm with
  | nil => exact ⟨lm, [], rfl, rfl, by simpa [addedMatches] using h⟩
  | cons call rest ih =>
    obtain ⟨src, batch⟩ := call
    obtain ⟨lm₁, str, hadd, h₁⟩ :=
      addMatches_invariant h hn (hcal (src, batch) (by simp))
    obtain ⟨lm₂, outs, hrs, hlen, h₂⟩ := ih h₁ (forall_mem_cons.mp hcal).2
    refine ⟨lm₂, str :: outs, ?_, by simp [hlen], ?_⟩
    · rw [Merger.run, hadd]
      simp only [hrs]
      rfl
    · simpa [addedMatches] using h₂

theorem Invariant.returned_iff (h : Invariant n added ret lm) (hn : 2 ≤ n) (key : Key) :
    key ∈ ret.map Match.key ↔ ∀ s < n, AddedBy added s key := by
  constructor
  · intro hkey
    obtain ⟨m, hm, rfl⟩ := mem_map.mp hkey
    obtain ⟨v, hlk, hse, -⟩ := h.stored m hm
    exact (h.entry _ _ hlk).complete.mp hse
  · intro hall
    cases hlk : lm.matches_.lookup key with
    | none => exact absurd ⟨0, hall 0 (by omega)⟩ ((h.missing key).mp hlk)
    | some v =>
      have ht := h.entry _ _ hlk
      exact mem_map.mpr ⟨v.match_, h.sent _ _ hlk (ht.complete.mpr hall), ht.key_eq⟩

/-- What has been returned and what is left together are the union of the sources. -/
theorem Invariant.union (h : Invariant n added ret lm) (hn : 2 ≤ n)
    (hres : lm.UnsentTracked res) : ((ret ++ res).map Match.key).Nodup ∧
      ∀ key, key ∈ (ret ++ res).map Match.key ↔ Added added key := by
  have huns := h.unsent_iff hres
  rw [map_append, nodup_append]
  refine ⟨⟨h.once, h.unsent_nodup hres, ?_⟩, fun key => ?_⟩
  · rintro key hkey key' hkey' rfl
    exact ((huns key).mp hkey').2 hkey
  · rw [mem_append, huns]
    constructor
    · rintro (hkey | ⟨hadd, -⟩)
      · exact ⟨0, (h.returned_iff hn key).mp hkey 0 (by omega)⟩
      · exact hadd
    · intro hadd
      by_cases hkey : key ∈ ret.map Match.key
      · exact .inl hkey
      · exact .inr ⟨hadd, hkey⟩

theorem mem_filesFor : (src, fm) ∈ filesFor added key ↔ (src, .file fm) ∈ added ∧ fm.key = key := by
  rw [filesFor, mem_filterMap]
  constructor
  · rintro ⟨⟨s, m⟩, hm, he⟩
    cases m with
    | file fm' =>
      simp only [Option.ite_none_right_eq_some, Option.some.injEq, Prod.mk.injEq] at he
      obtain ⟨hkey, rfl, rfl⟩ := he
      exact ⟨hm, hkey⟩
    | _ => cases he
  · rintro ⟨hm, hkey⟩
    exact ⟨_, hm, by simp [hkey]⟩

theorem filesFor_nodup (h : Once added) (key : Key) :
    ((filesFor added key).map Prod.fst).Nodup := by
  rw [Nodup, pairwise_map, filesFor, pairwise_filterMap]
  refine (pairwise_map.mp h).imp fun {a b} hne x hx y hy heq => hne ?_
  have hfi : ∀ c z, z ∈ filesFor [c] key → (c.1, c.2.key) = (z.1, key) := by
    rintro c ⟨s, fm⟩ hz
    obtain ⟨hc, hkey⟩ := mem_filesFor.mp hz
    rw [← mem_singleton.mp hc, ← hkey]
    rfl
  rw [hfi a x (mem_filterMap.mpr ⟨a, mem_singleton_self a, hx⟩),
    hfi b y (mem_filterMap.mpr ⟨b, mem_singleton_self b, hy⟩), heq]

theorem filesFor_perm (h : Once added) (hbd : ∀ a ∈ added, a.1 < n)
    (hall : ∀ s < n, AddedBy added s fm.key) :
    ∃ fil : ℕ → FileMatch,
      (∀ s < n, (s, .file (fil s)) ∈ added ∧ (fil s).key = fm.key) ∧
      (filesFor added fm.key).Perm ((range n).map fun s => (s, fil s)) := by
  have hfi : ∀ s < n, ∃ f, (s, f) ∈ filesFor added fm.key := by
    intro s hs
    obtain ⟨m, hm, hkey⟩ := hall s hs
    obtain ⟨f, rfl⟩ := typeRank_file hkey
    exact ⟨f, mem_filesFor.mpr ⟨hm, hkey⟩⟩
  have hlk : ∀ s f, (s, f) ∈ filesFor added fm.key →
      ((filesFor added fm.key).lookup s).getD fm = f := by
    intro s f hf
    rw [(MapEntries.mem_iff_lookup (filesFor_nodup h _)).mp hf, Option.getD_some]
  refine ⟨fun s => ((filesFor added fm.key).lookup s).getD fm, fun s hs => ?_, ?_⟩
  · obtain ⟨f, hf⟩ := hfi s hs
    simp only [hlk s f hf]
    exact mem_filesFor.mp hf
  · have hsou : ((filesFor added fm.key).map Prod.fst).Perm (range n) := by
      rw [perm_ext_iff_of_nodup (filesFor_nodup h fm.key) nodup_range]
      intro s
      rw [mem_range]
      constructor
      · intro hs
        obtain ⟨⟨s, f⟩, hf, rfl⟩ := mem_map.mp hs
        exact hbd _ (mem_filesFor.mp hf).1
      · intro hs
        obtain ⟨f, hf⟩ := hfi s hs
        exact mem_map.mpr ⟨_, hf, rfl⟩
    refine Perm.trans (Perm.of_eq ?_) (hsou.map _)
    rw [map_map]
    refine (map_id _).symm.trans (map_congr_left ?_)
    rintro ⟨s, f⟩ hf
    simp [hlk s f hf]

/-- What an execution of the merger guarantees. -/
structure MergedExactly (n : ℕ) (calls : List (ℕ × List Match)) (lm : Merger B)
    (outputs : List (List Match)) : Prop where
  once : (outputs.flatten.map Match.key).Nodup
  intersection : ∀ key, key ∈ outputs.flatten.map Match.key ↔
    ∀ s < n, AddedBy (addedMatches calls) s key
  timely : ∀ i output, outputs[i]? = some output → ∀ key, key ∈ output.map Match.key ↔
    (∀ s < n, AddedBy (addedMatches (calls.take (i + 1))) s key) ∧
      ¬ ∀ s < n, AddedBy (addedMatches (calls.take i)) s key
  returns : ∃ res, lm.UnsentTracked res
  unsent : ∀ res, lm.UnsentTracked res → (res.map Match.key).Nodup ∧ ∀ key,
    key ∈ res.map Match.key ↔ Added (addedMatches calls) key ∧ key ∉ outputs.flatten.map Match.key
  union : ∀ res, lm.UnsentTracked res → ((outputs.flatten ++ res).map Match.key).Nodup ∧
    ∀ key, key ∈ (outputs.flatten ++ res).map Match.key ↔ Added (addedMatches calls) key
  complete : Once (addedMatches calls) → ∀ fm, .file fm ∈ outputs.flatten →
    ∃ fileOf : ℕ → FileMatch,
      (∀ s < n, (s, .file (fileOf s)) ∈ addedMatches calls ∧ (fileOf s).key = fm.key) ∧
      fm.chunkMatches.Perm ((List.range n).flatMap fun s => (fileOf s).chunkMatches) ∧
      fm.symbols.Perm ((List.range n).flatMap fun s => (fileOf s).symbols)

theorem run_returned (hn : 2 ≤ n) (hcal : ∀ call ∈ cls, call.1 < n)
    (h : (newMerger n).run cls = .ok (lm, outs)) :
    Invariant n (addedMatches cls) outs.flatten lm := by
  obtain ⟨lm', outs', h', -, hinv⟩ := run_invariant (B := B) (initial_invariant n) hn cls hcal
  rw [h] at h'
  cases h'
  simpa using hinv

theorem addedMatches_bound (hcal : ∀ call ∈ cls, call.1 < n) : ∀ a ∈ addedMatches cls, a.1 < n := by
  intro a ha
  obtain ⟨call, hc, ha⟩ := mem_flatMap.mp ha
  obtain ⟨m, -, rfl⟩ := mem_map.mp ha
  exact hcal call hc

theorem output_timely (hn : 2 ≤ n) (hcal : ∀ call ∈ cls, call.1 < n)
    (h : (newMerger n).run cls = .ok (lm, outs)) (hi : outs[i]? = some output) (key : Key) :
    key ∈ output.map Match.key ↔
      (∀ s < n, AddedBy (addedMatches (cls.take (i + 1))) s key) ∧
        ¬ ∀ s < n, AddedBy (addedMatches (cls.take i)) s key := by
  have hpre : ∀ j, ∃ lm' : Merger B,
      Invariant n (addedMatches (cls.take j)) (outs.take j).flatten lm' := by
    intro j
    obtain ⟨lm', hrun⟩ := run_take h j
    exact ⟨lm', run_returned hn (fun call hc => hcal call (mem_of_mem_take hc)) hrun⟩
  obtain ⟨lm₀, hbef⟩ := hpre i
  obtain ⟨lm₁, haft⟩ := hpre (i + 1)
  have hspl : (outs.take (i + 1)).flatten = (outs.take i).flatten ++ output := by
    rw [take_add_one, hi, Option.toList_some, flatten_append, flatten_singleton]
  have hon := haft.once
  rw [← hbef.returned_iff hn, ← haft.returned_iff hn]
  rw [hspl, map_append] at hon ⊢
  rw [nodup_append] at hon
  rw [mem_append]
  constructor
  · intro hkey
    exact ⟨.inr hkey, fun hkey' => hon.2.2 key hkey' key hkey rfl⟩
  · rintro ⟨hkey, hnot⟩
    exact hkey.resolve_left hnot

/-- Every execution returns the intersection of the sources, each key with the last source that
adds it, and leaves the rest of their union in the merger. -/
theorem merge_exact (hn : 2 ≤ n) (calls : List (ℕ × List Match))
    (hcalls : ∀ call ∈ calls, call.1 < n) :
    ∃ (lm : Merger B) (outputs : List (List Match)), (newMerger n).run calls = .ok (lm, outputs) ∧
      outputs.length = calls.length ∧ MergedExactly n calls lm outputs := by
  obtain ⟨lm, outputs, h, hlen, -⟩ := run_invariant (B := B) (initial_invariant n) hn calls hcalls
  have hinv := run_returned hn hcalls h
  refine ⟨lm, outputs, h, hlen, hinv.once, hinv.returned_iff hn,
    fun i output hi => output_timely hn hcalls h hi, unsentTracked_exists lm,
    fun res hres => ⟨hinv.unsent_nodup hres, hinv.unsent_iff hres⟩,
    fun res hres => hinv.union hn hres, ?_⟩
  intro hon fm hfm
  have hkey : fm.key ∈ outputs.flatten.map Match.key := mem_map.mpr ⟨_, hfm, rfl⟩
  obtain ⟨fil, hsrc, hpm⟩ := filesFor_perm hon (addedMatches_bound hcalls)
    ((hinv.returned_iff hn fm.key).mp hkey)
  obtain ⟨v, hlk, -, hv⟩ := hinv.stored _ hfm
  have hh := hinv.holds hon _ _ _ hlk hv
  refine ⟨fil, hsrc, ?_, ?_⟩
  · rw [hh.chunkMatches]
    have := hpm.flatMap_right fun a => a.2.chunkMatches
    rwa [flatMap_map] at this
  · rw [hh.symbols]
    have := hpm.flatMap_right fun a => a.2.symbols
    rwa [flatMap_map] at this

/-- A length and the bits. -/
instance : BitSets (ℕ × (ℕ → Bool)) where
  new n := (n, fun _ => false)
  set b i := (max b.1 (i + 1), Function.update b.2 i true)
  test b i := b.2 i
  len b := b.1
  count b := (List.range b.1).countP b.2
  all b := (List.range b.1).all b.2

instance : LawfulBitSets (ℕ × (ℕ → Bool)) where
  new_len _ := rfl
  new_test _ _ := rfl
  set_len b i hi := Nat.max_eq_left hi
  set_test b i j := by
    by_cases hj : j = i <;> simp [BitSets.test, BitSets.set, hj]
  all_iff b := by simp [BitSets.all, BitSets.len, BitSets.test]

/-- Two sources find the same file and the first one also a repository. -/
theorem shared_file_merged :
    let chunk : ChunkMatch := ⟨bytes "foo", ⟨0, 0, 0⟩, [⟨⟨0, 0, 0⟩, ⟨3, 0, 3⟩⟩]⟩
    let fm : FileMatch := ⟨⟨none, ⟨1, bytes "r"⟩, bytes "c", bytes "a.go"⟩, [chunk], [], [], false⟩
    let repo : RepoMatch := ⟨bytes "r", 1, [], [], []⟩
    let calls := [(0, [.file fm, .repo repo]), (1, [.file fm])]
    ∃ (lm : Merger (ℕ × (ℕ → Bool))) (outputs : List (List Match)),
      (newMerger 2).run calls = .ok (lm, outputs) ∧ outputs.length = calls.length ∧
        MergedExactly 2 calls lm outputs :=
  merge_exact (Nat.le_refl 2) _ (by decide)

/-- The stream that `AndJob` and `OrJob` give to their children: every event goes through the
merger, and is sent on if it has results or statistics. -/
def Merger.mergeEvents (lm : Merger B) : List (ℕ × SearchEvent) →
    Except Panic (Merger B × List SearchEvent)
  | [] => .ok (lm, [])
  | (child, event) :: rest =>
    match lm.addMatches event.results child with
    | .error e => .error e
    | .ok (lm', results) =>
      let sent := if 0 < results.length || !event.stats.zero then [⟨results, event.stats⟩] else []
      (lm'.mergeEvents rest).map fun r => (r.1, sent ++ r.2)

def eventCalls (events : List (ℕ × SearchEvent)) : List (ℕ × List Match) :=
  events.map fun e => (e.1, e.2.results)

theorem mergeEvents_invariant (h : Invariant n added ret lm) (hn : 2 ≤ n)
    (hes : ∀ e ∈ es, e.1 < n) :
    ∃ lm' sent, lm.mergeEvents es = .ok (lm', sent) ∧
      Invariant n (added ++ addedMatches (eventCalls es))
        (ret ++ sent.flatMap SearchEvent.results) lm' := by
  induction es generalizing added ret lm with
  | nil => exact ⟨lm, [], rfl, by simpa [addedMatches, eventCalls] using h⟩
  | cons e rest ih =>
    obtain ⟨lm₁, str, hadd, h₁⟩ := addMatches_invariant h hn (hes e (by simp))
    obtain ⟨lm₂, sent, hrs, h₂⟩ := ih h₁ (forall_mem_cons.mp hes).2
    refine ⟨lm₂, _, by rw [Merger.mergeEvents, hadd]; simp only [hrs]; rfl, ?_⟩
    have hstr : (if 0 < str.length || !e.2.stats.zero then [⟨str, e.2.stats⟩] else []).flatMap
        SearchEvent.results = str := by
      split <;> simp_all
    rw [flatMap_append, hstr]
    simpa [addedMatches, eventCalls] using h₂

inductive Combinator where
  | and
  | or

/-- A search that sends some events, or what `NewAndJob` and `NewOrJob` make of jobs. -/
inductive Job where
  | search (events : List SearchEvent)
  | combine (c : Combinator) (n : ℕ) (jobs : Fin n → Job)

/-- `OrJob` sends what is left in the merger when its children have returned. -/
def Combinator.rest : Combinator → List Match → List SearchEvent
  | .and, _ => []
  | .or, unsent => if 0 < unsent.length then [⟨unsent, {}⟩] else []

def numbered (sub : Fin n → List SearchEvent) : List (ℕ × SearchEvent) :=
  (finRange n).flatMap fun i => (sub i).map fun e => (i.val, e)

variable (B) in
/-- What a job sends. The events of its children are merged in any order. -/
inductive Job.Run : Job → List SearchEvent → Prop where
  | search : Run (.search events) events
  | noop {jobs : Fin 0 → Job} : Run (.combine c 0 jobs) []
  | only {jobs : Fin 1 → Job} (h : Run (jobs 0) events) : Run (.combine c 1 jobs) events
  | merge {lm : Merger B} {jobs : Fin (n + 2) → Job} {sub : Fin (n + 2) → List SearchEvent}
      (h : ∀ i, Run (jobs i) (sub i)) (hes : es.Perm (numbered sub))
      (hrun : (newMerger (n + 2)).mergeEvents es = .ok (lm, sent))
      (hres : lm.UnsentTracked unsent) : Run (.combine c (n + 2) jobs) (sent ++ c.rest unsent)

def sentKeys (events : List SearchEvent) : List Key :=
  (events.flatMap SearchEvent.results).map Match.key

def Job.Finds (key : Key) : Job → Prop
  | .search events => key ∈ sentKeys events
  | .combine .and n jobs => 0 < n ∧ ∀ i, (jobs i).Finds key
  | .combine .or _ jobs => ∃ i, (jobs i).Finds key

theorem numbered_invariant {sub : Fin (n + 2) → List SearchEvent} (h : es.Perm (numbered sub)) :
    ∃ (lm : Merger B) (sent : List SearchEvent),
      (newMerger (n + 2)).mergeEvents es = .ok (lm, sent) ∧
      Invariant (n + 2) (addedMatches (eventCalls es)) (sent.flatMap SearchEvent.results) lm := by
  have hes : ∀ e ∈ es, e.1 < n + 2 := by
    intro e he
    simp only [h.mem_iff, numbered, mem_flatMap, mem_map] at he
    obtain ⟨i, -, e', -, rfl⟩ := he
    exact i.isLt
  obtain ⟨lm, sent, hrun, hinv⟩ :=
    mergeEvents_invariant (B := B) (initial_invariant (n + 2)) (by omega) hes
  exact ⟨lm, sent, hrun, by simpa using hinv⟩

theorem addedBy_numbered {sub : Fin n → List SearchEvent} (h : es.Perm (numbered sub)) :
    AddedBy (addedMatches (eventCalls es)) s key ↔ ∃ i, i.val = s ∧ key ∈ sentKeys (sub i) := by
  simp only [AddedBy, addedMatches, callMatches, eventCalls, numbered, sentKeys, mem_flatMap,
    mem_map, h.mem_iff]
  constructor
  · rintro ⟨m, ⟨_, ⟨_, ⟨i, -, e, he, rfl⟩, rfl⟩, m', hm, heq⟩, rfl⟩
    cases heq
    exact ⟨i, rfl, m, ⟨e, he, hm⟩, rfl⟩
  · rintro ⟨i, rfl, m, ⟨e, he, hm⟩, rfl⟩
    exact ⟨m, ⟨_, ⟨_, ⟨i, mem_finRange i, e, he, rfl⟩, rfl⟩, m, hm, rfl⟩, rfl⟩

theorem Job.run_exists (j : Job) : ∃ out, j.Run B out := by
  induction j with
  | search es => exact ⟨es, .search⟩
  | combine c n jobs ih =>
    choose sub hsub using ih
    rcases n with _ | _ | n
    · exact ⟨[], .noop⟩
    · exact ⟨_, .only (hsub 0)⟩
    · obtain ⟨lm, sent, hrun, -⟩ := numbered_invariant (B := B) (.refl (numbered sub))
      obtain ⟨res, hres⟩ := unsentTracked_exists lm
      exact ⟨_, .merge hsub (.refl _) hrun hres⟩

/-- Every tree of jobs runs and finds what it stands for, each match once if the root merges. -/
theorem Job.run_exact (j : Job) : (∃ out, j.Run B out) ∧ ∀ out, j.Run B out →
    (∀ key, key ∈ sentKeys out ↔ j.Finds key) ∧
      ∀ c n jobs, j = .combine c (n + 2) jobs → (sentKeys out).Nodup := by
  refine ⟨j.run_exists, fun out h => ?_⟩
  induction h with
  | search => exact ⟨fun _ => Iff.rfl, by simp⟩
  | @noop c jobs => cases c <;> simp [Finds, sentKeys]
  | @only _ c jobs h ih => cases c <;> simp [Finds, ih.1]
  | @merge _ es sent unsent c _ jobs sub h hes hrun hres ih =>
    obtain ⟨lm, sent', hrun', hinv⟩ := numbered_invariant (B := B) hes
    rw [hrun] at hrun'
    cases hrun'
    have hfd := fun i => (ih i).1
    cases c with
    | and =>
      rw [Combinator.rest, append_nil]
      refine ⟨fun key => (hinv.returned_iff (by omega) key).trans ?_, fun _ _ _ _ => hinv.once⟩
      simp only [Finds, addedBy_numbered hes, hfd]
      refine ⟨fun hall => ⟨by omega, fun i => ?_⟩, fun hall s hs => ⟨⟨s, hs⟩, rfl, hall.2 _⟩⟩
      obtain ⟨i', hi, hf⟩ := hall i i.isLt
      rwa [Fin.ext hi] at hf
    | or =>
      have hre : sentKeys (sent ++ Combinator.or.rest unsent) =
          (sent.flatMap SearchEvent.results ++ unsent).map Match.key := by
        cases unsent <;> simp [sentKeys, Combinator.rest]
      obtain ⟨hon, huni⟩ := hinv.union (by omega) hres
      rw [hre]
      refine ⟨fun key => (huni key).trans ?_, fun _ _ _ _ => hon⟩
      simp [Finds, Added, addedBy_numbered hes, hfd]

/-- Two searches that find the same repository. -/
theorem shared_repo_found :
    let repo : Match := .repo ⟨bytes "r", 1, [], [], []⟩
    let j : Job := .combine .and 2 fun _ => .search [⟨[repo], {}⟩]
    ∃ out, j.Run (ℕ × (ℕ → Bool)) out ∧ repo.key ∈ sentKeys out ∧ (sentKeys out).Nodup := by
  intro repo j
  obtain ⟨⟨out, h⟩, hall⟩ := Job.run_exact (B := ℕ × (ℕ → Bool)) j
  obtain ⟨hkeys, hnd⟩ := hall out h
  refine ⟨out, h, (hkeys repo.key).mpr ⟨by decide, fun _ => ?_⟩, hnd _ _ _ rfl⟩
  simp [Job.Finds, sentKeys]

end ResultMerger
