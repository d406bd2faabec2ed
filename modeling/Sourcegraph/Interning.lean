import Sourcegraph.MapEntries
import Sourcegraph.GoStrings

/-! # Interned identifiers

Concurrent calls of `Intern` number the strings in the order in which they are stored. Strings that
read as integers are numbered by what they read as. -/
namespace Interning

open GoStrings List

abbrev Numbers := List (Bytes × ℤ)

/-- How far a call is: it has not begun, did not find its string, or has returned. -/
inductive Phase where
  | start
  | missed
  | done (result : Except NumError ℤ)
  deriving DecidableEq

/-- The value of an "inty" string. -/
def inty (s : Bytes) : Option ℤ := (atoi (asciiChars s)).toOption

/-- What a call of `Intern` does up to its next release of the lock. -/
def intern (raw : Bytes) (m : Numbers) : Phase → Numbers × Phase
  | .start =>
    if raw = [] then (m, .done (.ok 0))
    else if raw.head? ≠ some 34 then (m, .done (atoi (asciiChars raw)))
    else match inty raw.tail.dropLast with
      | some v => (m, .done (.ok v))
      | none => match m.lookup raw.tail.dropLast with
        | some v => (m, .done (.ok v))
        | none => (m, .missed)
  | .missed => match m.lookup raw.tail.dropLast with
    | some v => (m, .done (.ok v))
    | none => (m ++ [(raw.tail.dropLast, (m.length + 1 : ℤ))], .done (.ok (m.length + 1)))
  | .done r => (m, .done r)

structure Interner where
  m : Numbers
  calls : List (Bytes × Phase)

def quoted (s : Bytes) : Bytes := 34 :: s ++ [34]

def Interner.step (t : Interner) (i : ℕ) : Interner :=
  match t.calls[i]? with
  | none => t
  | some (s, p) => ⟨(intern (quoted s) t.m p).1, t.calls.set i (s, (intern (quoted s) t.m p).2)⟩

/-- The calls for some strings, interleaved. -/
def run (ids : List Bytes) (schedule : List ℕ) : Interner :=
  schedule.foldl Interner.step ⟨[], ids.map fun s => (s, .start)⟩

def Phase.returned (p : Phase) : Bool := p matches .done _

/-- The number of a string, once it is known. -/
def number (m : Numbers) (s : Bytes) : Option ℤ := (inty s).or (m.lookup s)

/-- What is known of the call for a string. -/
def Holds (m : Numbers) (s : Bytes) : Phase → Prop
  | .start => True
  | .missed => inty s = none
  | .done r => ∃ v, r = .ok v ∧ number m s = some v

structure Invariant (ids : List Bytes) (t : Interner) : Prop where
  keys : (t.m.map Prod.fst).Nodup
  numbers : t.m.map Prod.snd = (range t.m.length).map fun n : ℕ => (n + 1 : ℤ)
  stored : ∀ s ∈ t.m.map Prod.fst, s ∈ ids ∧ inty s = none
  strings : t.calls.map Prod.fst = ids
  calls : ∀ c ∈ t.calls, Holds t.m c.1 c.2

theorem Holds.append (h : Holds m s p) (m' : Numbers) : Holds (m ++ m') s p := by
  cases p with
  | start => trivial
  | missed => exact h
  | done r =>
    obtain ⟨v, hr, hv⟩ := h
    refine ⟨v, hr, ?_⟩
    rw [number] at hv ⊢
    rw [lookup_append, ← Option.or_assoc, hv, Option.some_or]

/-- A step keeps the numbers, or stores the next one. -/
theorem Holds.step (h : Holds m s p) (hn : intern (quoted s) m p = (m', p')) :
    Holds m' s p' ∧ (m' = m ∨
      m' = m ++ [(s, (m.length + 1 : ℤ))] ∧ m.lookup s = none ∧ inty s = none) := by
  have hs : (quoted s).tail.dropLast = s := by simp [quoted]
  cases p with
  | start =>
    rw [intern, if_neg (by simp [quoted]), if_neg (by simp [quoted]), hs] at hn
    split at hn
    · rename_i v hv
      cases hn
      exact ⟨⟨v, rfl, by rw [number, hv, Option.some_or]⟩, .inl rfl⟩
    rename_i hi
    split at hn
    · rename_i v hv
      cases hn
      exact ⟨⟨v, rfl, by rw [number, hi, hv, Option.none_or]⟩, .inl rfl⟩
    cases hn
    exact ⟨hi, .inl rfl⟩
  | missed =>
    rw [intern, hs] at hn
    split at hn
    · rename_i v hv
      cases hn
      exact ⟨⟨v, rfl, by rw [number, h, hv, Option.none_or]⟩, .inl rfl⟩
    rename_i hv
    cases hn
    refine ⟨⟨_, rfl, ?_⟩, .inr ⟨rfl, hv, h⟩⟩
    rw [number, h, lookup_append, hv]
    simp
  | done r =>
    cases hn
    exact ⟨h, .inl rfl⟩

theorem Invariant.step (h : Invariant ids t) (i : ℕ) : Invariant ids (t.step i) := by
  unfold Interner.step
  split
  · exact h
  rename_i s p hc
  have hmem := mem_of_getElem? hc
  obtain ⟨⟨m', p'⟩, hn⟩ : ∃ next, intern (quoted s) t.m p = next := ⟨_, rfl⟩
  obtain ⟨hp, hm⟩ := (h.calls _ hmem).step hn
  rw [hn]
  have hst : (t.calls.set i (s, p')).map Prod.fst = ids := by
    obtain ⟨hi, hget⟩ := List.getElem?_eq_some_iff.mp hc
    have hs : t.calls[i].1 = s := by rw [hget]
    rw [← h.strings, map_set, ← hs, ← @getElem_map _ _ Prod.fst _ _ (by simpa), set_getElem_self]
  have hca : ∀ c ∈ t.calls.set i (s, p'), Holds m' c.1 c.2 := by
    intro c hc
    rcases mem_or_eq_of_mem_set hc with hc | rfl
    · rcases hm with rfl | ⟨rfl, -⟩
      · exact h.calls c hc
      · exact (h.calls c hc).append _
    · exact hp
  rcases hm with rfl | ⟨rfl, hno, hin⟩
  · exact ⟨h.keys, h.numbers, h.stored, hst, hca⟩
  refine ⟨?_, ?_, ?_, hst, hca⟩ <;> dsimp only <;> rw [map_append]
  · refine h.keys.append (nodup_singleton s) (disjoint_singleton.mpr fun hmem => ?_)
    obtain ⟨e, he, rfl⟩ := mem_map.mp hmem
    rw [(MapEntries.mem_iff_lookup h.keys).mp he] at hno
    cases hno
  · rw [h.numbers, length_append, length_singleton, range_succ, map_append]
    rfl
  · have hs : s ∈ ids := h.strings ▸ mem_map.mpr ⟨_, hmem, rfl⟩
    exact forall_mem_append.mpr ⟨h.stored, forall_mem_singleton.mpr ⟨hs, hin⟩⟩

theorem run_invariant (ids : List Bytes) (schedule : List ℕ) :
    Invariant ids (run ids schedule) := by
  have hin : Invariant ids ⟨[], ids.map fun s => (s, .start)⟩ := by
    refine ⟨nodup_nil, rfl, by simp, by simp [Function.comp_def], fun c hc => ?_⟩
    obtain ⟨s, hs, rfl⟩ := mem_map.mp hc
    trivial
  rw [run]
  generalize Interner.mk [] _ = t at hin ⊢
  induction schedule generalizing t with
  | nil => exact hin
  | cons i schedule ih => exact ih _ (hin.step i)

/-- The numbers of the strings other than the inty ones. -/
def counted (ids : List Bytes) (v : ℤ) : Prop :=
  0 < v ∧ v ≤ (ids.filter (inty · = none)).dedup.length

/-- Inty strings have different values, of which none is zero or the number of another string. -/
def Apart (ids : List Bytes) : Prop :=
  (∀ s ∈ ids, ∀ v ∈ inty s, v ≠ 0 ∧ ¬counted ids v) ∧
    ∀ s ∈ ids, ∀ s' ∈ ids, ∀ v ∈ inty s, v ∈ inty s' → s = s'

theorem Invariant.counted_iff (h : Invariant ids t)
    (hall : ∀ s ∈ ids, ∃ v, number t.m s = some v) (v : ℤ) : counted ids v ↔ ∃ s, (s, v) ∈ t.m := by
  have hpm : (t.m.map Prod.fst).Perm (ids.filter (inty · = none)).dedup := by
    refine (perm_ext_iff_of_nodup h.keys (nodup_dedup _)).mpr fun s => ?_
    simp only [mem_dedup, mem_filter, decide_eq_true_eq]
    refine ⟨h.stored s, fun hs => ?_⟩
    obtain ⟨v, hv⟩ := hall s hs.1
    rw [number, hs.2, Option.none_or, ← MapEntries.mem_iff_lookup h.keys] at hv
    exact mem_map.mpr ⟨_, hv, rfl⟩
  have hva : (∃ s, (s, v) ∈ t.m) ↔ v ∈ t.m.map Prod.snd := by simp
  rw [hva, h.numbers, mem_map, counted, ← hpm.length_eq, length_map]
  constructor
  · rintro ⟨hpos, hle⟩
    exact ⟨(v - 1).toNat, mem_range.mpr (by omega), by omega⟩
  · rintro ⟨n, hn, rfl⟩
    have := mem_range.mp hn
    omega

theorem number_injective_iff (h : Invariant ids t)
    (hall : ∀ s ∈ ids, ∃ v, number t.m s = some v) :
    ((∀ s ∈ ids, ∀ s' ∈ ids, number t.m s = number t.m s' → s = s') ∧
      ∀ s ∈ ids, number t.m s ≠ some 0) ↔ Apart ids := by
  have hin : ∀ {s v}, inty s = some v → number t.m s = some v := fun hs => by
    rw [number, hs, Option.some_or]
  have hst : ∀ {s v}, inty s = none → (number t.m s = some v ↔ (s, v) ∈ t.m) := fun hs => by
    rw [number, hs, Option.none_or, MapEntries.mem_iff_lookup h.keys]
  constructor
  · rintro ⟨hinj, hz⟩
    refine ⟨fun s hs v hv => ⟨fun h0 => hz s hs (h0 ▸ hin hv), fun hcn => ?_⟩,
      fun s hs s' hs' v hv hv' => hinj s hs s' hs' ((hin hv).trans (hin hv').symm)⟩
    obtain ⟨s', hs'⟩ := (h.counted_iff hall v).mp hcn
    obtain ⟨hmem, hnon⟩ := h.stored s' (mem_map.mpr ⟨_, hs', rfl⟩)
    rw [hinj s hs s' hmem ((hin hv).trans ((hst hnon).mpr hs').symm), hnon] at hv
    cases hv
  · rintro ⟨hap, hinj⟩
    have hca : ∀ {s v}, number t.m s = some v → inty s = some v ∨ (s, v) ∈ t.m := by
      intro s v hv
      cases hs : inty s with
      | some w => exact .inl ((hin hs).symm.trans hv)
      | none => exact .inr ((hst hs).mp hv)
    have hcn : ∀ {s v}, (s, v) ∈ t.m → counted ids v := fun hm =>
      (h.counted_iff hall _).mpr ⟨_, hm⟩
    refine ⟨fun s hs s' hs' heq => ?_, fun s hs hz => ?_⟩
    · obtain ⟨v, hv⟩ := hall s hs
      rcases hca hv with hi | hm
      · rcases hca (heq ▸ hv) with hi' | hm'
        · exact hinj s hs s' hs' v hi hi'
        · exact absurd (hcn hm') (hap s hs v hi).2
      rcases hca (heq ▸ hv) with hi' | hm'
      · exact absurd (hcn hm) (hap s' hs' v hi').2
      have hno : (t.m.map Prod.snd).Nodup := by
        rw [h.numbers]
        exact nodup_range.map fun a b hab => by omega
      exact congrArg Prod.fst (inj_on_of_nodup_map hno hm hm' rfl)
    · rcases hca hz with hi | hm
      · exact (hap s hs 0 hi).1 rfl
      · exact absurd (hcn hm).1 (by omega)

/-- Once all calls have returned, their numbers agree exactly for equal strings and none is zero,
if and only if the inty strings are apart from each other and from the count. -/
theorem intern_injective_iff (ids : List Bytes) (schedule : List ℕ)
    (h : ∀ c ∈ (run ids schedule).calls, c.2.returned = true) :
    ((∀ c ∈ (run ids schedule).calls, ∀ c' ∈ (run ids schedule).calls, c.2 = c'.2 ↔ c.1 = c'.1) ∧
      ∀ c ∈ (run ids schedule).calls, c.2 ≠ .done (.ok 0)) ↔ Apart ids := by
  have hinv := run_invariant ids schedule
  generalize run ids schedule = t at h hinv ⊢
  obtain rfl := hinv.strings
  have hca : ∀ c ∈ t.calls, ∃ v, c.2 = .done (.ok v) ∧ number t.m c.1 = some v := by
    rintro ⟨s, p⟩ hc
    have hp := hinv.calls _ hc
    cases p with
    | done r =>
      obtain ⟨v, rfl, hv⟩ := hp
      exact ⟨v, rfl, hv⟩
    | start => cases h _ hc
    | missed => cases h _ hc
  have hph : ∀ c ∈ t.calls, ∀ v, c.2 = .done (.ok v) ↔ number t.m c.1 = some v := by
    intro c hc v
    obtain ⟨w, hp, hw⟩ := hca c hc
    simp [hp, hw]
  rw [← number_injective_iff hinv (forall_mem_map.mpr fun c hc => (hca c hc).imp fun _ => And.right)]
  simp only [forall_mem_map]
  refine and_congr (forall₂_congr fun c hc => forall₂_congr fun c' hc' => ?_)
    (forall₂_congr fun c hc => not_congr (hph c hc 0))
  obtain ⟨v, hv, hn⟩ := hca c' hc'
  rw [hv, hph c hc, hn]
  exact ⟨Iff.mp, fun hinj => ⟨hinj, fun heq => heq ▸ hn⟩⟩

theorem names_interned : Apart [bytes "a", bytes "b", bytes "7"] :=
  (intern_injective_iff _ [0, 1, 1, 2, 0] (by decide)).mp (by decide)

/-- A name is given the number that another string reads as. -/
theorem name_and_number_share : (run [bytes "a", bytes "1"] [0, 0, 1]).calls =
    [(bytes "a", .done (.ok 1)), (bytes "1", .done (.ok 1))] := by
  decide

end Interning
