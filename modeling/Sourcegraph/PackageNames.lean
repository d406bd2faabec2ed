import Sourcegraph.GoStrings

/-! # Names of packages and symbols

Packages are told apart by a key in which their parts are joined, symbols by a name in which only
the identifier is quoted. -/
namespace PackageNames

open GoStrings List

structure Moniker where
  scheme : Bytes
  identifier : Bytes
  packageInformationID : ℤ

structure PackageInformation where
  manager : Bytes
  name : Bytes
  version : Bytes

structure Package where
  scheme : Bytes
  manager : Bytes
  name : Bytes
  version : Bytes
  deriving DecidableEq

/-- The data of absent ids is zero; the sets of monikers are listed in the order of `Each`. -/
structure State where
  monikerData : ℤ → Moniker
  packageInformationData : ℤ → PackageInformation
  exportedMonikers : List ℤ
  importedMonikers : List ℤ
  implementedMonikers : List ℤ

def makeKey (parts : List Bytes) : Bytes := intercalate [58] parts

def Package.key (p : Package) : Bytes := makeKey [p.scheme, p.name, p.version]

def State.package (s : State) (id : ℤ) : Package :=
  let source := s.monikerData id
  let packageInfo := s.packageInformationData source.packageInformationID
  ⟨source.scheme, [], packageInfo.name, packageInfo.version⟩

abbrev Uniques := AList fun _ : Bytes => Package

def Uniques.values (m : Uniques) : List Package := m.entries.map (·.2)

def gatherPackages (s : State) : List Package :=
  Uniques.values
    (s.exportedMonikers.foldl (fun m id => m.insert (s.package id).key (s.package id)) ∅)

/-- The identifiers collected with a reference are not returned. -/
def collect (s : State) (defs : List Package) (m : Uniques) (monikers : List ℤ) : Uniques :=
  monikers.foldl (fun m id => if (s.package id).key ∈ defs.map Package.key then m
    else m.insert (s.package id).key (s.package id)) m

def gatherPackageReferences (s : State) (defs : List Package) : List Package :=
  Uniques.values (collect s defs (collect s defs ∅ s.importedMonikers) s.implementedMonikers)

def quoted (identifier : Bytes) : Bytes :=
  identifier.flatMap fun b => if b = 96 then [96, 96] else [b]

/-- The name that `convertRange` gives to a moniker. -/
def symbolName (m : Moniker) (p : PackageInformation) : Bytes :=
  let manager := if p.manager = [] then [46] else p.manager
  m.scheme ++ 32 :: (manager ++ 32 :: (p.name ++ 32 :: (p.version ++ 32 :: 96 ::
    (quoted m.identifier ++ [96, 46]))))

def exported (s : State) : List Package := s.exportedMonikers.map s.package

def referenced (s : State) : List Package :=
  (s.importedMonikers ++ s.implementedMonikers).map s.package

/-- One of the packages with a key is kept for it. -/
structure Kept (ps kept : List Package) : Prop where
  subset : kept ⊆ ps
  covers : ∀ p ∈ ps, ∃ q ∈ kept, q.key = p.key
  unique : ∀ p ∈ kept, ∀ q ∈ kept, p.key = q.key → p = q

theorem lookup_foldl (ps : List Package) (k : Bytes) :
    (ps.foldl (fun (m : Uniques) p => m.insert p.key p) ∅).lookup k =
      ps.reverse.find? (·.key = k) := by
  induction ps using reverseRecOn with
  | nil => rfl
  | append_singleton ps p ih =>
    by_cases hk : p.key = k
    · subst hk
      simp
    · simp [AList.lookup_insert_ne (Ne.symm hk), ih, hk]

theorem foldl_kept (ps : List Package) :
    Kept ps (Uniques.values (ps.foldl (fun m p => m.insert p.key p) ∅)) := by
  have hmem : ∀ p, p ∈ Uniques.values (ps.foldl (fun m p => m.insert p.key p) ∅) ↔
      ∃ k, ps.reverse.find? (·.key = k) = some p := by
    simp only [← lookup_foldl, ← Option.mem_def, AList.mem_lookup_iff]
    simp [Uniques.values]
  have hkey : ∀ {k p}, ps.reverse.find? (·.key = k) = some p → p.key = k := fun h => by
    simpa using find?_some h
  constructor
  · intro p hp
    obtain ⟨k, hk⟩ := (hmem p).mp hp
    exact mem_reverse.mp (mem_of_find?_eq_some hk)
  · intro p hp
    have hso : (ps.reverse.find? (·.key = p.key)).isSome :=
      find?_isSome.mpr ⟨p, mem_reverse.mpr hp, by simp⟩
    obtain ⟨q, hq⟩ := Option.isSome_iff_exists.mp hso
    exact ⟨q, (hmem q).mpr ⟨_, hq⟩, hkey hq⟩
  · intro p hp q hq heq
    obtain ⟨k, hk⟩ := (hmem p).mp hp
    obtain ⟨k', hk'⟩ := (hmem q).mp hq
    rw [← hkey hk, heq, hkey hk', hk'] at hk
    exact (Option.some.inj hk).symm

theorem gatherPackages_kept (s : State) : Kept (exported s) (gatherPackages s) := by
  have h := foldl_kept (exported s)
  rwa [exported, foldl_map] at h

theorem gatherPackageReferences_kept (s : State) (defs : List Package) :
    Kept ((referenced s).filter (·.key ∉ defs.map Package.key))
      (gatherPackageReferences s defs) := by
  have h := foldl_kept ((referenced s).filter (·.key ∉ defs.map Package.key))
  simp only [foldl_filter, decide_eq_true_eq, ite_not] at h
  rwa [referenced, foldl_map, foldl_append] at h

theorem cut_space {a a' : Bytes} (ha : 32 ∉ a) (ha' : 32 ∉ a')
    (h : a ++ 32 :: b = a' ++ 32 :: b') : a = a' ∧ b = b' := by
  induction a generalizing a' with
  | nil => cases a' <;> simp_all
  | cons c a ih =>
    rw [mem_cons, not_or] at ha
    cases a' with
    | nil => exact absurd (cons.inj h).1.symm ha.1
    | cons d a' =>
      rw [mem_cons, not_or] at ha'
      obtain ⟨rfl, hab⟩ := cons.inj h
      obtain ⟨rfl, hb⟩ := ih ha.2 ha'.2 hab
      exact ⟨rfl, hb⟩

theorem quoted_injective : Function.Injective quoted := by
  intro a
  induction a with
  | nil =>
    intro b h
    cases b with
    | nil => rfl
    | cons d b => by_cases hd : d = 96 <;> simp [quoted, hd] at h
  | cons c a ih =>
    intro b h
    cases b with
    | nil => by_cases hc : c = 96 <;> simp [quoted, hc] at h
    | cons d b =>
      by_cases hc : c = 96 <;> by_cases hd : d = 96 <;> simp [quoted, hc, hd] at h
      · rw [hc, hd, ih h]
      · exact absurd h.1.symm hd
      · rw [h.1, ih h.2]

/-- Without spaces, and not with an empty manager and a dot. -/
structure Plain (m m' : Moniker) (p p' : PackageInformation) : Prop where
  spaces : ∀ part ∈ [m.scheme, p.manager, p.name, p.version, m'.scheme, p'.manager, p'.name,
    p'.version], 32 ∉ part
  managers : ¬ (p.manager = [] ∧ p'.manager = [46]) ∧ ¬ (p'.manager = [] ∧ p.manager = [46])

theorem symbolName_parts (hp : Plain m m' p p') (h : symbolName m p = symbolName m' p') :
    m.scheme = m'.scheme ∧ p.manager = p'.manager ∧ p.name = p'.name ∧ p.version = p'.version ∧
      m.identifier = m'.identifier := by
  have hs := hp.spaces
  simp only [forall_mem_cons] at hs
  obtain ⟨h1, h2, h3, h4, h5, h6, h7, h8, -⟩ := hs
  have hma : ∀ {x : Bytes}, 32 ∉ x → 32 ∉ if x = [] then [46] else x := fun hx => by
    split
    · decide
    · exact hx
  obtain ⟨hsc, h⟩ := cut_space h1 h5 h
  obtain ⟨hmgr, h⟩ := cut_space (hma h2) (hma h6) h
  obtain ⟨hnm, h⟩ := cut_space h3 h7 h
  obtain ⟨hve, h⟩ := cut_space h4 h8 h
  have hid := quoted_injective (append_cancel_right (cons.inj h).2)
  refine ⟨hsc, ?_, hnm, hve, hid⟩
  by_cases hnil : p.manager = [] <;> by_cases hnil' : p'.manager = []
  · rw [hnil, hnil']
  · rw [if_pos hnil, if_neg hnil'] at hmgr
    exact absurd ⟨hnil, hmgr.symm⟩ hp.managers.1
  · rw [if_neg hnil, if_pos hnil'] at hmgr
    exact absurd ⟨hnil', hmgr⟩ hp.managers.2
  · rwa [if_neg hnil, if_neg hnil'] at hmgr

/-- Packages are kept apart if and only if their keys do so. Symbols are, if their parts are
plain. -/
theorem packages_distinct_iff (s : State) :
    (((∀ p, p ∈ gatherPackages s ↔ p ∈ exported s) ∧
      ∀ p, p ∈ gatherPackageReferences s (gatherPackages s) ↔
        p ∈ referenced s ∧ p ∉ exported s) ↔
      ∀ p ∈ exported s ++ referenced s, ∀ q ∈ exported s ++ referenced s,
        p.key = q.key → p = q) ∧
    ∀ m m' p p', Plain m m' p p' → symbolName m p = symbolName m' p' →
      m.scheme = m'.scheme ∧ p.manager = p'.manager ∧ p.name = p'.name ∧
        p.version = p'.version ∧ m.identifier = m'.identifier := by
  refine ⟨?_, fun _ _ _ _ => symbolName_parts⟩
  have hg := gatherPackages_kept s
  have hr := gatherPackageReferences_kept s (gatherPackages s)
  have hout : ∀ p, p ∈ (referenced s).filter (·.key ∉ (gatherPackages s).map Package.key) ↔
      p ∈ referenced s ∧ ∀ q ∈ exported s, q.key ≠ p.key := by
    intro p
    simp only [mem_filter, decide_eq_true_eq, mem_map, not_exists, not_and]
    refine and_congr_right fun _ => ⟨fun h q hq heq => ?_, fun h q hq => h q (hg.subset hq)⟩
    obtain ⟨q', hq', hkey⟩ := hg.covers q hq
    exact h q' hq' (hkey.trans heq)
  constructor
  · rintro ⟨hexp, href⟩ p hp q hq heq
    have hca : ∀ {p}, p ∈ exported s ++ referenced s → p ∈ exported s ∨
        p ∈ gatherPackageReferences s (gatherPackages s) := by
      intro p hp
      rw [href]
      rw [mem_append] at hp
      tauto
    have hap : ∀ {p q}, p ∈ exported s →
        q ∈ gatherPackageReferences s (gatherPackages s) → p.key ≠ q.key := fun hp hq =>
      ((hout _).mp (hr.subset hq)).2 _ hp
    rcases hca hp with hp | hp
    · rcases hca hq with hq | hq
      · exact hg.unique p ((hexp p).mpr hp) q ((hexp q).mpr hq) heq
      · exact absurd heq (hap hp hq)
    rcases hca hq with hq | hq
    · exact absurd heq.symm (hap hq hp)
    · exact hr.unique p hp q hq heq
  · intro h
    refine ⟨fun p => ⟨fun hp => hg.subset hp, fun hp => ?_⟩, fun p => ⟨fun hp => ?_, fun hp => ?_⟩⟩
    · obtain ⟨q, hq, hkey⟩ := hg.covers p hp
      exact h q (mem_append_left _ (hg.subset hq)) p (mem_append_left _ hp) hkey ▸ hq
    · obtain ⟨hp, hne⟩ := (hout p).mp (hr.subset hp)
      exact ⟨hp, fun hexp => hne p hexp rfl⟩
    · have hne : ∀ q ∈ exported s, q.key ≠ p.key := fun q hq hkey => hp.2
        (h q (mem_append_left _ hq) p (mem_append_right _ hp.1) hkey ▸ hq)
      obtain ⟨q, hq, hkey⟩ := hr.covers p ((hout p).mpr ⟨hp.1, hne⟩)
      have hq' := ((hout q).mp (hr.subset hq)).1
      exact h q (mem_append_right _ hq') p (mem_append_right _ hp.1) hkey ▸ hq

/-- Two packages with a colon in different parts. -/
def colons : State where
  monikerData id := if id = 1 then ⟨bytes "a:b", [], 1⟩ else ⟨bytes "a", [], 2⟩
  packageInformationData id :=
    if id = 1 then ⟨[], bytes "c", bytes "d"⟩ else ⟨[], bytes "b:c", bytes "d"⟩
  exportedMonikers := [1, 2]
  importedMonikers := []
  implementedMonikers := []

theorem packages_and_symbols_merged :
    (exported colons).Nodup ∧ (gatherPackages colons).length = 1 ∧
      symbolName ⟨bytes "s", bytes "i", 1⟩ ⟨[], bytes "n", bytes "v"⟩ =
        symbolName ⟨bytes "s", bytes "i", 1⟩ ⟨bytes ".", bytes "n", bytes "v"⟩ := by
  decide

end PackageNames
