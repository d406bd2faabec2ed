import Sourcegraph.GoStrings

/-! # The paths that differ between two commits

Hybrid search asks an index of commit A for the paths that commit B has unchanged, and searches the
other ones itself. It reads them off the output of `git diff -z --name-status --no-renames A B`. -/
namespace GitDiffNameStatus

open GoStrings List

def sortStrings (paths : List Bytes) : List Bytes := paths.mergeSort fun a b => decide (a ≤ b)

def collectPaths : List Bytes → Except Fault (List Bytes × List Bytes)
  | [] => .ok ([], [])
  | [_] => .error (.panic "index out of range")
  | status :: path :: rest =>
    match status with
    | [] => .error (.panic "index out of range")
    | letter :: _ => (collectPaths rest).map fun r =>
      if letter = 68 then (path :: r.1, r.2)
      else if letter = 77 then (path :: r.1, path :: r.2)
      else if letter = 65 then (r.1, path :: r.2)
      else r

def parseGitDiffNameStatus (out : Bytes) : Except Fault (List Bytes × List Bytes) :=
  if out.length = 0 then .ok ([], [])
  else
    let slices := (out.rdropWhile fun b => b = 0).splitOn 0
    if slices.length % 2 ≠ 0 then .error (.error "uneven pairs")
    else (collectPaths slices).map fun r => (sortStrings r.1, sortStrings r.2)

inductive EntryKind where
  | file
  | executable
  | symlink
  deriving DecidableEq

structure Entry where
  kind : EntryKind
  blob : Bytes
  deriving DecidableEq

/-- The files of a commit; a path is a string without zero bytes. -/
structure Tree where
  entries : AList fun _ : Bytes => Entry
  path : ∀ p ∈ entries, p ≠ [] ∧ 0 ∉ p

def Tree.entry (t : Tree) (path : Bytes) : Option Entry := t.entries.lookup path

inductive Status where
  | added
  | deleted
  | modified
  | typeChanged
  deriving DecidableEq

def Status.letter : Status → UInt8
  | .added => 65
  | .deleted => 68
  | .modified => 77
  | .typeChanged => 84

/-- Git reports a changed type for a symbolic link that becomes a file, or the other way round,
but not for a file that becomes executable. -/
def TypeChange (a b : Entry) : Prop := ¬ (a.kind = .symlink ↔ b.kind = .symlink)

instance (a b : Entry) : Decidable (TypeChange a b) := inferInstanceAs (Decidable (¬ _))

def status : Option Entry → Option Entry → Option Status
  | none, none => none
  | none, some _ => some .added
  | some _, none => some .deleted
  | some a, some b =>
    if a = b then none else if TypeChange a b then some .typeChanged else some .modified

/-- The records of `git diff` for two trees: one for every path that differs, in any order. -/
structure NameStatus (a b : Tree) (records : List (Status × Bytes)) : Prop where
  once : (records.map Prod.snd).Nodup
  complete : ∀ s path, (s, path) ∈ records ↔ status (a.entry path) (b.entry path) = some s

def output (records : List (Status × Bytes)) : Bytes :=
  records.flatMap fun r => r.1.letter :: 0 :: (r.2 ++ [0])

def changed (a b : Tree) : List Bytes :=
  sortStrings (a.entries.keys.filter fun path => a.entry path ≠ b.entry path)

/-- What is searched: the first tree without its changed paths, and those of the second. -/
def searched (a b : Tree) (changedA changedB : List Bytes) : List (Bytes × Entry) :=
  (a.entries.entries.filter fun e => e.1 ∉ changedA).map (fun e => (e.1, e.2)) ++
    (b.entries.entries.filter fun e => e.1 ∈ changedB).map fun e => (e.1, e.2)

theorem sortStrings_perm : (sortStrings pths).Perm pths :=
  mergeSort_perm _ _

theorem sortStrings_sorted : (sortStrings pths).Pairwise (· ≤ ·) := by
  have hsrt := @List.pairwise_mergeSort Bytes (fun a b => decide (a ≤ b)) (by
      simp only [decide_eq_true_eq]
      exact fun _ _ _ h h' => List.le_trans h h')
    (by
      simp only [Bool.or_eq_true, decide_eq_true_eq]
      exact fun a b => List.le_total a b) pths
  simpa [sortStrings] using hsrt

theorem sortStrings_eq (h : pths.Perm pths') : sortStrings pths = sortStrings pths' :=
  List.Perm.eq_of_pairwise (fun _ _ _ _ => List.le_antisymm) sortStrings_sorted
    sortStrings_sorted (sortStrings_perm.trans (h.trans sortStrings_perm.symm))

theorem mem_sortStrings {path : Bytes} {pths : List Bytes} :
    path ∈ sortStrings pths ↔ path ∈ pths := sortStrings_perm.mem_iff

def fields (records : List (Status × Bytes)) : List Bytes :=
  records.flatMap fun r => [[r.1.letter], r.2]

theorem output_eq (h : recs ≠ []) : output recs = [0].intercalate (fields recs) ++ [0] := by
  induction recs with
  | nil => exact absurd rfl h
  | cons r rest ih =>
    cases rest with
    | nil => simp [output, fields, intercalate]
    | cons next rest =>
      have := ih (by simp)
      simp only [output, fields, flatMap_cons, intercalate] at this ⊢
      simp [this]

def Status.inFirst : Status → Bool
  | .deleted => true
  | .modified => true
  | .added => false
  | .typeChanged => false

def Status.inSecond : Status → Bool
  | .added => true
  | .modified => true
  | .deleted => false
  | .typeChanged => false

def pathsWhere (select : Status → Bool) (records : List (Status × Bytes)) : List Bytes :=
  (records.filter fun r => select r.1).map Prod.snd

theorem collectPaths_fields : collectPaths (fields recs) =
    .ok (pathsWhere Status.inFirst recs, pathsWhere Status.inSecond recs) := by
  induction recs with
  | nil => rfl
  | cons r rest ih =>
    obtain ⟨s, path⟩ := r
    rw [fields, flatMap_cons, ← fields]
    cases s <;> simp [collectPaths, ih, Except.map, Status.letter, pathsWhere, Status.inFirst,
      Status.inSecond]

theorem fields_length (recs : List (Status × Bytes)) : (fields recs).length = 2 * recs.length := by
  induction recs with
  | nil => rfl
  | cons r rest ih =>
    rw [fields, flatMap_cons, ← fields, length_append]
    simp only [length_cons, length_nil]
    omega

theorem parse_output (hpt : ∀ r ∈ recs, r.2 ≠ [] ∧ 0 ∉ r.2) :
    parseGitDiffNameStatus (output recs) =
      .ok (sortStrings (pathsWhere Status.inFirst recs),
        sortStrings (pathsWhere Status.inSecond recs)) := by
  by_cases hnil : recs = []
  · subst hnil
    simp [parseGitDiffNameStatus, output, pathsWhere, sortStrings]
  have hcln : ∀ fd ∈ fields recs, (0 : UInt8) ∉ fd := by
    intro fd hfd
    obtain ⟨r, hr, hmem⟩ := mem_flatMap.mp hfd
    simp only [mem_cons, not_mem_nil, or_false] at hmem
    rcases hmem with rfl | rfl
    · cases r.1 <;> simp [Status.letter]
    · exact (hpt r hr).2
  obtain ⟨fr, last, rfl⟩ : ∃ fr last, recs = fr ++ [last] :=
    ⟨_, _, (dropLast_append_getLast hnil).symm⟩
  obtain ⟨hla, hz⟩ := hpt last (by simp)
  obtain ⟨text, b, htx⟩ : ∃ text b, last.2 = text ++ [b] :=
    ⟨_, _, (dropLast_append_getLast hla).symm⟩
  have hb : b ≠ 0 := by
    rintro rfl
    simp [htx] at hz
  have hjo : [0].intercalate (fields (fr ++ [last])) =
      output fr ++ last.1.letter :: 0 :: text ++ [b] := by
    refine (append_left_inj [0]).mp ?_
    rw [← output_eq hnil]
    simp [output, htx]
  have htr : (output (fr ++ [last])).rdropWhile (fun b => b = 0) =
      [0].intercalate (fields (fr ++ [last])) := by
    rw [output_eq hnil, rdropWhile_concat_pos _ _ _ (by simp), hjo,
      rdropWhile_concat_neg _ _ _ (by simpa using hb)]
  unfold parseGitDiffNameStatus
  rw [if_neg (by simp [output]), htr, splitOn_intercalate 0 hcln (by simp [fields])]
  simp only [fields_length, collectPaths_fields, Nat.mul_mod_right, ne_eq, not_true_eq_false,
    if_false]
  rfl

theorem mem_pathsWhere (h : NameStatus a b recs) (sel : Status → Bool) (path : Bytes) :
    path ∈ pathsWhere sel recs ↔
      ∃ s, status (a.entry path) (b.entry path) = some s ∧ sel s = true := by
  rw [pathsWhere, mem_map]
  constructor
  · rintro ⟨⟨s, p⟩, hr, rfl⟩
    obtain ⟨hmem, hsel⟩ := mem_filter.mp hr
    exact ⟨s, (h.complete s p).mp hmem, hsel⟩
  · rintro ⟨s, hs, hsel⟩
    exact ⟨(s, path), mem_filter.mpr ⟨(h.complete s path).mpr hs, hsel⟩, rfl⟩

theorem pathsWhere_nodup (h : NameStatus a b recs) (sel : Status → Bool) :
    (pathsWhere sel recs).Nodup :=
  (filter_sublist.map Prod.snd).nodup h.once

theorem mem_first (h : NameStatus a b recs) (path : Bytes) :
    path ∈ pathsWhere Status.inFirst recs ↔
      ∃ x, a.entry path = some x ∧ a.entry path ≠ b.entry path ∧
        ∀ y, b.entry path = some y → ¬ TypeChange x y := by
  rw [mem_pathsWhere h]
  rcases a.entry path with _ | x <;> rcases b.entry path with _ | y
  case some.some =>
    by_cases hxy : x = y <;> by_cases hty : TypeChange x y <;>
      simp_all [status, Status.inFirst]
  all_goals simp [status, Status.inFirst]

theorem mem_second (h : NameStatus a b recs) (path : Bytes) :
    path ∈ pathsWhere Status.inSecond recs ↔
      ∃ y, b.entry path = some y ∧ b.entry path ≠ a.entry path ∧
        ∀ x, a.entry path = some x → ¬ TypeChange x y := by
  rw [mem_pathsWhere h]
  rcases a.entry path with _ | x <;> rcases b.entry path with _ | y
  case some.some =>
    rcases eq_or_ne x y with rfl | hxy
    · simp [status]
    · by_cases hty : TypeChange x y <;> simp [status, hxy, hxy.symm, hty, Status.inSecond]
  all_goals simp [status, Status.inSecond]

theorem mem_keys_iff (t : Tree) (path : Bytes) : path ∈ t.entries.keys ↔ ∃ x, t.entry path = some x := by
  rw [← AList.mem_keys, ← AList.lookup_isSome, Option.isSome_iff_exists]
  rfl

theorem mem_changed (a b : Tree) (path : Bytes) :
    path ∈ changed a b ↔ ∃ x, a.entry path = some x ∧ a.entry path ≠ b.entry path := by
  rw [changed, mem_sortStrings, mem_filter, mem_keys_iff]
  simp only [decide_eq_true_eq]
  exact ⟨fun ⟨⟨x, hx⟩, hne⟩ => ⟨x, hx, hne⟩, fun ⟨x, hx, hne⟩ => ⟨⟨x, hx⟩, hne⟩⟩

theorem record_path (h : NameStatus a b recs) : ∀ r ∈ recs, r.2 ≠ [] ∧ 0 ∉ r.2 := by
  rintro ⟨s, path⟩ hr
  have hs := (h.complete s path).mp hr
  cases ha : a.entry path with
  | some x => exact a.path path (AList.lookup_isSome.mp (by rw [← Tree.entry, ha]; rfl))
  | none =>
    cases hb : b.entry path with
    | some y => exact b.path path (AList.lookup_isSome.mp (by rw [← Tree.entry, hb]; rfl))
    | none => simp [ha, hb, status] at hs

def NoTypeChange (a b : Tree) : Prop :=
  ∀ path x y, a.entry path = some x → b.entry path = some y → ¬ TypeChange x y

theorem TypeChange.ne (h : TypeChange x y) : x ≠ y := by
  rintro rfl
  exact h Iff.rfl

theorem sort_eq_changed {R : Entry → Entry → Prop} (hnd : pths.Nodup)
    (hmem : ∀ path, path ∈ pths ↔ ∃ x, a.entry path = some x ∧ a.entry path ≠ b.entry path ∧
      ∀ y, b.entry path = some y → R x y)
    (hno : ∀ path x y, a.entry path = some x → b.entry path = some y → R x y) :
    sortStrings pths = changed a b := by
  apply sortStrings_eq
  rw [perm_ext_iff_of_nodup hnd (a.entries.keys_nodup.filter _)]
  intro path
  rw [hmem, ← @mem_sortStrings path (a.entries.keys.filter _), ← changed, mem_changed]
  exact ⟨fun ⟨x, hx, hne, _⟩ => ⟨x, hx, hne⟩,
    fun ⟨x, hx, hne⟩ => ⟨x, hx, hne, fun y hy => hno path x y hx hy⟩⟩

/-- The changed paths are read off the output if and only if there is no type change. -/
theorem parse_changed_iff (h : NameStatus a b recs) :
    parseGitDiffNameStatus (output recs) = .ok (changed a b, changed b a) ↔ NoTypeChange a b := by
  rw [parse_output (record_path h), Except.ok.injEq, Prod.mk.injEq]
  constructor
  · rintro ⟨hf, -⟩ path x y hx hy hty
    have hmem : path ∈ changed a b := by
      rw [mem_changed, hx, hy]
      exact ⟨x, rfl, fun he => hty.ne (Option.some.inj he)⟩
    rw [← hf, mem_sortStrings, mem_first h] at hmem
    obtain ⟨x', hx', -, hnot⟩ := hmem
    rw [hx] at hx'
    cases hx'
    exact hnot y hy hty
  · intro hno
    exact ⟨sort_eq_changed (pathsWhere_nodup h _) (mem_first h) hno,
      sort_eq_changed (pathsWhere_nodup h _) (mem_second h) fun path y x hy hx => hno path x y hx hy⟩

/-- Every path of the second tree is searched once, with its entry there. -/
def Partitions (a b : Tree) (changedA changedB : List Bytes) : Prop :=
  (searched a b changedA changedB).Perm (b.entries.entries.map fun e => (e.1, e.2))

theorem mem_pairs {t : Tree} :
    (⟨path, x⟩ : Sigma fun _ : Bytes => Entry) ∈ t.entries.entries ↔ t.entry path = some x :=
  AList.mem_lookup_iff.symm

theorem pairs_nodup (t : Tree) (sel : (Sigma fun _ : Bytes => Entry) → Bool) :
    ((t.entries.entries.filter sel).map fun e => (e.1, e.2)).Nodup := by
  apply Nodup.of_map Prod.fst
  rw [map_map]
  exact (filter_sublist.map Sigma.fst).nodup t.entries.keys_nodup

theorem changed_partitions : Partitions a b (changed a b) (changed b a) := by
  have hsm : ∀ path x, a.entry path = some x → path ∉ changed a b → b.entry path = some x := by
    intro path x hx hnot
    by_contra hne
    exact hnot ((mem_changed a b path).mpr ⟨x, hx, fun he => hne (he ▸ hx)⟩)
  have hall := pairs_nodup b fun _ => true
  rw [filter_true] at hall
  rw [Partitions, perm_ext_iff_of_nodup ?_ hall]
  · rintro ⟨path, x⟩
    simp only [searched, mem_append, mem_map, mem_filter, decide_eq_true_eq]
    constructor
    · rintro (⟨⟨p, y⟩, ⟨hmem, hnot⟩, he⟩ | ⟨⟨p, y⟩, ⟨hmem, -⟩, he⟩)
      · cases he
        exact ⟨_, mem_pairs.mpr (hsm p y (mem_pairs.mp hmem) hnot), rfl⟩
      · exact ⟨_, hmem, he⟩
    · rintro ⟨⟨p, y⟩, hmem, he⟩
      cases he
      have hb := mem_pairs.mp hmem
      by_cases hcha : p ∈ changed b a
      · exact .inr ⟨_, ⟨hmem, hcha⟩, rfl⟩
      have heq : b.entry p = a.entry p := by
        by_contra hne
        exact hcha ((mem_changed b a p).mpr ⟨y, hb, hne⟩)
      refine .inl ⟨_, ⟨mem_pairs.mpr (heq ▸ hb), fun hin => ?_⟩, rfl⟩
      obtain ⟨x, -, hne⟩ := (mem_changed a b p).mp hin
      exact hne heq.symm
  · refine nodup_append.mpr ⟨pairs_nodup a _, pairs_nodup b _, ?_⟩
    rintro ⟨path, x⟩ hf _ hsnd rfl
    obtain ⟨⟨p, y⟩, hp, he⟩ := mem_map.mp hf
    cases he
    obtain ⟨⟨q, z⟩, hq, he⟩ := mem_map.mp hsnd
    cases he
    simp only [mem_filter, decide_eq_true_eq] at hp hq
    obtain ⟨-, -, hne⟩ := (mem_changed b a p).mp hq.2
    exact hne ((mem_pairs.mp hq.1).trans (mem_pairs.mp hp.1).symm)

/-- The output is always read, and it partitions the commits if and only if no entry turns from
a symbolic link into a file or from a file into a symbolic link. -/
theorem partition_iff_no_type_change {records : List (Status × Bytes)} {a b : Tree}
    (h : NameStatus a b records) :
    ∃ changedA changedB, parseGitDiffNameStatus (output records) = .ok (changedA, changedB) ∧
      (changedA = changed a b ∧ changedB = changed b a ∧ Partitions a b changedA changedB ↔
        NoTypeChange a b) := by
  have hiff := parse_changed_iff h
  rw [parse_output (record_path h)] at hiff
  refine ⟨_, _, parse_output (record_path h), ?_⟩
  rw [← hiff, Except.ok.injEq, Prod.mk.injEq]
  constructor
  · rintro ⟨hf, hsnd, -⟩
    exact ⟨hf, hsnd⟩
  · rintro ⟨hf, hsnd⟩
    rw [hf, hsnd]
    exact ⟨rfl, rfl, changed_partitions⟩

def singleFile (path : Bytes) (hpath : path ≠ [] ∧ 0 ∉ path) (entry : Entry) : Tree where
  entries := AList.singleton path entry
  path := by
    intro p hp
    rw [AList.mem_keys, AList.keys_singleton, List.mem_singleton] at hp
    exact hp ▸ hpath

theorem singleFile_entry (hpt : path ≠ [] ∧ 0 ∉ path) (en : Entry) :
    (singleFile path hpt en).entry p = if path = p then some en else none := by
  by_cases hp : path = p
  · subst hp
    simp [Tree.entry, singleFile, AList.lookup, AList.singleton]
  rw [if_neg hp]
  exact @List.dlookup_cons_ne Bytes (fun _ => Entry) _ [] p ⟨path, en⟩ (Ne.symm hp)

theorem singleFile_nameStatus {path : Bytes} (hpt : path ≠ [] ∧ 0 ∉ path) {x y : Entry} {s : Status}
    (hs : status (some x) (some y) = some s) :
    NameStatus (singleFile path hpt x) (singleFile path hpt y) [(s, path)] := by
  refine ⟨by simp, fun s' p => ?_⟩
  rw [singleFile_entry, singleFile_entry]
  by_cases hp : path = p
  · subst hp
    simp [hs, eq_comm]
  · simp [hp, Ne.symm hp, status]

/-- A file that becomes executable is reported as modified. -/
theorem executable_partitioned : let a := singleFile (bytes "run") (by decide) ⟨.file, bytes "x"⟩
    let b := singleFile (bytes "run") (by decide) ⟨.executable, bytes "x"⟩
    ∃ changedA changedB,
      parseGitDiffNameStatus (output [(.modified, bytes "run")]) = .ok (changedA, changedB) ∧
      Partitions a b changedA changedB := by
  obtain ⟨changedA, changedB, hprs, hiff⟩ :=
    partition_iff_no_type_change (@singleFile_nameStatus (bytes "run") (by decide) _ _ _
      (show status (some ⟨.file, bytes "x"⟩) (some ⟨.executable, bytes "x"⟩) = some .modified by decide))
  refine ⟨changedA, changedB, hprs, (hiff.mpr ?_).2.2⟩
  intro path x y hx hy
  rw [singleFile_entry, Option.ite_none_right_eq_some] at hx hy
  cases hx.2
  cases hy.2
  decide

/-- A file that becomes a symbolic link is reported as a type change, which is ignored: the index
is searched for the old file, and the link is not searched. -/
theorem type_change_lost : let a := singleFile (bytes "link") (by decide) ⟨.file, bytes "x"⟩
    let b := singleFile (bytes "link") (by decide) ⟨.symlink, bytes "y"⟩
    let records := [(.typeChanged, bytes "link")]
    NameStatus a b records ∧ parseGitDiffNameStatus (output records) = .ok ([], []) ∧
      changed a b ≠ [] ∧ ¬ Partitions a b [] [] := by
  intro a b records
  have hsta : NameStatus a b records := singleFile_nameStatus _ (by decide)
  refine ⟨hsta, ?_, ?_, ?_⟩
  · rw [parse_output (record_path hsta)]
    simp [records, pathsWhere, Status.inFirst, Status.inSecond, sortStrings]
  · apply ne_nil_of_mem (a := bytes "link")
    rw [mem_changed]
    exact ⟨_, rfl, by decide⟩
  · intro hpm
    have hmem := hpm.mem_iff (a := (bytes "link", ⟨.file, bytes "x"⟩))
    exact absurd (hmem.mp (by decide)) (by decide)

end GitDiffNameStatus
