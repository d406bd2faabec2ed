import Sourcegraph.GoStrings

/-! # The index of an archive in memory

An `int` has 64 bits, so the check of a size compares it with itself, and the length of a file
keeps the last 32 of them. -/
namespace ArchiveIndex

open GoStrings List

/-- A file of the reader; the package `zip` finds its offset. -/
structure File where
  name : String
  method : UInt16
  dataOffset : Except String Int64
  uncompressedSize64 : UInt64

def store : UInt16 := 0

structure SrcFile where
  name : String
  off : Int64
  len : Int32

structure ZipFile where
  files : List SrcFile
  maxLen : Int64

/-- The package `sort`. -/
structure Sorter where
  slice : (SrcFile → SrcFile → Bool) → List SrcFile → List SrcFile
  perm : ∀ less files, (slice less files).Perm files

def addFile (f : ZipFile) (file : File) : Except String ZipFile := do
  if file.method ≠ store then
    throw s!"file {file.name} stored with compression {file.method}, want {store}"
  let off ← file.dataOffset
  let size := file.uncompressedSize64.toInt64
  if size.toUInt64 ≠ file.uncompressedSize64 then
    throw s!"file {file.name} has size > 2gb: {size}"
  return ⟨f.files ++ [⟨file.name, off, size.toInt32⟩], if size > f.maxLen then size else f.maxLen⟩

def populateFiles (S : Sorter) (r : List File) : Except String ZipFile := do
  let f ← r.foldlM addFile ⟨[], 0⟩
  return { f with files := S.slice (fun a b => a.off < b.off) f.files }

/-- The slice of the mapped file; `none` is a panic. -/
def dataFor (data : Bytes) (s : SrcFile) : Option Bytes :=
  let stop := s.off + s.len.toInt64
  if 0 ≤ s.off.toInt ∧ s.off.toInt ≤ stop.toInt ∧ stop.toInt ≤ data.length then
    some ((data.take stop.toInt.toNat).drop s.off.toInt.toNat)
  else none

def File.size (file : File) : ℕ := file.uncompressedSize64.toNat

structure Describes (data : Bytes) (file : File) (s : SrcFile) : Prop where
  name : s.name = file.name
  off : file.dataOffset = .ok s.off
  len : s.len.toInt = file.size
  content : 0 ≤ s.off.toInt → s.off.toInt + file.size ≤ data.length →
    dataFor data s = some ((data.drop s.off.toInt.toNat).take file.size)

structure IndexOf (data : Bytes) (r : List File) (f : ZipFile) : Prop where
  files : ∃ files, files.Perm f.files ∧ Forall₂ (Describes data) r files
  le_maxLen : ∀ file ∈ r, (file.size : ℤ) ≤ f.maxLen.toInt
  maxLen_mem : f.maxLen = 0 ∨ ∃ file ∈ r, f.maxLen.toInt = file.size

/-- No size is rejected. -/
theorem addFile_ok (h : addFile f file = .ok f') : ∃ off, file.dataOffset = .ok off ∧
    f' = ⟨f.files ++ [⟨file.name, off, file.uncompressedSize64.toInt64.toInt32⟩],
      if file.uncompressedSize64.toInt64 > f.maxLen then file.uncompressedSize64.toInt64
        else f.maxLen⟩ := by
  unfold addFile at h
  split at h
  · cases h
  obtain ⟨off, hoff, h⟩ := bind_eq_ok h
  simp only [UInt64.toUInt64_toInt64, ne_eq, not_true_eq_false, if_false] at h
  cases h
  exact ⟨off, hoff, rfl⟩

theorem toInt_size {file : File} (h : file.size < 2 ^ 63) :
    file.uncompressedSize64.toInt64.toInt = file.size := by
  show file.uncompressedSize64.toBitVec.toInt = _
  rw [BitVec.toInt_eq_toNat_of_lt]
  · rfl
  unfold File.size at h
  simp
  omega

theorem toInt_len {file : File} (h : file.size < 2 ^ 31) :
    file.uncompressedSize64.toInt64.toInt32.toInt = file.size := by
  rw [Int64.toInt_toInt32, toInt_size (by omega)]
  exact Int.bmod_eq_of_le (by omega) (by omega)

theorem populated_describes {data : Bytes} (hda : data.length < 2 ^ 63) {file : File}
    (hsz : file.size < 2 ^ 31) (hoff : file.dataOffset = .ok off) :
    Describes data file ⟨file.name, off, file.uncompressedSize64.toInt64.toInt32⟩ := by
  refine ⟨rfl, hoff, toInt_len hsz, fun hf hla => ?_⟩
  dsimp only at hf hla
  have hsp : (off + file.uncompressedSize64.toInt64.toInt32.toInt64).toInt =
      off.toInt + file.size := by
    rw [Int64.toInt_add, Int32.toInt_toInt64, toInt_len hsz]
    exact Int.bmod_eq_of_le (by omega) (by omega)
  simp only [dataFor, hsp]
  rw [if_pos ⟨hf, by omega, hla⟩, drop_take]
  congr 2
  omega

theorem populated_files {data : Bytes} (hda : data.length < 2 ^ 63)
    (hsz : ∀ file ∈ r, File.size file < 2 ^ 31) (h : r.foldlM addFile f = .ok f') :
    ∃ fs, f'.files = f.files ++ fs ∧ Forall₂ (Describes data) r fs := by
  induction r generalizing f with
  | nil =>
    cases h
    exact ⟨[], (append_nil _).symm, .nil⟩
  | cons file r ih =>
    obtain ⟨hfil, hsz⟩ := forall_mem_cons.mp hsz
    obtain ⟨g, hg, h⟩ := bind_eq_ok h
    obtain ⟨off, hoff, rfl⟩ := addFile_ok hg
    obtain ⟨fs, hfi, hde⟩ := ih hsz h
    refine ⟨_ :: fs, ?_, .cons (populated_describes hda hfil hoff) hde⟩
    rw [hfi, append_assoc, singleton_append]

theorem populated_maxLen {r : List File} {f f' : ZipFile} (hsz : ∀ file ∈ r, file.size < 2 ^ 63)
    (h : r.foldlM addFile f = .ok f') : f.maxLen.toInt ≤ f'.maxLen.toInt ∧
      (∀ file ∈ r, (file.size : ℤ) ≤ f'.maxLen.toInt) ∧
      (f'.maxLen = f.maxLen ∨ ∃ file ∈ r, f'.maxLen.toInt = file.size) := by
  induction r generalizing f with
  | nil =>
    cases h
    simp
  | cons file r ih =>
    obtain ⟨hfi, hsz⟩ := forall_mem_cons.mp hsz
    obtain ⟨g, hg, h⟩ := bind_eq_ok h
    obtain ⟨off, hoff, rfl⟩ := addFile_ok hg
    obtain ⟨hle, hall, hmem⟩ := ih hsz h
    dsimp only at hle
    simp only [forall_mem_cons, exists_mem_cons_iff]
    by_cases hgt : file.uncompressedSize64.toInt64 > f.maxLen
    · rw [if_pos hgt, toInt_size hfi] at hle
      rw [if_pos hgt] at hmem
      have hlt := toInt_size hfi ▸ Int64.lt_iff_toInt_lt.mp hgt
      refine ⟨by omega, ⟨hle, hall⟩, .inr ?_⟩
      exact hmem.imp (fun heq => by rw [heq, toInt_size hfi]) id
    rw [if_neg hgt] at hle hmem
    rw [gt_iff_lt, Int64.lt_iff_toInt_lt, toInt_size hfi] at hgt
    exact ⟨hle, ⟨by omega, hall⟩, hmem.imp_right .inr⟩

/-- The index describes the archive if and only if every size fits in 32 bits. -/
theorem index_describes_iff {S : Sorter} {r : List File} {f : ZipFile} {data : Bytes}
    (h : populateFiles S r = .ok f) (hdata : data.length < 2 ^ 63) :
    IndexOf data r f ↔ ∀ file ∈ r, file.size < 2 ^ 31 := by
  obtain ⟨g, hg, hf⟩ := bind_eq_ok h
  cases hf
  constructor
  · rintro ⟨⟨fs, -, hfi⟩, -, -⟩
    refine ((forall₂_and_left r fs).mp (hfi.imp fun file s hs => ⟨?_, hs⟩)).1
    have := hs.len
    have := s.len.toInt_lt
    omega
  · intro hsz
    obtain ⟨fs, hfi, hde⟩ := populated_files hdata hsz hg
    obtain ⟨-, hle, hmem⟩ :=
      populated_maxLen (fun file hfil => Nat.lt_trans (hsz file hfil) (by decide)) hg
    exact ⟨⟨fs, hfi ▸ (S.perm _ _).symm, hde⟩, hle, hmem⟩

def unsorted : Sorter := ⟨fun _ files => files, fun _ _ => .refl _⟩

theorem small_file_described : ∃ f, populateFiles unsorted [⟨"a", store, .ok 1, 1⟩] = .ok f ∧
    IndexOf [0, 7] [⟨"a", store, .ok 1, 1⟩] f :=
  ⟨_, rfl, (@index_describes_iff unsorted [⟨"a", store, .ok 1, 1⟩] _ [0, 7] rfl (by decide)).mpr
    (by decide)⟩

/-- A file of two gigabytes is accepted with a negative length. -/
theorem large_file_misdescribed :
    ∃ f, populateFiles unsorted [⟨"a", store, .ok 0, 2 ^ 31⟩] = .ok f ∧
      f.files.map (·.len.toInt) = [-2 ^ 31] :=
  ⟨_, rfl, by decide⟩

end ArchiveIndex
