import Sourcegraph.GoStrings

/-! # Settings of a subject

The settings of the subjects that are relevant to one are merged in the order of their priority. -/
namespace SettingsSubjects

open GoStrings List

structure SettingsSubject where
  default : Bool := false
  site : Bool := false
  org : Option ℤ := none
  user : Option ℤ := none

structure Database (S : Type) where
  defaultSettings : S
  getByUserID : ℤ → Except String (List ℤ)
  getLatest : SettingsSubject → Except String (Option String)
  unmarshal : String → Except String S
  mergeLeft : S → S → S

variable (db : Database S)

def latest (subject : SettingsSubject) : Except String (Option S) :=
  if subject.default then .ok (some db.defaultSettings)
  else do
    match ← db.getLatest subject with
    | none => .ok none
    | some contents => (db.unmarshal contents).map some

def relevantSubjects (subject : SettingsSubject) : Except String (List SettingsSubject) :=
  if subject.default then .ok [subject]
  else if subject.site then .ok [{ default := true }, subject]
  else match subject.org, subject.user with
    | some _, _ => .ok [{ default := true }, { site := true }, subject]
    | none, some user => (db.getByUserID user).map fun orgs =>
      { default := true } :: { site := true } ::
        (orgs.insertionSort (· ≤ ·)).map (fun id => { org := some id }) ++ [subject]
    | none, none => .error "subject must have exactly one field set"

def mergeSettingsLeft : Option S → Option S → Option S
  | none, right => right
  | left, none => left
  | some left, some right => some (db.mergeLeft left right)

def mergeSettings (all : List (Option S)) : Option S := all.foldl (mergeSettingsLeft db) none

/-- `iter.MapErr`: an element that fails has the zero value. -/
def mapErr (f : α → Except String (Option β)) (l : List α) : List (Option β) × List String :=
  (l.map fun a => (f a).toOption.join,
    l.filterMap fun a => match f a with
      | .error e => some e
      | .ok _ => none)

/-- The errors of the reads are not looked at. -/
def forSubject (subject : SettingsSubject) : Except String (Option S) :=
  (relevantSubjects db subject).map fun subjects => mergeSettings db (mapErr (latest db) subjects).1

def priority (subject : SettingsSubject) : ℕ ×ₗ ℤ :=
  if subject.default then toLex (0, 0)
  else if subject.site then toLex (1, 0)
  else match subject.org with
    | some id => toLex (2, id)
    | none => toLex (3, 0)

/-- The default settings, those of the site, of the organisations of a user and of the subject. -/
def Relevant (subject s : SettingsSubject) : Prop :=
  s = subject ∨ subject.default = false ∧ (s = { default := true } ∨
    subject.site = false ∧ (s = { site := true } ∨ subject.org = none ∧ ∃ user ∈ subject.user,
      ∃ orgs, db.getByUserID user = .ok orgs ∧ ∃ id ∈ orgs, s = { org := some id }))

/-- The merge of the latest settings of all relevant subjects. -/
def Complete (subject : SettingsSubject) (merged : Option S) : Prop :=
  ∃ (subjects : List SettingsSubject) (settings : List (Option S)),
    subjects.Pairwise (priority · ≤ priority ·) ∧
    (∀ s, s ∈ subjects ↔ Relevant db subject s) ∧
    subjects.map (latest db) = settings.map .ok ∧ merged = mergeSettings db settings

variable {db}

theorem relevantSubjects_spec (h : relevantSubjects db subject = .ok subjects) :
    subjects.Pairwise (priority · ≤ priority ·) ∧ ∀ s, s ∈ subjects ↔ Relevant db subject s := by
  revert h
  fun_cases relevantSubjects db subject with
  | case1 hd =>
    rintro ⟨⟩
    simp [Relevant, hd]
  | case2 hd hs =>
    rintro ⟨⟩
    simp [Relevant, hd, hs, priority, Prod.Lex.toLex_le_toLex, or_comm]
  | case3 hd hs id ho =>
    rintro ⟨⟩
    simp [Relevant, hd, hs, ho, priority, Prod.Lex.toLex_le_toLex]
    tauto
  | case4 hd hs user hu ho =>
    intro h
    obtain ⟨orgs, horg, rfl⟩ := map_eq_ok h
    have hsrt := orgs.pairwise_insertionSort (· ≤ ·)
    constructor
    · simp [pairwise_append, pairwise_map, priority, Prod.Lex.toLex_le_toLex, or_imp, forall_and,
        hd, hs, ho, hsrt]
    · simp [Relevant, hd, hs, hu, ho, horg, or_comm, or_left_comm, eq_comm]
  | case5 => nofun

/-- The merge is complete if and only if the settings of all relevant subjects can be read. -/
theorem forSubject_complete_iff (db : Database S) (subject : SettingsSubject) :
    (∀ merged, forSubject db subject = .ok merged → Complete db subject merged) ↔
      ∀ subjects, relevantSubjects db subject = .ok subjects → ∀ s ∈ subjects,
        ∃ settings, latest db s = .ok settings := by
  constructor
  · intro h subjects hsub s hs
    obtain ⟨subjects', settings, -, hmem, hall, -⟩ := h _ (by rw [forSubject, hsub]; rfl)
    have hlat := mem_map_of_mem (f := latest db)
      ((hmem s).mpr (((relevantSubjects_spec hsub).2 s).mp hs))
    rw [hall] at hlat
    obtain ⟨x, -, hx⟩ := mem_map.mp hlat
    exact ⟨x, hx.symm⟩
  · intro h merged hm
    obtain ⟨subjects, hsub, rfl⟩ := map_eq_ok hm
    obtain ⟨hord, hmem⟩ := relevantSubjects_spec hsub
    refine ⟨subjects, _, hord, hmem, ?_, rfl⟩
    rw [mapErr, map_map]
    refine map_congr_left fun s hs => ?_
    obtain ⟨x, hx⟩ := h subjects hsub s hs
    simp [hx, Except.toOption]

/-- A user whose stored settings cannot be parsed gets the default settings, and no error. -/
theorem broken_settings_left_out :
    let db : Database (List String) := ⟨["default"], fun _ => .ok [],
      fun subject => .ok (subject.user.map fun _ => "broken"), fun _ => .error "unexpected token",
      (· ++ ·)⟩
    relevantSubjects db { user := some 1 } =
        .ok [{ default := true }, { site := true }, { user := some 1 }] ∧
      latest db { user := some 1 } = .error "unexpected token" ∧
      forSubject db { user := some 1 } = .ok (some ["default"]) :=
  ⟨rfl, rfl, rfl⟩

end SettingsSubjects
