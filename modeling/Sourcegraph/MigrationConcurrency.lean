import Sourcegraph.MigrationRunner

/-! # Concurrent migrators

Any number of runners migrate one schema up. They share the lock, the migration logs and the
indexes, and each query is one step. An index is created after the lock was given up. Privileged
migrations are applied like the others. -/
namespace MigrationConcurrency

open MigrationGraph MigrationOrder MigrationPlans MigrationRunner List
open Function (update)

structure LogRow where
  version : ℤ
  up : Bool
  success : Option Bool
  deriving DecidableEq

/-- Failed reverts are filtered out. -/
def LogRow.visible (row : LogRow) : Bool := row.up || row.success ≠ some false

def rowsOf (logs : List LogRow) (version : ℤ) : List LogRow :=
  logs.filter fun row => row.version = version && row.visible

/-- The rows are in the order in which they were started. -/
def latest (logs : List LogRow) (version : ℤ) : Option LogRow := (rowsOf logs version).getLast?

def versions (logs : List LogRow) : SchemaVersion :=
  let logged := (logs.map LogRow.version).dedup.insertionSort (· ≤ ·)
  { appliedVersions := logged.filter fun v =>
      (latest logs v).any fun row => row.success = some true && row.up
    pendingVersions := logged.filter fun v => (latest logs v).any fun row => row.success = none
    failedVersions := logged.filter fun v =>
      (latest logs v).any fun row => row.success = some false }

inductive IndexState where
  | missing
  | building
  | invalid
  | valid
  deriving DecidableEq

structure Database where
  lock : Option ℕ
  logs : List LogRow
  committed : List ℤ
  indexes : IndexMetadata → IndexState

def indexStatus : IndexState → Option IndexStatus
  | .missing => none
  | .building => some ⟨false, some "building index"⟩
  | .invalid => some ⟨false, none⟩
  | .valid => some ⟨true, none⟩

def environment (db : Database) : Environment where
  indexStatus tableName indexName := .ok (indexStatus (db.indexes ⟨tableName, indexName⟩))
  hashDefinitionIDs _ := ""
  createIndexConcurrently _ := .ok false
  applyMigration _ := .ok ()
  wait := none

def Database.unlock (r : ℕ) (db : Database) : Database :=
  if db.lock = some r then { db with lock := none } else db

def Database.startLog (id : ℤ) (db : Database) : Database :=
  { db with logs := db.logs ++ [⟨id, true, none⟩] }

def Database.finishLog (row : ℕ) (success : Bool) (db : Database) : Database :=
  { db with logs := db.logs.modify row fun log => { log with success := some success } }

def Database.setIndex (index : IndexMetadata) (state : IndexState) (db : Database) : Database :=
  { db with indexes := update db.indexes index state }

/-- Where a runner is. The first list has the migrations gathered at the start, the last one those
left to run under the lock. -/
inductive Control where
  | start (targets : List ℤ)
  | waiting (definitions : List Definition)
  | locked (definitions : List Definition)
  | validating (definitions : List Definition) (schemaVersion : SchemaVersion)
  | running (definitions rest : List Definition)
  | logged (definitions : List Definition) (d : Definition) (rest : List Definition) (row : ℕ)
  | ran (definitions : List Definition) (d : Definition) (rest : List Definition) (row : ℕ)
      (success : Bool)
  | polling (definitions : List Definition) (d : Definition) (index : IndexMetadata)
      (rest : List Definition) (unlocked : Bool)
  | confirming (definitions : List Definition) (d : Definition) (rest : List Definition)
      (unlocked : Bool) (row : ℕ)
  | polled (definitions : List Definition) (d : Definition) (index : IndexMetadata)
      (rest : List Definition) (unlocked : Bool) (status : IndexState)
  | unlocking (definitions : List Definition) (d : Definition) (index : IndexMetadata)
      (rest : List Definition) (wait : Bool)
  | creating (definitions : List Definition) (d : Definition) (index : IndexMetadata)
      (rest : List Definition)
  | createLogged (definitions : List Definition) (d : Definition) (index : IndexMetadata)
      (rest : List Definition) (row : ℕ)
  | building (definitions : List Definition) (index : IndexMetadata) (row : ℕ)
  | built (definitions : List Definition) (row : ℕ) (success : Bool)
  | finished

def gather (defs : List Definition) (targets : List ℤ) (db : Database) : Control :=
  let schemaVersion := versions db.logs
  match Definitions.up (newDefinitions defs) schemaVersion.appliedVersions targets with
  | .error _ => .finished
  | .ok definitions =>
    let byState := groupByState schemaVersion definitions
    if byState.pending.length + byState.failed.length = 0 &&
      byState.applied.length = definitions.length then .finished
    else .waiting definitions

/-- One query of a runner, or the end of what it waits for. `outcome` says if it succeeds. -/
def advance (defs : List Definition) (options : Options) (r : ℕ) (outcome : Bool) (db : Database) :
    Control → Option (Control × Database)
  | .start targets => some (gather defs targets db, db)
  | .waiting definitions =>
    if db.lock = none then some (.locked definitions, { db with lock := some r }) else none
  | .locked definitions => some (.validating definitions (versions db.logs), db)
  | .validating definitions schemaVersion =>
    match validateSchemaState (environment db) options definitions
      (groupByState schemaVersion definitions) with
    | .error _ => some (.finished, db.unlock r)
    | .ok true => some (.waiting definitions, db.unlock r)
    | .ok false => some (.running definitions (filterAppliedDefinitions schemaVersion
        ⟨"", .targetedUp, []⟩ definitions), db)
  | .running _ [] => some (.finished, db.unlock r)
  | .running definitions (d :: rest) =>
    match d.indexMetadata with
    | some index => some (.polling definitions d index rest false, db)
    | none => some (.logged definitions d rest db.logs.length, db.startLog d.id)
  -- A transaction is committed or has no effect.
  | .logged definitions d rest row =>
    if outcome then
      some (.ran definitions d rest row true, { db with committed := d.id :: db.committed })
    else some (.ran definitions d rest row false, db)
  | .ran definitions _ rest row success =>
    if success then some (.running definitions rest, db.finishLog row true)
    else some (.finished, (db.finishLog row false).unlock r)
  | .polling definitions d index rest unlocked =>
    some (.polled definitions d index rest unlocked (db.indexes index), db)
  | .polled definitions d _ rest unlocked .valid =>
    some (.confirming definitions d rest unlocked db.logs.length, db.startLog d.id)
  -- The index is dropped and logged in one transaction, which waits for a running creation.
  | .polled definitions d index rest _ .invalid =>
    if db.indexes index = .building then none
    else if outcome then
      some (.unlocking definitions d index rest false,
        { db.setIndex index .missing with logs := db.logs ++ [⟨d.id, false, some true⟩] })
    else some (.finished, db.unlock r)
  | .polled definitions d index rest _ .building =>
    some (.unlocking definitions d index rest true, db)
  | .polled definitions d index rest _ .missing =>
    some (.unlocking definitions d index rest false, db)
  | .confirming definitions _ rest unlocked row =>
    if unlocked then some (.waiting definitions, db.finishLog row true)
    else some (.running definitions rest, db.finishLog row true)
  | .unlocking definitions d index rest wait =>
    if wait then some (.polling definitions d index rest true, db.unlock r)
    else some (.creating definitions d index rest, db.unlock r)
  | .creating definitions d index rest =>
    some (.createLogged definitions d index rest db.logs.length, db.startLog d.id)
  | .createLogged definitions _ index _ row =>
    if db.indexes index = .missing then
      some (.building definitions index row, db.setIndex index .building)
    -- `Up` hides the error 42P07 in a `wrappedPgError`, where the filter does not find it.
    else some (.built definitions row false, db)
  | .building definitions index row =>
    if outcome then some (.built definitions row true, db.setIndex index .valid)
    else some (.built definitions row false, db.setIndex index .invalid)
  | .built definitions row success =>
    if success then some (.waiting definitions, db.finishLog row true)
    else some (.finished, db.finishLog row false)
  | .finished => none

structure System where
  control : ℕ → Control
  db : Database

/-- Which runner takes each step, and if it succeeds. -/
def run (defs : List Definition) (options : Options) : System → List (ℕ × Bool) → Option System
  | s, [] => some s
  | s, (r, outcome) :: rest =>
    (advance defs options r outcome s.db (s.control r)).bind fun next =>
      run defs options ⟨update s.control r next.1, next.2⟩ rest

/-- The index was invalid when the runner looked at it, but another one has created it since. -/
def dropsValid (db : Database) : Control → Bool
  | .polled _ _ index _ _ .invalid => db.indexes index = .valid
  | _ => false

def careful (defs : List Definition) (options : Options) : System → List (ℕ × Bool) → Bool
  | _, [] => true
  | s, (r, outcome) :: rest => !(outcome && dropsValid s.db (s.control r)) &&
    (advance defs options r outcome s.db (s.control r)).all fun next =>
      careful defs options ⟨update s.control r next.1, next.2⟩ rest

/-- The transaction was committed, or the index exists and is valid. -/
def TakenEffect (db : Database) (d : Definition) : Prop :=
  match d.indexMetadata with
  | none => d.id ∈ db.committed
  | some index => db.indexes index = .valid

def executing : Control → Option Definition
  | .logged _ d _ _ => some d
  | .createLogged _ d _ _ _ => some d
  | _ => none

structure Initial (defs : List Definition) (s : System) : Prop where
  started : ∀ r, ∃ targets, s.control r = .start targets
  unlocked : s.db.lock = none
  truthful : ∀ d ∈ defs, d.id ∈ (versions s.db.logs).appliedVersions → TakenEffect s.db d
  idle : ∀ index, s.db.indexes index ≠ .building

/-- Runners execute migrations when all parents have taken effect, and an index migration is not
called applied while its index is being built. -/
structure Respectful (defs : List Definition) (s : System) : Prop where
  parents : ∀ r d, executing (s.control r) = some d →
    ∀ p ∈ defs, p.id ∈ d.parents → TakenEffect s.db p
  logs : ∀ d ∈ defs, ∀ index, d.indexMetadata = some index →
    d.id ∈ (versions s.db.logs).appliedVersions → s.db.indexes index ≠ .building

theorem latest_append (id ver : ℤ) :
    latest (old ++ ⟨id, true, suc⟩ :: new) ver = (latest new ver).or
      (if id = ver then some ⟨id, true, suc⟩ else latest old ver) := by
  rw [latest, rowsOf, filter_append, filter_cons, getLast?_append]
  split
  · rename_i hid
    rw [if_pos (by simpa [LogRow.visible] using hid), getLast?_cons]
    cases h : (new.filter fun row => decide (row.version = ver) && row.visible).getLast? <;>
      simp [latest, rowsOf, h]
  rename_i hid
  rw [if_neg (by simpa [LogRow.visible] using hid)]
  rfl

theorem mem_of_latest (h : latest logs ver = some row) : row ∈ logs ∧ row.version = ver := by
  have hmem := mem_filter.mp (mem_of_getLast? h)
  rw [Bool.and_eq_true, decide_eq_true_eq] at hmem
  exact ⟨hmem.1, hmem.2.1⟩

theorem mem_logged :
    ver ∈ ((logs.map LogRow.version).dedup.insertionSort (· ≤ ·)).filter
        (fun v => (latest logs v).any test) ↔
      ∃ row, latest logs ver = some row ∧ test row = true := by
  rw [mem_filter, (perm_insertionSort _ _).mem_iff, mem_dedup, Option.any_eq_true,
    and_iff_right_of_imp]
  rintro ⟨row, hlat, -⟩
  obtain ⟨hmem, rfl⟩ := mem_of_latest hlat
  exact mem_map_of_mem hmem

theorem mem_applied :
    ver ∈ (versions logs).appliedVersions ↔
      ∃ row, latest logs ver = some row ∧ row.success = some true ∧ row.up = true := by
  simp only [versions, mem_logged, Bool.and_eq_true, decide_eq_true_eq]

/-- A row that was just started hides the older ones of its version. -/
theorem applied_startLog {id : ℤ}
    (h : ver ∈ (versions (logs ++ [⟨id, true, none⟩])).appliedVersions) :
    ver ∈ (versions logs).appliedVersions := by
  obtain ⟨row, hlat, hsuc, hup⟩ := mem_applied.mp h
  rw [latest_append] at hlat
  split at hlat
  · cases hlat
    cases hsuc
  · exact mem_applied.mpr ⟨row, hlat, hsuc, hup⟩

theorem applied_finishLog {id ver : ℤ} (hrow : logs[row]? = some ⟨id, true, before⟩)
    (h : ver ∈ (versions (logs.modify row fun log =>
      { log with success := some success })).appliedVersions) :
    ver ∈ (versions logs).appliedVersions ∨ ver = id ∧ success = true := by
  obtain ⟨hlt, hget⟩ := List.getElem?_eq_some_iff.mp hrow
  have hlo : logs = logs.take row ++ ⟨id, true, before⟩ :: logs.drop (row + 1) := by
    rw [← hget, ← drop_eq_getElem_cons hlt, take_append_drop]
  obtain ⟨found, hlat, hsuc, hup⟩ := mem_applied.mp h
  rw [modify_eq_take_cons_drop hlt, hget, latest_append] at hlat
  by_cases hkp : latest logs ver = some found
  · exact .inl (mem_applied.mpr ⟨found, hkp, hsuc, hup⟩)
  rw [hlo, latest_append] at hkp
  cases hnew : latest (logs.drop (row + 1)) ver with
  | some new => exact absurd (by rwa [hnew] at hlat ⊢) hkp
  | none =>
    rw [hnew] at hlat hkp
    by_cases hid : id = ver
    · rw [if_pos hid] at hlat
      cases hlat
      exact .inr ⟨hid.symm, Option.some_inj.mp hsuc⟩
    rw [if_neg hid] at hlat hkp
    exact absurd hlat hkp

/-- All definitions with this id have taken effect. -/
def Done (defs : List Definition) (db : Database) (id : ℤ) : Prop :=
  ∀ d ∈ defs, d.id = id → TakenEffect db d

structure Planned (defs : List Definition) (db : Database) (plan : List Definition) : Prop where
  subset : ∀ d ∈ plan, d ∈ defs
  parents : ∀ before d after, plan = before ++ d :: after →
    ∀ p ∈ d.parents, Done defs db p ∨ p ∈ ids before

def RowOf (db : Database) (row : ℕ) (id : ℤ) : Prop :=
  ∃ success, db.logs[row]? = some ⟨id, true, success⟩

def Supported (defs : List Definition) (db : Database) : Control → Prop
  | .start _ | .finished => True
  | .waiting definitions | .locked definitions => Planned defs db definitions
  | .validating definitions schemaVersion => Planned defs db definitions ∧
      ∀ id ∈ schemaVersion.appliedVersions, Done defs db id
  | .running definitions rest => Planned defs db definitions ∧ Planned defs db rest
  | .logged definitions d rest row => Planned defs db definitions ∧ Planned defs db (d :: rest) ∧
      d.indexMetadata = none ∧ RowOf db row d.id
  | .ran definitions d rest row success => Planned defs db definitions ∧
      Planned defs db (d :: rest) ∧ RowOf db row d.id ∧ (success = true → TakenEffect db d)
  | .polling definitions d index rest _ | .unlocking definitions d index rest _
  | .creating definitions d index rest => Planned defs db definitions ∧
      Planned defs db (d :: rest) ∧ d.indexMetadata = some index
  | .polled definitions d index rest _ status => Planned defs db definitions ∧
      Planned defs db (d :: rest) ∧ d.indexMetadata = some index ∧
      (status = .valid → TakenEffect db d)
  | .confirming definitions d rest _ row => Planned defs db definitions ∧
      Planned defs db (d :: rest) ∧ RowOf db row d.id ∧ TakenEffect db d
  | .createLogged definitions d index rest row => Planned defs db definitions ∧
      Planned defs db (d :: rest) ∧ d.indexMetadata = some index ∧ RowOf db row d.id
  | .building definitions index row => Planned defs db definitions ∧
      ∃ d ∈ defs, d.indexMetadata = some index ∧ RowOf db row d.id
  | .built definitions row success => Planned defs db definitions ∧
      ∃ d ∈ defs, RowOf db row d.id ∧ (success = true → TakenEffect db d)

structure Grows (db db' : Database) : Prop where
  effects : ∀ d, TakenEffect db d → TakenEffect db' d
  rows : ∀ row id, RowOf db row id → RowOf db' row id

theorem Grows.refl (db : Database) : Grows db db := ⟨fun _ h => h, fun _ _ h => h⟩

theorem Planned.grows (h : Planned defs db plan) (hgrows : Grows db db') :
    Planned defs db' plan := by
  refine ⟨h.subset, fun before d after hplan p hp => ?_⟩
  exact (h.parents before d after hplan p hp).imp_left fun hdone e he hid =>
    hgrows.effects e (hdone e he hid)

theorem Supported.grows (h : Supported defs db c) (hgrows : Grows db db') :
    Supported defs db' c := by
  cases c with
  | start | finished => trivial
  | waiting | locked => exact Planned.grows h hgrows
  | validating =>
    exact ⟨h.1.grows hgrows, fun id happ e he hid => hgrows.effects e (h.2 id happ e he hid)⟩
  | running => exact ⟨h.1.grows hgrows, h.2.grows hgrows⟩
  | polling | unlocking | creating => exact ⟨h.1.grows hgrows, h.2.1.grows hgrows, h.2.2⟩
  | polled =>
    exact ⟨h.1.grows hgrows, h.2.1.grows hgrows, h.2.2.1, fun hv => hgrows.effects _ (h.2.2.2 hv)⟩
  | logged | createLogged =>
    exact ⟨h.1.grows hgrows, h.2.1.grows hgrows, h.2.2.1, hgrows.rows _ _ h.2.2.2⟩
  | ran =>
    exact ⟨h.1.grows hgrows, h.2.1.grows hgrows, hgrows.rows _ _ h.2.2.1,
      fun hs => hgrows.effects _ (h.2.2.2 hs)⟩
  | confirming =>
    exact ⟨h.1.grows hgrows, h.2.1.grows hgrows, hgrows.rows _ _ h.2.2.1, hgrows.effects _ h.2.2.2⟩
  | building =>
    obtain ⟨hplan, d, hd, hindex, hrow⟩ := h
    exact ⟨hplan.grows hgrows, d, hd, hindex, hgrows.rows _ _ hrow⟩
  | built =>
    obtain ⟨hplan, d, hd, hrow, heffect⟩ := h
    exact ⟨hplan.grows hgrows, d, hd, hgrows.rows _ _ hrow, fun hs => hgrows.effects _ (heffect hs)⟩

theorem Planned.filter (h : Planned defs db plan) {applied : List ℤ}
    (happlied : ∀ id ∈ applied, Done defs db id) :
    Planned defs db (plan.filter fun d => d.id ∉ applied) := by
  refine ⟨fun d hd => h.subset d (mem_of_mem_filter hd), ?_⟩
  intro before d after hplan p hp
  obtain ⟨first, last, rfl, hfirst, -⟩ := filter_split hplan
  rcases h.parents first d last rfl p hp with hin | hin
  · exact .inl hin
  obtain ⟨e, he, rfl⟩ := mem_map.mp hin
  by_cases hskip : e.id ∈ applied
  · exact .inl (happlied e.id hskip)
  refine .inr (mem_map_of_mem ?_)
  rw [← hfirst]
  exact mem_filter.mpr ⟨he, decide_eq_true hskip⟩

theorem done_of_mem (h : Ordered defs) (hd : d ∈ defs) (heffect : TakenEffect db d) :
    Done defs db d.id := by
  intro e he hid
  rwa [inj_on_of_nodup_map h.distinct he hd hid]

theorem Planned.tail (h : Ordered defs) (hplan : Planned defs db (d :: rest))
    (hd : TakenEffect db d) : Planned defs db rest := by
  obtain ⟨hmem, hsubset⟩ := forall_mem_cons.mp hplan.subset
  refine ⟨hsubset, ?_⟩
  intro before e after hrest p hp
  rcases hplan.parents (d :: before) e after (by rw [hrest]; rfl) p hp with hin | hin
  · exact .inl hin
  rcases mem_cons.mp hin with rfl | hin
  · exact .inl (done_of_mem h hmem hd)
  · exact .inr hin

def Truthful (defs : List Definition) (db : Database) : Prop :=
  ∀ id ∈ (versions db.logs).appliedVersions, Done defs db id

theorem gather_supported (h : Ordered defs) (htrue : Truthful defs db) (targets : List ℤ) :
    Supported defs db (gather defs targets db) := by
  rw [gather]
  cases hup : Definitions.up (newDefinitions defs) (versions db.logs).appliedVersions targets with
  | error e => trivial
  | ok definitions =>
    have hplanned : Planned defs db definitions := by
      obtain ⟨plan, hup', hplan⟩ :=
        up_plan h (versions db.logs).appliedVersions (up_targets_known hup)
      cases hup.symm.trans hup'
      refine ⟨fun d hd => ((hplan.members d).mp hd).1, ?_⟩
      intro before d after hsplit p hp
      exact (hplan.safe before d after hsplit p hp).imp_left (htrue p)
    simp only
    split
    · trivial
    · exact hplanned

def builds : Control → Option IndexMetadata
  | .building _ index _ => some index
  | _ => none

theorem grows_unlock (db : Database) (r : ℕ) : Grows db (db.unlock r) := by
  rw [Database.unlock]
  split
  · exact ⟨fun _ h => h, fun _ _ h => h⟩
  · exact Grows.refl db

theorem grows_logs (hrows : ∀ row id, RowOf db row id → RowOf { db with logs := logs } row id) :
    Grows db { db with logs := logs } := ⟨fun _ h => h, hrows⟩

theorem grows_append (db : Database) (new : LogRow) :
    Grows db { db with logs := db.logs ++ [new] } := by
  refine grows_logs ?_
  rintro row id ⟨success, hrow⟩
  exact ⟨success, by rw [getElem?_append_left (List.getElem?_eq_some_iff.mp hrow).1, hrow]⟩

theorem grows_finishLog (db : Database) (row : ℕ) (success : Bool) :
    Grows db (db.finishLog row success) := by
  refine grows_logs ?_
  rintro row' id ⟨before, hrow⟩
  rw [RowOf, getElem?_modify, hrow]
  by_cases hsame : row = row'
  · exact ⟨some success, by simp [hsame]⟩
  · exact ⟨before, by simp [hsame]⟩

/-- An index that is not valid is no one's effect. -/
theorem grows_setIndex (hindex : db.indexes index ≠ .valid) (state : IndexState) :
    Grows db (db.setIndex index state) := by
  refine ⟨fun d heffect => ?_, fun _ _ h => h⟩
  rw [TakenEffect] at heffect ⊢
  split at heffect
  · exact heffect
  · rename_i other _
    have hne : other ≠ index := by
      rintro rfl
      exact hindex heffect
    exact (Function.update_of_ne hne _ _).trans heffect

theorem Grows.trans (hab : Grows a b) (hbc : Grows b c) : Grows a c :=
  ⟨fun d h => hbc.effects d (hab.effects d h), fun row id h => hbc.rows row id (hab.rows row id h)⟩

/-- The logs stay truthful if what they call applied was so before or is done now. -/
theorem Truthful.grows (h : Truthful defs db) (hgrows : Grows db db')
    (happlied : ∀ id ∈ (versions db'.logs).appliedVersions,
      id ∈ (versions db.logs).appliedVersions ∨ Done defs db' id) : Truthful defs db' := by
  intro id hid
  rcases happlied id hid with happ | hdone
  · exact fun d hd heq => hgrows.effects d (h id happ d hd heq)
  · exact hdone

theorem rowOf_startLog (db : Database) (id : ℤ) : RowOf (db.startLog id) db.logs.length id :=
  ⟨none, by simp [Database.startLog]⟩

theorem Truthful.startLog (h : Truthful defs db) (id : ℤ) : Truthful defs (db.startLog id) :=
  h.grows (grows_append db _) fun _ hid => .inl (applied_startLog hid)

theorem Truthful.finishLog (h : Ordered defs) (htrue : Truthful defs db) (hd : d ∈ defs)
    (hrow : RowOf db row d.id) (heffect : success = true → TakenEffect db d) :
    Truthful defs (db.finishLog row success) := by
  refine htrue.grows (grows_finishLog db row success) fun id hid => ?_
  obtain ⟨before, hrow⟩ := hrow
  refine (applied_finishLog hrow hid).imp_right ?_
  rintro ⟨rfl, hsuccess⟩
  exact done_of_mem h hd (heffect hsuccess)

theorem Truthful.unlock (h : Truthful defs db) (r : ℕ) : Truthful defs (db.unlock r) := by
  rw [Database.unlock]
  split <;> exact h

/-- The row of a revert hides the older ones, too. -/
theorem applied_revert {id : ℤ}
    (h : ver ∈ (versions (logs ++ [⟨id, false, some true⟩])).appliedVersions) :
    ver ∈ (versions logs).appliedVersions := by
  obtain ⟨row, hlatest, hsuccess, hup⟩ := mem_applied.mp h
  rw [latest, rowsOf, filter_append, getLast?_append, filter_cons, filter_nil] at hlatest
  split at hlatest
  · cases hlatest
    cases hup
  · exact mem_applied.mpr ⟨row, hlatest, hsuccess, hup⟩

structure Keeps (defs : List Definition) (db : Database) (next : Control × Database) : Prop where
  supported : Supported defs next.2 next.1
  grows : Grows db next.2
  truthful : Truthful defs next.2

section Keeps

variable (h : Ordered defs) (htrue : Truthful defs db) {next : Control × Database}
include htrue

theorem validating_keeps (hc : Supported defs db (.validating definitions schemaVersion))
    (hstep : advance defs options r outcome db (.validating definitions schemaVersion) =
      some next) : Keeps defs db next := by
  rw [advance] at hstep
  split at hstep
  · cases hstep
    exact ⟨trivial, grows_unlock db r, htrue.unlock r⟩
  · cases hstep
    exact ⟨hc.1.grows (grows_unlock db r), grows_unlock db r, htrue.unlock r⟩
  · cases hstep
    refine ⟨⟨hc.1, ?_⟩, .refl db, htrue⟩
    have hfilter := hc.1.filter hc.2
    rw [filterAppliedDefinitions]
    convert hfilter using 2
    simp [MigrationOperation.isUp]

theorem running_keeps (hc : Supported defs db (.running definitions rest))
    (hstep : advance defs options r outcome db (.running definitions rest) = some next) :
    Keeps defs db next := by
  cases rest with
  | nil =>
    cases hstep
    exact ⟨trivial, grows_unlock db r, htrue.unlock r⟩
  | cons d rest =>
    rw [advance] at hstep
    split at hstep
    · rename_i index hindex
      cases hstep
      exact ⟨⟨hc.1, hc.2, hindex⟩, .refl db, htrue⟩
    · rename_i hindex
      cases hstep
      have hgrows := grows_append db ⟨d.id, true, none⟩
      exact ⟨⟨hc.1.grows hgrows, hc.2.grows hgrows, hindex, rowOf_startLog db d.id⟩, hgrows,
        htrue.startLog d.id⟩

theorem logged_keeps (hc : Supported defs db (.logged definitions d rest row))
    (hstep : advance defs options r outcome db (.logged definitions d rest row) = some next) :
    Keeps defs db next := by
  obtain ⟨hdefs, hplan, hindex, hrow⟩ := hc
  cases outcome with
  | true =>
    cases hstep
    have hgrows : Grows db { db with committed := d.id :: db.committed } := by
      refine ⟨fun e heffect => ?_, fun _ _ h => h⟩
      rw [TakenEffect] at heffect ⊢
      split at heffect
      · exact mem_cons_of_mem _ heffect
      · exact heffect
    refine ⟨⟨hdefs.grows hgrows, hplan.grows hgrows, hrow, fun _ => ?_⟩, hgrows,
      htrue.grows hgrows fun _ hid => .inl hid⟩
    rw [TakenEffect, hindex]
    exact mem_cons_self
  | false =>
    cases hstep
    exact ⟨⟨hdefs, hplan, hrow, by simp⟩, .refl db, htrue⟩

theorem polled_keeps (hc : Supported defs db (.polled definitions d index rest unlocked status))
    (hdrop : (outcome && dropsValid db (.polled definitions d index rest unlocked status)) = false)
    (hstep : advance defs options r outcome db (.polled definitions d index rest unlocked status) =
      some next) : Keeps defs db next := by
  obtain ⟨hdefs, hplan, hindex, heffect⟩ := hc
  cases status with
  | valid =>
    cases hstep
    have hgrows := grows_append db ⟨d.id, true, none⟩
    exact ⟨⟨hdefs.grows hgrows, hplan.grows hgrows, rowOf_startLog db d.id,
      hgrows.effects d (heffect rfl)⟩, hgrows, htrue.startLog d.id⟩
  | invalid =>
    rw [advance] at hstep
    split at hstep
    · cases hstep
    split at hstep
    · rename_i hout
      cases hstep
      have hgrows : Grows db { db.setIndex index .missing with
          logs := db.logs ++ [⟨d.id, false, some true⟩] } := by
        refine (grows_setIndex ?_ .missing).trans (grows_append (db.setIndex index .missing) _)
        simpa [dropsValid, hout] using hdrop
      exact ⟨⟨hdefs.grows hgrows, hplan.grows hgrows, hindex⟩, hgrows,
        htrue.grows hgrows fun _ hid => .inl (applied_revert hid)⟩
    · cases hstep
      exact ⟨trivial, grows_unlock db r, htrue.unlock r⟩
  | building | missing =>
    cases hstep
    exact ⟨⟨hdefs, hplan, hindex⟩, .refl db, htrue⟩

theorem createLogged_keeps (hc : Supported defs db (.createLogged definitions d index rest row))
    (hstep : advance defs options r outcome db (.createLogged definitions d index rest row) =
      some next) : Keeps defs db next := by
  obtain ⟨hdefs, hplan, hindex, hrow⟩ := hc
  have hd := hplan.subset d mem_cons_self
  rw [advance] at hstep
  split at hstep
  · rename_i hmissing
    cases hstep
    have hnot : db.indexes index ≠ .valid := by simp [hmissing]
    have hgrows := grows_setIndex hnot .building
    exact ⟨⟨hdefs.grows hgrows, d, hd, hindex, hrow⟩, hgrows,
      htrue.grows hgrows fun _ hid => .inl hid⟩
  · cases hstep
    exact ⟨⟨hdefs, d, hd, hrow, by simp⟩, .refl db, htrue⟩

theorem building_keeps (hc : Supported defs db (.building definitions index row))
    (hheld : db.indexes index = .building)
    (hstep : advance defs options r outcome db (.building definitions index row) = some next) :
    Keeps defs db next := by
  obtain ⟨hdefs, d, hd, hindex, hrow⟩ := hc
  have hnot : db.indexes index ≠ .valid := by simp [hheld]
  cases outcome with
  | true =>
    cases hstep
    have hgrows := grows_setIndex hnot .valid
    refine ⟨⟨hdefs.grows hgrows, d, hd, hrow, fun _ => ?_⟩, hgrows,
      htrue.grows hgrows fun _ hid => .inl hid⟩
    rw [TakenEffect, hindex]
    exact Function.update_self index _ _
  | false =>
    cases hstep
    have hgrows := grows_setIndex hnot .invalid
    exact ⟨⟨hdefs.grows hgrows, d, hd, hrow, by simp⟩, hgrows,
      htrue.grows hgrows fun _ hid => .inl hid⟩

include h

theorem ran_keeps (hc : Supported defs db (.ran definitions d rest row success))
    (hstep : advance defs options r outcome db (.ran definitions d rest row success) =
      some next) : Keeps defs db next := by
  obtain ⟨hdefs, hplan, hrow, heffect⟩ := hc
  have hgrows := grows_finishLog db row success
  have htrue' := htrue.finishLog h (hplan.subset d mem_cons_self) hrow heffect
  cases success with
  | true =>
    cases hstep
    exact ⟨⟨hdefs.grows hgrows, (hplan.tail h (heffect rfl)).grows hgrows⟩, hgrows, htrue'⟩
  | false =>
    cases hstep
    exact ⟨trivial, hgrows.trans (grows_unlock _ r), htrue'.unlock r⟩

theorem confirming_keeps (hc : Supported defs db (.confirming definitions d rest unlocked row))
    (hstep : advance defs options r outcome db (.confirming definitions d rest unlocked row) =
      some next) : Keeps defs db next := by
  obtain ⟨hdefs, hplan, hrow, heffect⟩ := hc
  have hgrows := grows_finishLog db row true
  have htrue' : Truthful defs (db.finishLog row true) :=
    htrue.finishLog h (hplan.subset d mem_cons_self) hrow fun _ => heffect
  cases unlocked with
  | true =>
    cases hstep
    exact ⟨hdefs.grows hgrows, hgrows, htrue'⟩
  | false =>
    cases hstep
    exact ⟨⟨hdefs.grows hgrows, (hplan.tail h heffect).grows hgrows⟩, hgrows, htrue'⟩

theorem built_keeps (hc : Supported defs db (.built definitions row success))
    (hstep : advance defs options r outcome db (.built definitions row success) = some next) :
    Keeps defs db next := by
  obtain ⟨hdefs, d, hd, hrow, heffect⟩ := hc
  have hgrows := grows_finishLog db row success
  have htrue' := htrue.finishLog h hd hrow heffect
  cases success with
  | true =>
    cases hstep
    exact ⟨hdefs.grows hgrows, hgrows, htrue'⟩
  | false =>
    cases hstep
    exact ⟨trivial, hgrows, htrue'⟩

theorem advance_keeps {c : Control} (hc : Supported defs db c)
    (hdrop : (outcome && dropsValid db c) = false)
    (hheld : ∀ index, builds c = some index → db.indexes index = .building)
    (hstep : advance defs options r outcome db c = some next) : Keeps defs db next := by
  cases c with
  | start targets =>
    cases hstep
    exact ⟨gather_supported h htrue targets, .refl db, htrue⟩
  | waiting definitions =>
    rw [advance] at hstep
    split at hstep
    · cases hstep
      have hgrows : Grows db { db with lock := some r } := ⟨fun _ h => h, fun _ _ h => h⟩
      exact ⟨Planned.grows hc hgrows, hgrows, htrue⟩
    · cases hstep
  | locked definitions =>
    cases hstep
    exact ⟨⟨hc, htrue⟩, .refl db, htrue⟩
  | validating => exact validating_keeps htrue hc hstep
  | running => exact running_keeps htrue hc hstep
  | logged => exact logged_keeps htrue hc hstep
  | ran => exact ran_keeps h htrue hc hstep
  | polling definitions d index rest unlocked =>
    cases hstep
    refine ⟨⟨hc.1, hc.2.1, hc.2.2, fun hvalid => ?_⟩, .refl db, htrue⟩
    rwa [TakenEffect, hc.2.2]
  | polled => exact polled_keeps htrue hc hdrop hstep
  | confirming => exact confirming_keeps h htrue hc hstep
  | unlocking definitions d index rest wait =>
    have hgrows := grows_unlock db r
    have hc' := Supported.grows hc hgrows
    cases wait with
    | true | false =>
      cases hstep
      exact ⟨hc', hgrows, htrue.unlock r⟩
  | creating definitions d index rest =>
    cases hstep
    have hgrows := grows_append db ⟨d.id, true, none⟩
    exact ⟨⟨hc.1.grows hgrows, hc.2.1.grows hgrows, hc.2.2, rowOf_startLog db d.id⟩, hgrows,
      htrue.startLog d.id⟩
  | createLogged => exact createLogged_keeps htrue hc hstep
  | building definitions index row => exact building_keeps htrue hc (hheld index rfl) hstep
  | built => exact built_keeps h htrue hc hstep
  | finished => cases hstep

end Keeps

/-- What a step does to the indexes: one is created, built, given up or dropped. -/
theorem advance_indexes (hstep : advance defs options r outcome db c = some (c', db')) :
    (db'.indexes = db.indexes ∧ builds c = none ∧ builds c' = none) ∨
      ∃ index state, db'.indexes = update db.indexes index state ∧
        (builds c = some index ∧ builds c' = none ∨
          builds c = none ∧ db.indexes index ≠ .building ∧
            (builds c' = none ∨ builds c' = some index ∧ state = .building)) := by
  have hunlock (db : Database) : (db.unlock r).indexes = db.indexes := by
    rw [Database.unlock]
    split <;> rfl
  cases c with
  | start targets =>
    cases hstep
    refine .inl ⟨rfl, rfl, ?_⟩
    rw [gather]
    split
    · rfl
    · simp only
      split <;> rfl
  | waiting | validating =>
    rw [advance] at hstep
    split at hstep <;> cases hstep <;> exact .inl ⟨by simp [hunlock], rfl, rfl⟩
  | running definitions rest =>
    cases rest with
    | nil =>
      cases hstep
      exact .inl ⟨hunlock db, rfl, rfl⟩
    | cons d rest =>
      rw [advance] at hstep
      split at hstep <;> cases hstep <;> exact .inl ⟨rfl, rfl, rfl⟩
  | locked | polling | creating =>
    cases hstep
    exact .inl ⟨rfl, rfl, rfl⟩
  | logged | ran | confirming | unlocking | built =>
    rw [advance] at hstep
    split at hstep <;> cases hstep <;>
      exact .inl ⟨by simp [hunlock, Database.finishLog], rfl, rfl⟩
  | polled definitions d index rest unlocked status =>
    cases status with
    | invalid =>
      rw [advance] at hstep
      split at hstep
      · cases hstep
      rename_i hnot
      split at hstep
      · cases hstep
        exact .inr ⟨index, .missing, rfl, .inr ⟨rfl, hnot, .inl rfl⟩⟩
      · cases hstep
        exact .inl ⟨hunlock db, rfl, rfl⟩
    | valid | building | missing =>
      cases hstep
      exact .inl ⟨rfl, rfl, rfl⟩
  | createLogged definitions d index rest row =>
    rw [advance] at hstep
    split at hstep
    · rename_i hmissing
      cases hstep
      exact .inr ⟨index, .building, rfl, .inr ⟨rfl, by simp [hmissing], .inr ⟨rfl, rfl⟩⟩⟩
    · cases hstep
      exact .inl ⟨rfl, rfl, rfl⟩
  | building definitions index row =>
    cases outcome <;> cases hstep <;> exact .inr ⟨index, _, rfl, .inl ⟨rfl, rfl⟩⟩
  | finished => cases hstep

structure Invariant (defs : List Definition) (s : System) : Prop where
  supported : ∀ r, Supported defs s.db (s.control r)
  truthful : Truthful defs s.db
  held : ∀ r index, builds (s.control r) = some index → s.db.indexes index = .building
  alone : ∀ r q index, builds (s.control r) = some index → builds (s.control q) = some index →
    r = q

theorem step_invariant (h : Ordered defs) (hs : Invariant defs s)
    (hdrop : (outcome && dropsValid s.db (s.control r)) = false)
    (hstep : advance defs options r outcome s.db (s.control r) = some (c, db)) :
    Invariant defs ⟨update s.control r c, db⟩ := by
  obtain ⟨hsupported, hgrows, htrue⟩ :=
    advance_keeps h hs.truthful (hs.supported r) hdrop (hs.held r) hstep
  -- The others build what they built before, and this runner possibly one that no one builds.
  have hother : ∀ q index, q ≠ r → builds (s.control q) = some index →
      db.indexes index = .building ∧ builds c ≠ some index := by
    intro q index hq hbuilds
    have hheld := hs.held q index hbuilds
    rcases advance_indexes hstep with ⟨hsame, -, hnone⟩ | ⟨changed, state, hchanged, hcases⟩
    · exact ⟨by rw [hsame, hheld], by simp [hnone]⟩
    have hne : index ≠ changed := by
      rintro rfl
      rcases hcases with ⟨hmine, -⟩ | ⟨-, hnot, -⟩
      · exact hq (hs.alone q r index hbuilds hmine)
      · exact hnot hheld
    refine ⟨by rw [hchanged, Function.update_of_ne hne, hheld], ?_⟩
    rcases hcases with ⟨-, hnone⟩ | ⟨-, -, hnone | ⟨hmine, -⟩⟩
    · simp [hnone]
    · simp [hnone]
    · simp [hmine, hne.symm]
  have hmine : ∀ index, builds c = some index → db.indexes index = .building := by
    intro index hbuilds
    rcases advance_indexes hstep with ⟨-, -, hnone⟩ | ⟨changed, state, hchanged, hcases⟩
    · simp [hnone] at hbuilds
    rcases hcases with ⟨-, hnone⟩ | ⟨-, -, hnone | ⟨hnew, hstate⟩⟩
    · simp [hnone] at hbuilds
    · simp [hnone] at hbuilds
    · cases hnew.symm.trans hbuilds
      rw [hchanged, Function.update_self, hstate]
  refine ⟨fun q => ?_, htrue, fun q index hq => ?_, fun p q index hp hq => ?_⟩
  · by_cases hqr : q = r
    · subst hqr
      simpa only [Function.update_self] using hsupported
    · simpa only [Function.update_of_ne hqr] using (hs.supported q).grows hgrows
  · by_cases hqr : q = r
    · subst hqr
      exact hmine index (by simpa using hq)
    · exact (hother q index hqr (by simpa [hqr] using hq)).1
  · by_cases hpr : p = r <;> by_cases hqr : q = r
    · rw [hpr, hqr]
    · subst hpr
      exact absurd (by simpa using hp) (hother q index hqr (by simpa [hqr] using hq)).2
    · subst hqr
      exact absurd (by simpa using hq) (hother p index hpr (by simpa [hpr] using hp)).2
    · exact hs.alone p q index (by simpa [hpr] using hp) (by simpa [hqr] using hq)

theorem initial_invariant (h : Initial defs s) : Invariant defs s := by
  have hstart : ∀ r, builds (s.control r) = none := fun r => by
    obtain ⟨targets, hcontrol⟩ := h.started r
    rw [hcontrol]
    rfl
  refine ⟨fun r => ?_, fun id hid d hd heq => h.truthful d hd (heq ▸ hid), fun r index hr => ?_,
    fun r q index hr => ?_⟩
  · obtain ⟨targets, hcontrol⟩ := h.started r
    rw [hcontrol]
    trivial
  · simp [hstart r] at hr
  · simp [hstart r] at hr

theorem run_invariant (h : Ordered defs) (hs : Invariant defs s)
    (hcareful : careful defs options s events = true)
    (hrun : run defs options s events = some s') : Invariant defs s' := by
  induction events generalizing s with
  | nil =>
    cases hrun
    exact hs
  | cons event rest ih =>
    obtain ⟨r, outcome⟩ := event
    obtain ⟨next, hnext, hrest⟩ := Option.bind_eq_some_iff.mp hrun
    rw [careful, hnext, Bool.and_eq_true, Bool.not_eq_true'] at hcareful
    exact ih (step_invariant h hs hcareful.1 hnext) hcareful.2 hrest

theorem Supported.parents (h : Supported defs db c) (hd : executing c = some d) :
    ∀ p ∈ d.parents, Done defs db p := by
  have hfirst {rest : List Definition} (hplan : Planned defs db (d :: rest)) :
      ∀ p ∈ d.parents, Done defs db p := fun p hp =>
    (hplan.parents [] d rest rfl p hp).resolve_right not_mem_nil
  cases c with
  | logged | createLogged =>
    cases hd
    exact hfirst h.2.1
  | _ => cases hd

theorem Invariant.respectful (hs : Invariant defs s) : Respectful defs s := by
  constructor
  · intro r d hd p hp hparent
    exact (hs.supported r).parents hd p.id hparent p hp rfl
  · intro d hd index hindex happlied hbuilding
    have heffect := hs.truthful d.id happlied d hd rfl
    rw [TakenEffect, hindex] at heffect
    cases hbuilding.symm.trans heffect

/-- Runners respect dependencies as long as no step drops an index that has become valid. -/
theorem careful_respectful {defs : List Definition} (h : Ordered defs) (options : Options)
    {s s' : System} (hinitial : Initial defs s) {events : List (ℕ × Bool)}
    (hcareful : careful defs options s events = true)
    (hrun : run defs options s events = some s') : Respectful defs s' :=
  (run_invariant h (initial_invariant hinitial) hcareful hrun).respectful

/-- The first migration creates an index, on which the second one depends. -/
def indexed : List Definition :=
  [{ id := 1, indexMetadata := some ⟨"repo", "repo_name_idx"⟩ }, { id := 2, parents := [1] }]

def empty : System := ⟨fun _ => .start [2], none, [], [], fun _ => .missing⟩

def plain : Options := ⟨.apply, fun _ => false, false, false⟩

theorem empty_initial : Initial indexed empty where
  started _ := ⟨_, rfl⟩
  unlocked := rfl
  truthful _ _ happlied := by simp [empty, versions] at happlied
  idle _ := by simp [empty]

/-- Runner 1 fails to build the index, runner 2 drops it when runner 0 has logged its own creation,
and so runners 3 and 4 wait for runner 0. It fails, and both find the index invalid. -/
def failedTwice : List (ℕ × Bool) :=
  replicate 8 (0, true) ++ replicate 8 (1, true) ++ replicate 5 (2, true) ++
    replicate 2 (1, true) ++ replicate 3 (2, true) ++ [(1, false), (1, true), (2, true), (0, true),
    (2, true), (0, true)] ++ replicate 8 (3, true) ++ replicate 8 (4, true) ++
    [(0, false), (3, true), (4, true)]

/-- Runner 3 creates the index and is about to apply the second migration when runner 4 drops the
index. -/
theorem index_dropped_before_child : ∃ events s, Initial indexed empty ∧
    run indexed plain empty events = some s ∧ ¬ Respectful indexed s := by
  have hany : ((run indexed plain empty
      (failedTwice ++ replicate 9 (3, true) ++ [(4, true), (3, true)])).any
        fun s => executing (s.control 3) = some { id := 2, parents := [1] } &&
          s.db.indexes ⟨"repo", "repo_name_idx"⟩ = .missing) = true := by decide +kernel
  obtain ⟨s, hrun, hs⟩ := Option.any_eq_true _ _ |>.mp hany
  rw [Bool.and_eq_true, decide_eq_true_eq, decide_eq_true_eq] at hs
  refine ⟨_, s, empty_initial, hrun, fun hrespects => ?_⟩
  have heffect := hrespects.parents 3 _ hs.1 _ mem_cons_self (by decide)
  cases hs.2.symm.trans heffect

theorem indexed_child_respected : ∃ s, run indexed plain empty (replicate 16 (0, true)) = some s ∧
    executing (s.control 0) = some { id := 2, parents := [1] } ∧ Respectful indexed s := by
  have hany : ((run indexed plain empty (replicate 16 (0, true))).any
      fun s => executing (s.control 0) = some { id := 2, parents := [1] }) = true := by
    decide +kernel
  obtain ⟨s, hrun, hs⟩ := Option.any_eq_true _ _ |>.mp hany
  refine ⟨s, hrun, of_decide_eq_true hs, ?_⟩
  have hordered := (reorderDefinitions_explained indexed).2.2
  exact careful_respectful hordered plain empty_initial (by decide +kernel) hrun

end MigrationConcurrency
