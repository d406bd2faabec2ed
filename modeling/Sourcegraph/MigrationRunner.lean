import Sourcegraph.GoStrings
import Sourcegraph.MigrationOperations

/-! # Running migrations on a schema

Under the lock the runner looks at the states of the migrations gathered before, and stops if one
failed or does not proceed. Two flags let it go on. -/
namespace MigrationRunner

open MigrationGraph MigrationOrder MigrationPlans MigrationOperations List

structure SchemaVersion where
  appliedVersions : List ℤ
  pendingVersions : List ℤ
  failedVersions : List ℤ
  deriving DecidableEq

structure IndexStatus where
  isValid : Bool
  phase : Option String
  deriving DecidableEq

inductive PrivilegedMode where
  | apply
  | noop
  | refuse
  deriving DecidableEq

structure Options where
  privilegedMode : PrivilegedMode
  matchPrivilegedHash : String → Bool
  ignoreSingleDirtyLog : Bool
  ignoreSinglePendingLog : Bool

inductive RunError where
  | dirtySchema (versions : List ℤ)
  | indexStatus (tableName indexName message : String)
  | privilegedMigration (versions : List ℤ)
  | privilegedHash (hash : String)
  | migration (message : String)
  | context (message : String)
  deriving DecidableEq

/-- The database and the hash function. The last three fields say whether a concurrent index
creation gave up the lock, how running a migration ends, and if the context ends in a wait. -/
structure Environment where
  indexStatus : String → String → Except String (Option IndexStatus)
  hashDefinitionIDs : List ℤ → String
  createIndexConcurrently : Definition → Except String Bool
  applyMigration : Definition → Except String Unit
  wait : Option String

structure DefinitionsByState where
  applied : List Definition
  pending : List Definition
  failed : List Definition

def groupByState (schemaVersion : SchemaVersion) (definitions : List Definition) :
    DefinitionsByState where
  applied := definitions.filter fun d => d.id ∈ schemaVersion.appliedVersions
  pending := definitions.filter fun d => d.id ∈ schemaVersion.pendingVersions
  failed := definitions.filter fun d => d.id ∈ schemaVersion.failedVersions

/-- Pending migrations with an active index creation, and the others. -/
def partitionPendingMigrations (env : Environment) :
    List Definition → Except RunError (List Definition × List Definition)
  | [] => .ok ([], [])
  | d :: rest =>
    match d.indexMetadata with
    | none => (partitionPendingMigrations env rest).map fun found => (found.1, d :: found.2)
    | some index =>
      match env.indexStatus index.tableName index.indexName with
      | .error message => .error (.indexStatus index.tableName index.indexName message)
      | .ok status =>
        if (status.bind IndexStatus.phase).isSome then
          (partitionPendingMigrations env rest).map fun found => (d :: found.1, found.2)
        else (partitionPendingMigrations env rest).map fun found => (found.1, d :: found.2)

/-- The loop asks in each round if the first definition is applied. -/
def retriesFailed (definitions : List Definition) (byState : DefinitionsByState) : Bool :=
  definitions.any fun d =>
    !(definitions.head?.any fun first => first.id ∈ ids byState.applied) &&
      byState.failed.head?.any fun failed => failed.id = d.id

/-- The flag says that the state has to be queried again. -/
def validateSchemaState (env : Environment) (options : Options) (definitions : List Definition)
    (byState : DefinitionsByState) : Except RunError Bool :=
  if options.ignoreSingleDirtyLog && byState.failed.length = 1 &&
      retriesFailed definitions byState then .ok false
  else if options.ignoreSinglePendingLog && byState.pending.length = 1 then .ok false
  else if byState.failed.length > 0 then .error (.dirtySchema (ids byState.failed))
  else if byState.pending.length > 0 then do
    let found ← partitionPendingMigrations env byState.pending
    if found.2.length > 0 then .error (.dirtySchema (ids found.2))
    else .ok (decide (found.1.length > 0))
  else .ok false

def MigrationOperation.isUp (operation : MigrationOperation) : Bool :=
  operation.operationType = .targetedUp

def filterAppliedDefinitions (schemaVersion : SchemaVersion) (operation : MigrationOperation)
    (definitions : List Definition) : List Definition :=
  definitions.filter fun d =>
    decide (d.id ∈ schemaVersion.appliedVersions) ≠ MigrationOperation.isUp operation

def checkPrivilegedState (env : Environment) (options : Options) (operation : MigrationOperation)
    (definitions : List Definition) : Except RunError Unit :=
  let up := MigrationOperation.isUp operation
  if options.privilegedMode = .apply || options.privilegedMode = .refuse && !up then .ok ()
  else
    let privileged := ids (definitions.filter Definition.privileged)
    if privileged.length = 0 then .ok ()
    else
      match options.privilegedMode with
      | .refuse => .error (.privilegedMigration privileged)
      | .noop =>
        if !options.matchPrivilegedHash (env.hashDefinitionIDs privileged) && up then
          .error (.privilegedHash (env.hashDefinitionIDs privileged))
        else .ok ()
      | .apply => .ok ()

structure Outcome where
  executed : List Definition
  result : Except RunError Bool
  deriving DecidableEq

/-- The migrations that were started, and if the lock was dropped. -/
def runDefinitions (env : Environment) (options : Options) (operation : MigrationOperation) :
    List Definition → List Definition → Outcome
  | executed, [] => ⟨executed, .ok false⟩
  | executed, d :: rest =>
    if MigrationOperation.isUp operation && d.indexMetadata.isSome then
      match env.createIndexConcurrently d with
      | .error message => ⟨executed ++ [d], .error (.migration message)⟩
      | .ok true => ⟨executed ++ [d], .ok true⟩
      | .ok false => runDefinitions env options operation (executed ++ [d]) rest
    else if d.privileged && options.privilegedMode = .refuse then
      ⟨executed, .error (.privilegedMigration [d.id])⟩
    else
      match env.applyMigration d with
      | .error message => ⟨executed ++ [d], .error (.migration message)⟩
      | .ok () => runDefinitions env options operation (executed ++ [d]) rest

def applyCallback (env : Environment) (options : Options) (operation : MigrationOperation)
    (definitions : List Definition) (schemaVersion : SchemaVersion) : Outcome :=
  let definitions := filterAppliedDefinitions schemaVersion operation definitions
  if definitions.length = 0 then ⟨[], .ok false⟩
  else
    match checkPrivilegedState env options operation definitions with
    | .error e => ⟨[], .error e⟩
    | .ok () => runDefinitions env options operation [] definitions

/-- `schemaVersion` is what is read under the lock. -/
def applyMigrations (env : Environment) (options : Options) (operation : MigrationOperation)
    (definitions : List Definition) (schemaVersion : SchemaVersion) : Outcome :=
  match validateSchemaState env options definitions (groupByState schemaVersion definitions) with
  | .error e => ⟨[], .error e⟩
  | .ok true =>
    match env.wait with
    | some message => ⟨[], .error (.context message)⟩
    | none => ⟨[], .ok true⟩
  | .ok false => applyCallback env options operation definitions schemaVersion

def gatherDefinitions (ds : Definitions) (operation : MigrationOperation)
    (appliedVersions : List ℤ) : Except OrderFault (List Definition) :=
  if MigrationOperation.isUp operation then
    Definitions.up ds appliedVersions operation.targetVersions
  else Definitions.down ds appliedVersions operation.targetVersions

section Dirty

variable (env : Environment) (options : Options) (defs : List Definition)
  (operation : MigrationOperation) (definitions : List Definition) (schemaVersion : SchemaVersion)

/-- Targets and their ancestors when migrating up, proper descendants of targets otherwise. -/
def Relevant (id : ℤ) : Prop :=
  if MigrationOperation.isUp operation then
    ∃ t ∈ operation.targetVersions, Relation.ReflTransGen (Parent defs) id t
  else ∃ t ∈ operation.targetVersions, Relation.TransGen (Parent defs) t id

def Running (d : Definition) : Prop :=
  ∃ index status, d.indexMetadata = some index ∧
    env.indexStatus index.tableName index.indexName = .ok (some status) ∧ status.phase.isSome

/-- The migration failed, or it is pending although nothing runs. -/
def Broken (d : Definition) : Prop :=
  d.id ∈ schemaVersion.failedVersions ∨ d.id ∈ schemaVersion.pendingVersions ∧ ¬ Running env d

def Dirty : Prop := ∃ d ∈ defs, Relevant defs operation d.id ∧ Broken env schemaVersion d

/-- The next migration is the only relevant one in a state, and no relevant one is in another
state. -/
def OnlyNext (state other : List ℤ) : Prop :=
  ∃ d, (filterAppliedDefinitions schemaVersion operation definitions).head? = some d ∧
    d.id ∈ state ∧ (∀ id ∈ state, Relevant defs operation id → id = d.id) ∧
    ∀ id ∈ other, ¬ Relevant defs operation id

def Tolerated : Prop :=
  options.ignoreSingleDirtyLog = true ∧ OnlyNext defs operation definitions schemaVersion
      schemaVersion.failedVersions schemaVersion.pendingVersions ∨
    options.ignoreSinglePendingLog = true ∧ OnlyNext defs operation definitions schemaVersion
      schemaVersion.pendingVersions schemaVersion.failedVersions

/-- A dirty schema stops the run before its first migration. -/
def StopsWhenDirty (outcome : Outcome) : Prop :=
  Dirty env defs operation schemaVersion →
    Tolerated options defs operation definitions schemaVersion ∨
      outcome.executed = [] ∧ ∃ e, outcome.result = .error e

def Waved : Prop :=
  options.ignoreSingleDirtyLog = true ∧
      (groupByState schemaVersion definitions).failed.length = 1 ∧
      (∀ first ∈ definitions.head?, first.id ∉ schemaVersion.appliedVersions) ∨
    options.ignoreSinglePendingLog = true ∧
      (groupByState schemaVersion definitions).pending.length = 1

def Refused : Prop :=
  if MigrationOperation.isUp operation then
    ∃ d ∈ filterAppliedDefinitions schemaVersion operation definitions, d.privileged = true ∧
      (options.privilegedMode = .refuse ∨ options.privilegedMode = .noop ∧
        options.matchPrivilegedHash (env.hashDefinitionIDs (ids
          ((filterAppliedDefinitions schemaVersion operation definitions).filter
            Definition.privileged))) = false)
  else options.privilegedMode = .refuse ∧
    ∃ d, (filterAppliedDefinitions schemaVersion operation definitions).head? = some d ∧
      d.privileged = true

/-- A gathered migration is broken, or pending and the context ends in the wait for it, and no flag
lets the run go on, or the run may go on but is refused. -/
def Blocked : Prop :=
  ¬ Waved options definitions schemaVersion ∧
      ((∃ d ∈ definitions, Broken env schemaVersion d) ∨
        (∃ d ∈ definitions, d.id ∈ schemaVersion.pendingVersions) ∧ env.wait.isSome = true) ∨
    (Waved options definitions schemaVersion ∨
      ∀ d ∈ definitions, d.id ∉ schemaVersion.failedVersions ∧
        d.id ∉ schemaVersion.pendingVersions) ∧
      Refused env options operation definitions schemaVersion

end Dirty

theorem partition_cases (l : List Definition) :
    ((∀ found, partitionPendingMigrations env l = .ok found → found.2 ≠ []) ∧
        ∃ d ∈ l, ¬ Running env d) ∨
      partitionPendingMigrations env l = .ok (l, []) ∧ ∀ d ∈ l, Running env d := by
  have hadd : ∀ {x : Except RunError (List Definition × List Definition)} {d found},
      x.map (fun found => (found.1, d :: found.2)) = .ok found → found.2 ≠ [] := by
    intro x d found h
    obtain ⟨found', -, rfl⟩ := GoStrings.map_eq_ok h
    exact cons_ne_nil _ _
  fun_induction partitionPendingMigrations env l with
  | case1 => exact .inr ⟨rfl, by simp⟩
  | case2 d rest hix =>
    refine .inl ⟨fun _ => hadd, d, mem_cons_self, ?_⟩
    rintro ⟨ix, start, hix', -⟩
    cases hix.symm.trans hix'
  | case3 d rest ix hix msg hst =>
    refine .inl ⟨nofun, d, mem_cons_self, ?_⟩
    rintro ⟨ix', start', hix', hst', -⟩
    cases hix.symm.trans hix'
    cases hst.symm.trans hst'
  | case4 d rest ix hix start hst hph ih =>
    rcases ih with ⟨hne, c, hc, hnot⟩ | ⟨hok, hall⟩
    · refine .inl ⟨fun found h => ?_, c, mem_cons_of_mem d hc, hnot⟩
      obtain ⟨found', hfnd, rfl⟩ := GoStrings.map_eq_ok h
      exact hne found' hfnd
    · rw [hok]
      cases start with
      | none => cases hph
      | some start => exact .inr ⟨rfl, forall_mem_cons.mpr ⟨⟨ix, start, hix, hst, hph⟩, hall⟩⟩
  | case5 d rest ix hix start hst hph =>
    refine .inl ⟨fun _ => hadd, d, mem_cons_self, ?_⟩
    rintro ⟨ix', start', hix', hst', hph'⟩
    cases hix.symm.trans hix'
    cases hst.symm.trans hst'
    exact hph hph'

theorem retriesFailed_iff (hfai : (groupByState schemaVersion definitions).failed.length = 1) :
    retriesFailed definitions (groupByState schemaVersion definitions) = true ↔
      ∀ first ∈ definitions.head?, first.id ∉ schemaVersion.appliedVersions := by
  obtain ⟨fai, hli⟩ := length_eq_one_iff.mp hfai
  have hmem : fai ∈ definitions := mem_of_mem_filter (hli ▸ mem_singleton_self fai)
  cases definitions with
  | nil => cases hmem
  | cons first rest =>
    have happ : first.id ∈ ids (groupByState schemaVersion (first :: rest)).applied ↔
        first.id ∈ schemaVersion.appliedVersions := by
      rw [ids, mem_map]
      constructor
      · rintro ⟨d, hd, hid⟩
        rw [← hid]
        exact of_decide_eq_true (mem_filter.mp hd).2
      · exact fun hin => ⟨first, mem_filter.mpr ⟨by simp, decide_eq_true hin⟩, rfl⟩
    rw [retriesFailed, hli]
    simp only [any_eq_true, head?_cons, Option.any_some, happ, Bool.and_eq_true,
      Bool.not_eq_true', decide_eq_false_iff_not, decide_eq_true_eq, Option.mem_def,
      Option.some.injEq, forall_eq']
    constructor
    · rintro ⟨-, -, hnot, -⟩
      exact hnot
    · exact fun hnot => ⟨fai, hmem, hnot, rfl⟩

theorem waved_iff : Waved options definitions schemaVersion ↔
    (options.ignoreSingleDirtyLog = true ∧
        (groupByState schemaVersion definitions).failed.length = 1 ∧
        retriesFailed definitions (groupByState schemaVersion definitions) = true) ∨
      options.ignoreSinglePendingLog = true ∧
        (groupByState schemaVersion definitions).pending.length = 1 := by
  refine or_congr_left (and_congr_right fun _ => and_congr_right fun hone => ?_)
  exact (retriesFailed_iff hone).symm

theorem validate_cases :
    (∃ e, validateSchemaState env options definitions (groupByState schemaVersion definitions) =
        .error e ∧ ¬ Waved options definitions schemaVersion ∧
        ∃ d ∈ definitions, Broken env schemaVersion d) ∨
      (validateSchemaState env options definitions (groupByState schemaVersion definitions) =
        .ok true ∧ ¬ Waved options definitions schemaVersion ∧
        (∀ d ∈ definitions, ¬ Broken env schemaVersion d) ∧
        ∃ d ∈ definitions, d.id ∈ schemaVersion.pendingVersions) ∨
      (validateSchemaState env options definitions (groupByState schemaVersion definitions) =
        .ok false ∧ (Waved options definitions schemaVersion ∨
        ∀ d ∈ definitions, d.id ∉ schemaVersion.failedVersions ∧
          d.id ∉ schemaVersion.pendingVersions)) := by
  have hfai : ∀ d, d ∈ (groupByState schemaVersion definitions).failed ↔
      d ∈ definitions ∧ d.id ∈ schemaVersion.failedVersions := fun d => by simp [groupByState]
  have hpen : ∀ d, d ∈ (groupByState schemaVersion definitions).pending ↔
      d ∈ definitions ∧ d.id ∈ schemaVersion.pendingVersions := fun d => by simp [groupByState]
  rw [validateSchemaState]
  by_cases hwav : Waved options definitions schemaVersion
  · refine .inr (.inr ⟨?_, .inl hwav⟩)
    rcases waved_iff.mp hwav with ⟨hfl, hone, hret⟩ | ⟨hfl, hone⟩
    · rw [if_pos (by simp [hfl, hone, hret])]
    split
    · rfl
    · rw [if_pos (by simp [hfl, hone])]
  have hnot := mt waved_iff.mpr hwav
  rw [not_or] at hnot
  rw [if_neg (by simpa using hnot.1), if_neg (by simpa using hnot.2)]
  by_cases hso : (groupByState schemaVersion definitions).failed.length > 0
  · rw [if_pos hso]
    obtain ⟨d, hd⟩ := exists_mem_of_length_pos hso
    obtain ⟨hmem, hin⟩ := (hfai d).mp hd
    exact .inl ⟨_, rfl, hwav, d, hmem, .inl hin⟩
  rw [if_neg hso]
  have hno : ∀ d ∈ definitions, d.id ∉ schemaVersion.failedVersions := fun d hd hin =>
    hso (length_pos_of_mem ((hfai d).mpr ⟨hd, hin⟩))
  by_cases hwai : (groupByState schemaVersion definitions).pending.length > 0
  · rw [if_pos hwai]
    rcases @partition_cases env (groupByState schemaVersion definitions).pending with
      ⟨hne, d, hd, hsta⟩ | ⟨hrun, hall⟩
    · obtain ⟨hmem, hin⟩ := (hpen d).mp hd
      have hbro : ∃ d ∈ definitions, Broken env schemaVersion d :=
        ⟨d, hmem, .inr ⟨hin, hsta⟩⟩
      cases hrun : partitionPendingMigrations env (groupByState schemaVersion
          definitions).pending with
      | error e => exact .inl ⟨e, rfl, hwav, hbro⟩
      | ok found =>
        exact .inl ⟨_, if_pos (length_pos_iff.mpr (hne found hrun)), hwav, hbro⟩
    · obtain ⟨d, hd⟩ := exists_mem_of_length_pos hwai
      obtain ⟨hmem, hin⟩ := (hpen d).mp hd
      rw [hrun]
      refine .inr (.inl ⟨congrArg Except.ok (decide_eq_true hwai), hwav, ?_, d, hmem, hin⟩)
      rintro c hc (hbro | ⟨hwa, hsta⟩)
      · exact hno c hc hbro
      · exact hsta (hall c ((hpen c).mpr ⟨hc, hwa⟩))
  · rw [if_neg hwai]
    refine .inr (.inr ⟨rfl, .inr fun d hd => ⟨hno d hd, fun hin => hwai ?_⟩⟩)
    exact length_pos_of_mem ((hpen d).mpr ⟨hd, hin⟩)

theorem runDefinitions_executed (hne : exe ≠ []) (rest : List Definition) :
    (runDefinitions env options operation exe rest).executed ≠ [] := by
  fun_induction runDefinitions env options operation exe rest with
  | case1 | case5 => exact hne
  | case4 _ _ _ _ _ ih | case7 _ _ _ _ _ _ ih => exact ih (by simp)
  | _ => simp

theorem runDefinitions_blocked (rest : List Definition) :
    ((runDefinitions env options operation [] (d :: rest)).executed = [] ∧
        ∃ e, (runDefinitions env options operation [] (d :: rest)).result = .error e) ↔
      (MigrationOperation.isUp operation && d.indexMetadata.isSome) = false ∧
        d.privileged = true ∧ options.privilegedMode = .refuse := by
  have hsta : ∀ rest, (runDefinitions env options operation [d] rest).executed ≠ [] :=
    fun rest => runDefinitions_executed (cons_ne_nil _ _) rest
  rw [runDefinitions]
  split
  · rename_i hix
    refine iff_of_false ?_ (by simp [hix])
    rintro ⟨hno, -⟩
    split at hno
    · cases hno
    · cases hno
    · exact hsta rest hno
  rename_i hix
  split
  · rename_i hpri
    exact iff_of_true ⟨rfl, _, rfl⟩ ⟨by simpa using hix, by simpa using hpri⟩
  rename_i hpri
  refine iff_of_false ?_ fun h => hpri (by simpa using h.2)
  rintro ⟨hno, -⟩
  split at hno
  · cases hno
  · exact hsta rest hno

theorem checkPrivilegedState_down (hup : MigrationOperation.isUp operation = false) :
    checkPrivilegedState env options operation definitions = .ok () := by
  rw [checkPrivilegedState, hup]
  cases options.privilegedMode with
  | apply | refuse => rfl
  | noop =>
    simp only [Bool.and_false]
    split
    · rfl
    · split <;> rfl

theorem checkPrivilegedState_up (hup : MigrationOperation.isUp operation = true) :
    (∃ e, checkPrivilegedState env options operation definitions = .error e) ↔
      ∃ d ∈ definitions, d.privileged = true ∧
        (options.privilegedMode = .refuse ∨ options.privilegedMode = .noop ∧
          options.matchPrivilegedHash (env.hashDefinitionIDs
            (ids (definitions.filter Definition.privileged))) = false) := by
  rw [checkPrivilegedState, hup]
  by_cases hso : ∃ d ∈ definitions, d.privileged = true
  · obtain ⟨d, hd, hpri⟩ := hso
    have hne : (ids (definitions.filter Definition.privileged)).length ≠ 0 :=
      (length_pos_of_mem (mem_map_of_mem (mem_filter.mpr ⟨hd, hpri⟩))).ne'
    cases hmo : options.privilegedMode with
    | apply => simp
    | refuse =>
      simp only [hne]
      exact iff_of_true ⟨_, rfl⟩ ⟨d, hd, hpri, by simp⟩
    | noop =>
      simp only [hne]
      by_cases hha : options.matchPrivilegedHash (env.hashDefinitionIDs
          (ids (definitions.filter Definition.privileged))) = true
      · simp [hha]
      simp only [hha]
      exact iff_of_true ⟨_, rfl⟩ ⟨d, hd, hpri, by simp⟩
  · have hno : definitions.filter Definition.privileged = [] :=
      filter_eq_nil_iff.mpr fun d hd hpri => hso ⟨d, hd, hpri⟩
    refine iff_of_false (by simp [hno, ids]) ?_
    rintro ⟨d, hd, hpri, -⟩
    exact hso ⟨d, hd, hpri⟩

theorem applyCallback_blocked :
    ((applyCallback env options operation definitions schemaVersion).executed = [] ∧
        ∃ e, (applyCallback env options operation definitions schemaVersion).result = .error e) ↔
      Refused env options operation definitions schemaVersion := by
  rw [applyCallback, Refused]
  generalize filterAppliedDefinitions schemaVersion operation definitions = rem
  cases rem with
  | nil => simp
  | cons d rest =>
    simp only [length_cons, Nat.add_one_ne_zero, if_false]
    cases hup : MigrationOperation.isUp operation with
    | false =>
      rw [checkPrivilegedState_down hup]
      rw [runDefinitions_blocked, hup]
      simp only [Bool.false_and, Bool.false_eq_true, if_false, true_and, head?_cons,
        Option.some.injEq, exists_eq_left']
      exact and_comm
    | true =>
      rw [← checkPrivilegedState_up hup]
      cases hche : checkPrivilegedState env options operation (d :: rest) with
      | error e => exact iff_of_true ⟨rfl, _, rfl⟩ ⟨e, rfl⟩
      | ok _ =>
        rw [runDefinitions_blocked]
        refine iff_of_false ?_ (by simp)
        rintro ⟨-, hpri, hmo⟩
        obtain ⟨e, herr⟩ := (checkPrivilegedState_up hup).mpr ⟨d, mem_cons_self, hpri, .inl hmo⟩
        rw [hche] at herr
        cases herr

theorem applyMigrations_blocked :
    ((applyMigrations env options operation definitions schemaVersion).executed = [] ∧
        ∃ e, (applyMigrations env options operation definitions schemaVersion).result =
          .error e) ↔
      Blocked env options operation definitions schemaVersion := by
  rw [applyMigrations]
  rcases validate_cases with
    ⟨e, hrun, hnot, hbro⟩ | ⟨hrun, hnot, hfi, d, hd, hpen⟩ | ⟨hrun, hcle⟩
  · rw [hrun]
    exact iff_of_true ⟨rfl, e, rfl⟩ (.inl ⟨hnot, .inl hbro⟩)
  · rw [hrun]
    cases hwai : env.wait with
    | some msg =>
      exact iff_of_true ⟨rfl, _, rfl⟩ (.inl ⟨hnot, .inr ⟨⟨d, hd, hpen⟩, by simp [hwai]⟩⟩)
    | none =>
      refine iff_of_false (by simp) ?_
      rintro (⟨-, ⟨c, hc, hbro⟩ | ⟨-, hsome⟩⟩ | ⟨hwav | hcle, -⟩)
      · exact hfi c hc hbro
      · simp [hwai] at hsome
      · exact hnot hwav
      · exact (hcle d hd).2 hpen
  · rw [hrun]
    rw [applyCallback_blocked]
    constructor
    · exact fun href => .inr ⟨hcle, href⟩
    · rintro (⟨hnot, hsome⟩ | ⟨-, href⟩)
      · have hcle := hcle.resolve_left hnot
        rcases hsome with ⟨d, hd, hfai | ⟨hpen, -⟩⟩ | ⟨⟨d, hd, hpen⟩, -⟩
        · exact absurd hfai (hcle d hd).1
        · exact absurd hpen (hcle d hd).2
        · exact absurd hpen (hcle d hd).2
      · exact href

/-- Dirty migrations stop a run when they are among the gathered ones and no flag lets it go on. -/
theorem dirty_stops_iff (env : Environment) (options : Options) (defs : List Definition)
    (operation : MigrationOperation) (initialVersions : List ℤ) (schemaVersion : SchemaVersion) :
    (∀ definitions, gatherDefinitions (newDefinitions defs) operation initialVersions =
        .ok definitions →
      StopsWhenDirty env options defs operation definitions schemaVersion
        (applyMigrations env options operation definitions schemaVersion)) ↔
    ∀ definitions, gatherDefinitions (newDefinitions defs) operation initialVersions =
        .ok definitions →
      Dirty env defs operation schemaVersion →
        Tolerated options defs operation definitions schemaVersion ∨
          Blocked env options operation definitions schemaVersion := by
  refine forall₂_congr fun definitions _ => ?_
  rw [StopsWhenDirty, applyMigrations_blocked]

def quietEnvironment : Environment :=
  ⟨fun _ _ => .ok none, fun _ => "", fun _ => .ok false, fun _ => .ok (), none⟩

/-- A run from the versions that are applied under the lock too goes on in a dirty schema. -/
def GoesOn (options : Options) (defs : List Definition) (operation : MigrationOperation)
    (schemaVersion : SchemaVersion) : Prop :=
  ∃ definitions, gatherDefinitions (newDefinitions defs) operation schemaVersion.appliedVersions =
      .ok definitions ∧
    ¬ StopsWhenDirty quietEnvironment options defs operation definitions schemaVersion
      (applyMigrations quietEnvironment options operation definitions schemaVersion)

theorem goesOn_of_dirty {first : Definition} (hdir : Dirty quietEnvironment defs operation
      schemaVersion)
    (hga : gatherDefinitions (newDefinitions defs) operation schemaVersion.appliedVersions =
      .ok definitions)
    (hhd : (filterAppliedDefinitions schemaVersion operation definitions).head? = some first)
    (hdl : options.ignoreSingleDirtyLog = true → first.id ∉ schemaVersion.failedVersions)
    (hpl : options.ignoreSinglePendingLog = true → first.id ∉ schemaVersion.pendingVersions)
    (hexe : (applyMigrations quietEnvironment options operation definitions
      schemaVersion).executed ≠ []) : GoesOn options defs operation schemaVersion := by
  refine ⟨definitions, hga, fun hsto => ?_⟩
  rcases hsto hdir with (⟨hfl, d, hd, hin, -⟩ | ⟨hfl, d, hd, hin, -⟩) | ⟨hno, -⟩
  · rw [hhd] at hd
    cases hd
    exact hdl hfl hin
  · rw [hhd] at hd
    cases hd
    exact hpl hfl hin
  · exact hexe hno

/-- Migrating down looks at applied migrations only. A flag lets a failed migration pass that is
not the next one, and the other flag does not look at failed ones. -/
theorem dirty_schema_migrated :
    let defs : List Definition :=
      [{ id := 1 }, { id := 2, parents := [1] }, { id := 3, parents := [2] }]
    GoesOn ⟨.apply, fun _ => false, false, false⟩ defs ⟨"frontend", .targetedDown, [1]⟩
      ⟨[1, 2], [], [3]⟩ ∧
    GoesOn ⟨.apply, fun _ => false, true, false⟩ defs ⟨"frontend", .targetedUp, [3]⟩
      ⟨[1], [], [3]⟩ ∧
    GoesOn ⟨.apply, fun _ => false, false, true⟩ defs ⟨"frontend", .targetedUp, [3]⟩
      ⟨[1], [3], [2]⟩ := by
  intro defs
  have hpr : Parent defs 1 2 := ⟨{ id := 2, parents := [1] }, by decide, rfl, by decide⟩
  have hpr' : Parent defs 2 3 := ⟨{ id := 3, parents := [2] }, by decide, rfl, by decide⟩
  have hdown : Dirty quietEnvironment defs ⟨"frontend", .targetedDown, [1]⟩ ⟨[1, 2], [], [3]⟩ :=
    ⟨{ id := 3, parents := [2] }, by decide, ⟨1, by decide, .tail (.single hpr) hpr'⟩,
      .inl (by decide)⟩
  have hlast : Dirty quietEnvironment defs ⟨"frontend", .targetedUp, [3]⟩ ⟨[1], [], [3]⟩ :=
    ⟨{ id := 3, parents := [2] }, by decide, ⟨3, by decide, .refl⟩, .inl (by decide)⟩
  have hnext : Dirty quietEnvironment defs ⟨"frontend", .targetedUp, [3]⟩ ⟨[1], [3], [2]⟩ :=
    ⟨{ id := 2, parents := [1] }, by decide, ⟨3, by decide, .single hpr'⟩, .inl (by decide)⟩
  refine ⟨goesOn_of_dirty hdown rfl rfl ?_ ?_ ?_, goesOn_of_dirty hlast rfl rfl ?_ ?_ ?_,
    goesOn_of_dirty hnext rfl rfl ?_ ?_ ?_⟩
  all_goals decide

end MigrationRunner
