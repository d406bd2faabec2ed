import Sourcegraph.ErrorTrees

/-! # What a sync of an external service deletes

`SyncExternalService` from the first result of the source on: the loop over the results, `sync` for
each repository, and the deletion of what was not seen. The answers of the database and the hooks
are part of the run. -/
namespace SyncDeletion

open ErrorTrees List

abbrev RepoID := Int32

/-- The stored repositories with the name or the external repository of a sourced one. The two
unique constraints of the table leave no other cases. -/
inductive Stored where
  | none
  | one (existing : RepoID)
  | conflict (existing conflicting : RepoID)

structure Answers where
  transact : Option Error
  list : Except Error Stored
  deleteConflicting : Option Error
  hook : Option Error
  modified : Bool
  write : Option Error
  created : RepoID
  done : Option Error

/-- The repository of the diff, and the one that was deleted because it had the name. -/
structure Synced where
  repo : RepoID
  replaced : Option RepoID

def updateRepo (a : Answers) (existing : RepoID) (replaced : Option RepoID) : Except Error Synced :=
  match a.hook with
  | some e => .error (.license (wrapf e))
  | none =>
    if a.modified then
      match a.write with
      | some e => .error (wrapf e)
      | none => .ok ⟨existing, replaced⟩
    else .ok ⟨existing, replaced⟩

def createRepo (a : Answers) : Except Error Synced :=
  match a.hook with
  | some e => .error (.license (wrapf e))
  | none =>
    match a.write with
    | some e => .error (wrapf e)
    | none => .ok ⟨a.created, none⟩

def syncStored (a : Answers) : Except Error Synced :=
  match a.list with
  | .error e => .error (wrapf e)
  | .ok (.conflict existing conflicting) =>
    match a.deleteConflicting with
    | some e => .error (wrapf e)
    | none => updateRepo a existing (some conflicting)
  | .ok (.one existing) => updateRepo a existing none
  | .ok .none => createRepo a

/-- `sync`: a failure rolls the transaction back, and the error is combined with that of the
rollback. -/
def sync (a : Answers) : Except Error Synced :=
  match a.transact with
  | some e => .error (wrapf e)
  | none =>
    match syncStored a with
    | .error e => .error (.combined e (a.done.elim [] errors))
    | .ok d =>
      match a.done with
      | some e => .error e
      | none => .ok d

inductive SourceResult where
  | err (e : Error)
  | repo (isPrivate : Bool) (answers : Answers)

/-- `errs` holds the errors of the combined error. `gone` are the repositories that the syncs have
deleted and not stored again. -/
structure State where
  seen : List RepoID := []
  errs : List Error := []
  gone : List RepoID := []

def fatal (e : Error) : Bool :=
  if isWarning e && !isAccountSuspended (some e) then false
  else isUnauthorized (some e) || isForbidden (some e) || isAccountSuspended (some e)

def State.fail (s : State) (e : Error) : State := { s with errs := append s.errs e }

def remove (gone : List RepoID) (d : Synced) : List RepoID :=
  (d.replaced.toList ++ gone).filter (· ≠ d.repo)

def privateError : Error := .wrap plain (.leaf plain)

def receive (dotcom : Bool) (s : State) : List SourceResult → State
  | [] => s
  | .err e :: results =>
    if fatal e then { s.fail (wrapf e) with seen := [] }
    else receive dotcom (s.fail (wrapf e)) results
  | .repo isPrivate a :: results =>
    if dotcom && isPrivate then receive dotcom (s.fail privateError) results
    else
      match sync a with
      | .error e => receive dotcom (s.fail e) results
      | .ok d => receive dotcom { s with seen := d.repo :: s.seen, gone := remove s.gone d } results

def permits (e : Error) : Bool :=
  if isWarning e then isForbidden (unwrap e) || isUnauthorized (unwrap e) else isLicenseError e

def abortDeletion (errs : List Error) : Bool := errs.any fun e => !permits e

structure Run where
  dotcom : Bool
  results : List SourceResult
  /-- The repositories of the service in the table when the deletion begins. -/
  associated : List RepoID
  /-- Whether the deletion of a repository succeeds. -/
  deletable : RepoID → Bool

section Inputs

/-- The results up to the first fatal error. -/
def received : List SourceResult → List SourceResult
  | [] => []
  | .err e :: results => if fatal e then [.err e] else .err e :: received results
  | .repo isPrivate a :: results => .repo isPrivate a :: received results

variable (dotcom : Bool)

/-- The error of a result, sent by the source or answered by the database and the hooks. -/
def SourceResult.error : SourceResult → Option Error
  | .err e => some (wrapf e)
  | .repo isPrivate a =>
    if dotcom && isPrivate then some privateError
    else match sync a with
      | .error e => some e
      | .ok _ => none

def SourceResult.synced : SourceResult → Option Synced
  | .err _ => none
  | .repo isPrivate a => if dotcom && isPrivate then none else (sync a).toOption

variable (r : Run)

def Run.reported : List Error := (received r.results).filterMap (SourceResult.error r.dotcom)

/-- The errors that are judged, of a combined one its parts. -/
def Run.judged : List Error := r.reported.flatMap errors

def Run.synced : List Synced := (received r.results).filterMap (SourceResult.synced r.dotcom)

/-- The source sends a fatal error. -/
def Run.Stopped : Prop := ∃ e, .err e ∈ r.results ∧ fatal e = true

/-- A repository that gives its name to another one is synced again, if it is synced at all. -/
def Run.NamesSettle : Prop :=
  ∀ before d after, r.synced = before ++ d :: after → ∀ id ∈ d.replaced,
    id ∈ r.synced.map Synced.repo → id ∈ (d :: after).map Synced.repo

end Inputs

def Run.final (r : Run) : State := receive r.dotcom {} r.results

def Run.deletes (r : Run) : Bool := !abortDeletion r.final.errs

def Run.deleted (r : Run) : List RepoID :=
  r.final.gone ++
    if r.deletes then r.associated.filter fun id => id ∉ r.final.seen && r.deletable id else []

/-- A basic error that is a warning whose cause is Forbidden or Unauthorized, or a
`LicenseError`. -/
def tolerable : Error → Bool
  | .leaf _ => false
  | .wrap _ cause => tolerable cause
  | .warning cause => isForbidden (some cause) || isUnauthorized (some cause) || tolerable cause
  | .license _ => true
  | .combined _ _ => false

def AllTolerable (e : Error) : Prop := ∀ b ∈ basics e, tolerable b

/-- What an error has to contain for the deletion to go on: a warning, and among the basic errors of
its cause the first with the method says Forbidden or Unauthorized; or no warning, and a
`LicenseError`. -/
def Permitted (e : Error) : Prop :=
  ((∃ b ∈ basics e, isWarning b) ∧ ∃ cause, unwrap e = some cause ∧
    ((basics cause).findSome? (as .forbidden) = some true ∨
      (basics cause).findSome? (as .unauthorized) = some true)) ∨
  ((∀ b ∈ basics e, ¬ isWarning b) ∧ ∃ b ∈ basics e, isLicenseError b)

/-- The deletion is reached only after tolerable errors, and nothing synced is deleted. -/
structure Safe (r : Run) : Prop where
  complete : r.deletes → ∀ e ∈ r.reported, AllTolerable e
  kept : ∀ d ∈ r.synced, d.repo ∉ r.deleted

theorem asOption_iff (t : Target) (e : Option Error) :
    asOption t e = some true ↔
      ∃ cause, e = some cause ∧ (basics cause).findSome? (as t) = some true := by
  cases e with
  | none => simp [asOption]
  | some cause => simp [asOption, as_basics t cause]

theorem permits_iff : permits e ↔ Permitted e := by
  have hfor := asOption_iff .forbidden (unwrap e)
  have huna := asOption_iff .unauthorized (unwrap e)
  rw [permits, Permitted, ← isWarning_iff, ← isLicenseError_iff]
  by_cases hwrn : isWarning e
  · have hso : ¬ ∀ b ∈ basics e, ¬ isWarning b := by
      obtain ⟨b, hb, hwa⟩ := isWarning_iff.mp hwrn
      exact fun h => h b hb hwa
    simp only [hwrn, if_true, hso, isForbidden, isUnauthorized, Bool.or_eq_true, beq_iff_eq,
      hfor, huna, true_and, false_and, or_false]
    constructor
    · rintro (⟨cause, hcause, h⟩ | ⟨cause, hcause, h⟩)
      · exact ⟨cause, hcause, .inl h⟩
      · exact ⟨cause, hcause, .inr h⟩
    · rintro ⟨cause, hcause, h | h⟩
      · exact .inl ⟨cause, hcause, h⟩
      · exact .inr ⟨cause, hcause, h⟩
  · have hno : ∀ b ∈ basics e, ¬ isWarning b :=
      fun b hb hwa => hwrn (isWarning_iff.mpr ⟨b, hb, hwa⟩)
    simp only [hwrn, if_false, Bool.false_eq_true, false_and, false_or]
    exact ⟨fun hlic => ⟨hno, hlic⟩, And.right⟩

theorem basicsAll_mem : b ∈ basicsAll errs ↔ ∃ e ∈ errs, b ∈ basics e := by
  induction errs with
  | nil => simp [basicsAll]
  | cons e errs ih => simp [basicsAll, ih]

theorem allTolerable_errors : (∀ x ∈ errors e, AllTolerable x) ↔ AllTolerable e := by
  cases e with
  | combined first rest =>
    simp only [errors, AllTolerable, basics, mem_append, basicsAll_mem, mem_cons]
    constructor
    · rintro h b (hb | ⟨x, hx, hb⟩)
      · exact h first (.inl rfl) b hb
      · exact h x (.inr hx) b hb
    · rintro h x (rfl | hx) b hb
      · exact h b (.inl hb)
      · exact h b (.inr ⟨x, hx, hb⟩)
  | _ => simp [errors]

theorem judged_tolerable (r : Run) :
    (∀ e ∈ r.judged, AllTolerable e) ↔ ∀ e ∈ r.reported, AllTolerable e := by
  simp only [Run.judged, mem_flatMap]
  exact ⟨fun h e he => allTolerable_errors.mp fun x hx => h x ⟨e, he, hx⟩,
    fun h x ⟨e, he, hx⟩ => allTolerable_errors.mpr (h e he) x hx⟩

/-- What the loop has collected: the errors of the results it received, the repositories that were
synced unless it was stopped, and what the syncs have deleted. -/
structure Collected (dotcom : Bool) (s : State) (results : List SourceResult) (s' : State) :
    Prop where
  errs : s'.errs = s.errs ++
    ((received results).filterMap (SourceResult.error dotcom)).flatMap errors
  gone : s'.gone = ((received results).filterMap (SourceResult.synced dotcom)).foldl remove s.gone
  seen : (∃ e, .err e ∈ results ∧ fatal e = true) ∧ s'.seen = [] ∨
    (¬ ∃ e, .err e ∈ results ∧ fatal e = true) ∧ ∀ id, id ∈ s'.seen ↔ id ∈ s.seen ∨
      id ∈ ((received results).filterMap (SourceResult.synced dotcom)).map Synced.repo

theorem stops_cons {result : SourceResult} (h : ∀ e, result = .err e → ¬ fatal e = true) :
    (∃ e, .err e ∈ result :: results ∧ fatal e = true) ↔
      ∃ e, .err e ∈ results ∧ fatal e = true := by
  refine exists_congr fun e => and_congr_left fun hfatal => ?_
  rw [mem_cons, or_iff_right]
  exact fun heq => h e heq.symm hfatal

theorem Collected.fail (h : Collected dotcom (s.fail e) results s')
    (hreceived : received (result :: results) = result :: received results)
    (herror : result.error dotcom = some e) (hsynced : result.synced dotcom = none)
    (hfatal : ∀ e, result = .err e → ¬ fatal e = true) :
    Collected dotcom s (result :: results) s' where
  errs := by
    rw [h.errs, hreceived, filterMap_cons_some herror, flatMap_cons, ← append_assoc]
    rfl
  gone := by
    rw [h.gone, hreceived, filterMap_cons_none hsynced]
    rfl
  seen := by
    rw [stops_cons hfatal, hreceived, filterMap_cons_none hsynced]
    exact h.seen

theorem receive_collected : Collected dotcom s results (receive dotcom s results) := by
  fun_induction receive dotcom s results with
  | case1 s => exact ⟨by simp [received], rfl, .inr ⟨by simp, by simp [received]⟩⟩
  | case2 s e results hfatal =>
    have hreceived : received (.err e :: results) = [.err e] := if_pos hfatal
    refine ⟨?_, ?_, .inl ⟨⟨e, mem_cons_self, hfatal⟩, rfl⟩⟩ <;> rw [hreceived] <;> rfl
  | case3 s e results hfatal ih =>
    refine ih.fail (if_neg hfatal) rfl rfl fun x hx => ?_
    cases hx
    exact hfatal
  | case4 s isPrivate a results hprivate ih =>
    exact ih.fail rfl (by simp [SourceResult.error, hprivate])
      (by simp [SourceResult.synced, hprivate]) fun x hx => by cases hx
  | case5 s isPrivate a results hprivate e hsync ih =>
    exact ih.fail rfl (by simp [SourceResult.error, hprivate, hsync])
      (by simp [SourceResult.synced, hprivate, hsync, Except.toOption]) fun x hx => by cases hx
  | case6 s isPrivate a results hprivate d hsync ih =>
    have herror : SourceResult.error dotcom (.repo isPrivate a) = none := by
      simp [SourceResult.error, hprivate, hsync]
    have hsynced : SourceResult.synced dotcom (.repo isPrivate a) = some d := by
      simp [SourceResult.synced, hprivate, hsync, Except.toOption]
    refine ⟨?_, ?_, ?_⟩
    · rw [ih.errs, received, filterMap_cons_none herror]
    · rw [ih.gone, received, filterMap_cons_some hsynced, foldl_cons]
    · rw [stops_cons (fun x hx => by cases hx), received, filterMap_cons_some hsynced, map_cons]
      refine ih.seen.imp_right (And.imp_right fun h id => ?_)
      rw [h, mem_cons, mem_cons, or_assoc, or_left_comm]

theorem mem_remove {id : RepoID} :
    id ∈ remove gone d ↔ (d.replaced = some id ∨ id ∈ gone) ∧ id ≠ d.repo := by
  simp [remove, or_and_right]

theorem mem_gone {id : RepoID} {ds : List Synced} : id ∈ ds.foldl remove gone ↔
    id ∈ gone ∧ id ∉ ds.map Synced.repo ∨ ∃ before d after, ds = before ++ d :: after ∧
      d.replaced = some id ∧ id ∉ (d :: after).map Synced.repo := by
  induction ds generalizing gone with
  | nil => simp
  | cons first ds ih =>
    rw [foldl_cons, ih, mem_remove]
    constructor
    · rintro (⟨⟨hrep | hgone, hne⟩, hnot⟩ | ⟨before, d, after, rfl, hd⟩)
      · exact .inr ⟨[], first, ds, rfl, hrep, by simp_all⟩
      · exact .inl ⟨hgone, by simp_all⟩
      · exact .inr ⟨first :: before, d, after, rfl, hd⟩
    · rintro (⟨hgone, hnot⟩ | ⟨before, d, after, hds, hrep, hnot⟩)
      · rw [map_cons, mem_cons, not_or] at hnot
        exact .inl ⟨⟨.inr hgone, hnot.1⟩, hnot.2⟩
      cases before with
      | nil =>
        obtain ⟨rfl, rfl⟩ := cons.inj hds
        rw [map_cons, mem_cons, not_or] at hnot
        exact .inl ⟨⟨.inl hrep, hnot.1⟩, hnot.2⟩
      | cons x before =>
        obtain ⟨-, rfl⟩ := cons.inj hds
        exact .inr ⟨before, d, after, rfl, hrep, hnot⟩

theorem final_collected (r : Run) : Collected r.dotcom {} r.results r.final := receive_collected

theorem deletes_iff (r : Run) : r.deletes ↔ ∀ e ∈ r.judged, Permitted e := by
  have herrs : r.final.errs = r.judged := (final_collected r).errs
  simp [Run.deletes, abortDeletion, permits_iff, herrs]

theorem gone_iff (r : Run) : (∀ d ∈ r.synced, d.repo ∉ r.final.gone) ↔ r.NamesSettle := by
  have hgone : r.final.gone = r.synced.foldl remove [] := (final_collected r).gone
  simp only [hgone, mem_gone, not_mem_nil, false_and, false_or]
  constructor
  · intro h before d after hds id hid hsynced
    obtain ⟨x, hx, rfl⟩ := mem_map.mp hsynced
    by_contra hnot
    exact h x hx ⟨before, d, after, hds, hid, hnot⟩
  · rintro h x hx ⟨before, d, after, hds, hid, hnot⟩
    exact hnot (h before d after hds x.repo hid (mem_map_of_mem hx))

/-- What was synced is deleted at the end only if the run was stopped, and then whatever the table
holds. -/
theorem unseen_iff (r : Run) (hd : d ∈ r.synced) : d.repo ∉ r.final.seen ↔ r.Stopped := by
  rcases (final_collected r).seen with ⟨hstop, hseen⟩ | ⟨hstop, hseen⟩
  · rw [hseen]
    exact iff_of_true not_mem_nil hstop
  · rw [hseen]
    exact iff_of_false (not_not_intro (.inr (mem_map_of_mem hd))) hstop

/-- No combined error, and no wrapper that has an answer of its own around a warning. -/
def Direct : Error → Prop
  | .leaf _ => True
  | .license _ => True
  | .warning cause => Direct cause
  | .wrap m cause => Direct cause ∧ (isWarning cause → m.forbidden = none ∧ m.unauthorized = none)
  | .combined _ _ => False

theorem Direct.unwrap (h : Direct e) (hwrn : isWarning e)
    (ht : t = .forbidden ∨ t = .unauthorized) : asOption t (unwrap e) = as t e := by
  cases e with
  | leaf m => simp [isWarning, as, answer, Methods.answer] at hwrn
  | license embedded => simp [isWarning, as, answer] at hwrn
  | wrap m cause =>
    have hans : m.answer t = none := by
      rcases ht with rfl | rfl
      · exact (h.2 hwrn).1
      · exact (h.2 hwrn).2
    rw [as_wrap, hans]
    rfl
  | warning cause =>
    have hne : t ≠ .warning := by rcases ht with rfl | rfl <;> decide
    rw [as_warning, if_neg hne]
    rfl
  | combined => exact h.elim

theorem Direct.permits_eq (h : Direct e) : permits e =
    if isWarning e then isForbidden (some e) || isUnauthorized (some e) else isLicenseError e := by
  rw [permits]
  split
  · rename_i hwrn
    rw [isForbidden, isUnauthorized, h.unwrap hwrn (.inl rfl), h.unwrap hwrn (.inr rfl)]
    rfl
  · rfl

/-- A direct error is tolerable if the deletion goes on with it alone, or a `LicenseError`. -/
theorem Direct.tolerable_iff : {e : Error} → Direct e →
    (tolerable e ↔ permits e ∨ isLicenseError e)
  | .leaf m, _ => by
    simp [tolerable, permits, isWarning, isLicenseError, as, answer, Methods.answer]
  | .license _, _ => by simp [tolerable, isLicenseError, as, answer]
  | .wrap m cause, h => by
    have hkind : isWarning (.wrap m cause) = isWarning cause ∧
        isLicenseError (.wrap m cause) = isLicenseError cause := by
      simp [isWarning, isLicenseError, as_wrap, Methods.answer]
    rw [tolerable, tolerable_iff h.1, h.1.permits_eq, permits, hkind.1, hkind.2]
    rfl
  | .warning cause, h => by
    have hcause : Direct cause := h
    have hkind : isWarning (.warning cause) = true ∧
        isLicenseError (.warning cause) = isLicenseError cause := by
      simp [isWarning, isLicenseError, as_warning]
    rw [tolerable, Bool.or_eq_true, tolerable_iff hcause, hcause.permits_eq, permits, hkind.1,
      hkind.2, if_pos rfl]
    change (_ ∨ (if isWarning cause then _ else _) = true ∨ _) ↔
      (isForbidden (some cause) || isUnauthorized (some cause)) = true ∨ _
    split
    · rw [← or_assoc, or_self]
    · rw [or_self]

/-- A run is safe iff the names settle and, if every judged error lets the deletion go on, all their
basic errors are tolerable and the table has nothing to delete of what was synced before a fatal
error. Where no wrapper has answers of its own, that is to say that the deletion also goes on with
each basic error alone, if it is no `LicenseError`. -/
theorem sync_safe_iff (r : Run) :
    ((∀ e ∈ r.judged, ∀ b ∈ basics e, Direct b) →
      (Safe r ↔ r.NamesSettle ∧ ((∃ e ∈ r.judged, ¬ Permitted e) ∨
        (∀ e ∈ r.judged, ∀ b ∈ basics e, permits b ∨ isLicenseError b) ∧
        (r.Stopped → ∀ d ∈ r.synced, ¬ (d.repo ∈ r.associated ∧ r.deletable d.repo))))) ∧
    (Safe r ↔ r.NamesSettle ∧ ((∃ e ∈ r.judged, ¬ Permitted e) ∨
      (∀ e ∈ r.judged, AllTolerable e) ∧
      (r.Stopped → ∀ d ∈ r.synced, ¬ (d.repo ∈ r.associated ∧ r.deletable d.repo)))) := by
  have hkept : (∀ d ∈ r.synced, d.repo ∉ r.deleted) ↔ r.NamesSettle ∧ (r.deletes → r.Stopped →
      ∀ d ∈ r.synced, ¬ (d.repo ∈ r.associated ∧ r.deletable d.repo)) := by
    rw [← gone_iff]
    simp only [Run.deleted, mem_append, not_or]
    constructor
    · refine fun h => ⟨fun d hd => (h d hd).1, fun hdel hstop d hd hrow => (h d hd).2 ?_⟩
      rw [if_pos hdel]
      exact mem_filter.mpr ⟨hrow.1, by simpa [hrow.2] using (unseen_iff r hd).mpr hstop⟩
    · rintro ⟨hgone, hrest⟩ d hd
      refine ⟨hgone d hd, fun hin => ?_⟩
      split at hin
      · rename_i hdel
        obtain ⟨hrow, hok⟩ := mem_filter.mp hin
        rw [Bool.and_eq_true, decide_eq_true_eq] at hok
        exact hrest hdel ((unseen_iff r hd).mp hok.1) d hd ⟨hrow, hok.2⟩
      · cases hin
  have hsafe : Safe r ↔ r.NamesSettle ∧ ((∃ e ∈ r.judged, ¬ Permitted e) ∨
      (∀ e ∈ r.judged, AllTolerable e) ∧
      (r.Stopped → ∀ d ∈ r.synced, ¬ (d.repo ∈ r.associated ∧ r.deletable d.repo))) := by
    have hdeletes : (∃ e ∈ r.judged, ¬ Permitted e) ↔ ¬ r.deletes := by
      rw [deletes_iff]
      simp
    rw [hdeletes, ← imp_iff_not_or, judged_tolerable]
    constructor
    · rintro ⟨hcomplete, hk⟩
      obtain ⟨hnames, hrest⟩ := hkept.mp hk
      exact ⟨hnames, fun hdel => ⟨hcomplete hdel, hrest hdel⟩⟩
    · rintro ⟨hnames, h⟩
      exact ⟨fun hdel => (h hdel).1, hkept.mpr ⟨hnames, fun hdel => (h hdel).2⟩⟩
  refine ⟨fun hdirect => ?_, hsafe⟩
  have hparts : (∀ e ∈ r.judged, AllTolerable e) ↔
      ∀ e ∈ r.judged, ∀ b ∈ basics e, permits b ∨ isLicenseError b :=
    forall₂_congr fun e he => forall₂_congr fun b hb => (hdirect e he b hb).tolerable_iff
  rw [hsafe, hparts]

def errForbidden : Error := .leaf ⟨some true, none, none⟩

def errAccountSuspended : Error := .leaf ⟨none, none, some true⟩

def updated (id : RepoID) : Answers := ⟨none, .ok (.one id), none, none, true, none, 0, none⟩

/-- A listing breaks off with an error that is combined with a warning that a repository is
forbidden. Everything the service had is deleted, also what was just synced. -/
theorem broken_listing_deletes :
    let r : Run := ⟨false, [.repo false (updated 1),
      .err (.combined (.warning errForbidden) [errAccountSuspended])], [1, 2], fun _ => true⟩
    r.deletes ∧ (∃ e ∈ r.reported, ∃ b ∈ basics e, tolerable b = false) ∧
      1 ∈ r.synced.map Synced.repo ∧ 1 ∈ r.deleted := by
  refine ⟨by decide, ?_, by decide, by decide⟩
  refine ⟨wrapf (.combined (.warning errForbidden) [errAccountSuspended]), mem_singleton.mpr rfl,
    wrapf errAccountSuspended, ?_, rfl⟩
  exact mem_cons_of_mem _ mem_cons_self

end SyncDeletion
