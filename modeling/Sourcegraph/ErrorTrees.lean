import Mathlib

/-! # Wrapped, warning and combined errors

The errors of a sync of an external service, as the trees that `errors.As` and `errors.Unwrap` walk.
The messages, which nothing modelled here reads, are left out. -/
namespace ErrorTrees

/-- What the type of an error answers itself, where it has the method at all. -/
structure Methods where
  forbidden : Option Bool
  unauthorized : Option Bool
  accountSuspended : Option Bool
  deriving DecidableEq

def plain : Methods := ⟨none, none, none⟩

/-- A `LicenseError` embeds the error it was made from but has no `Unwrap`, so nothing looks inside.
A combined error is never empty. -/
inductive Error where
  | leaf (methods : Methods)
  | wrap (methods : Methods) (cause : Error)
  | warning (cause : Error)
  | license (embedded : Error)
  | combined (first : Error) (rest : List Error)

inductive Target where
  | warning | license | forbidden | unauthorized | accountSuspended
  deriving DecidableEq

def Methods.answer (m : Methods) : Target → Option Bool
  | .forbidden => m.forbidden
  | .unauthorized => m.unauthorized
  | .accountSuspended => m.accountSuspended
  | .warning | .license => none

/-- Whether the error itself can be assigned to the target, and what the target's method then
returns. -/
def answer (t : Target) : Error → Option Bool
  | .leaf m | .wrap m _ => m.answer t
  | .warning _ => if t = .warning then some true else none
  | .license _ => if t = .license then some true else none
  | .combined _ _ => none

mutual
/-- `errors.As` followed by the call of the target's method. The `As` of a combined error searches
its errors in order; its cause is the last of them, where the search has then already been. -/
def as (t : Target) : Error → Option Bool
  | .leaf m => answer t (.leaf m)
  | .license embedded => answer t (.license embedded)
  | .wrap m cause => (answer t (.wrap m cause)).or (as t cause)
  | .warning cause => (answer t (.warning cause)).or (as t cause)
  | .combined first rest => (as t first).or (asAny t rest)
def asAny (t : Target) : List Error → Option Bool
  | [] => none
  | e :: errs => (as t e).or (asAny t errs)
end

def unwrap : Error → Option Error
  | .leaf _ | .license _ => none
  | .wrap _ cause | .warning cause => some cause
  | .combined first rest => some (rest.getLast?.getD first)

/-- `errors.As` of a nil error finds nothing. -/
def asOption (t : Target) (e : Option Error) : Option Bool := e.bind (as t)

def isWarning (e : Error) : Bool := as .warning e == some true

def isLicenseError (e : Error) : Bool := as .license e == some true

def isForbidden (e : Option Error) : Bool := asOption .forbidden e == some true

def isUnauthorized (e : Option Error) : Bool := asOption .unauthorized e == some true

def isAccountSuspended (e : Option Error) : Bool := asOption .accountSuspended e == some true

/-- The prefix and the stack trace that `errors.Wrapf` adds. -/
def wrapf (e : Error) : Error := .wrap plain (.wrap plain e)

def errors : Error → List Error
  | .combined first rest => first :: rest
  | e => [e]

/-- `errors.Append`, on the errors of the combined error so far. -/
def append (errs : List Error) (e : Error) : List Error := errs ++ errors e

mutual
/-- The errors without combined ones that a tree contains, each with the wrappers around it. -/
def basics : Error → List Error
  | .leaf m => [.leaf m]
  | .license embedded => [.license embedded]
  | .wrap m cause => (basics cause).map (.wrap m)
  | .warning cause => (basics cause).map .warning
  | .combined first rest => basics first ++ basicsAll rest
def basicsAll : List Error → List Error
  | [] => []
  | e :: errs => basics e ++ basicsAll errs
end

theorem basics_ne_nil : (e : Error) → basics e ≠ []
  | .leaf _ => by simp [basics]
  | .license _ => by simp [basics]
  | .wrap _ cause => by simp [basics, basics_ne_nil cause]
  | .warning cause => by simp [basics, basics_ne_nil cause]
  | .combined first _ => by simp [basics, basics_ne_nil first]

theorem as_wrap (t : Target) (m : Methods) (e : Error) :
    as t (.wrap m e) = (m.answer t).or (as t e) := by
  rw [as, answer]

theorem as_warning (t : Target) (e : Error) :
    as t (.warning e) = (if t = .warning then some true else none).or (as t e) := by
  rw [as, answer]

theorem findSome_wrapped {own : Option Bool} (hl : l ≠ []) (hw : ∀ e, as t (w e) = own.or (as t e))
    : (l.map w).findSome? (as t) = own.or (l.findSome? (as t)) := by
  rw [List.findSome?_map]
  cases own with
  | none =>
    have : (as t ∘ w) = as t := funext hw
    rw [this, Option.none_or]
  | some b =>
    cases l with
    | nil => exact absurd rfl hl
    | cons e l =>
      have : (as t ∘ w) e = some b := hw e
      rw [List.findSome?_cons, this, Option.some_or]

mutual
/-- A search finds the answer of the first basic error that answers. -/
theorem as_basics (t : Target) : (e : Error) → as t e = (basics e).findSome? (as t)
  | .leaf m => by simp [basics]
  | .license embedded => by simp [basics]
  | .wrap m cause => by
    rw [basics, findSome_wrapped (basics_ne_nil cause) (as_wrap t m), ← as_basics t cause, as_wrap]
  | .warning cause => by
    rw [basics, findSome_wrapped (basics_ne_nil cause) (as_warning t), ← as_basics t cause,
      as_warning]
  | .combined first rest => by
    rw [basics, as, List.findSome?_append, ← as_basics t first, asAny_basics t rest]
theorem asAny_basics (t : Target) : (errs : List Error) →
    asAny t errs = (basicsAll errs).findSome? (as t)
  | [] => rfl
  | e :: errs => by
    rw [basicsAll, asAny, List.findSome?_append, ← as_basics t e, asAny_basics t errs]
end

mutual
theorem as_kind (ht : t = .warning ∨ t = .license) : (e : Error) → as t e ≠ some false
  | .leaf m => by rcases ht with rfl | rfl <;> simp [as, answer, Methods.answer]
  | .license _ => by rcases ht with rfl | rfl <;> simp [as, answer]
  | .wrap m cause => by
    have hown : m.answer t = none := by rcases ht with rfl | rfl <;> rfl
    rw [as_wrap, hown, Option.none_or]
    exact as_kind ht cause
  | .warning cause => by
    rw [as_warning]
    split
    · simp
    rw [Option.none_or]
    exact as_kind ht cause
  | .combined first rest => by
    rw [as]
    intro h
    rcases Option.or_eq_some_iff.mp h with h | ⟨_, h⟩
    · exact as_kind ht first h
    · exact asAny_kind ht rest h
theorem asAny_kind (ht : t = .warning ∨ t = .license) :
    (errs : List Error) → asAny t errs ≠ some false
  | [] => by simp [asAny]
  | e :: errs => by
    rw [asAny]
    intro h
    rcases Option.or_eq_some_iff.mp h with h | ⟨_, h⟩
    · exact as_kind ht e h
    · exact asAny_kind ht errs h
end

theorem as_kind_iff (ht : t = .warning ∨ t = .license) :
    as t e = some true ↔ ∃ b ∈ basics e, as t b = some true := by
  rw [as_basics]
  constructor
  · intro h
    exact List.exists_of_findSome?_eq_some h
  · rintro ⟨b, hb, hans⟩
    cases hfnd : (basics e).findSome? (as t) with
    | none =>
      rw [List.findSome?_eq_none_iff.mp hfnd b hb] at hans
      cases hans
    | some found =>
      obtain ⟨c, _, hc⟩ := List.exists_of_findSome?_eq_some hfnd
      cases found with
      | true => rfl
      | false => exact absurd hc (as_kind ht c)

theorem isWarning_iff : isWarning e ↔ ∃ b ∈ basics e, isWarning b := by
  simpa [isWarning] using as_kind_iff (.inl rfl)

theorem isLicenseError_iff : isLicenseError e ↔ ∃ b ∈ basics e, isLicenseError b := by
  simpa [isLicenseError] using as_kind_iff (.inr rfl)

end ErrorTrees
