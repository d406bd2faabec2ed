import Mathlib

/-! # Overridable values

A value of a batch spec has rules for repositories. The last rule that matches decides. -/
namespace Overridable

open List

inductive Value where
  | bool (b : Bool)
  | text (s : String)
  deriving DecidableEq

structure Globs where
  Glob : Type
  compile : String → Except String Glob
  accepts : Glob → String → Bool
  all : Glob
  compile_all : compile "*" = .ok all

def beforeAt (pattern : String) : String := String.ofList (pattern.toList.takeWhile (· ≠ '@'))

def afterAt (pattern : String) : String :=
  String.ofList ((pattern.toList.dropWhile (· ≠ '@')).drop 1)

structure Rule (P : Globs) where
  pattern : String
  patternSuffix : String
  compiled : P.Glob
  value : Value
  compiles : P.compile pattern = .ok compiled
  plain : beforeAt pattern = pattern

theorem beforeAt_beforeAt (s : String) : beforeAt (beforeAt s) = beforeAt s := by
  rw [beforeAt, beforeAt, String.toList_ofList, takeWhile_idem]

def newRule (P : Globs) (pattern : String) (value : Value) : Except String (Rule P) :=
  match h : P.compile (beforeAt pattern) with
  | .error e => .error e
  | .ok compiled => .ok ⟨_, afterAt pattern, compiled, value, h, beforeAt_beforeAt pattern⟩

def simpleRule (P : Globs) (v : Value) : Rule P := ⟨"*", "", P.all, v, P.compile_all, rfl⟩

variable {P : Globs}

/-- `Match`. -/
def valueOf (rs : List (Rule P)) (name : String) : Option Value :=
  (rs.reverse.find? fun r => P.accepts r.compiled name).map Rule.value

/-- `MatchWithSuffix`. -/
def valueWithSuffix (rs : List (Rule P)) (name suffix : String) : Option Value :=
  (rs.reverse.find? fun r => P.accepts r.compiled name &&
    (r.patternSuffix = "" || r.patternSuffix = suffix)).map Rule.value

inductive Json where
  | scalar (v : Value)
  | rules (c : List (List (String × Value)))

def marshalJSON (rs : List (Rule P)) : Json :=
  match rs with
  | [] => .scalar (.bool false)
  | [r] => if r.pattern = "*" then .scalar r.value else .rules [[(r.pattern, r.value)]]
  | rs => .rules (rs.map fun r => [(r.pattern, r.value)])

def hydrateFromComplex (P : Globs) : ℕ → List (List (String × Value)) → Except String (List (Rule P))
  | _, [] => .ok []
  | i, [(pattern, value)] :: rest => do
    let r ← (newRule P pattern value).mapError
      fun e => "building rule for array entry " ++ toString i ++ ": " ++ e
    (hydrateFromComplex P (i + 1) rest).map (r :: ·)
  | i, rule :: _ => .error ("unexpected number of elements in the array at entry " ++ toString i ++
      ": " ++ toString rule.length ++ " (must be 1)")

def unmarshalJSON (P : Globs) : Json → Except String (List (Rule P))
  | .scalar v => .ok [simpleRule P v]
  | .rules c => hydrateFromComplex P 0 c

def Rule.equal (a b : Rule P) : Bool := a.pattern = b.pattern && a.value = b.value

def equal : List (Rule P) → List (Rule P) → Bool
  | [], [] => true
  | a :: rs, b :: other => a.equal b && equal rs other
  | _, _ => false

/-- A value keeps its meaning in JSON, and equal values mean the same. -/
structure Faithful (rs other : List (Rule P)) : Prop where
  survives : ∃ rs', unmarshalJSON P (marshalJSON rs) = .ok rs' ∧ ∀ name,
    valueOf rs' name = valueOf rs name ∧
      ∀ suffix, valueWithSuffix rs' name suffix = valueWithSuffix rs name suffix
  same : equal rs other = true → ∀ name suffix,
    valueWithSuffix rs name suffix = valueWithSuffix other name suffix

def Rule.erase (r : Rule P) : Rule P := { r with patternSuffix := "" }

theorem newRule_plain (r : Rule P) : newRule P r.pattern r.value = .ok r.erase := by
  have hat : afterAt r.pattern = "" := by
    have h := congrArg String.toList r.plain
    rw [beforeAt, String.toList_ofList, takeWhile_eq_self_iff] at h
    rw [afterAt, dropWhile_eq_nil_iff.mpr h]
    rfl
  unfold newRule
  split
  · rename_i e h
    rw [r.plain, r.compiles] at h
    cases h
  · rename_i g h
    have h' := h
    rw [r.plain, r.compiles] at h'
    cases h'
    simp only [hat, r.plain, Rule.erase]

theorem hydrate_rules (rs : List (Rule P)) (i : ℕ) :
    hydrateFromComplex P i (rs.map fun r => [(r.pattern, r.value)]) =
      .ok (rs.map Rule.erase) := by
  induction rs generalizing i with
  | nil => rfl
  | cons r rs ih =>
    rw [map_cons, hydrateFromComplex, newRule_plain, ih]
    rfl

theorem unmarshal_marshal (r : Rule P) (rs : List (Rule P)) :
    unmarshalJSON P (marshalJSON (r :: rs)) = .ok ((r :: rs).map Rule.erase) := by
  cases rs with
  | cons s rs => exact hydrate_rules _ 0
  | nil =>
    rw [marshalJSON]
    split
    · rename_i hpat
      obtain ⟨pat, suf, g, v, hc, hp⟩ := r
      cases hpat
      cases hc.symm.trans P.compile_all
      rfl
    · exact hydrate_rules [r] 0

theorem valueOf_erase (rs : List (Rule P)) : valueOf (rs.map Rule.erase) = valueOf rs := by
  funext name
  rw [valueOf, ← map_reverse, find?_map, Option.map_map]
  rfl

theorem valueWithSuffix_erase (rs : List (Rule P)) (name suffix : String) :
    valueWithSuffix (rs.map Rule.erase) name suffix = valueOf rs name := by
  rw [valueWithSuffix, ← map_reverse, find?_map, Option.map_map]
  simp [Function.comp_def, Rule.erase, valueOf]

theorem erase_eq {a b : Rule P} (h : a.equal b = true) : a.erase = b.erase := by
  obtain ⟨pat, suf, g, v, hc, hp⟩ := a
  obtain ⟨pat', suf', g', v', hc', hp'⟩ := b
  simp only [Rule.equal, Bool.and_eq_true, decide_eq_true_eq] at h
  obtain ⟨rfl, rfl⟩ := h
  cases hc.symm.trans hc'
  rfl

theorem map_erase {rs other : List (Rule P)} (h : equal rs other = true) :
    rs.map Rule.erase = other.map Rule.erase := by
  fun_induction equal rs other with
  | case1 => rfl
  | case2 a rs b other ih =>
    rw [Bool.and_eq_true] at h
    rw [map_cons, map_cons, erase_eq h.1, ih h.2]
  | case3 => cases h

/-- No suffix decides which value a repository has. -/
def SuffixFree (rs : List (Rule P)) : Prop :=
  ∀ name suffix, valueWithSuffix rs name suffix = valueOf rs name

/-- JSON and the comparison only keep the patterns before the suffixes. -/
theorem faithful_iff (P : Globs) (r : Rule P) (rs other : List (Rule P)) :
    Faithful (r :: rs) other ↔
      SuffixFree (r :: rs) ∧ (equal (r :: rs) other = true → SuffixFree other) := by
  have hval (h : equal (r :: rs) other = true) : valueOf (r :: rs) = valueOf other := by
    rw [← valueOf_erase, map_erase h, valueOf_erase]
  constructor
  · intro h
    obtain ⟨rs', hrs', hsm⟩ := h.survives
    cases (unmarshal_marshal r rs).symm.trans hrs'
    have hfree : SuffixFree (r :: rs) := by
      intro name suffix
      rw [← (hsm name).2, valueWithSuffix_erase]
    refine ⟨hfree, fun heq name suffix => ?_⟩
    rw [← h.same heq, hfree, hval heq]
  · rintro ⟨hfree, hoth⟩
    refine ⟨⟨_, unmarshal_marshal r rs, fun name => ⟨by rw [valueOf_erase], fun suffix => ?_⟩⟩, ?_⟩
    · rw [valueWithSuffix_erase, hfree]
    · intro heq name suffix
      rw [hfree, hoth heq, hval heq]

/-- The suffix of `*@main` is lost in JSON, and the rule is called equal to the one for `*`. -/
theorem suffix_lost : let P : Globs := ⟨String, .ok, fun g name => g = "*" || g = name, "*", rfl⟩
    ∃ rs other, hydrateFromComplex P 0 [[("*@main", .bool true)]] = .ok rs ∧
      hydrateFromComplex P 0 [[("*", .bool true)]] = .ok other ∧ equal rs other = true ∧
      unmarshalJSON P (marshalJSON rs) = .ok other ∧ valueWithSuffix rs "repo" "dev" = none ∧
      valueWithSuffix other "repo" "dev" = some (.bool true) :=
  ⟨_, _, rfl, rfl, rfl, rfl, rfl, rfl⟩

end Overridable
