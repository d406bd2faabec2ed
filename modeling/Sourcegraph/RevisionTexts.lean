import Sourcegraph.QueryPipeline

/-! # Printed revision lists

A parsed repo filter is printed with its revisions, and an empty glob is printed as nothing. -/
namespace RevisionTexts

open GoStrings QueryPredicates QueryValidate QueryPipeline List

def RevisionSpecifier.string (r : RevisionSpecifier) : String :=
  if r.excludeRefGlob ≠ "" then "*!" ++ r.excludeRefGlob
  else if r.refGlob ≠ "" then "*" ++ r.refGlob
  else r.revSpec

variable {P : Packages}

def ParsedRepoFilter.string (p : ParsedRepoFilter P) : String :=
  if p.revs.length = 0 then p.repo
  else p.repo ++ "@" ++ ":".intercalate (p.revs.map RevisionSpecifier.string)

theorem string_parseRev (h : parseRev part ≠ {}) :
    (RevisionSpecifier.string (parseRev part)).toList = part := by
  revert h
  fun_cases parseRev with
  | case1 glob | case2 glob =>
    intro h
    have hgl : String.ofList glob ≠ "" := fun hgl => h (by rw [hgl])
    rw [RevisionSpecifier.string, if_pos hgl]
    simp
  | case3 => simp [RevisionSpecifier.string]

def orDefault : List RevisionSpecifier → List RevisionSpecifier
  | [] => [{}]
  | specs => specs

def texts (revs : List RevisionSpecifier) : List (List Char) :=
  revs.map fun r => (RevisionSpecifier.string r).toList

/-- Of the texts of parsed parts only the empty ones are lost. -/
theorem reparse_parts {pts : List (List Char)} (h : ∀ part ∈ pts, part ≠ [] ∧ ':' ∉ part) :
    (∀ text ∈ texts (pts.map parseRev), ':' ∉ text) ∧
      ((texts (pts.map parseRev)).filter (· ≠ [])).map parseRev =
        (pts.map parseRev).filter fun r => r ≠ {} := by
  induction pts with
  | nil => simp [texts]
  | cons part pts ih =>
    obtain ⟨hpar, hpa⟩ := forall_mem_cons.mp h
    obtain ⟨hcl, hfi⟩ := ih hpa
    simp only [texts, map_cons, forall_mem_cons] at hcl hfi ⊢
    by_cases hde : parseRev part = {}
    · rw [hde, filter_cons_of_neg (by decide), hfi]
      exact ⟨⟨by decide, hcl⟩, rfl⟩
    rw [string_parseRev hde, filter_cons_of_pos (by simpa using hpar.1),
      filter_cons_of_pos (by simpa using hde), map_cons, hfi]
    exact ⟨⟨hpar.2, hcl⟩, rfl⟩

theorem orDefault_filter {revs : List RevisionSpecifier} (h : revs ≠ []) :
    orDefault (revs.filter fun r => r ≠ {}) = revs ↔ revs = [{}] ∨ {} ∉ revs := by
  by_cases hmem : {} ∈ revs
  · simp only [hmem, not_true_eq_false, or_false]
    constructor
    · intro heq
      have hlt : (revs.filter fun r => r ≠ {}).length < revs.length :=
        length_filter_lt_length_iff_exists.mpr ⟨{}, hmem, by decide⟩
      cases hfi : revs.filter fun r => r ≠ {} with
      | nil => rw [← heq, hfi, orDefault]
      | cons r rest =>
        rw [hfi] at heq hlt
        exact absurd (congrArg length heq) (Nat.ne_of_lt hlt)
    · rintro rfl
      rfl
  · have hall : revs.filter (fun r => r ≠ {}) = revs := filter_eq_self.mpr fun r hr =>
      decide_eq_true fun he : r = {} => hmem (he ▸ hr)
    refine iff_of_true ?_ (.inr hmem)
    rw [hall]
    cases revs with
    | nil => exact absurd rfl h
    | cons r revs => rfl

theorem colon_not_mem_splitOn (text : List Char) : ∀ part ∈ text.splitOn ':', ':' ∉ part := by
  induction text with
  | nil => simp
  | cons c text ih =>
    rw [splitOn_cons_eq_if_modifyHead]
    revert ih
    cases text.splitOn ':' <;> split <;> simp_all [Ne.symm]

theorem parseRevs_eq (text : List Char) :
    parseRevs text = orDefault (((text.splitOn ':').filter (· ≠ [])).map parseRev) := rfl

theorem toList_printed (revs : List RevisionSpecifier) :
    (":".intercalate (revs.map RevisionSpecifier.string)).toList = [':'].intercalate (texts revs) := by
  rw [String.toList_intercalate, map_map]
  rfl

theorem parseRevs_printed (text : List Char) :
    parseRevs (":".intercalate ((parseRevs text).map RevisionSpecifier.string)).toList =
      parseRevs text ↔ parseRevs text = [{}] ∨ {} ∉ parseRevs text := by
  rw [parseRevs_eq text]
  cases hpa : (text.splitOn ':').filter (· ≠ []) with
  | nil => decide
  | cons part pts =>
    obtain ⟨hcl, hfi⟩ := @reparse_parts (part :: pts) (by
      intro part hpar
      obtain ⟨hpar, hne⟩ := mem_filter.mp (hpa ▸ hpar)
      exact ⟨of_decide_eq_true hne, colon_not_mem_splitOn text part hpar⟩)
    rw [show orDefault (map parseRev (part :: pts)) = map parseRev (part :: pts) from rfl,
      ← orDefault_filter (by simp), ← hfi, parseRevs_eq, toList_printed,
      splitOn_intercalate _ hcl (by simp [texts])]

theorem parse_revisions (h : ∀ c ∈ repo, decide (c ≠ '@') = true) (text : String) :
    parseRepositoryRevisions P (String.ofList repo ++ "@" ++ text) =
      (P.compile ("(?i)" ++ String.ofList repo)).map fun re =>
        ⟨String.ofList repo, re, parseRevs text.toList⟩ := by
  simp only [parseRepositoryRevisions, String.toList_append, String.toList_ofList, append_assoc]
  rw [takeWhile_append_of_pos h, dropWhile_append_of_pos h]
  simp

/-- A parsed filter is printed as a text with the same meaning if and only if no empty glob is
listed beside other revisions. -/
theorem round_trip_iff {s : String} {p : ParsedRepoFilter P}
    (h : parseRepositoryRevisions P s = .ok p) :
    (∃ p', parseRepositoryRevisions P (ParsedRepoFilter.string p) = .ok p' ∧ p'.repo = p.repo ∧
      p'.revs = p.revs) ↔ p.revs = [{}] ∨ {} ∉ p.revs := by
  obtain ⟨re, hre, rfl⟩ := map_eq_ok h
  have hrp : ∀ c ∈ s.toList.takeWhile (· ≠ '@'), decide (c ≠ '@') = true :=
    fun _ => mem_takeWhile_imp
  cases s.toList.dropWhile (· ≠ '@') with
  | nil =>
    refine iff_of_true ⟨⟨_, re, []⟩, ?_, rfl, rfl⟩ (.inr not_mem_nil)
    simp only [ParsedRepoFilter.string, length_nil, if_true, parseRepositoryRevisions,
      String.toList_ofList]
    rw [takeWhile_eq_self_iff.mpr hrp, dropWhile_eq_nil_iff.mpr hrp, hre]
    rfl
  | cons c text =>
    rw [← parseRevs_printed, ParsedRepoFilter.string, if_neg, parse_revisions hrp, hre]
    · constructor
      · rintro ⟨p', ⟨⟩, -, hrev⟩
        exact hrev
      · exact fun hrev => ⟨_, rfl, rfl, hrev⟩
    dsimp only
    rw [parseRevs_eq]
    cases map parseRev _ <;> simp [orDefault]

theorem globs_round_trip : ∃ p, parseRepositoryRevisions permissive "foo@bar:*baz:*!qux" = .ok p ∧
    ∃ p', parseRepositoryRevisions permissive (ParsedRepoFilter.string p) = .ok p' ∧
      p'.repo = p.repo ∧ p'.revs = p.revs :=
  ⟨_, rfl, (@round_trip_iff permissive "foo@bar:*baz:*!qux" _ rfl).mpr (.inr (by decide))⟩

theorem star_lost : ∃ p p', parseRepositoryRevisions permissive "foo@*:bar" = .ok p ∧
    ParsedRepoFilter.string p = "foo@:bar" ∧
    parseRepositoryRevisions permissive "foo@:bar" = .ok p' ∧ p.revs.length = 2 ∧
    p'.revs.length = 1 :=
  ⟨_, _, rfl, by decide, rfl, by decide, by decide⟩

end RevisionTexts
