import Sourcegraph.RevisionTexts

/-! # Revision filters

The revision of `rev:` is attached to the repo filters that can take one. There may be none. -/
namespace RevisionFilters

open GoStrings QueryNodes QueryPlan QueryPredicates QueryValidate QueryPipeline RevisionTexts List

variable {P : Packages}

/-- A repo filter to which a revision is attached. -/
abbrev Takes (p : Parameter) : Prop :=
  p.field = "repo" ∧ p.negated = false ∧ p.annotation.labels.isPredicate = false

structure Attached (P : Packages) (b : Basic) (revision : String) (b' : Basic) : Prop where
  removed : ∀ p ∈ b'.parameters, p.field ≠ "rev"
  parameters : b'.parameters =
    (b.parameters.filter (·.field ≠ "rev")).map (attachRevision revision)
  pattern : b'.pattern = b.pattern
  parsed : ∀ p ∈ b.parameters, Takes p → ∃ re, parseRepositoryRevisions P
    (p.value ++ "@" ++ revision) = .ok ⟨p.value, re, parseRevs revision.toList⟩
  taken : ∃ p ∈ b.parameters, Takes p

theorem rev_unique {ps : List Parameter} (h : ps.foldlM (Validation.parameter P) st = .ok st')
    (herr : st'.err = none) : ("rev" ∈ st.seen → ps.filter (·.field = "rev") = []) ∧
      ∀ p ∈ ps, p.field = "rev" → ps.filter (·.field = "rev") = [p] := by
  induction ps generalizing st with
  | nil => simp
  | cons p ps ih =>
    obtain ⟨st₁, hf, hrs⟩ := bind_eq_ok h
    obtain ⟨-, hacc, hsn, hvl⟩ := parameter_ok hf (parameters_ok hrs herr).1
    obtain ⟨hno, huni⟩ := ih hrs
    rw [hsn] at hno
    by_cases hfd : p.field = "rev"
    · have hsg : isSingular P ⟨p.field, p.value, p.negated, st.seen⟩ = .ok () :=
        satisfies_ok (hvl (hacc.not_predicate (by simp [hfd]) (by simp [hfd]))) _
          (by simp [checks, hfd])
      have hout : "rev" ∉ st.seen := by
        intro hin
        rw [isSingular, hfd, if_pos hin] at hsg
        cases hsg
      have hnil := hno (by simp [hfd])
      rw [filter_cons_of_pos (by simpa using hfd), hnil]
      refine ⟨fun hin => absurd hin hout, forall_mem_cons.mpr ⟨fun _ => rfl, fun q hq hqf => ?_⟩⟩
      exact absurd (hnil ▸ mem_filter.mpr ⟨hq, by simpa using hqf⟩) not_mem_nil
    · rw [filter_cons_of_neg (by simpa using hfd)]
      exact ⟨fun hin => hno (mem_cons_of_mem _ hin),
        forall_mem_cons.mpr ⟨fun h => absurd h hfd, huni⟩⟩

theorem no_revision (h : validateRepoRevPair nodes = .ok ()) (hp : p ∈ parameters nodes)
    (ht : Takes p) (hr : ∃ q ∈ parameters nodes, q.field = "rev") : '@' ∉ p.value.toList := by
  intro hat
  rw [validateRepoRevPair, if_pos] at h
  · cases h
  · obtain ⟨q, hq, hqf⟩ := hr
    simp only [Bool.and_eq_true, any_eq_true, mem_filter, decide_eq_true_eq]
    exact ⟨⟨p, ⟨hp, ht.1⟩, by simp [ht.2.1, hat]⟩, q, hq, hqf⟩

/-- The revision is attached if and only if a repo filter can take it. -/
theorem revision_attached_iff {b : Basic} {p : Parameter} (hf : PatternFree b)
    (h : validate P (toParseTree b) = .ok ()) (hp : p ∈ b.parameters) (hfd : p.field = "rev")
    (hv : p.value ≠ "") :
    (∃ b', concatRevFilters b = .ok b' ∧ Attached P b p.value b') ↔
      ∃ q ∈ b.parameters, Takes q := by
  refine ⟨fun ⟨_, _, ha⟩ => ha.taken, fun ht => ?_⟩
  have hacc := validate_ok h
  obtain ⟨_, hpar, h⟩ := bind_eq_ok h
  obtain ⟨_, -, h⟩ := bind_eq_ok h
  obtain ⟨_, hpr, -⟩ := bind_eq_ok h
  obtain ⟨st, hrun, herr⟩ := validateParameters_ok hpar
  rw [parameters_toParseTree hf] at hacc hrun
  have hrv := (rev_unique hrun herr).2 p hp hfd
  have hcon := @concatRevFilters_eq p.value b (by rw [hrv]; rfl)
  rw [if_neg hv] at hcon
  refine ⟨_, hcon, ?_, rfl, rfl, fun q hq ht => ?_, ht⟩
  · refine forall_mem_map.mpr fun q hq => ?_
    rw [attachRevision, apply_ite Parameter.field]
    simpa using (mem_filter.mp hq).2
  · obtain ⟨fil, hfil⟩ := accepted_attach (hacc q hq) ht.1 ht.2.1 ht.2.2 p.value
    rw [← parameters_toParseTree hf] at hq hp
    have hat := no_revision hpr hq ht ⟨p, hp, hfd⟩
    have hprs := @parse_revisions P q.value.toList
      (fun c hc => decide_eq_true fun he => hat (he ▸ hc)) p.value
    rw [String.ofList_toList] at hprs
    rw [hprs] at hfil ⊢
    obtain ⟨re, hre, -⟩ := map_eq_ok hfil
    exact ⟨re, by rw [hre]; rfl⟩

def filters (negated : Bool) : Basic :=
  ⟨[⟨"repo", "foo", negated, {}⟩, ⟨"rev", "bar", false, {}⟩], none⟩

theorem foo_at_bar : ∃ b', concatRevFilters (filters false) = .ok b' ∧
    Attached permissive (filters false) "bar" b' :=
  (@revision_attached_iff permissive (filters false) ⟨"rev", "bar", false, {}⟩
    (by simp [PatternFree, Free, filters]) rfl (by decide) rfl (by decide)).mpr ⟨_, mem_cons_self, rfl, rfl, rfl⟩

/-- With `-repo:foo rev:bar` every other repository is searched at its default branch. -/
theorem excluded_repo_drops_rev : validate permissive (toParseTree (filters true)) = .ok () ∧
    concatRevFilters (filters true) = .ok ⟨[⟨"repo", "foo", true, {}⟩], none⟩ ∧
    ¬ ∃ b', Attached permissive (filters true) "bar" b' :=
  ⟨rfl, rfl, fun ⟨b', ha⟩ => absurd ha.taken (by decide)⟩

end RevisionFilters
