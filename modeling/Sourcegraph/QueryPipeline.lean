import Sourcegraph.QueryValidate
import Sourcegraph.QueryConcat
import Sourcegraph.QueryLeaves

/-! # The query pipeline

Steps turn the input into a query. Its plan is validated, and then the revision filters of each
basic query are attached to its repositories. -/
namespace QueryPipeline

open GoStrings QueryNodes QueryPlan QueryTransform QueryScanners QueryParser QueryConcat
  QueryPredicates QueryValidate QueryLeaves List

abbrev Step := List Node → Except Fault (List Node)

def sequence : List Step → Step
  | [], nodes => .ok nodes
  | step :: steps, nodes => step nodes >>= sequence steps

def substituteCountAll (nodes : List Node) : List Node :=
  mapParameter nodes fun p =>
    if p.field = "count" ∧ toLower p.value = "all" then
      some (.parameter { p with value := "99999999" })
    else some (.parameter p)

/-- An empty group and a trailing parenthesis are escaped. -/
def escapeParens : List Char → List Char
  | [] => []
  | '\\' :: c :: rest => '\\' :: c :: escapeParens rest
  | '(' :: ')' :: rest => '\\' :: '(' :: '\\' :: ')' :: escapeParens rest
  | ['('] => ['\\', '(']
  | c :: rest => c :: escapeParens rest

def escapeParensHeuristic (nodes : List Node) : List Node :=
  mapPattern nodes fun p =>
    if p.annotation.labels.quoted then some (.pattern p)
    else some (.pattern { p with value := String.ofList (escapeParens p.value.toList) })

def labelStructural (nodes : List Node) : List Node :=
  mapPattern nodes fun p =>
    let labels := { p.annotation.labels with literal := false, structural := true }
    some (.pattern { p with annotation := Annotation.setLabels p.annotation labels })

def replaceEllipses : List Char → List Char
  | '.' :: '.' :: '.' :: rest => ':' :: '[' :: '_' :: ']' :: replaceEllipses rest
  | c :: rest => c :: replaceEllipses rest
  | [] => []

def ellipsesForHoles (nodes : List Node) : List Node :=
  mapPattern nodes fun p =>
    some (.pattern { p with value := String.ofList (replaceEllipses p.value.toList) })

def substitute (callback : Callback) : Step := fun nodes =>
  match substituteConcat callback nodes with
  | some nodes => .ok nodes
  | none => .error (.panic "index out of range")

def processType : SearchType → Step
  | .standard => substitute standard
  | .lucky => substitute standard
  | .keyword => substitute standard
  | .literal => substitute space
  | .regex => fun nodes => substitute fuzzyRegexp (escapeParensHeuristic nodes)
  | .structural => fun nodes => substitute space (ellipsesForHoles (labelStructural nodes))

/-- `For`. -/
def forSearchType (searchType : SearchType) : Step := fun nodes =>
  processType searchType
    (substituteCountAll (substituteAliases aliases searchType (lowercaseFieldNames nodes)))

/-- `Init`, which ignores the nodes it is applied to. -/
def init (input : Bytes) (searchType : SearchType) : Step := fun _ =>
  (parse input searchType).mapError (fun e => Fault.error (ParseError.message e)) >>=
    forSearchType searchType

def toNodes (ps : List Parameter) : List Node := ps.map Node.parameter

def toParameters : List Node → Except Fault (List Parameter)
  | [] => .ok []
  | .parameter p :: rest => (toParameters rest).map (p :: ·)
  | _ => .error (.panic "interface conversion")

def toParseTree (b : Basic) : List Node :=
  match b.pattern with
  | none => toNodes b.parameters
  | some pattern =>
    (hoist (toNodes b.parameters ++ [pattern])).getD (toNodes b.parameters ++ [pattern])

def validatePlan (P : Packages) : Plan → Except Fault Unit
  | [] => .ok ()
  | basic :: rest => validate P (toParseTree basic) >>= fun _ => validatePlan P rest

/-- The last revision filter is the one that is attached. -/
def concatRevFilters (b : Basic) : Except Fault Basic :=
  let revision := (((b.parameters.filter (·.field = "rev")).getLast?).map (·.value)).getD ""
  let nodes := mapField (toNodes b.parameters) "rev" fun _ => none
  if revision = "" then .ok b
  else
    let modified := mapField nodes "repo" fun p =>
      if !p.negated && !p.annotation.labels.isPredicate then
        some (.parameter { p with value := p.value ++ "@" ++ revision })
      else some (.parameter p)
    (toParameters modified).map fun ps => ⟨ps, b.pattern⟩

def mapPlan : Plan → Except Fault Plan
  | [] => .ok []
  | basic :: rest => concatRevFilters basic >>= fun b => (mapPlan rest).map (b :: ·)

def pipeline (P : Packages) (steps : List Step) : Except Fault Plan := do
  let nodes ← sequence steps []
  match buildPlan nodes with
  | none => .error (.panic "index out of range")
  | some plan => do
    validatePlan P plan
    mapPlan plan

def Free (nodes : List Node) : Prop :=
  ∀ leaf ∈ nodes.flatMap leaves, leaf.isParameter = false

def PatternFree (b : Basic) : Prop := Free b.pattern.toList

theorem free_singleton : Free [n] ↔ ∀ leaf ∈ leaves n, leaf.isParameter = false := by
  simp [Free]

theorem conjunction_free (hl : PatternFree left) (hr : PatternFree right)
    (h : conjunction left right = some b) : PatternFree b := by
  obtain ⟨pat, hpat, rfl⟩ := Option.map_eq_some_iff.mp h
  unfold conjoinPatterns at hpat
  split at hpat
  · rw [← Option.some.inj hpat]
    exact hr
  · rename_i l hle hrt
    rw [← Option.some.inj hpat, ← hle]
    exact hl
  · rename_i l r hle hrt
    obtain ⟨n, hn, rfl⟩ := Option.map_eq_some_iff.mp hpat
    have hbo : Free [l, r] := by
      unfold PatternFree at hl hr
      rw [hle] at hl
      rw [hrt] at hr
      intro leaf hlf
      rw [flatMap_cons, mem_append] at hlf
      rcases hlf with hlf | hlf
      · exact free_singleton.mp hl leaf hlf
      · exact hr leaf hlf
    intro leaf hlf
    apply patternFree_newOperator .and hbo
    have hmem : n ∈ newOperator [l, r] .and := mem_of_mem_head? hn
    exact mem_flatMap.mpr ⟨n, hmem, by simpa using hlf⟩

theorem conjoinAll_free (hm : PatternFree tm) (hb : ∀ b ∈ bas, PatternFree b)
    (h : conjoinAll tm bas = some r) : ∀ b ∈ r, PatternFree b := by
  induction bas generalizing r with
  | nil =>
    rw [← Option.some.inj h]
    simp
  | cons basi rest ih =>
    obtain ⟨mg, hmer, hrs⟩ := Option.bind_eq_some_iff.mp h
    obtain ⟨r', hr', rfl⟩ := Option.map_eq_some_iff.mp hrs
    rw [forall_mem_cons] at hb ⊢
    exact ⟨conjunction_free hb.1 hm hmer, ih hb.2 hr'⟩

theorem product_free (hp : ∀ b ∈ pres, PatternFree b) (hm : PatternFree tm)
    (h : product pres tm = some r) : ∀ b ∈ r, PatternFree b := by
  cases pres with
  | nil =>
    rw [← Option.some.inj h]
    simpa using hm
  | cons bas rest => exact conjoinAll_free hm hp h

theorem products_free (hp : ∀ b ∈ pres, PatternFree b) (hn : ∀ b ∈ nbs, PatternFree b)
    (h : products pres nbs = some r) : ∀ b ∈ r, PatternFree b := by
  induction nbs generalizing r with
  | nil =>
    rw [← Option.some.inj h]
    simp
  | cons new rest ih =>
    obtain ⟨mg, hmer, hrs⟩ := Option.bind_eq_some_iff.mp h
    obtain ⟨r', hr', rfl⟩ := Option.map_eq_some_iff.mp hrs
    rw [forall_mem_cons] at hn
    rw [forall_mem_append]
    exact ⟨product_free hp hn.1 hmer, ih hn.2 hr'⟩

def KeepsFree (n : Node) : Prop :=
  ∀ prefixes r, (∀ b ∈ prefixes, PatternFree b) → distributeNode prefixes n = some r →
    ∀ b ∈ r, PatternFree b

theorem distribute_free (hns : ∀ n ∈ ns, KeepsFree n) (hp : ∀ b ∈ pres, PatternFree b)
    (h : distribute pres ns = some r) : ∀ b ∈ r, PatternFree b := by
  induction ns generalizing pres with
  | nil =>
    rw [← Option.some.inj h]
    exact hp
  | cons node rest ih =>
    obtain ⟨upd, hupd, hrs⟩ := Option.bind_eq_some_iff.mp h
    rw [forall_mem_cons] at hns
    exact ih hns.2 (hns.1 pres upd hp hupd) hrs

theorem distributeOr_free (hops : ∀ n ∈ os, KeepsFree n) (hp : ∀ b ∈ pres, PatternFree b)
    (h : distributeOr pres os = some r) : ∀ b ∈ r, PatternFree b := by
  induction os generalizing r with
  | nil =>
    rw [← Option.some.inj h]
    simp
  | cons od rest ih =>
    obtain ⟨nbs, hnew, hst⟩ := Option.bind_eq_some_iff.mp h
    obtain ⟨res, hres, hrs⟩ := Option.bind_eq_some_iff.mp hst
    obtain ⟨r', hr', rfl⟩ := Option.map_eq_some_iff.mp hrs
    rw [forall_mem_cons] at hops
    have hbas := hops.1 [] nbs (by simp) hnew
    rw [forall_mem_append]
    exact ⟨products_free hp hbas hres, ih hops.2 hr'⟩

theorem distributeNode_free : KeepsFree n := by
  induction n with
  | pattern p =>
    intro pres r hp h
    exact product_free hp (by simp [PatternFree, Free, leaves, Leaf.isParameter]) h
  | parameter p =>
    intro pres r hp h
    exact product_free hp (by simp [PatternFree, Free]) h
  | operator kind os ih =>
    intro pres r hp h
    rw [distributeNode.eq_def] at h
    dsimp only at h
    split at h
    · rename_i hfr
      refine product_free hp ?_ h
      intro leaf hlf
      have hany : (os.flatMap leaves).any Leaf.isParameter = false := by
        rw [← Bool.not_eq_true']
        exact hfr
      have hmem : leaf ∈ os.flatMap leaves := by simpa using hlf
      simpa using any_eq_false.mp hany leaf hmem
    · cases kind with
      | or => exact distributeOr_free ih hp h
      | and | concat => exact distribute_free ih hp h

theorem buildPlan_free (h : buildPlan ns = some plan) : ∀ b ∈ plan, PatternFree b :=
  distribute_free (fun n _ => distributeNode_free) (by simp) h

theorem free_append : Free (a ++ b) ↔ Free a ∧ Free b := by
  simp only [Free, flatMap_append, forall_mem_append]

theorem mapNode_labelHoisted_free (h : Free [n]) :
    Free (mapNode labelHoisted (fun p => some (.parameter p)) n) := by
  induction n with
  | pattern p => simp [mapNode, labelHoisted, Free, leaves, Leaf.isParameter]
  | parameter p => cases h (.parameter p) (by simp [leaves])
  | operator kind os ih =>
    apply patternFree_newOperator
    rw [QueryRenaming.mapNodes_eq, flatMap_assoc]
    intro leaf hlf
    obtain ⟨o, ho, hlf⟩ := mem_flatMap.mp hlf
    refine ih o ho ?_ leaf hlf
    intro l hl
    apply h l
    simp only [flatMap_cons, flatMap_nil, append_nil, leaves_operator] at hl ⊢
    exact mem_flatMap.mpr ⟨o, ho, hl⟩

theorem hoist_free (h : hoist ns = some hoisted) (hfr : Free ns) : Free hoisted := by
  unfold hoist at h
  split at h
  · rename_i kind os
    split at h
    · nomatch h
    obtain ⟨r, hr, rfl⟩ := Option.map_eq_some_iff.mp h
    have hsep := hoistOperands_separates hr
    have hop : Free os := by
      intro leaf hlf
      exact hfr leaf (by simpa using hlf)
    rw [free_append]
    constructor
    · intro leaf hlf
      obtain ⟨n, hn, hlf⟩ := mem_flatMap.mp hlf
      obtain ⟨p, hp, rfl⟩ := mem_map.mp hn
      rw [leaves, mem_singleton] at hlf
      subst hlf
      exact hop _ ((hsep _).mpr (.inl (mem_map_of_mem hp)))
    · apply patternFree_newOperator
      rw [mapPattern, QueryRenaming.mapNodes_eq, flatMap_assoc]
      intro leaf hlf
      obtain ⟨o, ho, hlf⟩ := mem_flatMap.mp hlf
      refine mapNode_labelHoisted_free ?_ leaf hlf
      intro l hl
      rw [flatMap_cons, flatMap_nil, append_nil] at hl
      exact hop l ((hsep l).mpr (.inr (mem_flatMap.mpr ⟨o, ho, hl⟩)))
  · nomatch h

theorem parameters_append : parameters (a ++ b) = parameters a ++ parameters b := by
  simp [parameters]

theorem parameters_toNodes : parameters (toNodes ps) = ps := by
  induction ps with
  | nil => rfl
  | cons p ps ih =>
    rw [show toNodes (p :: ps) = [Node.parameter p] ++ toNodes ps from rfl, parameters_append, ih]
    rfl

theorem parameters_of_free (h : Free ns) : parameters ns = [] := by
  rw [parameters, filterMap_eq_nil_iff]
  intro leaf hlf
  have := h leaf hlf
  cases leaf with
  | pattern p => rfl
  | parameter p => nomatch this

theorem parameters_toParseTree (h : PatternFree b) : parameters (toParseTree b) = b.parameters := by
  unfold PatternFree at h
  unfold toParseTree
  cases hpat : b.pattern with
  | none => exact parameters_toNodes
  | some pat =>
    rw [hpat] at h
    have hpl : parameters (toNodes b.parameters ++ [pat]) = b.parameters := by
      rw [parameters_append, parameters_toNodes]
      have := parameters_of_free h
      simp only [Option.toList_some] at this
      rw [this, append_nil]
    dsimp only
    cases hps : b.parameters with
    | nil =>
      cases hhoi : hoist (toNodes [] ++ [pat]) with
      | none => simpa [hps] using hpl
      | some hoisted => exact parameters_of_free (hoist_free hhoi h)
    | cons p ps =>
      rw [hps] at hpl
      exact hpl

theorem mapField_toNodes {cb : Parameter → Option Node} {g : Parameter → Option Parameter}
    (hcal : ∀ p, cb p = (g p).map Node.parameter) (fd : String)
    (ps : List Parameter) : mapField (toNodes ps) fd cb =
      toNodes (ps.filterMap fun p => if fd = p.field then g p else some p) := by
  unfold mapField mapParameter toNodes
  rw [QueryRenaming.mapNodes_eq]
  induction ps with
  | nil => rfl
  | cons p ps ih =>
    rw [map_cons, flatMap_cons, ih, mapNode]
    by_cases hfd : fd = p.field
    · rw [hcal]
      cases hg : g p with
      | none | some q => simp [hfd, hg]
    · simp [hfd]

theorem toParameters_toNodes : toParameters (toNodes ps) = .ok ps := by
  induction ps with
  | nil => rfl
  | cons p ps ih =>
    change (toParameters (toNodes ps)).map (p :: ·) = .ok (p :: ps)
    rw [ih]
    rfl

def attachRevision (revision : String) (p : Parameter) : Parameter :=
  if p.field = "repo" ∧ p.negated = false ∧ p.annotation.labels.isPredicate = false then
    { p with value := p.value ++ "@" ++ revision }
  else p

theorem mapField_attach :
    (mapField (toNodes ps) "repo" fun p =>
      if !p.negated && !p.annotation.labels.isPredicate then
        some (.parameter { p with value := p.value ++ "@" ++ rv })
      else some (.parameter p)) = toNodes (ps.map (attachRevision rv)) := by
  rw [@mapField_toNodes _ (fun p =>
    if !p.negated && !p.annotation.labels.isPredicate then
      some { p with value := p.value ++ "@" ++ rv }
    else some p) (fun p => by split <;> rfl), ← filterMap_eq_map]
  congr 1
  apply filterMap_congr
  intro p _
  unfold attachRevision
  by_cases hfd : p.field = "repo"
  · cases hneg : p.negated <;> cases hpd : p.annotation.labels.isPredicate <;>
      simp [hfd, hneg, hpd]
  · simp [hfd, Ne.symm hfd]

theorem concatRevFilters_eq
    (h : (((b.parameters.filter (·.field = "rev")).getLast?).map (·.value)).getD "" = rv) :
    concatRevFilters b = .ok (if rv = "" then b else
      ⟨(b.parameters.filter fun p => p.field ≠ "rev").map (attachRevision rv), b.pattern⟩) := by
  unfold concatRevFilters
  dsimp only
  rw [h]
  split
  · rfl
  have hrem := @mapField_toNodes (fun _ => none) (fun _ => none) (fun _ => rfl) "rev"
    b.parameters
  rw [hrem, mapField_attach, toParameters_toNodes]
  have hfil : (b.parameters.filterMap fun p => if "rev" = p.field then none else some p) =
      b.parameters.filter fun p => p.field ≠ "rev" := by
    rw [← filterMap_eq_filter]
    apply filterMap_congr
    intro p _
    by_cases hfd : p.field = "rev"
    · simp [Option.guard, hfd]
    · simp [Option.guard, hfd, Ne.symm hfd]
  rw [hfil]
  rfl

theorem parseRepositoryRevisions_attach {fil : ParsedRepoFilter P}
    (h : parseRepositoryRevisions P val = .ok fil) :
    ∃ fil', parseRepositoryRevisions P (val ++ "@" ++ rv) = .ok fil' := by
  have hrp : (val ++ "@" ++ rv).toList.takeWhile (· ≠ '@') =
      val.toList.takeWhile (· ≠ '@') := by
    simp only [String.toList_append]
    induction val.toList with
    | nil => simp
    | cons c cs ih =>
      by_cases hc : c = '@'
      · simp [hc]
      · simpa [hc] using ih
  obtain ⟨re, hre, _⟩ := map_eq_ok h
  unfold parseRepositoryRevisions
  rw [hrp]
  dsimp only
  rw [hre]
  exact ⟨_, rfl⟩

theorem accepted_attach (h : Accepted P p) (hfd : p.field = "repo") (hneg : p.negated = false)
    (hpd : p.annotation.labels.isPredicate = false) (rv : String) :
    ∃ fil, parseRepositoryRevisions P (p.value ++ "@" ++ rv) = .ok fil := by
  obtain ⟨seen, hvld⟩ := h.value hpd
  have hrp : isValidRepoRegexp P ⟨p.field, p.value, p.negated, seen⟩ = .ok () := by
    apply satisfies_ok hvld
    simp [checks, hfd]
  rw [isValidRepoRegexp, if_neg (by simp [hneg])] at hrp
  obtain ⟨fil, hfil, _⟩ := map_eq_ok hrp
  exact parseRepositoryRevisions_attach hfil

theorem attachRevision_accepted (h : Accepted P p) : Accepted P (attachRevision rv p) := by
  unfold attachRevision
  split
  · rename_i hco
    obtain ⟨hfd, hneg, hpd⟩ := hco
    obtain ⟨fil', hfil'⟩ := accepted_attach h hfd hneg hpd rv
    refine ⟨fun ht => absurd (hpd.symm.trans ht) (by decide), fun _ => ⟨[], ?_⟩⟩
    have hchk : checks P p.field = [isValidRepoRegexp P] := by simp [checks, hfd]
    change satisfies _ (checks P p.field) = .ok ()
    rw [hchk, satisfies, isValidRepoRegexp, if_neg (by simp [hneg])]
    rw [hfil']
    rfl
  · exact h

theorem validatePlan_ok (h : validatePlan P plan = .ok ()) :
    ∀ b ∈ plan, validate P (toParseTree b) = .ok () := by
  induction plan with
  | nil => simp
  | cons bas rest ih =>
    obtain ⟨_, hf, hrs⟩ := bind_eq_ok h
    rw [forall_mem_cons]
    exact ⟨hf, ih hrs⟩

theorem mem_mapPlan (h : mapPlan plan = .ok mapp) (hb : b ∈ mapp) :
    ∃ bas ∈ plan, concatRevFilters bas = .ok b := by
  induction plan generalizing mapp with
  | nil =>
    rw [← Except.ok.inj h] at hb
    nomatch hb
  | cons bas rest ih =>
    obtain ⟨first, hf, hmap⟩ := bind_eq_ok h
    obtain ⟨oth, hots, rfl⟩ := map_eq_ok hmap
    rcases mem_cons.mp hb with rfl | hb
    · exact ⟨bas, mem_cons_self, hf⟩
    obtain ⟨bas', hmem, heq⟩ := ih hots hb
    exact ⟨bas', mem_cons_of_mem _ hmem, heq⟩

theorem concatRevFilters_accepted (h : concatRevFilters bas = .ok b)
    (hacc : ∀ p ∈ bas.parameters, Accepted P p) :
    (∀ p ∈ b.parameters, Accepted P p) ∧ b.pattern = bas.pattern := by
  rw [concatRevFilters_eq rfl] at h
  cases h
  split
  · exact ⟨hacc, rfl⟩
  refine ⟨?_, rfl⟩
  exact forall_mem_map.mpr fun q hq =>
    attachRevision_accepted (hacc q (mem_of_mem_filter hq))

theorem pipeline_accepted (h : pipeline P ste = .ok plan) :
    ∀ b ∈ plan, PatternFree b ∧ ∀ p ∈ b.parameters, Accepted P p := by
  intro b hb
  obtain ⟨ns, _, hpl⟩ := bind_eq_ok h
  split at hpl
  · nomatch hpl
  rename_i bui hbui
  obtain ⟨_, hvld, hmap⟩ := bind_eq_ok hpl
  obtain ⟨bas, hbas, hcon⟩ := mem_mapPlan hmap hb
  have hfr := buildPlan_free hbui bas hbas
  have hacc := validate_ok (validatePlan_ok hvld bas hbas)
  rw [parameters_toParseTree hfr] at hacc
  obtain ⟨hpar, hpat⟩ := concatRevFilters_accepted hcon hacc
  refine ⟨?_, hpar⟩
  unfold PatternFree
  rw [hpat]
  exact hfr

/-- No accessor and no visitor of predicates panics, since the validators of their fields accept the
values and predicates are registered. -/
structure NeverPanics (P : Packages) (nodes : List Node) : Prop where
  count : ∃ c, count P nodes = .ok c
  getTimeout : ∃ t, getTimeout P nodes = .ok t
  index : ∃ v, index P nodes = .ok v
  fork : ∃ v, fork P nodes = .ok v
  archived : ∃ v, archived P nodes = .ok v
  repositories : ∃ r, repositories P nodes = .ok r
  visitPredicate : ∀ {σ : Type} (f : σ → String → String → String → Bool → σ) (s : σ),
    ∃ t, visitPredicate nodes f s = .ok t
  visitTypedPredicate : ∀ {σ : Type} (kind : PredicateKind) (f : σ → Predicate → σ) (s : σ),
    ∃ t, visitTypedPredicate P kind nodes f s = .ok t
  accepted : ∀ p ∈ parameters nodes, p.annotation.labels.isPredicate = false →
    ∃ seen, validateField P ⟨p.field, p.value, p.negated, seen⟩ = .ok ()
  registered : ∀ p ∈ parameters nodes, p.annotation.labels.isPredicate = true →
    ∃ name params table, p.value = name ++ "(" ++ params ++ ")" ∧
      defaultPredicateRegistry p.field = some table ∧ (table.lookup name).isSome = true

theorem neverPanics_of_accepted (h : ∀ p ∈ parameters ns, Accepted P p) : NeverPanics P ns where
  count := count_succeeds h
  getTimeout := getTimeout_succeeds h
  index := by
    obtain ⟨v, hv⟩ := @yesNoOnlyValue_succeeds P ns h "index" (by simp)
    unfold QueryValidate.index
    rw [hv]
    exact ⟨_, rfl⟩
  fork := yesNoOnlyValue_succeeds h (by simp)
  archived := yesNoOnlyValue_succeeds h (by simp)
  repositories := repositories_succeeds h
  visitPredicate f s := visitPredicate_succeeds h f s
  visitTypedPredicate kind f s := visitTypedPredicate_succeeds h kind f s
  accepted p hp hpd := (h p hp).value hpd
  registered p hp hpd := by
    obtain ⟨name, prs, kind, _, hprs, hk, _⟩ := (h p hp).unmarshalled hpd
    obtain ⟨tb, htb, hlk⟩ := getPredicate_ok hk
    exact ⟨name, prs, tb, parseAsPredicate_ok hprs, htb, by rw [hlk]; rfl⟩

/-- Neither the parameters nor the parse tree of a basic query of a returned plan make an accessor
panic. -/
theorem plan_never_panics (P : Packages) (input : Bytes) (searchType : SearchType)
    (steps : List Step) (plan : Plan) (h : pipeline P (init input searchType :: steps) = .ok plan) :
    ∀ b ∈ plan, NeverPanics P (toNodes b.parameters) ∧ NeverPanics P (toParseTree b) := by
  intro b hb
  obtain ⟨hfr, hacc⟩ := pipeline_accepted h b hb
  constructor
  · apply neverPanics_of_accepted
    rw [parameters_toNodes]
    exact hacc
  · apply neverPanics_of_accepted
    rw [parameters_toParseTree hfr]
    exact hacc

def permissive : Packages where
  Regexp := String
  compile := .ok
  syntaxParse _ := .ok ()
  parseDuration _ := .ok 0
  parseGitDate _ := .ok 0
  getLanguageByAlias := some
  quote s := s

def revisionQuery : Bytes := bytes "r:has.file(path:a) repo:b rev:c count:all d"

theorem revision_query_never_panics :
    ∃ plan, pipeline permissive [init revisionQuery .standard] = .ok plan ∧
      ∀ b ∈ plan, NeverPanics permissive (toNodes b.parameters) ∧
        NeverPanics permissive (toParseTree b) := by
  have h : (pipeline permissive [init revisionQuery .standard]).toBool = true := by
    decide +kernel
  cases hpl : pipeline permissive [init revisionQuery .standard] with
  | error e =>
    rw [hpl] at h
    nomatch h
  | ok plan => exact ⟨plan, rfl, plan_never_panics permissive _ _ [] plan hpl⟩

end QueryPipeline
