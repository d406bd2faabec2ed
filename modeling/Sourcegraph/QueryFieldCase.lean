import Sourcegraph.QueryRecasing
import Sourcegraph.QueryLeaves

/-! # The case of field names

A query whose field names are spelled in another case is parsed into the same tree, except
where a predicate follows a field: `ScanPredicate` looks the name up as it is spelled. -/
namespace QueryFieldCase

open GoStrings QueryNodes QueryScanners QueryTransform QueryParser QueryRuns QueryCoverage
  QueryLetterCase QueryFieldNames QueryRenaming QueryRecasing QueryLeaves List

def InFieldName (input : Bytes) (searchType : SearchType) (i : ℕ) : Prop :=
  ∃ parameter, .leaf (.parameter parameter) ∈ resultTrace input searchType ∧
    nameStart input parameter.annotation.range ≤ i ∧
    i < nameStart input parameter.annotation.range + parameter.field.length

/-- A text in which letters of field names have another case, and everything else is the same. -/
structure NamesRecased (input : Bytes) (searchType : SearchType) (input' : Bytes) : Prop where
  length : input'.length = input.length
  changed : ∀ i b b', input[i]? = some b → input'[i]? = some b' → b ≠ b' →
    InFieldName input searchType i ∧
      (Char.ofNat b.toNat).toLower = (Char.ofNat b'.toNat).toLower

/-- `LowercaseFieldNames` and then `SubstituteAliases`. -/
def normalize (searchType : SearchType) (nodes : List Node) : List Node :=
  substituteAliases aliases searchType (lowercaseFieldNames nodes)

/-- The other text is parsed into the same tree. -/
def SameTree (input' : Bytes) (searchType : SearchType) (nodes : List Node) : Prop :=
  ∃ nodes', parse input' searchType = .ok nodes' ∧
    normalize searchType nodes' = normalize searchType nodes

/-- Where the result has a parameter, both texts have a predicate or none has. -/
def PredicatesKept (input : Bytes) (searchType : SearchType) (input' : Bytes) : Prop :=
  ∀ parameter, .leaf (.parameter parameter) ∈ resultTrace input searchType →
    predicateAt input (nameStart input parameter.annotation.range) =
      predicateAt input' (nameStart input parameter.annotation.range)

theorem parseOr_named {fuel : ℕ} {p : Parser} (htr : p.trace = []) (hpos : p.pos = 0) :
    ∀ par, .leaf (.parameter par) ∈ (parseOr fuel p).2.trace → Named p.buf par := by
  have hfr : Fresh p := by
    apply Boundary.fresh
    rw [hpos]
    exact .start
  have hnm : AllNamed p := by
    intro par hmem
    rw [htr] at hmem
    cases hmem
  have hrun := run_call fuel p (.level .or)
  obtain ⟨es, hfrm⟩ := hrun.frame
  have hall := (run_named hrun hnm hfr).1
  intro par hmem
  have := hall par hmem
  rwa [hfrm.buf] at this

theorem resultTrace_named (h : .leaf (.parameter par) ∈ resultTrace input st) :
    Named input par := by
  unfold resultTrace at h
  split at h
  · cases h
  split at h
  · exact @parseOr_named (enoughFuel input)
      ⟨input, { allowDanglingParens := true }, 0, 0, st, []⟩ rfl rfl par h
  exact @parseOr_named (enoughFuel input)
    ⟨input, { parensAsPatterns := true }, 0, 0, st, []⟩ rfl rfl par h

theorem scanFieldName_suffix (h : (scanFieldName (tk ++ left)).isSome = true)
    (ht : ∀ r ∈ tk, r.char.isAlpha = true) : (scanFieldName left).isSome = true := by
  induction tk with
  | nil => exact h
  | cons r tk ih =>
    rw [cons_append, scanFieldName, if_pos (ht r (by simp)), Option.isSome_map] at h
    exact ih h (forall_mem_cons.mp ht).2

theorem nameAt_suffix (h : NameAt buf n name) (hn : n ≤ i) (hi : i < n + name.length) :
    (scanFieldName (runes (buf.drop (i + 1)))).isSome = true := by
  obtain ⟨lts, col, left, hrs, -, hall, hv, -⟩ := scanFieldName_eq_some h.scan
  simp only at hv
  have hlen : lts.length = name.length := by rw [hv, length_map]
  have hta : ∀ r ∈ lts.take (i + 1 - n), r.char.isAlpha = true :=
    fun r hr => hall r (mem_of_mem_take hr)
  have hspl : runes (buf.drop n) =
      lts.take (i + 1 - n) ++ (lts.drop (i + 1 - n) ++ col :: left) := by
    rw [hrs, ← append_assoc, take_append_drop]
  have hwd : width (lts.take (i + 1 - n)) = i + 1 - n := by
    rw [width_ascii hspl fun r hr => isAlpha_lt (hta r hr), length_take]
    omega
  have hdr := runes_drop hspl
  rw [hwd, drop_drop, show n + (i + 1 - n) = i + 1 by omega] at hdr
  rw [hdr]
  refine scanFieldName_suffix ?_ hta
  rw [← hspl, h.scan]
  rfl

theorem boundary_not_escaped (h : Boundary buf n) (hj : n = j + 1) : buf[j]? ≠ some 92 := by
  intro hby
  cases h with
  | start => omega
  | @symbol i b hb _ hes =>
    obtain rfl : i = j := by omega
    rw [hb] at hby
    exact hes (Option.some.inj hby)
  | @operator i lv _ htx =>
    have hpos : 0 < lv.keyword.text.length := by cases lv <;> decide
    obtain ⟨b, hb, hlt⟩ := startsWith_letter htx (show i + 1 ≤ j by omega) (by omega)
    rw [hby] at hb
    cases hb
    exact absurd hlt (by decide)

theorem NamesRecased.bytesAlike (h : NamesRecased input st input') : BytesAlike input input' := by
  refine ⟨h.length, fun i b b' hb hb' hne => ?_⟩
  obtain ⟨⟨par, hmem, hlo, hhi⟩, hlow⟩ := h.changed i b b' hb hb' hne
  obtain ⟨-, hnm⟩ := resultTrace_named hmem
  have hlen : par.field.length = par.field.toList.length := String.length_toList.symm
  obtain ⟨c, hc, hlt⟩ := hnm.name.letter i hlo hhi
  rw [hb] at hc
  cases hc
  have hlt' : letterByte b' = true := by
    rw [letterByte, ← Char.isAlpha_toLower_eq_isAlpha, ← hlow, Char.isAlpha_toLower_eq_isAlpha]
    exact hlt
  refine ⟨⟨letterByte_lt hlt, letterByte_lt hlt'⟩, hlow, nameAt_suffix hnm.name hlo hhi, ?_⟩
  intro j hj
  by_cases hst : nameStart input par.annotation.range = i
  · exact boundary_not_escaped hnm.boundary (hst.trans hj)
  obtain ⟨c, hc, hc'⟩ := hnm.name.letter j (by omega) (by omega)
  intro hby
  rw [hby] at hc
  cases hc
  exact absurd hc' (by decide)

theorem nameAt_alike (A : BytesAlike buf buf') (h : NameAt buf n name) :
    ∃ name', NameAt buf' n name' ∧ name.map Char.toLower = name'.map Char.toLower := by
  have hsc := scanFieldName_lower (runes (buf.drop n))
  rw [(A.runes_drop n).map_lower, scanFieldName_lower, h.scan] at hsc
  obtain ⟨scan, hs, he⟩ := Option.map_eq_some_iff.mp hsc
  exact ⟨scan.value, (nameAt_of_scan hs).1, (congrArg Scan.value he).symm⟩

theorem nameAt_same (A : BytesAlike buf buf') (h : NameAt buf n name) (h' : NameAt buf' n name')
    (hsm : Unchanged buf buf' n (n + name.length)) (hlen : name'.length = name.length) :
    name = name' := by
  obtain ⟨lts, col, left, hrs, -, hall, hv, -⟩ := scanFieldName_eq_some h.scan
  obtain ⟨lts', col', left', hrs', -, -, hv', -⟩ := scanFieldName_eq_some h'.scan
  simp only at hv hv'
  have hlo := (A.runes_drop n).map_lower
  rw [hrs, hrs', map_append, map_append] at hlo
  have hlts := (append_inj hlo (by
    simpa [hv, hv'] using hlen.symm)).1
  have hwd : width lts = name.length := by
    rw [width_ascii hrs fun r hr => isAlpha_lt (hall r hr), hv, length_map]
  rw [← hwd] at hsm
  rw [hv, hv', taken_eq hrs hrs' hlts hsm]

theorem predicateAt_same (A : BytesAlike buf buf') (h : NameAt buf n name)
    (hsm : Unchanged buf buf' n (n + name.length)) : predicateAt buf n = predicateAt buf' n := by
  obtain ⟨name', h', hlo⟩ := nameAt_alike A h
  have hlen : name'.length = name.length := by simpa using (congrArg length hlo).symm
  obtain rfl := nameAt_same A h h' hsm hlen
  rw [h.predicateAt_eq, h'.predicateAt_eq]
  exact (A.runes_drop _).scanPredicate_isSome _

theorem NamesRecased.changed_name (h : NamesRecased input st input') (hi : i < input.length)
    (hne : input[i]? ≠ input'[i]?) : InFieldName input st i := by
  obtain ⟨b, hb⟩ : ∃ b, input[i]? = some b := ⟨_, getElem?_eq_getElem hi⟩
  obtain ⟨b', hb'⟩ : ∃ b', input'[i]? = some b' :=
    ⟨_, getElem?_eq_getElem (by rw [h.length]; exact hi)⟩
  rw [hb, hb'] at hne
  exact (h.changed i b b' hb hb' fun he => hne (congrArg some he)).1

theorem NamesRecased.textsAlike (h : NamesRecased input st input')
    (hkp : PredicatesKept input st input') : TextsAlike input input' := by
  refine ⟨h.bytesAlike, fun n name hbou hna hkn => ?_⟩
  by_cases hsm : Unchanged input input' n (n + name.length)
  · exact predicateAt_same h.bytesAlike hna hsm
  simp only [Unchanged, not_forall] at hsm
  obtain ⟨i, hlo, hhi, hne⟩ := hsm
  obtain ⟨par, hmem, hlo', hhi'⟩ := h.changed_name (by have := hna.bound; omega) hne
  obtain ⟨-, hnm⟩ := resultTrace_named hmem
  rw [hbou.unique hnm.boundary hna hnm.name hkn hnm.known ⟨hlo, hhi⟩ ⟨hlo', hhi'⟩]
  exact hkp par hmem

theorem NamesRecased.allIntact (h : NamesRecased input st input')
    (hprs : parse input st = .ok ns) : AllIntact input input' (resultTrace input st) := by
  obtain ⟨htl, -⟩ := resultTrace_covered hprs
  have hgap := blank_gap input
  intro leaf hlf i hlo hhi hne
  have hbds := htl.bounds hgap _ hlf
  simp only [eventRange] at hbds
  obtain ⟨par, hmem, hlo', hhi'⟩ := h.changed_name (by omega) hne
  obtain ⟨hst, hnm⟩ := resultTrace_named hmem
  have hsp := hnm.stop
  have huni := htl.unique hgap hlf hmem ⟨hlo, hhi⟩ (by
    simp only [eventRange, Leaf.annotation]
    omega)
  cases huni
  exact ⟨par, rfl, hlo', hhi'⟩

theorem parseOr_alike (A : TextsAlike input input') (fuel : ℕ) (heuristics : Heuristics) :
    Sim input input' (parseOr fuel ⟨input, heuristics, 0, 0, st, []⟩).2
      (parseOr fuel ⟨input', heuristics, 0, 0, st, []⟩).2 ∧
    ResultsAlike input input' (parseOr fuel ⟨input, heuristics, 0, 0, st, []⟩).2
      (parseOr fuel ⟨input, heuristics, 0, 0, st, []⟩).1
      (parseOr fuel ⟨input', heuristics, 0, 0, st, []⟩).1 := by
  have hsim : Sim input input' ⟨input, heuristics, 0, 0, st, []⟩
      ⟨input', heuristics, 0, 0, st, []⟩ := ⟨rfl, rfl, rfl, rfl, rfl, rfl⟩
  exact call_alike A hsim (Boundary.fresh .start) (by simp [AllNamed]) (.level .or)

theorem mainRun_alike (A : TextsAlike input input') :
    Sim input input' (mainRun input st).2 (mainRun input' st).2 ∧
    ResultsAlike input input' (mainRun input st).2 (mainRun input st).1 (mainRun input' st).1 := by
  rw [mainRun, mainRun, enoughFuel, enoughFuel, A.length]
  exact parseOr_alike A _ _

theorem fallbackRun_alike (A : TextsAlike input input') :
    ResultsAlike input input' (fallbackRun input st).2 (fallbackRun input st).1
      (fallbackRun input' st).1 := by
  rw [fallbackRun, fallbackRun, enoughFuel, enoughFuel, A.length]
  exact (parseOr_alike A _ _).2

theorem isBlank_alike (A : BytesAlike input input') : isBlank input' = isBlank input := by
  have hlo := (A.runes_drop 0).map_lower
  rw [drop_zero, drop_zero] at hlo
  have hall : ∀ rs : List Rune, (rs.map lower).all (fun r => isSpace r.char) =
      rs.all fun r => isSpace r.char := by
    simp [all_map, Function.comp_def]
  rw [isBlank, isBlank, ← hall, ← hlo, hall]

theorem fallsBack_alike (A : TextsAlike input input') (st : SearchType) :
    fallsBack input' st = fallsBack input st := by
  obtain ⟨hsim, hr⟩ := mainRun_alike A
  unfold fallsBack
  generalize mainRun input st = x at hsim hr ⊢
  generalize mainRun input' st = x' at hsim hr ⊢
  obtain ⟨r, q⟩ := x
  obtain ⟨r', q'⟩ := x'
  simp only at hsim hr
  cases hr with
  | ok h => simp [hsim.balanced]
  | error h => cases h <;> rfl

def SameNames (nodes nodes' : List Node) : Prop :=
  nodes.map (renameNode toLower) = nodes'.map (renameNode toLower)

theorem SameNames.newOperator (h : SameNames ns ns') (kind : OperatorKind) :
    SameNames (newOperator ns kind) (newOperator ns' kind) := by
  rw [SameNames, ← newOperator_rename, ← newOperator_rename, h]

theorem SameNames.hoist (h : SameNames ns ns') :
    SameNames ((hoist ns).getD ns) ((hoist ns').getD ns') := by
  have hge : ∀ l : List Node, ((QueryTransform.hoist l).getD l).map (renameNode toLower) =
      (QueryTransform.hoist (l.map (renameNode toLower))).getD (l.map (renameNode toLower)) := by
    intro l
    rw [hoist_rename, Option.getD_map]
  rw [SameNames, hge, hge, h]

theorem SameNames.validate (h : SameNames ns ns') (bal : Bool) :
    validatePureLiteralPattern ns' bal = validatePureLiteralPattern ns bal := by
  rw [← validatePureLiteralPattern_rename toLower, ← h, validatePureLiteralPattern_rename]

theorem SameNames.finish (hsim : Sim input input' p p') (h : SameNames ns ns')
    (hf : finish st p ns = .ok res) :
    ∃ res', QueryParser.finish st p' ns' = .ok res' ∧ SameNames res res' := by
  have hns : SameNames (if p.heuristics.disambiguated then ns else
      (QueryTransform.hoist ns).getD ns) (if p.heuristics.disambiguated then ns' else
      (QueryTransform.hoist ns').getD ns') := by
    split
    · exact h
    · exact h.hoist
  unfold QueryParser.finish at hf ⊢
  simp only [hsim.heuristics, hsim.balanced, hns.validate] at hf ⊢
  split at hf
  · cases hf
  cases hf
  exact ⟨_, rfl, hns.newOperator _⟩

theorem parse_of_fallsBack (hb : isBlank input = false) (hf : fallsBack input st = true)
    (h : (fallbackRun input st).1 = .ok ns) :
    parse input st = .ok (newOperator ((hoist ns).getD ns) .and) := by
  have hret : ∀ e, retry input st e = .ok (newOperator ((hoist ns).getD ns) .and) := by
    intro e
    rw [retry, tryFallbackParser, h]
  unfold parse
  unfold fallsBack at hf
  rw [hb]
  rcases hma : mainRun input st with ⟨(_ | _ | _) | _, q⟩
  · exact hret _
  · simp [hma] at hf
  · simp [hma] at hf
  · simp only [hma, decide_eq_true_eq] at hf
    simp only [Bool.false_eq_true, if_false]
    rw [if_pos hf]
    exact hret _

theorem parse_of_main (hb : isBlank input = false) (hf : fallsBack input st = false)
    (h : (mainRun input st).1 = .ok ns) : parse input st = finish st (mainRun input st).2 ns := by
  unfold parse
  unfold fallsBack at hf
  rw [hb]
  generalize mainRun input st = x at h hf ⊢
  obtain ⟨r, q⟩ := x
  subst h
  simp only [decide_eq_false_iff_not] at hf
  simp only [Bool.false_eq_true, if_false]
  rw [if_neg hf]

theorem parse_alike (A : TextsAlike input input')
    (hint : AllIntact input input' (resultTrace input st))
    (h : parse input st = .ok ns) : ∃ ns', parse input' st = .ok ns' ∧ SameNames ns ns' := by
  have hbl := isBlank_alike A.toBytesAlike
  have hfal := fallsBack_alike A st
  unfold resultTrace at hint
  cases hb : isBlank input with
  | true =>
    rw [parse, if_pos hb] at h
    cases h
    exact ⟨[], by rw [parse, if_pos (hbl.trans hb)], rfl⟩
  | false =>
    rw [if_neg (by simp [hb])] at hint
    rcases parse_ok h hb with ⟨hf, inn, hrun, rfl⟩ | ⟨hf, inn, hrun, hfin⟩
    · rw [if_pos hf] at hint
      have hr := @fallbackRun_alike _ _ st A
      rw [hrun] at hr
      generalize hrun' : (fallbackRun input' st).1 = r' at hr
      cases hr with
      | ok hali =>
        have hsm : SameNames inn _ := hali.same hint
        exact ⟨_, parse_of_fallsBack (hbl.trans hb) (hfal.trans hf) hrun', hsm.hoist.newOperator _⟩
    · rw [if_neg (by simp [hf])] at hint
      obtain ⟨hsim, hr⟩ := mainRun_alike A
      rw [hrun] at hr
      generalize hrun' : (mainRun input' st).1 = r' at hr
      cases hr with
      | ok hali =>
        have hsm : SameNames inn _ := hali.same hint
        rw [parse_of_main (hbl.trans hb) (hfal.trans hf) hrun']
        exact hsm.finish hsim hfin

theorem toLower_toLower (fd : String) : toLower (toLower fd) = toLower fd := by
  simp [toLower, Function.comp_def]

theorem mapNode_toLower (node : Node) :
    mapNode (fun p => some (.pattern p)) (fun p => some (.parameter { p with field := toLower p.field }))
      (renameNode toLower node) =
    mapNode (fun p => some (.pattern p)) (fun p => some (.parameter { p with field := toLower p.field }))
      node := by
  induction node with
  | pattern p => rfl
  | parameter p => simp [renameNode, mapNode, rename, toLower_toLower]
  | operator kind os ih =>
    rw [renameNode_operator, mapNode, mapNode, mapNodes_eq, mapNodes_eq, flatMap_map]
    rw [flatMap_congr ih]

theorem lowercaseFieldNames_rename (ns : List Node) :
    lowercaseFieldNames (ns.map (renameNode toLower)) = lowercaseFieldNames ns := by
  rw [lowercaseFieldNames, lowercaseFieldNames, mapParameter, mapParameter, mapNodes_eq, mapNodes_eq,
    flatMap_map]
  exact flatMap_congr fun node _ => mapNode_toLower node

theorem SameNames.normalize (h : SameNames ns ns') : normalize st ns' = normalize st ns := by
  rw [QueryFieldCase.normalize, ← lowercaseFieldNames_rename, ← h, lowercaseFieldNames_rename]
  rfl

theorem sameTree_of_predicatesKept (h : parse input st = .ok ns)
    (hr : NamesRecased input st input') (hkp : PredicatesKept input st input') :
    SameTree input' st ns := by
  obtain ⟨ns', hprs, hsm⟩ := parse_alike (hr.textsAlike hkp) (hr.allIntact h) h
  exact ⟨ns', hprs, hsm.normalize⟩

/-- `SubstituteAliases` on one leaf. -/
def resolveLeaf (searchType : SearchType) : Leaf → Leaf
  | .pattern p => .pattern p
  | .parameter p =>
    let labels := p.annotation.labels
    if p.field = "content" then
      let typed := if searchType = .regex then { labels with regexp := true }
        else { labels with literal := true }
      .pattern ⟨p.value, p.negated, Annotation.setLabels p.annotation { typed with isAlias := true }⟩
    else match aliases.lookup p.field with
      | some canonical => .parameter ⟨canonical, p.value, p.negated,
          Annotation.setLabels p.annotation { labels with isAlias := true }⟩
      | none => .parameter p

theorem resolveLeaf_parameter {p : Parameter} (h : p.field ≠ "content") :
    ∃ q, resolveLeaf st (.parameter p) = .parameter q ∧ q.value = p.value ∧
      q.annotation.range = p.annotation.range ∧
      q.annotation.labels.isPredicate = p.annotation.labels.isPredicate := by
  simp only [resolveLeaf, if_neg h]
  cases aliases.lookup p.field with
  | none | some can => exact ⟨_, rfl, rfl, rfl, rfl⟩

theorem resolveLeaf_replaces (st : SearchType) : Replaces (resolveLeaf st)
    (fun p => some (.pattern p)) (fun p => some (resolveLeaf st (.parameter p)).node) := by
  refine ⟨fun leaf => ?_, fun p => rfl, fun p => rfl⟩
  cases leaf with
  | pattern p => rfl
  | parameter p =>
    by_cases hcon : p.field = "content"
    · simp [resolveLeaf, hcon, Leaf.value]
    obtain ⟨p', hp', hv, -⟩ := @resolveLeaf_parameter st p hcon
    rw [hp']
    exact hv

theorem substituteAliases_eq (ns : List Node) : substituteAliases aliases st ns =
    mapParameter ns fun p => some (resolveLeaf st (.parameter p)).node := by
  rw [substituteAliases]
  congr 1
  funext p
  by_cases hcon : p.field = "content"
  · simp [resolveLeaf, hcon, Leaf.node]
  simp only [resolveLeaf, if_neg hcon]
  cases aliases.lookup p.field <;> rfl

theorem renameLeaf_replaces : Replaces (renameLeaf toLower) (fun p => some (.pattern p))
    (fun p => some (.parameter { p with field := toLower p.field })) := by
  refine ⟨fun leaf => ?_, fun p => rfl, fun p => rfl⟩
  cases leaf <;> rfl

theorem mem_normalize (h : leaf.value ≠ "") (ns : List Node) :
    leaf ∈ (normalize st ns).flatMap leaves ↔
      ∃ l ∈ ns.flatMap leaves, resolveLeaf st (renameLeaf toLower l) = leaf := by
  have hres := resolveLeaf_replaces st
  rw [normalize, substituteAliases_eq, mapParameter, hres.mem_mapNodes h]
  constructor
  · rintro ⟨l, hl, rfl⟩
    rw [hres.value] at h
    obtain ⟨l', hl', rfl⟩ := (renameLeaf_replaces.mem_mapNodes h ns).mp hl
    exact ⟨l', hl', rfl⟩
  · rintro ⟨l, hl, rfl⟩
    rw [hres.value] at h
    exact ⟨renameLeaf toLower l, (renameLeaf_replaces.mem_mapNodes h ns).mpr ⟨l, hl, rfl⟩, rfl⟩

theorem resolveLeaf_inj (hcon : toLower par.field ≠ "content")
    (h : resolveLeaf st (renameLeaf toLower leaf) =
      resolveLeaf st (renameLeaf toLower (.parameter par))) :
    ∃ other, leaf = .parameter other ∧ other.value = par.value ∧
      other.annotation.range = par.annotation.range ∧
      other.annotation.labels.isPredicate = par.annotation.labels.isPredicate := by
  obtain ⟨p, hp, hv, hrng, hlab⟩ :=
    @resolveLeaf_parameter st (rename toLower par) hcon
  rw [show renameLeaf toLower (.parameter par) = .parameter (rename toLower par) from rfl, hp] at h
  cases leaf with
  | pattern p' => cases h
  | parameter par' =>
    by_cases hcon' : (rename toLower par').field = "content"
    · simp [renameLeaf, resolveLeaf, hcon'] at h
    obtain ⟨p', hp', hv', hrng', hlab'⟩ :=
      @resolveLeaf_parameter st (rename toLower par') hcon'
    rw [show renameLeaf toLower (.parameter par') = .parameter (rename toLower par') from rfl,
      hp'] at h
    cases h
    exact ⟨par', rfl, hv'.symm.trans hv, hrng'.symm.trans hrng, hlab'.symm.trans hlab⟩

theorem nameStart_alike (A : BytesAlike input input') (rg : Range) :
    nameStart input' rg = nameStart input rg := by
  have hsim : ∀ start, Sim input input' ⟨input, {}, start, 0, .standard, []⟩
      ⟨input', {}, start, 0, .standard, []⟩ := fun _ => ⟨rfl, rfl, rfl, rfl, rfl, rfl⟩
  have hfd := (hsim rg.start).scanField A
  have hspa := (hsim (rg.start + Keyword.not.text.length)).takeWhile_width A
  simp only [Parser.rest] at hfd hspa
  unfold nameStart
  generalize scanField (runes (input.drop rg.start)) = o at hfd ⊢
  generalize scanField (runes (input'.drop rg.start)) = o' at hfd ⊢
  cases hfd with
  | none => rw [hspa]
  | some h => simp [h.1]

theorem scanPredicate_content (h : toLower fd = "content") : scanPredicate fd rs = none := by
  have hke : ∀ en ∈ aliases, toLower en.1 ≠ "content" := by decide
  have hres : resolveFieldAlias fd = fd := by
    rw [resolveFieldAlias]
    cases hlk : aliases.lookup fd with
    | none => rfl
    | some can =>
      obtain ⟨en, hent, hnm⟩ := lookup_isSome_iff.mp (by rw [hlk]; rfl)
      rw [beq_iff_eq] at hnm
      exact absurd (hnm ▸ h) (hke en hent)
  have hno : defaultPredicateRegistry fd = none := by
    cases htb : defaultPredicateRegistry fd with
    | none => rfl
    | some tb =>
      rcases defaultPredicateRegistry_eq_some htb with ⟨rfl, -⟩ | ⟨rfl, -⟩
      · exact absurd h (by decide)
      · exact absurd h (by decide)
  rw [scanPredicate, hres, hno]

theorem predicateAt_of_empty (A : BytesAlike input input') (h : Named input par)
    (hv : par.value = "") :
    predicateAt input (nameStart input par.annotation.range) = false ∧
      predicateAt input' (nameStart input par.annotation.range) = false := by
  obtain ⟨-, hnm⟩ := h
  obtain ⟨name', hna', hlo⟩ := nameAt_alike A hnm.name
  have hlen : name'.length = par.field.toList.length := by
    simpa using (congrArg length hlo).symm
  have hemp : ∀ r left, runes (input.drop (nameStart input par.annotation.range +
      par.field.toList.length + 1)) = r :: left → r.char.isAlpha ≠ true := by
    intro r left hrs hr
    exact hnm.value r left hrs hr hv
  constructor
  · by_contra hpd
    rw [hnm.name.predicateAt_eq, Bool.not_eq_false] at hpd
    obtain ⟨r, left, hrs, hr⟩ := predicate_head hpd
    exact hemp r left hrs hr
  · by_contra hpd
    rw [hna'.predicateAt_eq, Bool.not_eq_false, hlen] at hpd
    obtain ⟨r, left, hrs, hr⟩ := predicate_head hpd
    have hali := (A.runes_drop (nameStart input par.annotation.range +
      par.field.toList.length + 1)).symm
    rw [hrs] at hali
    obtain ⟨r', left', hrs', hlo', -⟩ := hali.cons_left
    exact hemp r' left' hrs' ((isAlpha_of_lower hlo').symm.trans hr)

theorem predicateAt_of_content (A : BytesAlike input input') (h : Named input par)
    (hcon : toLower par.field = "content") :
    predicateAt input (nameStart input par.annotation.range) = false ∧
      predicateAt input' (nameStart input par.annotation.range) = false := by
  obtain ⟨-, hnm⟩ := h
  obtain ⟨name', hna', hlo⟩ := nameAt_alike A hnm.name
  have hcon' : toLower (String.ofList name') = "content" := by
    rw [← hcon, toLower, toLower, String.toList_ofList, hlo]
  constructor
  · rw [hnm.name.predicateAt_eq, String.ofList_toList, scanPredicate_content hcon]
    rfl
  · rw [hna'.predicateAt_eq, scanPredicate_content hcon']
    rfl

theorem predicatesKept_of_sameTree (h : parse input st = .ok ns)
    (hr : NamesRecased input st input') (hs : SameTree input' st ns) :
    PredicatesKept input st input' := by
  obtain ⟨ns', h', hsm⟩ := hs
  have A := hr.bytesAlike
  intro par hmem
  have hnm := resultTrace_named hmem
  by_cases hv : par.value = ""
  · obtain ⟨hff, hff'⟩ := predicateAt_of_empty A hnm hv
    rw [hff, hff']
  by_cases hcon : toLower par.field = "content"
  · obtain ⟨hff, hff'⟩ := predicateAt_of_content A hnm hcon
    rw [hff, hff']
  have hlf := (parse_parameters h hv).mpr hmem
  have hne : (resolveLeaf st (renameLeaf toLower (.parameter par))).value ≠ "" := by
    rw [(resolveLeaf_replaces st).value]
    exact hv
  have hnor := (mem_normalize hne ns).mpr ⟨_, hlf, rfl⟩
  rw [← hsm] at hnor
  obtain ⟨leaf', hlf', heq⟩ := (mem_normalize hne ns').mp hnor
  obtain ⟨par', rfl, hv', hrng, hlab⟩ := resolveLeaf_inj hcon heq
  have hmem' := (parse_parameters h' (by rw [hv']; exact hv)).mp hlf'
  have hnm' := resultTrace_named hmem'
  rw [← hnm.named.predicate, ← hlab, hnm'.named.predicate, hrng, nameStart_alike A]

/-- The case of field names does not matter if and only if it does not decide whether a
predicate is recognised. -/
theorem field_case_insensitive_iff {input input' : Bytes} {searchType : SearchType}
    {nodes : List Node} (h : parse input searchType = .ok nodes)
    (hr : NamesRecased input searchType input') :
    SameTree input' searchType nodes ↔ PredicatesKept input searchType input' :=
  ⟨predicatesKept_of_sameTree h hr, sameTree_of_predicatesKept h hr⟩

theorem namesRecased_of_parameter (hmem : .leaf (.parameter par) ∈ resultTrace input st)
    (hlen : input'.length = input.length)
    (h : ∀ i < input.length, input.getD i 0 = input'.getD i 0 ∨
      nameStart input par.annotation.range ≤ i ∧
      i < nameStart input par.annotation.range + par.field.length ∧
      (Char.ofNat (input.getD i 0).toNat).toLower = (Char.ofNat (input'.getD i 0).toNat).toLower) :
    NamesRecased input st input' := by
  refine ⟨hlen, fun i b b' hb hb' hne => ?_⟩
  have hi : i < input.length := (List.getElem?_eq_some_iff.mp hb).1
  have hca := h i hi
  simp only [getD_eq_getElem?_getD, hb, hb', Option.getD_some] at hca
  obtain ⟨hlo, hhi, hlow⟩ := hca.resolve_left hne
  exact ⟨⟨par, hmem, hlo, hhi⟩, hlow⟩

theorem shouted_repo_same : ∃ nodes, parse (bytes "repo:foo bar") .standard = .ok nodes ∧
    SameTree (bytes "REPO:foo bar") .standard nodes := by
  have hmem : .leaf (.parameter ⟨"repo", "foo", false, ⟨{}, ⟨0, 8⟩⟩⟩) ∈
      resultTrace (bytes "repo:foo bar") .standard := by decide
  have hr : NamesRecased (bytes "repo:foo bar") .standard (bytes "REPO:foo bar") :=
    namesRecased_of_parameter hmem rfl (by decide)
  obtain ⟨nodes, h⟩ : ∃ nodes, parse (bytes "repo:foo bar") .standard = .ok nodes := ⟨_, rfl⟩
  refine ⟨nodes, h, (field_case_insensitive_iff h hr).mpr ?_⟩
  intro par h
  have hall : ∀ e ∈ resultTrace (bytes "repo:foo bar") .standard,
      predicateAt (bytes "repo:foo bar") (nameStart (bytes "repo:foo bar") (eventRange e)) =
        predicateAt (bytes "REPO:foo bar") (nameStart (bytes "repo:foo bar") (eventRange e)) := by
    decide
  exact hall _ h

/-- `repo:has.file(x)` has a predicate, and `REPO:has.file(x)` has none. -/
theorem shouted_predicate_missed :
    NamesRecased (bytes "repo:has.file(x)") .standard (bytes "REPO:has.file(x)") ∧
    ∃ nodes, parse (bytes "repo:has.file(x)") .standard = .ok nodes ∧
      ¬ SameTree (bytes "REPO:has.file(x)") .standard nodes := by
  have hmem : .leaf (.parameter ⟨"repo", "has.file(x)", false, ⟨{ isPredicate := true }, ⟨0, 16⟩⟩⟩) ∈
      resultTrace (bytes "repo:has.file(x)") .standard := by decide
  refine ⟨namesRecased_of_parameter hmem rfl (by decide),
    [.parameter ⟨"repo", "has.file(x)", false, ⟨{ isPredicate := true }, ⟨0, 16⟩⟩⟩], rfl, ?_⟩
  rintro ⟨nodes', hprs, hsm⟩
  cases hprs
  exact absurd (congrArg (flatMap leaves) hsm) (by decide)

end QueryFieldCase
