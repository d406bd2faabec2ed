import Sourcegraph.QueryCoverage
import Sourcegraph.QueryRenaming

/-! # The leaves of the parser's result

The tree that the parser builds has the parameters that `parseLeaves` collects, up to those
with an empty value, which `NewOperator` drops. -/
namespace QueryLeaves

open QueryNodes QueryTransform QueryParser QueryRuns QueryCoverage QueryRenaming List

theorem mem_newOperator (h : leaf.value ≠ "") (ns : List Node) (kind : OperatorKind) :
    leaf ∈ (newOperator ns kind).flatMap leaves ↔ leaf ∈ ns.flatMap leaves := by
  have hdr : ∀ pre dro post, dro.value = "" →
      (leaf ∈ pre ++ dro :: post ↔ leaf ∈ ns.flatMap leaves) →
      (leaf ∈ pre ++ post ↔ leaf ∈ ns.flatMap leaves) := by
    intro pre dro post hemp hiff
    have hne : leaf ≠ dro := by
      rintro rfl
      exact h hemp
    rw [← hiff]
    simp [hne]
  exact @newOperator_leaves (fun l => leaf ∈ l ↔ leaf ∈ ns.flatMap leaves) ns kind Iff.rfl hdr

theorem mem_partitionParameters (h : leaf.value ≠ "") (ns : List Node) :
    leaf ∈ (partitionParameters ns).flatMap leaves ↔ leaf ∈ ns.flatMap leaves := by
  have hspl : leaf ∈ (ns.filter fun n => !containsPattern n).flatMap leaves ∨
      leaf ∈ (ns.filter containsPattern).flatMap leaves ↔ leaf ∈ ns.flatMap leaves := by
    simp only [mem_flatMap, mem_filter]
    constructor
    · rintro (⟨n, ⟨hn, -⟩, hl⟩ | ⟨n, ⟨hn, -⟩, hl⟩) <;> exact ⟨n, hn, hl⟩
    · rintro ⟨n, hn, hl⟩
      cases hc : containsPattern n with
      | false => exact .inl ⟨n, ⟨hn, by rw [hc]; rfl⟩, hl⟩
      | true => exact .inr ⟨n, ⟨hn, hc⟩, hl⟩
  rw [← hspl, partitionParameters]
  split
  · rw [mem_newOperator h, flatMap_append, mem_append, mem_newOperator h]
  · rw [mem_newOperator h, flatMap_append, mem_append]

structure Replaces (g : Leaf → Leaf) (onPattern : Pattern → Option Node)
    (onParameter : Parameter → Option Node) : Prop where
  value : ∀ leaf, (g leaf).value = leaf.value
  pattern : ∀ p, onPattern p = some (g (.pattern p)).node
  parameter : ∀ p, onParameter p = some (g (.parameter p)).node

theorem Replaces.mem_mapNode (hg : Replaces g onPa onP) (h : leaf.value ≠ "")
    (node : Node) :
    leaf ∈ (mapNode onPa onP node).flatMap leaves ↔ ∃ l ∈ leaves node, g l = leaf := by
  induction node with
  | pattern p =>
    rw [mapNode, hg.pattern]
    simp [leaves_node, leaves, eq_comm]
  | parameter p =>
    rw [mapNode, hg.parameter]
    simp [leaves_node, leaves, eq_comm]
  | operator kind os ih =>
    rw [mapNode, mem_newOperator h, mapNodes_eq, flatMap_assoc, mem_flatMap, leaves_operator]
    constructor
    · rintro ⟨o, ho, hl⟩
      obtain ⟨l, hl, he⟩ := (ih o ho).mp hl
      exact ⟨l, mem_flatMap.mpr ⟨o, ho, hl⟩, he⟩
    · rintro ⟨l, hl, he⟩
      obtain ⟨o, ho, hl⟩ := mem_flatMap.mp hl
      exact ⟨o, ho, (ih o ho).mpr ⟨l, hl, he⟩⟩

theorem Replaces.mem_mapNodes (hg : Replaces g onPa onP) (h : leaf.value ≠ "")
    (ns : List Node) :
    leaf ∈ (mapNodes onPa onP ns).flatMap leaves ↔ ∃ l ∈ ns.flatMap leaves, g l = leaf := by
  rw [mapNodes_eq, flatMap_assoc, mem_flatMap]
  constructor
  · rintro ⟨o, ho, hl⟩
    obtain ⟨l, hl, he⟩ := (hg.mem_mapNode h o).mp hl
    exact ⟨l, mem_flatMap.mpr ⟨o, ho, hl⟩, he⟩
  · rintro ⟨l, hl, he⟩
    obtain ⟨o, ho, hl⟩ := mem_flatMap.mp hl
    exact ⟨o, ho, (hg.mem_mapNode h o).mpr ⟨l, hl, he⟩⟩

def Separates (nodes : List Node) (r : List Parameter × List Node) : Prop :=
  ∀ leaf, leaf ∈ nodes.flatMap leaves ↔ leaf ∈ r.1.map Leaf.parameter ∨ leaf ∈ r.2.flatMap leaves

theorem partitionNodes_separates (h : partitionNodes ns = some r) : Separates ns r := by
  fun_induction partitionNodes ns generalizing r with
  | case1 =>
    cases h
    simp [Separates]
  | case2 node rest _ ih =>
    obtain ⟨inn, hi, rfl⟩ := Option.map_eq_some_iff.mp h
    intro leaf
    simp only [flatMap_cons, mem_append, ih hi leaf]
    exact or_left_comm
  | case3 rest p _ ih =>
    obtain ⟨inn, hi, rfl⟩ := Option.map_eq_some_iff.mp h
    intro leaf
    simp only [flatMap_cons, mem_append, ih hi leaf, leaves, map_cons, mem_cons, not_mem_nil,
      or_false]
    exact or_assoc.symm
  | _ => cases h

theorem mem_topLevel (h : topLevel ns = some top) (leaf : Leaf) :
    leaf ∈ top.flatMap leaves ↔ leaf ∈ ns.flatMap leaves := by
  revert h
  fun_cases topLevel ns with
  | case1 node =>
    fun_cases processTopLevel node with
    | case3 | case4 =>
      rintro ⟨⟩
      simp
    | case5 => nofun
    | _ =>
      rintro ⟨⟩
      rfl
  | case2 =>
    rintro ⟨⟩
    rfl

theorem mem_joinPatterns (h : joinPatterns ns = some pat) (leaf : Leaf) :
    leaf ∈ leaves pat ↔ leaf ∈ ns.flatMap leaves := by
  match ns, h with
  | [node], h =>
    cases h
    simp
  | first :: sec :: rest, h =>
    cases h
    simp

theorem hoistEnd_separates {rev : Bool} (h : hoistEnd node rev = some r) : Separates [node] r := by
  revert h
  fun_cases hoistEnd node rev with
  | case1 sc pat hp =>
    rintro ⟨⟩
    obtain ⟨inn, hi, he⟩ := Option.map_eq_some_iff.mp hp
    obtain ⟨top, htop, hpts⟩ := Option.bind_eq_some_iff.mp hi
    obtain ⟨rfl, hjo⟩ := Prod.mk.inj he
    intro leaf
    rw [← mem_topLevel htop, partitionNodes_separates hpts leaf]
    simp [mem_joinPatterns hjo]
  | _ => nofun

theorem Separates.append (h : Separates ns r) (h' : Separates ns' r') :
    Separates (ns ++ ns') (r.1 ++ r'.1, r.2 ++ r'.2) := by
  intro leaf
  simp only [flatMap_append, mem_append, h leaf, h' leaf, map_append]
  exact or_or_or_comm

theorem hoistRest_separates (h : hoistRest ns = some r) : Separates ns r := by
  fun_induction hoistRest ns generalizing r with
  | case1 =>
    cases h
    simp [Separates]
  | case2 => exact hoistEnd_separates h
  | case3 node _ _ _ ih =>
    obtain ⟨inn, hi, rfl⟩ := Option.map_eq_some_iff.mp h
    have hno : Separates [node] ([], [node]) := by simp [Separates]
    exact hno.append (ih hi)
  | case4 => cases h

theorem hoistOperands_separates (h : hoistOperands os = some r) : Separates os r := by
  cases os with
  | nil =>
    cases h
    simp [Separates]
  | cons first rest =>
    obtain ⟨l, hl, hrs⟩ := Option.bind_eq_some_iff.mp h
    obtain ⟨inn, hi, rfl⟩ := Option.map_eq_some_iff.mp hrs
    exact (hoistEnd_separates hl).append (hoistRest_separates hi)

def relabelHoisted : Leaf → Leaf
  | .parameter p => .parameter p
  | .pattern p => .pattern ⟨p.value, p.negated,
      ⟨{ p.annotation.labels with heuristicHoisted := true }, p.annotation.range⟩⟩

theorem relabelHoisted_replaces :
    Replaces relabelHoisted labelHoisted fun p => some (.parameter p) where
  value leaf := by cases leaf <;> rfl
  pattern _ := rfl
  parameter _ := rfl

/-- `Hoist` moves parameters but neither adds nor removes any. -/
theorem mem_hoist (h : hoist ns = some hoisted) (hv : par.value ≠ "") :
    .parameter par ∈ hoisted.flatMap leaves ↔ .parameter par ∈ ns.flatMap leaves := by
  have hlf : (Leaf.parameter par).value ≠ "" := hv
  unfold hoist at h
  split at h
  · split at h
    · cases h
    obtain ⟨r, hr, rfl⟩ := Option.map_eq_some_iff.mp h
    have hsep := hoistOperands_separates hr (.parameter par)
    have hsco : .parameter par ∈ (r.1.map Node.parameter).flatMap leaves ↔
        .parameter par ∈ r.1.map Leaf.parameter := by
      simp [mem_flatMap, leaves]
    have hpa : .parameter par ∈ (mapPattern r.2 labelHoisted).flatMap leaves ↔
        .parameter par ∈ r.2.flatMap leaves := by
      rw [mapPattern, relabelHoisted_replaces.mem_mapNodes hlf]
      constructor
      · rintro ⟨l, hl, he⟩
        cases l with
        | parameter p => cases he; exact hl
        | pattern p => cases he
      · exact fun hl => ⟨_, hl, rfl⟩
    rw [flatMap_append, mem_append, mem_newOperator hlf, hsco, hpa,
      flatMap_singleton, leaves_operator, hsep]
  · cases h

def startNodes : Call → List Node
  | .leaves _ _ nodes => nodes
  | .level _ => []

def Gathers (c : Call) (events : List Event) (nodes : List Node) : Prop :=
  ∀ parameter : Parameter, parameter.value ≠ "" →
    (.parameter parameter ∈ nodes.flatMap leaves ↔
      .parameter parameter ∈ (startNodes c).flatMap leaves ∨ .leaf (.parameter parameter) ∈ events)

theorem stop_gathers (h : Outcome start ns p (.stop ns') q es) :
    Gathers (.leaves lb start ns) es (partitionParameters ns') := by
  intro par hv
  rw [mem_partitionParameters (show (Leaf.parameter par).value ≠ "" from hv)]
  cases h with
  | done | keyword => simp [startNodes]
  | closed _ _ _ _ _ _ _ _ kept =>
    rcases kept with rfl | ⟨rfl, leaf, rfl, hemp⟩
    · simp [startNodes]
    simp only [startNodes, flatMap_singleton, leaves_node, mem_singleton,
      flatMap_nil, not_mem_nil, false_or, reduceCtorEq, iff_false]
    rintro rfl
    exact hv (hemp rfl)

theorem collect_leaf (h : Outcome start ns p (.collect lb leaf) q es)
    (par : Parameter) : .leaf (.parameter par) ∈ es ↔ .parameter par = leaf := by
  cases h <;> simp

theorem group_leaf (h : Outcome start ns p .group q es) (leaf : Leaf) : .leaf leaf ∉ es := by
  cases h
  simp

theorem run_gathers (h : Run fuel c p r q) (hr : r = .ok ns) :
    ∃ es, q.trace = p.trace ++ es ∧ Gathers c es ns := by
  induction h generalizing ns with
  | stop h =>
    cases hr
    obtain ⟨es, ho⟩ := leafStep_outcome h
    exact ⟨es, ho.frame.trace, stop_gathers ho⟩
  | @collect fuel lb start ns₁ p lb' leaf q r s h next ih =>
    obtain ⟨es, ho⟩ := leafStep_outcome h
    obtain ⟨es', htr, hgat⟩ := ih hr
    refine ⟨es ++ es', by rw [htr, ho.frame.trace, append_assoc], ?_⟩
    intro par hv
    rw [hgat par hv, mem_append, collect_leaf ho par]
    simp only [startNodes, flatMap_append, mem_append, flatMap_singleton, leaves_node,
      mem_singleton]
    exact or_assoc
  | @group fuel lb start ns₁ p q res s r t h inn next ih ih' =>
    obtain ⟨es, ho⟩ := leafStep_outcome h
    obtain ⟨es', htr, hgat⟩ := ih rfl
    obtain ⟨es'', htr', hgat'⟩ := ih' hr
    refine ⟨es ++ (es' ++ es''), by simp [htr', htr, ho.frame.trace], ?_⟩
    intro par hv
    have hno := group_leaf ho (.parameter par)
    rw [hgat' par hv]
    simp only [startNodes, flatMap_append, mem_append, hgat par hv]
    simp only [flatMap_nil, not_mem_nil, false_or, hno]
    exact or_assoc
  | @operand fuel lv p ns₁ q left hne hm ih =>
    obtain ⟨es, htr, hgat⟩ := ih hr
    refine ⟨es, htr, ?_⟩
    cases lv <;> exact hgat
  | @operator fuel lv p ns₁ q ns₂ s left hne hm right ih ih' =>
    cases hr
    obtain ⟨es, htr, hgat⟩ := ih rfl
    obtain ⟨es', htr', hgat'⟩ := ih' rfl
    refine ⟨es ++ (.operator lv.keyword q.pos :: es'), ?_, ?_⟩
    · rw [htr', (expectOperator_frame hm).trace, htr]
      simp
    · intro par hv
      rw [mem_newOperator (show (Leaf.parameter par).value ≠ "" from hv), flatMap_append,
        mem_append, hgat par hv, hgat' par hv]
      cases lv <;> simp [Level.operand, startNodes]
  | _ => cases hr

theorem parseOr_gathers (htr : p.trace = []) (h : (parseOr fuel p).1 = .ok ns)
    (hv : par.value ≠ "") :
    .parameter par ∈ ns.flatMap leaves ↔ .leaf (.parameter par) ∈ (parseOr fuel p).2.trace := by
  obtain ⟨es, he, hgat⟩ := run_gathers (run_call fuel p (.level .or)) h
  rw [hgat par hv, show (parseOr fuel p).2.trace = p.trace ++ es from he, htr]
  simp [startNodes]

theorem mem_hoist_getD (hv : par.value ≠ "") :
    .parameter par ∈ ((hoist ns).getD ns).flatMap leaves ↔ .parameter par ∈ ns.flatMap leaves := by
  cases h : hoist ns with
  | none => rfl
  | some hoisted => exact mem_hoist h hv

/-- The parameters of the tree are those of the run that yields it, unless their value is empty. -/
theorem parse_parameters (h : parse input st = .ok ns) (hv : par.value ≠ "") :
    .parameter par ∈ ns.flatMap leaves ↔ .leaf (.parameter par) ∈ resultTrace input st := by
  have hlf : (Leaf.parameter par).value ≠ "" := hv
  unfold resultTrace
  cases hb : isBlank input with
  | true =>
    rw [parse, if_pos hb] at h
    cases h
    simp
  | false =>
    rcases parse_ok h hb with ⟨hf, ns', hr, rfl⟩ | ⟨hf, ns', hr, hfin⟩
    · simp only [hf, Bool.false_eq_true, if_false, if_true]
      rw [mem_newOperator hlf, mem_hoist_getD hv]
      exact parseOr_gathers rfl hr hv
    simp only [hf, Bool.false_eq_true, if_false]
    have hgat : .parameter par ∈ ns'.flatMap leaves ↔
        .leaf (.parameter par) ∈ (mainRun input st).2.trace :=
      parseOr_gathers rfl hr hv
    rw [← hgat]
    unfold finish at hfin
    simp only at hfin
    split at hfin
    · cases hfin
    cases hfin
    rw [mem_newOperator hlf]
    split
    · rfl
    · exact mem_hoist_getD hv

end QueryLeaves
