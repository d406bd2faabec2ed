import Sourcegraph.QueryTransform

/-! # Renaming the fields of a query tree

Everything the parser does with a tree leaves the names of fields alone: it commutes with every
renaming of them. -/
namespace QueryRenaming

open QueryNodes QueryPlan QueryTransform List
open Function (comp_def)

variable (f : String → String)

def rename (p : Parameter) : Parameter := { p with field := f p.field }

def renameLeaf : Leaf → Leaf
  | .pattern p => .pattern p
  | .parameter p => .parameter (rename f p)

mutual
def renameNode : Node → Node
  | .pattern p => .pattern p
  | .parameter p => .parameter (rename f p)
  | .operator kind operands => .operator kind (renameNodes operands)
def renameNodes : List Node → List Node
  | [] => []
  | node :: rest => renameNode node :: renameNodes rest
end

theorem renameNodes_eq (ns : List Node) : renameNodes f ns = ns.map (renameNode f) := by
  induction ns with
  | nil => rfl
  | cons node rest ih => rw [renameNodes, ih, map_cons]

@[simp] theorem renameNode_operator (kind : OperatorKind) (os : List Node) :
    renameNode f (.operator kind os) = .operator kind (os.map (renameNode f)) := by
  rw [renameNode, renameNodes_eq]

@[simp] theorem renameNode_leaf (leaf : Leaf) :
    renameNode f leaf.node = (renameLeaf f leaf).node := by
  cases leaf <;> rfl

theorem leaves_rename (node : Node) : leaves (renameNode f node) = (leaves node).map (renameLeaf f) := by
  induction node with
  | pattern p | parameter p => rfl
  | operator kind ope ih =>
    rw [renameNode_operator, leaves_operator, leaves_operator, flatMap_map, map_flatMap]
    exact flatMap_congr ih

theorem flatMap_leaves_rename (ns : List Node) :
    (ns.map (renameNode f)).flatMap leaves = (ns.flatMap leaves).map (renameLeaf f) := by
  rw [flatMap_map, map_flatMap]
  exact flatMap_congr fun node _ => leaves_rename f node

@[simp] theorem isParameter_rename (leaf : Leaf) :
    (renameLeaf f leaf).isParameter = leaf.isParameter := by
  cases leaf <;> rfl

@[simp] theorem annotation_rename (leaf : Leaf) :
    Leaf.annotation (renameLeaf f leaf) = leaf.annotation := by
  cases leaf <;> rfl

theorem sizeAll_eq (ns : List Node) : sizeAll ns = (ns.map size).sum := by
  induction ns with
  | nil => rfl
  | cons node rest ih => rw [sizeAll, ih, map_cons, sum_cons]

theorem size_rename (node : Node) : size (renameNode f node) = size node := by
  induction node with
  | pattern p | parameter p => rfl
  | operator kind os ih =>
    rw [renameNode_operator, size, size, sizeAll_eq, sizeAll_eq, map_map]
    congr 2
    exact map_congr_left fun o ho => ih o ho

theorem sizeAll_rename (ns : List Node) : sizeAll (ns.map (renameNode f)) = sizeAll ns := by
  rw [sizeAll_eq, sizeAll_eq, map_map]
  congr 1
  exact map_congr_left fun o _ => size_rename f o

@[simp] theorem emptyParameter_rename (node : Node) :
    emptyParameter (renameNode f node) = emptyParameter node := by
  cases node <;> rfl

theorem operandsOf_rename (kind : OperatorKind) (node : Node) :
    operandsOf kind (renameNode f node) = (operandsOf kind node).map (map (renameNode f)) := by
  cases node with
  | operator tk os =>
    rw [renameNode_operator]
    simp only [operandsOf]
    split <;> rfl
  | _ => rfl

theorem reduceTerm_rename (kind : OperatorKind) (left term : Node) :
    reduceTerm kind (renameNode f left) (renameNode f term) =
      (reduceTerm kind left term).map (map (renameNode f)) := by
  have hl : (operandsOf kind (renameNode f left)).map (· ++ [renameNode f term]) =
      ((operandsOf kind left).map (· ++ [term])).map (map (renameNode f)) := by
    rw [operandsOf_rename]
    cases operandsOf kind left <;> simp
  cases term with
  | operator tk os =>
    have := operandsOf_rename f kind (.operator tk os)
    rw [renameNode_operator] at this
    rw [renameNode_operator, reduceTerm, reduceTerm, this]
    cases operandsOf kind (.operator tk os) <;> rfl
  | parameter p | pattern p =>
    simp only [renameNode, reduceTerm, rename] at hl ⊢
    split
    · rfl
    · exact hl

theorem reduce_rename (kind : OperatorKind) (left term : Node) (rest : List Node) :
    reduce kind (renameNode f left) (renameNode f term) (rest.map (renameNode f)) =
      ((reduce kind left term rest).1.map (renameNode f), (reduce kind left term rest).2) := by
  fun_induction reduce kind left term rest with
  | _ =>
    rw [reduce.eq_def]
    simp_all +zetaDelta [reduceTerm_rename]

theorem newOperatorFrom_rename (kind : OperatorKind) (fuel : ℕ) (ns : List Node) :
    newOperatorFrom kind fuel (ns.map (renameNode f)) =
      (newOperatorFrom kind fuel ns).map (renameNode f) := by
  fun_induction newOperatorFrom kind fuel ns with
  | _ => simp_all +zetaDelta [newOperatorFrom, reduce_rename]

theorem newOperator_rename (ns : List Node) (kind : OperatorKind) :
    newOperator (ns.map (renameNode f)) kind = (newOperator ns kind).map (renameNode f) := by
  rw [newOperator, newOperator, sizeAll_rename, newOperatorFrom_rename]

@[simp] theorem containsPattern_rename (node : Node) :
    containsPattern (renameNode f node) = containsPattern node := by
  simp [containsPattern, leaves_rename, any_map, comp_def]

theorem partitionParameters_rename (ns : List Node) :
    partitionParameters (ns.map (renameNode f)) = (partitionParameters ns).map (renameNode f) := by
  have hpa : (ns.map (renameNode f)).filter containsPattern =
      (ns.filter containsPattern).map (renameNode f) := by
    simp [filter_map, comp_def]
  have hpms : (ns.map (renameNode f)).filter (fun n => !containsPattern n) =
      (ns.filter fun n => !containsPattern n).map (renameNode f) := by
    simp [filter_map, comp_def]
  simp only [partitionParameters, hpa, hpms, length_map]
  split
  · rw [newOperator_rename, ← map_append, newOperator_rename]
  · rw [← map_append, newOperator_rename]

@[simp] theorem isPatternExpression_rename (ns : List Node) :
    isPatternExpression (ns.map (renameNode f)) = isPatternExpression ns := by
  simp [isPatternExpression, flatMap_leaves_rename, any_map, comp_def]

theorem isPatternExpression_renameNode (node : Node) :
    isPatternExpression [renameNode f node] = isPatternExpression [node] :=
  isPatternExpression_rename f [node]

theorem processTopLevel_rename (node : Node) :
    processTopLevel (renameNode f node) = (processTopLevel node).map (map (renameNode f)) := by
  cases node with
  | operator kind os =>
    have hexpr := isPatternExpression_renameNode f (.operator kind os)
    rw [renameNode_operator] at hexpr
    simp [processTopLevel, hexpr, apply_ite (Option.map (map (renameNode f)))]
  | _ => rfl

theorem topLevel_rename (ns : List Node) :
    topLevel (ns.map (renameNode f)) = (topLevel ns).map (map (renameNode f)) := by
  match ns with
  | [] => rfl
  | [node] => exact processTopLevel_rename f node
  | first :: sec :: rest => rfl

theorem partitionNodes_rename (ns : List Node) :
    partitionNodes (ns.map (renameNode f)) =
      (partitionNodes ns).map fun r => (r.1.map (rename f), r.2.map (renameNode f)) := by
  fun_induction partitionNodes ns with
  | case1 => rfl
  | _ =>
    rw [map_cons, partitionNodes.eq_def]
    simp only [isPatternExpression_renameNode]
    simp_all [renameNode, comp_def]

theorem joinPatterns_rename (ns : List Node) :
    joinPatterns (ns.map (renameNode f)) = (joinPatterns ns).map (renameNode f) := by
  match ns with
  | [] => rfl
  | [node] => rfl
  | first :: sec :: rest => simp [joinPatterns]

theorem partitionSearchPattern_rename (ns : List Node) :
    partitionSearchPattern (ns.map (renameNode f)) = (partitionSearchPattern ns).map
      fun r => (r.1.map (rename f), r.2.map (renameNode f)) := by
  rw [partitionSearchPattern, partitionSearchPattern, topLevel_rename]
  cases topLevel ns with
  | none => rfl
  | some top =>
    simp only [Option.map_some, Option.bind_some, partitionNodes_rename]
    cases partitionNodes top with
    | none => rfl
    | some r => simp [joinPatterns_rename]

theorem startColumns_rename (sel : Leaf → Bool)
    (h : ∀ leaf, sel (renameLeaf f leaf) = sel leaf) (node : Node) :
    startColumns sel (renameNode f node) = startColumns sel node := by
  simp [startColumns, leaves_rename, filter_map, comp_def, h]

theorem naturallyOrdered_rename (node : Node) (rev : Bool) :
    naturallyOrdered (renameNode f node) rev = naturallyOrdered node rev := by
  simp only [naturallyOrdered, startColumns_rename f _ (isParameter_rename f),
    startColumns_rename f (fun leaf => !leaf.isParameter) (by simp)]

def renameHoisted (r : List Parameter × List Node) : List Parameter × List Node :=
  (r.1.map (rename f), r.2.map (renameNode f))

theorem hoistEnd_rename (node : Node) (rev : Bool) :
    hoistEnd (renameNode f node) rev = (hoistEnd node rev).map (renameHoisted f) := by
  have hprt := partitionSearchPattern_rename f [node]
  rw [map_singleton] at hprt
  rw [hoistEnd, hoistEnd, hprt]
  rcases partitionSearchPattern [node] with _ | ⟨sc, _ | pat⟩
  · rfl
  · rfl
  · simp only [Option.map_some, naturallyOrdered_rename]
    split <;> rfl

theorem hoistRest_rename (ns : List Node) :
    hoistRest (ns.map (renameNode f)) = (hoistRest ns).map (renameHoisted f) := by
  fun_induction hoistRest ns with
  | case1 => rfl
  | case2 node => exact hoistEnd_rename f node true
  | _ => simp_all [hoistRest, isPatternExpression_renameNode, comp_def, renameHoisted]

theorem hoistOperands_rename (ns : List Node) :
    hoistOperands (ns.map (renameNode f)) = (hoistOperands ns).map (renameHoisted f) := by
  cases ns with
  | nil => rfl
  | cons first rest =>
    rw [map_cons, hoistOperands, hoistOperands, hoistEnd_rename, hoistRest_rename]
    cases hoistEnd first false <;> cases hoistRest rest <;> simp [renameHoisted]

theorem mapNodes_eq (ns : List Node) : mapNodes onPa onP ns = ns.flatMap (mapNode onPa onP) := by
  induction ns with
  | nil => rfl
  | cons node rest ih => rw [mapNodes, ih, flatMap_cons]

theorem mapNode_labelHoisted_rename (node : Node) :
    mapNode labelHoisted (fun p => some (.parameter p)) (renameNode f node) =
      (mapNode labelHoisted (fun p => some (.parameter p)) node).map (renameNode f) := by
  induction node with
  | pattern p | parameter p => rfl
  | operator kind os ih =>
    rw [renameNode_operator, mapNode, mapNode, mapNodes_eq, mapNodes_eq, ← newOperator_rename,
      flatMap_map, map_flatMap]
    congr 1
    exact flatMap_congr fun o ho => ih o ho

theorem mapPattern_rename (ns : List Node) :
    mapPattern (ns.map (renameNode f)) labelHoisted =
      (mapPattern ns labelHoisted).map (renameNode f) := by
  rw [mapPattern, mapPattern, mapNodes_eq, mapNodes_eq, flatMap_map, map_flatMap]
  exact flatMap_congr fun node _ => mapNode_labelHoisted_rename f node

theorem hoistKind_rename (kind : OperatorKind) (os : List Node) :
    hoistKind kind (os.map (renameNode f)) = (hoistKind kind os).map (map (renameNode f)) := by
  rw [hoistKind, hoistKind, hoistOperands_rename]
  cases hoistOperands os with
  | none => rfl
  | some r =>
    simp only [Option.map_some, renameHoisted, mapPattern_rename, newOperator_rename, map_append,
      map_map]
    rfl

theorem hoist_rename (ns : List Node) :
    hoist (ns.map (renameNode f)) = (hoist ns).map (map (renameNode f)) := by
  match ns with
  | [] => rfl
  | [.pattern p] => rfl
  | [.parameter p] => rfl
  | [.operator kind os] =>
    rw [map_singleton, renameNode_operator]
    simp only [hoist]
    split
    · rfl
    · exact hoistKind_rename f kind os
  | first :: sec :: rest => simp [hoist]

theorem existsNodes_eq (ns : List Node) : existsNodes fn ns = ns.any (existsNode fn) := by
  induction ns with
  | nil => rfl
  | cons node rest ih => rw [existsNodes, ih, any_cons]

theorem isAndOr_rename (node : Node) : isAndOr (renameNode f node) = isAndOr node := by
  cases node with
  | operator kind os => cases kind <;> rfl
  | _ => rfl

theorem impureConcat_rename (node : Node) : impureConcat (renameNode f node) = impureConcat node := by
  cases node with
  | operator kind os =>
    cases kind with
    | concat => simp [impureConcat, any_map, comp_def, isAndOr_rename]
    | _ => rfl
  | _ => rfl

theorem existsNode_rename (node : Node) :
    existsNode impureConcat (renameNode f node) = existsNode impureConcat node := by
  induction node with
  | pattern p | parameter p => rfl
  | operator kind os ih =>
    have himp := impureConcat_rename f (.operator kind os)
    rw [renameNode_operator] at himp ⊢
    rw [existsNode, existsNode, existsNodes_eq, existsNodes_eq]
    congr 1
    simpa [comp_def] using congrArg (any · id) (map_congr_left ih)

theorem validatePureLiteralPattern_rename (ns : List Node) (bal : Bool) :
    validatePureLiteralPattern (ns.map (renameNode f)) bal = validatePureLiteralPattern ns bal := by
  have hexi : existsNodes impureConcat (ns.map (renameNode f)) = existsNodes impureConcat ns := by
    simp [existsNodes_eq, any_map, comp_def, existsNode_rename]
  rw [validatePureLiteralPattern, validatePureLiteralPattern, hexi]

end QueryRenaming
