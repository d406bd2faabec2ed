import Sourcegraph.QueryPlan

/-! # Tree transformations of the query language

Mappers, the passes that normalise field names, and the heuristic that hoists patterns out
of ambiguous expressions. -/
namespace QueryTransform

open QueryNodes QueryPlan

inductive SearchType where
  | regex
  | literal
  | structural
  | lucky
  | standard
  | keyword
  deriving DecidableEq

mutual
/-- The mappers of `mapper.go`: `none` removes a leaf, and operators are built anew. -/
def mapNode (onPattern : Pattern → Option Node) (onParameter : Parameter → Option Node) :
    Node → List Node
  | .pattern p => (onPattern p).toList
  | .parameter p => (onParameter p).toList
  | .operator kind operands => newOperator (mapNodes onPattern onParameter operands) kind
def mapNodes (onPattern : Pattern → Option Node) (onParameter : Parameter → Option Node) :
    List Node → List Node
  | [] => []
  | node :: rest => mapNode onPattern onParameter node ++ mapNodes onPattern onParameter rest
end

def mapParameter (nodes : List Node) (callback : Parameter → Option Node) : List Node :=
  mapNodes (fun p => some (.pattern p)) callback nodes

def mapPattern (nodes : List Node) (callback : Pattern → Option Node) : List Node :=
  mapNodes callback (fun p => some (.parameter p)) nodes

def mapField (nodes : List Node) (field : String) (callback : Parameter → Option Node) :
    List Node :=
  mapParameter nodes fun p => if field = p.field then callback p else some (.parameter p)

/-- `strings.ToLower` on field names, which consist of ASCII letters. -/
def toLower (field : String) : String := String.ofList (field.toList.map Char.toLower)

def lowercaseFieldNames (nodes : List Node) : List Node :=
  mapParameter nodes fun p => some (.parameter { p with field := toLower p.field })

def Annotation.setLabels (a : Annotation) (labels : Labels) : Annotation := ⟨labels, a.range⟩

def substituteAliases (aliases : List (String × String)) (searchType : SearchType)
    (nodes : List Node) : List Node :=
  mapParameter nodes fun p =>
    let labels := p.annotation.labels
    if p.field = "content" then
      let typed := if searchType = .regex then { labels with regexp := true }
        else { labels with literal := true }
      some (.pattern ⟨p.value, p.negated,
        Annotation.setLabels p.annotation { typed with isAlias := true }⟩)
    else match aliases.lookup p.field with
      | some canonical => some (.parameter ⟨canonical, p.value, p.negated,
          Annotation.setLabels p.annotation { labels with isAlias := true }⟩)
      | none => some (.parameter p)

mutual
def existsNode (fn : Node → Bool) : Node → Bool
  | .pattern p => fn (.pattern p)
  | .parameter p => fn (.parameter p)
  | .operator kind operands => fn (.operator kind operands) || existsNodes fn operands
/-- `Exists`. -/
def existsNodes (fn : Node → Bool) : List Node → Bool
  | [] => false
  | node :: rest => existsNode fn node || existsNodes fn rest
end

def containsPattern (node : Node) : Bool := (leaves node).any fun leaf => !leaf.isParameter

def isAndOr : Node → Bool
  | .operator .or _ => true
  | .operator .and _ => true
  | .operator .concat _ => false
  | .pattern _ => false
  | .parameter _ => false

def impureConcat : Node → Bool
  | .operator .concat operands => operands.any isAndOr
  | .operator .and _ => false
  | .operator .or _ => false
  | .pattern _ => false
  | .parameter _ => false

def validatePureLiteralPattern (nodes : List Node) (balanced : Bool) : Option String :=
  if existsNodes impureConcat nodes then
    if !balanced then
      some "this literal search query contains unbalanced parentheses. I tried to guess what you meant, but wasn't able to. Maybe you missed a parenthesis? Otherwise, try using the content: filter if the pattern is unbalanced"
    else
      some "i'm having trouble understanding that query. The combination of parentheses is the problem. Try using the content: filter to quote patterns that contain parentheses"
  else none

/-- The top level of a query that is a single node; `none` is an `UnsupportedError`. -/
def processTopLevel : Node → Option (List Node)
  | .operator kind operands =>
    if kind = .and ∧ isPatternExpression [.operator kind operands] then
      some [.operator kind operands]
    else if kind = .or ∧ isPatternExpression [.operator kind operands] then
      some [.operator kind operands]
    else if kind = .and then some operands
    else if kind = .concat then some [.operator kind operands]
    else none
  | .pattern p => some [.pattern p]
  | .parameter p => some [.parameter p]

/-- The loop of `PartitionSearchPattern`: parameters and pattern expressions. -/
def partitionNodes : List Node → Option (List Parameter × List Node)
  | [] => some ([], [])
  | node :: rest =>
    if isPatternExpression [node] then (partitionNodes rest).map fun r => (r.1, node :: r.2)
    else match node with
      | .parameter p => (partitionNodes rest).map fun r => (p :: r.1, r.2)
      | .pattern _ => none
      | .operator _ _ => none

def joinPatterns : List Node → Option Node
  | [] => none
  | [pattern] => some pattern
  | patterns => some (.operator .and patterns)

def topLevel : List Node → Option (List Node)
  | [node] => processTopLevel node
  | nodes => some nodes

/-- `none` is an `UnsupportedError`. -/
def partitionSearchPattern (nodes : List Node) : Option (List Parameter × Option Node) :=
  ((topLevel nodes).bind partitionNodes).map fun r => (r.1, joinPatterns r.2)

def startColumns (select : Leaf → Bool) (node : Node) : List ℕ :=
  ((leaves node).filter select).map fun leaf => leaf.annotation.range.start

def naturallyOrdered (node : Node) (reverse : Bool) : Bool :=
  let parameters := startColumns Leaf.isParameter node
  let patterns := startColumns (fun leaf => !leaf.isParameter) node
  if reverse then patterns.foldl max 0 < parameters.foldl min (2 ^ 30)
  else parameters.foldl max 0 < patterns.foldl min (2 ^ 30)

/-- What `Hoist` requires of the first and of the last operand. -/
def hoistEnd (node : Node) (reverse : Bool) : Option (List Parameter × List Node) :=
  match partitionSearchPattern [node] with
  | some (scope, some pattern) =>
    if naturallyOrdered node reverse then some (scope, [pattern]) else none
  | some (_, none) => none
  | none => none

def hoistRest : List Node → Option (List Parameter × List Node)
  | [] => some ([], [])
  | [last] => hoistEnd last true
  | node :: next :: rest =>
    if isPatternExpression [node] then
      (hoistRest (next :: rest)).map fun r => (r.1, node :: r.2)
    else none

def hoistOperands : List Node → Option (List Parameter × List Node)
  | [] => some ([], [])
  | first :: rest =>
    (hoistEnd first false).bind fun l =>
      (hoistRest rest).map fun r => (l.1 ++ r.1, l.2 ++ r.2)

def labelHoisted (p : Pattern) : Option Node :=
  let labels := { p.annotation.labels with heuristicHoisted := true }
  some (.pattern { p with annotation := Annotation.setLabels p.annotation labels })

def hoistKind (kind : OperatorKind) (operands : List Node) : Option (List Node) :=
  (hoistOperands operands).map fun r =>
    r.1.map Node.parameter ++ newOperator (mapPattern r.2 labelHoisted) kind

/-- `Hoist`, of which every caller only asks whether it fails. -/
def hoist : List Node → Option (List Node)
  | [.operator kind operands] => if kind = .concat then none else hoistKind kind operands
  | _ => none

/-- Patterns, in order, and the nodes without any pattern below them. -/
def partitionParameters (nodes : List Node) : List Node :=
  let patterns := nodes.filter containsPattern
  let unorderedParams := nodes.filter fun n => !containsPattern n
  if 1 < patterns.length then newOperator (unorderedParams ++ newOperator patterns .concat) .and
  else newOperator (unorderedParams ++ patterns) .and

theorem partitionParameters_ne_nil (h : ns ≠ []) : partitionParameters ns ≠ [] := by
  unfold partitionParameters
  simp only
  split
  · have hpa : ns.filter containsPattern ≠ [] := List.ne_nil_of_length_pos (by omega)
    exact newOperator_ne_nil (by simp [newOperator_ne_nil hpa]) .and
  apply newOperator_ne_nil
  obtain ⟨node, rest, rfl⟩ := List.exists_cons_of_ne_nil h
  cases hno : containsPattern node <;> simp [hno]

end QueryTransform
