import Mathlib

/-! # Commit search queries and their reduction

The protocol tree of a commit search and the five passes which `Reduce` applies bottom-up. A pass
that would index an empty operand list yields `none`, the runtime panic. Operand slices that are
reused in place are plain lists: a decoded tree shares none. -/
namespace CommitQueryReduce

open List
open Function (comp_def)

inductive OperatorKind where
  | and
  | or
  | not
  deriving DecidableEq

/-- The part of a commit that one of the five regexp predicates reads. -/
inductive MatchField where
  | author
  | committer
  | message
  | diff
  | modifiesFile
  deriving DecidableEq

inductive Node where
  | regexp (field : MatchField) (expr : String) (ignoreCase : Bool)
  | commitBefore (time : ℤ)
  | commitAfter (time : ℤ)
  | boolean (value : Bool)
  | operator (kind : OperatorKind) (operands : List Node)

abbrev Path := List ℕ
abbrev Pass := Path → Node → Option Node

@[induction_eliminator]
theorem Node.induction {P : Node → Prop}
    (regexp : ∀ field expr ignoreCase, P (.regexp field expr ignoreCase))
    (commitBefore : ∀ time, P (.commitBefore time)) (commitAfter : ∀ time, P (.commitAfter time))
    (boolean : ∀ value, P (.boolean value))
    (operator : ∀ kind operands, (∀ o ∈ operands, P o) → P (.operator kind operands)) : ∀ n, P n :=
  @Node.rec P (fun l => ∀ o ∈ l, P o) regexp commitBefore commitAfter boolean operator
    (by simp) fun _ _ ho hos => forall_mem_cons.mpr ⟨ho, hos⟩

def newOperator (kind : OperatorKind) (operands : List Node) : Node := .operator kind operands

/-- The loop of `propagateBoolean` over the operands of an And or an Or: the constant
`short` is returned at once, the other constant is filtered out. -/
def filterOperands (short : Bool) : List Node → Except Node (List Node)
  | [] => .ok []
  | .boolean c :: rest => if c = short then .error (.boolean c) else filterOperands short rest
  | operand :: rest => (filterOperands short rest).map (operand :: ·)

def propagateBoolean (n : Node) : Option Node :=
  match n with
  | .operator .not [] => none
  | .operator .not (.boolean c :: _) => some (.boolean !c)
  | .operator .not _ => some n
  | .operator .and operands =>
    match filterOperands false operands with
    | .error operand => some operand
    | .ok filtered => some (newOperator .and filtered)
  | .operator .or operands =>
    match filterOperands true operands with
    | .error operand => some operand
    | .ok filtered => some (newOperator .or filtered)
  | _ => some n

/-- Expands prefixes into every choice of one node from each prefix, appended to `nodes`. -/
def distribute : List (List Node) → List Node → List (List Node)
  | [], nodes => [nodes]
  | head :: prefixes, nodes =>
    head.flatMap fun p => (distribute prefixes nodes).map fun d => d ++ [p]

def conjuncts : Node → Option (List Node)
  | .operator .and inner => some inner
  | _ => none

/-- The operand loop of `rewriteConjunctive`: the operand lists of nested And operators
and, in order, all other operands. -/
def splitConjunctions : List Node → List (List Node) × List Node
  | [] => ([], [])
  | operand :: rest =>
    match conjuncts operand with
    | some inner => (inner :: (splitConjunctions rest).1, (splitConjunctions rest).2)
    | none => ((splitConjunctions rest).1, operand :: (splitConjunctions rest).2)

def rewriteConjunctive (n : Node) : Node :=
  match n with
  | .operator .or operands =>
    let split := splitConjunctions operands
    if split.1 = [] then n
    else newOperator .and ((distribute split.1 split.2).map (newOperator .or))
  | _ => n

def flattenOperand (kind : OperatorKind) : Node → List Node
  | .operator nested inner => if nested = kind then inner else [.operator nested inner]
  | operand => [operand]

def flatten (n : Node) : Node :=
  match n with
  | .operator .not _ => n
  | .operator kind operands => newOperator kind (operands.flatMap (flattenOperand kind))
  | _ => n

def union (left right : String) : String := "(?:" ++ left ++ ")|(?:" ++ right ++ ")"

/-- The map of `mergeOrRegexp`, keyed by node type and case flag, in order of insertion. -/
abbrev Mergeable := List ((MatchField × Bool) × String)

def Mergeable.merge (key : MatchField × Bool) (expr : String) : Mergeable → Mergeable
  | [] => [(key, expr)]
  | (k, prev) :: rest =>
    if k = key then (k, union prev expr) :: rest
    else (k, prev) :: Mergeable.merge key expr rest

def Mergeable.nodes (m : Mergeable) : List Node :=
  m.map fun entry => .regexp entry.1.1 entry.2 entry.1.2

def Mergeable.add (acc : List Node × Mergeable) : Node → List Node × Mergeable
  | .regexp field expr ignoreCase => (acc.1, acc.2.merge (field, ignoreCase) expr)
  | operand => (acc.1 ++ [operand], acc.2)

mutual
def estimatedNodeCost : Node → ℕ
  | .operator _ operands => estimatedCostSum operands
  | .boolean _ => 0
  | .commitBefore _ => 1
  | .commitAfter _ => 1
  | .regexp .author _ _ => 5
  | .regexp .committer _ _ => 5
  | .regexp .message _ _ => 10
  | .regexp .modifiesFile _ _ => 1000
  | .regexp .diff _ _ => 10000
def estimatedCostSum : List Node → ℕ
  | [] => 0
  | operand :: rest => estimatedNodeCost operand + estimatedCostSum rest
end

/-- What the Go runtime leaves open at the operator with the given path: the order of a map, and of
operands of equal cost under `sort.Slice`. -/
structure Runtime where
  iterate : Path → List Node → List Node
  iterate_perm : ∀ path nodes, (iterate path nodes).Perm nodes
  sortSlice : Path → List Node → List Node
  sortSlice_perm : ∀ path nodes, (sortSlice path nodes).Perm nodes
  sortSlice_ordered : ∀ path nodes, (sortSlice path nodes).Pairwise
    fun a b => estimatedNodeCost a ≤ estimatedNodeCost b

def mergeOrRegexp (rt : Runtime) (path : Path) (n : Node) : Node :=
  match n with
  | .operator .or operands =>
    let merged := operands.foldl Mergeable.add ([], [])
    newOperator .or (merged.1 ++ rt.iterate path merged.2.nodes)
  | _ => n

def sortAndByCost (rt : Runtime) (path : Path) (n : Node) : Node :=
  match n with
  | .operator .and operands => .operator .and (rt.sortSlice path operands)
  | _ => n

def defaultReducers (rt : Runtime) : List Pass :=
  [fun _ n => propagateBoolean n,
   fun _ n => some (rewriteConjunctive n),
   fun _ n => some (flatten n),
   fun path n => some (mergeOrRegexp rt path n),
   fun path n => some (sortAndByCost rt path n)]

def applyReducers (path : Path) : List Pass → Node → Option Node
  | [], n => some n
  | f :: reducers, n => (f path n).bind (applyReducers path reducers)

mutual
def reduceWith (reducers : List Pass) (path : Path) : Node → Option Node
  | .operator kind operands =>
    (reduceOperands reducers path 0 operands).bind fun reduced =>
      applyReducers path reducers (.operator kind reduced)
  | .regexp field expr ignoreCase => applyReducers path reducers (.regexp field expr ignoreCase)
  | .commitBefore time => applyReducers path reducers (.commitBefore time)
  | .commitAfter time => applyReducers path reducers (.commitAfter time)
  | .boolean value => applyReducers path reducers (.boolean value)
def reduceOperands (reducers : List Pass) (path : Path) : ℕ → List Node → Option (List Node)
  | _, [] => some []
  | i, operand :: rest =>
    (reduceWith reducers (i :: path) operand).bind fun reduced =>
      (reduceOperands reducers path (i + 1) rest).map (reduced :: ·)
end

def reduce (rt : Runtime) (n : Node) : Option Node := reduceWith (defaultReducers rt) [] n

structure Assignment where
  regexp : MatchField → String → Bool → Bool
  commitBefore : ℤ → Bool
  commitAfter : ℤ → Bool

def Assignment.Alternates (v : Assignment)
    (mergeable : MatchField × Bool → String → String → Prop) : Prop :=
  ∀ field left right ignoreCase, mergeable (field, ignoreCase) left right →
    v.regexp field (union left right) ignoreCase =
      (v.regexp field left ignoreCase || v.regexp field right ignoreCase)

mutual
def eval (v : Assignment) : Node → Bool
  | .regexp field expr ignoreCase => v.regexp field expr ignoreCase
  | .commitBefore time => v.commitBefore time
  | .commitAfter time => v.commitAfter time
  | .boolean value => value
  | .operator .and operands => evalAll v operands
  | .operator .or operands => evalAny v operands
  | .operator .not operands => !evalFirst v operands
def evalAll (v : Assignment) : List Node → Bool
  | [] => true
  | operand :: rest => eval v operand && evalAll v rest
def evalAny (v : Assignment) : List Node → Bool
  | [] => false
  | operand :: rest => eval v operand || evalAny v rest
def evalFirst (v : Assignment) : List Node → Bool
  | [] => false
  | operand :: _ => eval v operand
end

mutual
/-- What evaluating a tree returns, which is nothing if it has a Not without an operand. -/
def value (v : Assignment) : Node → Option Bool
  | .regexp field expr ignoreCase => some (v.regexp field expr ignoreCase)
  | .commitBefore time => some (v.commitBefore time)
  | .commitAfter time => some (v.commitAfter time)
  | .boolean value => some value
  | .operator .and operands => (values v operands).map fun bs => bs.all id
  | .operator .or operands => (values v operands).map fun bs => bs.any id
  | .operator .not operands => (values v operands).bind fun bs => bs.head?.map (!·)
def values (v : Assignment) : List Node → Option (List Bool)
  | [] => some []
  | operand :: rest => (value v operand).bind fun b => (values v rest).map (b :: ·)
end

def IsAtom : Node → Prop
  | .operator _ _ => False
  | _ => True

mutual
/-- The regexps of a tree that are not negated, which are all that can be merged. -/
def atoms : Node → Mergeable
  | .regexp field expr ignoreCase => [((field, ignoreCase), expr)]
  | .commitBefore _ => []
  | .commitAfter _ => []
  | .boolean _ => []
  | .operator .not _ => []
  | .operator .and operands => allAtoms operands
  | .operator .or operands => allAtoms operands
def allAtoms : List Node → Mergeable
  | [] => []
  | operand :: rest => atoms operand ++ allAtoms rest
end

/-- What a tree may contain: the expressions that compile and those that may be merged, both closed
under `union`, and the nodes that may be negated. -/
structure Scope where
  compiles : String → Bool → Prop
  mergeable : MatchField × Bool → String → String → Prop
  symm : ∀ key left right, mergeable key left right → mergeable key right left
  union_compiles : ∀ left right ignoreCase, compiles left ignoreCase →
    compiles right ignoreCase → compiles (union left right) ignoreCase
  union_mergeable : ∀ key left right expr, mergeable key left expr → mergeable key right expr →
    mergeable key (union left right) expr
  negatable : Node → Prop

def Scope.all : Scope :=
  ⟨fun _ _ => True, fun _ _ _ => True, fun _ _ _ _ => trivial, fun _ _ _ _ _ => trivial,
    fun _ _ _ _ _ _ => trivial, fun _ => True⟩

/-- Regexps of one type and case flag may be merged. -/
def Scope.Meets (scope : Scope) (x y : (MatchField × Bool) × String) : Prop :=
  x.1 = y.1 → scope.mergeable x.1 x.2 y.2

def Scope.Compatible (scope : Scope) (a b : Node) : Prop :=
  ∀ x ∈ atoms a, ∀ y ∈ atoms b, scope.Meets x y

/-- Every Not has a first operand, and one that may be negated; without an operand
both evaluating and reducing the Not panic. The operands of an Or are compatible. -/
inductive Shaped (scope : Scope) : Node → Prop where
  | regexp (field expr ignoreCase) : scope.compiles expr ignoreCase →
      Shaped scope (.regexp field expr ignoreCase)
  | commitBefore (time) : Shaped scope (.commitBefore time)
  | commitAfter (time) : Shaped scope (.commitAfter time)
  | boolean (value) : Shaped scope (.boolean value)
  | operator (kind operands) :
      (kind = .not → ∃ first rest, operands = first :: rest ∧ scope.negatable first) →
      (kind = .or → operands.Pairwise scope.Compatible) →
      (∀ o ∈ operands, Shaped scope o) → Shaped scope (.operator kind operands)

def WellFormed : Node → Prop := Shaped .all

theorem evalAll_eq_all (operands : List Node) : evalAll v operands = operands.all (eval v) := by
  induction operands with
  | nil => rfl
  | cons od rest ih => simp [evalAll, ih]

theorem evalAny_eq_any (operands : List Node) : evalAny v operands = operands.any (eval v) := by
  induction operands with
  | nil => rfl
  | cons od rest ih => simp [evalAny, ih]

@[simp] theorem eval_and (operands : List Node) :
    eval v (.operator .and operands) = operands.all (eval v) := evalAll_eq_all operands

@[simp] theorem eval_or (operands : List Node) :
    eval v (.operator .or operands) = operands.any (eval v) := evalAny_eq_any operands

@[simp] theorem eval_not (first : Node) (rest : List Node) :
    eval v (.operator .not (first :: rest)) = !eval v first := rfl

@[simp] theorem eval_boolean (val : Bool) : eval v (.boolean val) = val := rfl

theorem Shaped.operands {operands : List Node} (h : Shaped sc (.operator kind operands)) :
    ∀ o ∈ operands, Shaped sc o := by
  cases h with
  | operator _ _ _ _ h => exact h

theorem Shaped.compatible {operands : List Node} (h : Shaped sc (.operator .or operands)) :
    operands.Pairwise sc.Compatible := by
  cases h with
  | operator _ _ _ h _ => exact h rfl

variable {operands filtered l l' reduced : List Node} {m : Mergeable} {sc : Scope}

theorem Shaped.negated (h : Shaped sc (.operator .not operands)) :
    ∃ first rest, operands = first :: rest ∧ sc.negatable first := by
  cases h with
  | operator _ _ h _ _ => exact h rfl

theorem shaped_and (h : ∀ o ∈ operands, Shaped sc o) : Shaped sc (newOperator .and operands) :=
  .operator .and operands (fun hn => by cases hn) (fun ho => by cases ho) h

theorem shaped_or (hc : operands.Pairwise sc.Compatible) (h : ∀ o ∈ operands, Shaped sc o) :
    Shaped sc (newOperator .or operands) :=
  .operator .or operands (fun hn => by cases hn) (fun _ => hc) h

theorem mem_allAtoms : x ∈ allAtoms operands ↔ ∃ o ∈ operands, x ∈ atoms o := by
  induction operands with
  | nil => simp [allAtoms]
  | cons o rest ih => simp [allAtoms, ih]

theorem Scope.Meets.symm {sc : Scope} (h : sc.Meets x y) : sc.Meets y x := by
  intro he
  rw [he]
  exact sc.symm _ _ _ (h he.symm)

theorem Scope.Compatible.symm {sc : Scope} (h : sc.Compatible a b) : sc.Compatible b a :=
  fun x hx y hy => (h y hy x hx).symm

/-- What meets all regexps of a tree meets those of the tree that it becomes. -/
def Derives (scope : Scope) (n n' : Node) : Prop :=
  ∀ y, (∀ x ∈ atoms n, scope.Meets x y) → ∀ x ∈ atoms n', scope.Meets x y

theorem derives_of_subset (h : atoms n' ⊆ atoms n) : Derives sc n n' := fun _ hy x hx => hy x (h hx)

theorem Derives.compatible (ha : Derives sc a a') (hb : Derives sc b b')
    (h : sc.Compatible a b) : sc.Compatible a' b' := by
  intro x hx y hy
  refine ha y (fun x hx => ?_) x hx
  exact (hb x (fun y hy => (h x hx y hy).symm) y hy).symm

theorem allAtoms_subset (h : ∀ o ∈ l, ∃ o' ∈ operands, atoms o ⊆ atoms o') :
    allAtoms l ⊆ allAtoms operands := by
  intro x hx
  obtain ⟨o, ho, hx⟩ := mem_allAtoms.mp hx
  obtain ⟨o', ho', hsub⟩ := h o ho
  exact mem_allAtoms.mpr ⟨o', ho', hsub hx⟩

theorem Scope.Compatible.subset {sc : Scope} (h : sc.Compatible a b) (ha : atoms a' ⊆ atoms a)
    (hb : atoms b' ⊆ atoms b) : sc.Compatible a' b' := fun x hx y hy => h x (ha hx) y (hb hy)

theorem filterOperands_cases (sho : Bool) (operands : List Node) :
    (filterOperands sho operands = .error (.boolean sho) ∧ .boolean sho ∈ operands) ∨
    ∃ filtered, filterOperands sho operands = .ok filtered ∧ filtered.Sublist operands ∧
      ∀ o ∈ operands, o ∈ filtered ∨ o = .boolean !sho := by
  induction operands with
  | nil => exact .inr ⟨[], rfl, .slnil, by simp⟩
  | cons od rest ih =>
    cases od with
    | boolean c =>
      by_cases hc : c = sho
      · subst c
        exact .inl ⟨by simp [filterOperands], by simp⟩
      have hn : c = !sho := by cases c <;> cases sho <;> simp_all
      rcases ih with ⟨he, hm⟩ | ⟨filtered, hf, hs, ha⟩
      · exact .inl ⟨by simpa [filterOperands, hc] using he, mem_cons_of_mem _ hm⟩
      refine .inr ⟨filtered, by simpa [filterOperands, hc] using hf, hs.cons _, ?_⟩
      exact forall_mem_cons.mpr ⟨.inr (by rw [hn]), ha⟩
    | _ =>
      rcases ih with ⟨he, hm⟩ | ⟨filtered, hf, hs, ha⟩
      · exact .inl ⟨by simp [filterOperands, he, Except.map], mem_cons_of_mem _ hm⟩
      refine .inr ⟨_, by simp only [filterOperands, hf, Except.map], hs.cons_cons _, ?_⟩
      exact forall_mem_cons.mpr ⟨.inl mem_cons_self,
        fun o ho => (ha o ho).imp_left (mem_cons_of_mem _)⟩

def SameMeaning (scope : Scope) (n n' : Node) : Prop :=
  ∀ v : Assignment, v.Alternates scope.mergeable → eval v n' = eval v n

/-- A pass is sound when it never panics on a shaped node, leaves atoms alone and
returns a shaped node with the same meaning. -/
structure Sound (scope : Scope) (f : Pass) : Prop where
  atom : ∀ path n, IsAtom n → f path n = some n
  node : ∀ path n, Shaped scope n → ∃ n', f path n = some n' ∧ Shaped scope n' ∧
    SameMeaning scope n n' ∧ Derives scope n n'

theorem same_meaning_rfl : SameMeaning sc n n ∧ Derives sc n n :=
  ⟨fun _ _ => rfl, derives_of_subset (Subset.refl _)⟩

theorem all_eq_of_filtered (hs : filtered ⊆ operands)
    (ha : ∀ o ∈ operands, o ∈ filtered ∨ o = .boolean true) :
    filtered.all (eval v) = operands.all (eval v) := by
  rw [Bool.eq_iff_iff, all_eq_true, all_eq_true]
  refine ⟨fun h o ho => ?_, fun h o ho => h o (hs ho)⟩
  rcases ha o ho with hf | rfl
  · exact h o hf
  · rfl

theorem any_eq_of_filtered (hs : filtered ⊆ operands)
    (ha : ∀ o ∈ operands, o ∈ filtered ∨ o = .boolean false) :
    filtered.any (eval v) = operands.any (eval v) := by
  rw [Bool.eq_iff_iff, any_eq_true, any_eq_true]
  refine ⟨fun ⟨o, ho, he⟩ => ⟨o, hs ho, he⟩, ?_⟩
  rintro ⟨o, ho, he⟩
  rcases ha o ho with hf | rfl
  · exact ⟨o, hf, he⟩
  · cases he

theorem propagateBoolean_sound : Sound sc fun _ n => propagateBoolean n where
  atom := by
    intro _ n hn
    cases n <;> first | rfl | exact hn.elim
  node := by
    intro _ n hn
    cases n with
    | operator kind operands =>
      cases kind with
      | not =>
        obtain ⟨first, rest, rfl, _⟩ := hn.negated
        cases first with
        | boolean c =>
          exact ⟨.boolean !c, rfl, .boolean _, fun _ _ => rfl, derives_of_subset (nil_subset _)⟩
        | _ => exact ⟨_, rfl, hn, same_meaning_rfl⟩
      | and =>
        rcases filterOperands_cases false operands with ⟨he, hm⟩ | ⟨filtered, hf, hs, ha⟩
        · refine ⟨.boolean false, by simp only [propagateBoolean, he], .boolean _, ?_,
            derives_of_subset (nil_subset _)⟩
          intro v hv
          rw [eval_and]
          exact (all_eq_false.mpr ⟨_, hm, by simp⟩).symm
        refine ⟨newOperator .and filtered, by simp only [propagateBoolean, hf],
          shaped_and fun o ho => hn.operands o (hs.subset ho), ?_, derives_of_subset
            (allAtoms_subset fun o ho => ⟨o, hs.subset ho, Subset.refl _⟩)⟩
        intro v hv
        rw [newOperator, eval_and, eval_and]
        exact all_eq_of_filtered hs.subset ha
      | or =>
        rcases filterOperands_cases true operands with ⟨he, hm⟩ | ⟨filtered, hf, hs, ha⟩
        · refine ⟨.boolean true, by simp only [propagateBoolean, he], .boolean _, ?_,
            derives_of_subset (nil_subset _)⟩
          intro v hv
          rw [eval_or]
          exact (any_eq_true.mpr ⟨_, hm, by simp⟩).symm
        refine ⟨newOperator .or filtered, by simp only [propagateBoolean, hf],
          shaped_or (hn.compatible.sublist hs) fun o ho => hn.operands o (hs.subset ho), ?_,
          derives_of_subset (allAtoms_subset fun o ho => ⟨o, hs.subset ho, Subset.refl _⟩)⟩
        intro v hv
        rw [newOperator, eval_or, eval_or]
        exact any_eq_of_filtered hs.subset ha
    | _ => exact ⟨_, rfl, hn, same_meaning_rfl⟩

/-- Distribution is the distributive law: a row is hit for every choice exactly when
the siblings are, or all nodes of one prefix are. No prefix needs to be nonempty. -/
theorem distribute_all_any (ns : List Node) :
    (distribute pres ns).all (fun row => row.any p) =
      (ns.any p || pres.any fun row => row.all p) := by
  induction pres with
  | nil => simp [distribute]
  | cons head pres ih =>
    have hrow : ∀ x, ((distribute pres ns).map fun d => d ++ [x]).all
        (fun row => row.any p) = (p x || (distribute pres ns).all fun row => row.any p) := by
      intro x
      rw [Bool.eq_iff_iff]
      by_cases hx : p x <;> simp [hx]
    simp only [distribute, all_flatMap, hrow, ih, any_cons]
    by_cases hrs : ns.any p || pres.any fun row => row.all p
    · simp only [Bool.or_eq_true] at hrs
      rcases hrs with h | h <;> simp [h]
    simp only [Bool.not_eq_true, Bool.or_eq_false_iff] at hrs
    simp [hrs.1, hrs.2]

theorem distribute_mem (hr : row ∈ distribute pres ns) (ho : o ∈ row) :
    o ∈ ns ∨ ∃ p ∈ pres, o ∈ p := by
  induction pres generalizing row with
  | nil =>
    rw [distribute, mem_singleton] at hr
    exact .inl (hr ▸ ho)
  | cons head pres ih =>
    obtain ⟨x, hx, hr⟩ := mem_flatMap.mp hr
    obtain ⟨d, hd, rfl⟩ := mem_map.mp hr
    rcases mem_append.mp ho with ho | ho
    · rcases ih hd ho with hn | ⟨p, hp, hop⟩
      · exact .inl hn
      · exact .inr ⟨p, mem_cons_of_mem _ hp, hop⟩
    rw [mem_singleton] at ho
    exact .inr ⟨head, mem_cons_self, ho ▸ hx⟩

theorem distribute_cons (pres : List (List Node)) (od : Node) (ns : List Node) :
    distribute pres (od :: ns) = (distribute pres ns).map (od :: ·) := by
  induction pres with
  | nil => rfl
  | cons head pres ih => simp [distribute, ih, map_flatMap, comp_def]

theorem conjuncts_eq_some {inn : List Node} (h : conjuncts od = some inn) :
    od = .operator .and inn := by
  unfold conjuncts at h
  split at h
  · exact congrArg _ (Option.some.inj h)
  · cases h

theorem splitConjunctions_any (operands : List Node) :
    operands.any (eval v) = ((splitConjunctions operands).2.any (eval v) ||
      (splitConjunctions operands).1.any fun row => row.all (eval v)) := by
  fun_induction splitConjunctions operands with
  | case1 => rfl
  | case2 _ _ _ hc ih =>
    rw [any_cons, ih, conjuncts_eq_some hc, eval_and, any_cons, Bool.or_left_comm]
  | case3 _ _ _ ih => rw [any_cons, ih, any_cons, Bool.or_assoc]

theorem splitConjunctions_shaped {operands : List Node} (h : ∀ o ∈ operands, Shaped sc o) :
    (∀ row ∈ (splitConjunctions operands).1, ∀ o ∈ row, Shaped sc o) ∧
    ∀ o ∈ (splitConjunctions operands).2, Shaped sc o := by
  induction operands with
  | nil => simp [splitConjunctions]
  | cons od rest ih =>
    obtain ⟨hro, hsib⟩ := ih (forall_mem_cons.mp h).2
    have hhd := h od mem_cons_self
    rw [splitConjunctions]
    split
    · rename_i inn hc
      rw [conjuncts_eq_some hc] at hhd
      exact ⟨forall_mem_cons.mpr ⟨hhd.operands, hro⟩, hsib⟩
    · exact ⟨hro, forall_mem_cons.mpr ⟨hhd, hsib⟩⟩

theorem splitConjunctions_atoms (operands : List Node)
    (hx : x ∈ (splitConjunctions operands).2 ∨ ∃ row ∈ (splitConjunctions operands).1, x ∈ row) :
    ∃ o ∈ operands, atoms x ⊆ atoms o := by
  fun_induction splitConjunctions operands with
  | case1 => simp at hx
  | case2 od rest inn hc ih =>
    have hhead : ∀ x ∈ inn, atoms x ⊆ atoms od := by
      rw [conjuncts_eq_some hc]
      exact fun x hx y hy => mem_allAtoms.mpr ⟨x, hx, hy⟩
    rcases hx with hx | ⟨row, hrow, hx⟩
    · obtain ⟨o, ho, hsub⟩ := ih (.inl hx)
      exact ⟨o, mem_cons_of_mem _ ho, hsub⟩
    rcases mem_cons.mp hrow with rfl | hrow
    · exact ⟨od, mem_cons_self, hhead x hx⟩
    · obtain ⟨o, ho, hsub⟩ := ih (.inr ⟨row, hrow, hx⟩)
      exact ⟨o, mem_cons_of_mem _ ho, hsub⟩
  | case3 od rest _ ih =>
    rcases hx with hx | hx
    · rcases mem_cons.mp hx with rfl | hx
      · exact ⟨_, mem_cons_self, Subset.refl _⟩
      · obtain ⟨o, ho, hsub⟩ := ih (.inl hx)
        exact ⟨o, mem_cons_of_mem _ ho, hsub⟩
    · obtain ⟨o, ho, hsub⟩ := ih (.inr hx)
      exact ⟨o, mem_cons_of_mem _ ho, hsub⟩

/-- A row has one conjunct of every And beside the other operands, so that its nodes are as
compatible as the operands are. -/
theorem splitConjunctions_compatible {sc : Scope} (h : operands.Pairwise sc.Compatible)
    (hrow : row ∈ distribute (splitConjunctions operands).1 (splitConjunctions operands).2) :
    row.Pairwise sc.Compatible := by
  fun_induction splitConjunctions operands generalizing row with
  | case1 =>
    rw [distribute, mem_singleton] at hrow
    exact hrow ▸ .nil
  | case2 od rest inn hc ih =>
    obtain ⟨hod, hrest⟩ := pairwise_cons.mp h
    obtain ⟨x, hx, hrow⟩ := mem_flatMap.mp hrow
    obtain ⟨d, hd, rfl⟩ := mem_map.mp hrow
    refine pairwise_append.mpr ⟨ih hrest hd, pairwise_singleton _ _, fun y hy x' hx' => ?_⟩
    obtain rfl := mem_singleton.mp hx'
    obtain ⟨o, ho, hsub⟩ := splitConjunctions_atoms rest (distribute_mem hd hy)
    refine (hod o ho).symm.subset hsub ?_
    rw [conjuncts_eq_some hc]
    exact fun z hz => mem_allAtoms.mpr ⟨_, hx, hz⟩
  | case3 od rest _ ih =>
    obtain ⟨hod, hrest⟩ := pairwise_cons.mp h
    rw [distribute_cons] at hrow
    obtain ⟨d, hd, rfl⟩ := mem_map.mp hrow
    refine pairwise_cons.mpr ⟨fun y hy => ?_, ih hrest hd⟩
    obtain ⟨o, ho, hsub⟩ := splitConjunctions_atoms rest (distribute_mem hd hy)
    exact (hod o ho).subset (Subset.refl _) hsub

theorem rewriteConjunctive_sound : Sound sc fun _ n => some (rewriteConjunctive n) where
  atom := by
    intro _ n hn
    cases n <;> first | rfl | exact hn.elim
  node := by
    intro _ n hn
    refine ⟨_, rfl, ?_⟩
    unfold rewriteConjunctive
    split
    · dsimp only
      split
      · exact ⟨hn, same_meaning_rfl⟩
      obtain ⟨hro, hsib⟩ := splitConjunctions_shaped hn.operands
      refine ⟨shaped_and ?_, ?_, derives_of_subset ?_⟩
      · refine forall_mem_map.mpr fun row hrow => ?_
        refine shaped_or (splitConjunctions_compatible hn.compatible hrow) fun x hx => ?_
        rcases distribute_mem hrow hx with hs | ⟨p, hp, hxp⟩
        · exact hsib x hs
        · exact hro p hp x hxp
      · intro v hv
        rw [newOperator, eval_and, eval_or, splitConjunctions_any, ← distribute_all_any, all_map]
        simp only [comp_def, newOperator, eval_or]
      · intro x hx
        obtain ⟨_, ho, hx⟩ := mem_allAtoms.mp hx
        obtain ⟨row, hrow, rfl⟩ := mem_map.mp ho
        obtain ⟨o, ho, hx⟩ := mem_allAtoms.mp hx
        obtain ⟨o', ho', hsub⟩ := splitConjunctions_atoms _ (distribute_mem hrow ho)
        exact mem_allAtoms.mpr ⟨o', ho', hsub hx⟩
    · exact ⟨hn, same_meaning_rfl⟩

theorem flattenOperand_cases (kind : OperatorKind) (od : Node) : flattenOperand kind od = [od] ∨
    ∃ inn, od = .operator kind inn ∧ flattenOperand kind od = inn := by
  cases od with
  | operator nes inn =>
    by_cases hk : nes = kind
    · exact .inr ⟨inn, by rw [hk], by simp [flattenOperand, hk]⟩
    · exact .inl (by simp [flattenOperand, hk])
  | _ => exact .inl rfl

theorem flattenOperand_shaped {operands : List Node} (h : ∀ o ∈ operands, Shaped sc o) :
    ∀ o ∈ operands.flatMap (flattenOperand kind), Shaped sc o := by
  intro o ho
  obtain ⟨od, hm, ho⟩ := mem_flatMap.mp ho
  rcases flattenOperand_cases kind od with he | ⟨inn, rfl, he⟩
  · rw [he, mem_singleton] at ho
    exact ho ▸ h od hm
  · exact (h _ hm).operands o (he ▸ ho)

theorem flattenOperand_all (od : Node) : (flattenOperand .and od).all (eval v) = eval v od := by
  rcases flattenOperand_cases .and od with he | ⟨inn, rfl, he⟩
  · simp [he]
  · rw [he, eval_and]

theorem flattenOperand_any (od : Node) : (flattenOperand .or od).any (eval v) = eval v od := by
  rcases flattenOperand_cases .or od with he | ⟨inn, rfl, he⟩
  · simp [he]
  · rw [he, eval_or]

theorem atoms_operator (hk : kind ≠ .not) (operands : List Node) :
    atoms (.operator kind operands) = allAtoms operands := by
  cases kind with
  | not => exact absurd rfl hk
  | and | or => rfl

theorem atoms_flattenOperand (hk : kind ≠ .not) (ho : o ∈ flattenOperand kind od) :
    atoms o ⊆ atoms od := by
  rcases flattenOperand_cases kind od with he | ⟨inn, rfl, he⟩
  · rw [he, mem_singleton] at ho
    rw [ho]
    exact Subset.refl _
  · rw [he] at ho
    rw [atoms_operator hk]
    exact fun x hx => mem_allAtoms.mpr ⟨o, ho, hx⟩

theorem flattenOperand_atoms (hk : kind ≠ .not) :
    atoms (newOperator kind (operands.flatMap (flattenOperand kind))) ⊆
      atoms (.operator kind operands) := by
  rw [newOperator, atoms_operator hk, atoms_operator hk]
  refine allAtoms_subset fun o ho => ?_
  obtain ⟨od, hod, ho⟩ := mem_flatMap.mp ho
  exact ⟨od, hod, atoms_flattenOperand hk ho⟩

theorem flattenOperand_compatible (hc : operands.Pairwise sc.Compatible)
    (h : ∀ o ∈ operands, Shaped sc o) :
    (operands.flatMap (flattenOperand .or)).Pairwise sc.Compatible := by
  refine pairwise_flatMap.mpr ⟨fun od hod => ?_, hc.imp fun hab x hx y hy => ?_⟩
  · rcases flattenOperand_cases .or od with he | ⟨inn, rfl, he⟩
    · rw [he]
      exact pairwise_singleton _ _
    · rw [he]
      exact (h _ hod).compatible
  · exact hab.subset (atoms_flattenOperand (by decide) hx) (atoms_flattenOperand (by decide) hy)

theorem flatten_sound : Sound sc fun _ n => some (flatten n) where
  atom := by
    intro _ n hn
    cases n <;> first | rfl | exact hn.elim
  node := by
    intro _ n hn
    refine ⟨_, rfl, ?_⟩
    cases n with
    | operator kind operands =>
      cases kind with
      | not => exact ⟨hn, same_meaning_rfl⟩
      | and =>
        refine ⟨shaped_and (flattenOperand_shaped hn.operands), fun v hv => ?_,
          derives_of_subset (flattenOperand_atoms (by decide))⟩
        simp [flatten, newOperator, eval_and, flattenOperand_all]
      | or =>
        refine ⟨shaped_or (flattenOperand_compatible hn.compatible hn.operands)
          (flattenOperand_shaped hn.operands), fun v hv => ?_,
          derives_of_subset (flattenOperand_atoms (by decide))⟩
        simp [flatten, newOperator, eval_or, flattenOperand_any]
    | _ => exact ⟨hn, same_meaning_rfl⟩

def Mergeable.holds (v : Assignment) (m : Mergeable) : Bool :=
  m.any fun entry => v.regexp entry.1.1 entry.2 entry.1.2

def Mergeable.Compiles (scope : Scope) (m : Mergeable) : Prop :=
  ∀ entry ∈ m, scope.compiles entry.2 entry.1.2

theorem Mergeable.any_nodes (m : Mergeable) : m.nodes.any (eval v) = m.holds v := by
  simp only [Mergeable.nodes, Mergeable.holds, any_map, comp_def, eval]

/-- What is set aside and left to merge meets `y`, and so does what has been merged. -/
structure Meeting (scope : Scope) (y : (MatchField × Bool) × String) (acc : List Node × Mergeable)
    (rest : List Node) : Prop where
  merged : ∀ entry ∈ acc.2, scope.Meets entry y
  operands : ∀ o ∈ acc.1 ++ rest, ∀ x ∈ atoms o, scope.Meets x y

/-- The loop over the operands of an Or: one regexp for each key, which may be merged with every
other regexp left. -/
structure Merging (scope : Scope) (acc : List Node × Mergeable) (rest : List Node) : Prop where
  compiles : acc.2.Compiles scope
  keys : (acc.2.map Prod.fst).Nodup
  shaped : ∀ o ∈ acc.1 ++ rest, Shaped scope o
  compatible : (acc.1 ++ rest).Pairwise scope.Compatible
  merged : ∀ o ∈ acc.1 ++ rest, ∀ y ∈ atoms o, ∀ entry ∈ acc.2, scope.Meets entry y

theorem Mergeable.holds_merge (hv : v.Alternates sc.mergeable) (fd : MatchField)
    (hm : ∀ entry ∈ m, sc.Meets entry ((fd, ic), expr)) :
    (m.merge (fd, ic) expr).holds v = (m.holds v || v.regexp fd expr ic) := by
  induction m with
  | nil => simp [Mergeable.merge, Mergeable.holds]
  | cons en rest ih =>
    obtain ⟨k, prev⟩ := en
    rw [Mergeable.merge]
    split
    · rename_i hk
      subst hk
      simp only [Mergeable.holds, any_cons, hv fd prev expr ic (hm _ mem_cons_self rfl)]
      rw [Bool.or_assoc, Bool.or_assoc, Bool.or_comm (v.regexp fd expr ic)]
    have hrs := ih (forall_mem_cons.mp hm).2
    simp only [Mergeable.holds, any_cons] at hrs ⊢
    rw [hrs, Bool.or_assoc]

theorem Mergeable.compiles_merge (hm : m.Compiles sc) (he : sc.compiles expr key.2) :
    (m.merge key expr).Compiles sc := by
  induction m with
  | nil =>
    exact forall_mem_singleton.mpr he
  | cons en rest ih =>
    obtain ⟨k, prev⟩ := en
    have hhd := hm _ mem_cons_self
    have hrs : Mergeable.Compiles sc rest := (forall_mem_cons.mp hm).2
    rw [Mergeable.merge]
    split
    · rename_i hk
      subst hk
      exact forall_mem_cons.mpr ⟨sc.union_compiles _ _ _ hhd he, hrs⟩
    · exact forall_mem_cons.mpr ⟨hhd, ih hrs⟩

theorem Mergeable.meets_merge (h : ∀ entry ∈ m, sc.Meets entry y) (hy : sc.Meets (key, expr) y) :
    ∀ entry ∈ m.merge key expr, sc.Meets entry y := by
  induction m with
  | nil => exact forall_mem_singleton.mpr hy
  | cons en rest ih =>
    obtain ⟨k, prev⟩ := en
    obtain ⟨hhd, hrs⟩ := forall_mem_cons.mp h
    rw [Mergeable.merge]
    split
    · rename_i hk
      subst hk
      refine forall_mem_cons.mpr ⟨fun hk => ?_, hrs⟩
      exact sc.union_mergeable _ _ _ _ (hhd hk) (hy hk)
    · exact forall_mem_cons.mpr ⟨hhd, ih hrs⟩

theorem Mergeable.keys_merge (m : Mergeable) (key : MatchField × Bool) (expr : String) :
    (m.merge key expr).map Prod.fst =
      if key ∈ m.map Prod.fst then m.map Prod.fst else m.map Prod.fst ++ [key] := by
  induction m with
  | nil => rfl
  | cons en rest ih =>
    obtain ⟨k, prev⟩ := en
    rw [Mergeable.merge]
    split
    · rename_i hk
      simp [hk]
    · rename_i hk
      rw [map_cons, ih]
      simp only [map_cons, mem_cons, Ne.symm hk, false_or]
      split <;> rfl

theorem Meeting.add (h : Meeting sc y acc (od :: rest)) :
    Meeting sc y (Mergeable.add acc od) rest := by
  have hin : ∀ o ∈ acc.1 ++ od :: rest, ∀ x ∈ atoms o, sc.Meets x y := h.operands
  cases od with
  | regexp fd expr ic =>
    have hy : sc.Meets ((fd, ic), expr) y := hin (.regexp fd expr ic) (by simp) _ (by simp [atoms])
    exact ⟨Mergeable.meets_merge h.merged hy,
      fun o ho => hin o (((sublist_cons_self _ rest).append_left acc.1).subset ho)⟩
  | _ =>
    rw [append_cons] at hin
    exact ⟨h.merged, hin⟩

theorem Merging.add (h : Merging sc acc (od :: rest)) :
    Merging sc (Mergeable.add acc od) rest := by
  have hs := h.shaped od (by simp)
  cases hs with
  | regexp fd expr ic he =>
    have hsub := (sublist_cons_self (.regexp fd expr ic) rest).append_left acc.1
    refine ⟨Mergeable.compiles_merge h.compiles he, ?_, fun o ho => h.shaped o (hsub.subset ho),
      h.compatible.sublist hsub, ?_⟩
    · rw [Mergeable.add, Mergeable.keys_merge]
      split
      · exact h.keys
      · rename_i hk
        exact nodup_append_comm.mp (nodup_cons.mpr ⟨hk, h.keys⟩)
    · intro o ho y hy
      refine Mergeable.meets_merge (h.merged o (hsub.subset ho) y hy) ?_
      obtain ⟨-, hrest, hcross⟩ := pairwise_append.mp h.compatible
      rcases mem_append.mp ho with hp | hp
      · exact (hcross o hp _ mem_cons_self y hy _ (mem_singleton.mpr rfl)).symm
      · exact (pairwise_cons.mp hrest).1 o hp _ (mem_singleton.mpr rfl) y hy
  | _ =>
    obtain ⟨hcom, hkeys, hsha, hcmp, hmer⟩ := h
    rw [append_cons] at hsha hcmp hmer
    exact ⟨hcom, hkeys, hsha, hcmp, hmer⟩

theorem Merging.holds (h : Merging sc acc (od :: rest)) (hv : v.Alternates sc.mergeable) :
    ((Mergeable.add acc od).1.any (eval v) || (Mergeable.add acc od).2.holds v) =
      ((acc.1.any (eval v) || acc.2.holds v) || eval v od) := by
  cases od with
  | regexp fd expr ic =>
    have hm := h.merged (.regexp fd expr ic) (by simp) _ (mem_singleton.mpr rfl)
    rw [Mergeable.add, Mergeable.holds_merge hv fd hm, Bool.or_assoc]
    rfl
  | _ =>
    simp only [Mergeable.add, any_append, any_cons, any_nil, Bool.or_false]
    rw [Bool.or_right_comm]

theorem Merging.foldl (h : Merging sc acc operands) :
    Merging sc (operands.foldl Mergeable.add acc) [] ∧
      (∀ v : Assignment, v.Alternates sc.mergeable →
        ((operands.foldl Mergeable.add acc).1.any (eval v) ||
          (operands.foldl Mergeable.add acc).2.holds v) =
        ((acc.1.any (eval v) || acc.2.holds v) || operands.any (eval v))) ∧
      ∀ y, Meeting sc y acc operands → Meeting sc y (operands.foldl Mergeable.add acc) [] := by
  induction operands generalizing acc with
  | nil => exact ⟨h, fun v _ => (Bool.or_false _).symm, fun y hy => hy⟩
  | cons od rest ih =>
    obtain ⟨hmer, hval, hmeet⟩ := ih h.add
    refine ⟨hmer, fun v hv => ?_, fun y hy => hmeet y hy.add⟩
    rw [foldl_cons, hval v hv, h.holds hv, any_cons, Bool.or_assoc]

theorem Merging.compatible_nodes (h : Merging sc acc []) :
    (acc.1 ++ acc.2.nodes).Pairwise sc.Compatible := by
  have hnodes : ∀ node ∈ acc.2.nodes, ∃ entry ∈ acc.2, atoms node = [entry] := by
    intro node hnode
    obtain ⟨entry, he, rfl⟩ := mem_map.mp hnode
    exact ⟨entry, he, rfl⟩
  refine pairwise_append.mpr ⟨by simpa using h.compatible, ?_, ?_⟩
  · -- the keys of two merged regexps differ
    refine pairwise_map.mpr ((pairwise_map.mp h.keys).imp fun hne x hx y hy he => ?_)
    rw [mem_singleton.mp hx, mem_singleton.mp hy] at he
    exact absurd he hne
  · intro o ho node hnode x hx y hy
    obtain ⟨entry, he, hat⟩ := hnodes node hnode
    rw [hat, mem_singleton] at hy
    subst hy
    exact (h.merged o (by simpa using ho) x hx y he).symm

theorem mergeOrRegexp_sound (rt : Runtime) :
    Sound sc fun path n => some (mergeOrRegexp rt path n) where
  atom := by
    intro _ n hn
    cases n <;> first | rfl | exact hn.elim
  node := by
    intro path n hn
    refine ⟨_, rfl, ?_⟩
    unfold mergeOrRegexp
    split
    · rename_i operands
      have hstart : Merging sc ([], []) operands :=
        ⟨by simp [Mergeable.Compiles], .nil, hn.operands, hn.compatible, by simp⟩
      obtain ⟨hmer, hval, hmeet⟩ := hstart.foldl
      have hp := rt.iterate_perm path (operands.foldl Mergeable.add ([], [])).2.nodes
      refine ⟨shaped_or ?_ fun o ho => ?_, fun v hv => ?_, fun y hy x hx => ?_⟩
      · exact ((hp.append_left _).pairwise_iff Scope.Compatible.symm).mpr hmer.compatible_nodes
      · rcases mem_append.mp ho with ho | ho
        · exact hmer.shaped o (by simpa using ho)
        obtain ⟨entry, he, rfl⟩ := mem_map.mp (hp.mem_iff.mp ho)
        exact .regexp _ _ _ (hmer.compiles _ he)
      · dsimp only [newOperator]
        rw [eval_or, any_append, hp.any_eq, Mergeable.any_nodes, hval v hv]
        simp [Mergeable.holds]
      · have hend := hmeet y ⟨by simp, fun o ho x hx => hy x (mem_allAtoms.mpr ⟨o, ho, hx⟩)⟩
        obtain ⟨o, ho, hx⟩ := mem_allAtoms.mp hx
        rcases mem_append.mp ho with ho | ho
        · exact hend.operands o (by simpa using ho) x hx
        obtain ⟨entry, he, rfl⟩ := mem_map.mp (hp.mem_iff.mp ho)
        exact mem_singleton.mp hx ▸ hend.merged entry he
    · exact ⟨hn, same_meaning_rfl⟩

theorem sortAndByCost_sound (rt : Runtime) :
    Sound sc fun path n => some (sortAndByCost rt path n) where
  atom := by
    intro _ n hn
    cases n <;> first | rfl | exact hn.elim
  node := by
    intro path n hn
    refine ⟨_, rfl, ?_⟩
    unfold sortAndByCost
    split
    · rename_i operands
      have hp := rt.sortSlice_perm path operands
      refine ⟨shaped_and fun o ho => hn.operands o (hp.mem_iff.mp ho), fun v hv => ?_,
        derives_of_subset (allAtoms_subset fun o ho => ⟨o, hp.mem_iff.mp ho, Subset.refl _⟩)⟩
      rw [eval_and, eval_and, hp.all_eq]
    · exact ⟨hn, same_meaning_rfl⟩

theorem defaultReducers_sound : ∀ f ∈ defaultReducers rt, Sound sc f := by
  intro f hf
  simp only [defaultReducers, mem_cons, not_mem_nil, or_false] at hf
  rcases hf with rfl | rfl | rfl | rfl | rfl
  · exact propagateBoolean_sound
  · exact rewriteConjunctive_sound
  · exact flatten_sound
  · exact mergeOrRegexp_sound rt
  · exact sortAndByCost_sound rt

theorem applyReducers_atom (h : ∀ f ∈ rds, Sound sc f) (path : Path) (hn : IsAtom n) :
    applyReducers path rds n = some n := by
  induction rds with
  | nil => rfl
  | cons f rds ih =>
    rw [applyReducers, (h f mem_cons_self).atom path n hn]
    exact ih (forall_mem_cons.mp h).2

theorem applyReducers_sound (h : ∀ f ∈ rds, Sound sc f) (path : Path) (hn : Shaped sc n) :
    ∃ n', applyReducers path rds n = some n' ∧ Shaped sc n' ∧ SameMeaning sc n n' ∧
      Derives sc n n' := by
  induction rds generalizing n with
  | nil => exact ⟨n, rfl, hn, same_meaning_rfl⟩
  | cons f rds ih =>
    obtain ⟨m, hf, hm, hsm, hd⟩ := (h f mem_cons_self).node path n hn
    obtain ⟨n', hr, hn', hsm', hd'⟩ := ih (forall_mem_cons.mp h).2 hm
    refine ⟨n', by rw [applyReducers, hf, Option.bind_some, hr], hn', fun v hv => ?_,
      fun y hy => hd' y (hd y hy)⟩
    rw [hsm' v hv, hsm v hv]

structure Reduced (scope : Scope) (n n' : Node) : Prop where
  shaped : Shaped scope n'
  meaning : SameMeaning scope n n'
  derives : Derives scope n n'
  negated : scope.negatable n → scope.negatable n'

theorem reduceOperands_sound
    (h : ∀ o ∈ operands, ∀ path, ∃ o', reduceWith rds path o = some o' ∧ Reduced sc o o')
    (path : Path) (i : ℕ) :
    ∃ reduced, reduceOperands rds path i operands = some reduced ∧
      Forall₂ (Reduced sc) operands reduced := by
  induction operands generalizing i with
  | nil => exact ⟨[], rfl, .nil⟩
  | cons od rest ih =>
    obtain ⟨o', ho, hr⟩ := h od mem_cons_self (i :: path)
    obtain ⟨reduced, hrs, hall⟩ := ih (forall_mem_cons.mp h).2 (i + 1)
    exact ⟨o' :: reduced, by rw [reduceOperands, ho, Option.bind_some, hrs, Option.map_some],
      .cons hr hall⟩

theorem Reduced.of_mem (h : Forall₂ (Reduced sc) operands reduced) (ho : o' ∈ reduced) :
    ∃ o ∈ operands, Reduced sc o o' := by
  induction h with
  | nil => cases ho
  | cons hr _ ih =>
    rcases mem_cons.mp ho with rfl | ho
    · exact ⟨_, mem_cons_self, hr⟩
    · obtain ⟨o, hmem, hr⟩ := ih ho
      exact ⟨o, mem_cons_of_mem _ hmem, hr⟩

theorem Reduced.compatible (h : Forall₂ (Reduced sc) operands reduced)
    (hc : operands.Pairwise sc.Compatible) : reduced.Pairwise sc.Compatible := by
  induction h with
  | nil => exact .nil
  | @cons o o' operands reduced hr hrs ih =>
    obtain ⟨ho, hrest⟩ := pairwise_cons.mp hc
    refine pairwise_cons.mpr ⟨fun x' hx' => ?_, ih hrest⟩
    obtain ⟨x, hx, hrx⟩ := Reduced.of_mem hrs hx'
    exact hr.derives.compatible hrx.derives (ho x hx)

theorem Reduced.map_eval (hv : v.Alternates sc.mergeable)
    (h : Forall₂ (Reduced sc) operands reduced) : reduced.map (eval v) = operands.map (eval v) := by
  induction h with
  | nil => rfl
  | cons hr _ ih => rw [map_cons, map_cons, hr.meaning v hv, ih]

theorem Reduced.operator {kind : OperatorKind} {operands reduced : List Node}
    (hn : Shaped sc (.operator kind operands))
    (h : Forall₂ (Reduced sc) operands reduced) :
    Shaped sc (.operator kind reduced) ∧
      SameMeaning sc (.operator kind operands) (.operator kind reduced) ∧
      Derives sc (.operator kind operands) (.operator kind reduced) := by
  have hall : ∀ o' ∈ reduced, Shaped sc o' := by
    intro o' ho'
    obtain ⟨_, _, hr⟩ := Reduced.of_mem h ho'
    exact hr.shaped
  refine ⟨.operator kind reduced ?_ ?_ hall, ?_, ?_⟩
  · rintro rfl
    obtain ⟨first, rest, rfl, hneg⟩ := hn.negated
    cases h with
    | cons hr _ => exact ⟨_, _, rfl, hr.negated hneg⟩
  · rintro rfl
    exact Reduced.compatible h hn.compatible
  · intro v hv
    have he := Reduced.map_eval hv h
    cases kind with
    | not =>
      obtain ⟨first, rest, rfl, _⟩ := hn.negated
      cases h with
      | cons hr _ => rw [eval_not, eval_not, hr.meaning v hv]
    | and => simpa using congrArg (all · id) he
    | or => simpa using congrArg (any · id) he
  · intro y hy x hx
    by_cases hk : kind = .not
    · subst hk
      cases hx
    rw [atoms_operator hk] at hy hx
    obtain ⟨o', ho', hx⟩ := mem_allAtoms.mp hx
    obtain ⟨o, ho, hr⟩ := Reduced.of_mem h ho'
    exact hr.derives y (fun x hx => hy x (mem_allAtoms.mpr ⟨o, ho, hx⟩)) x hx

/-- Sound passes compose bottom-up: reducing a whole tree never panics and keeps its shape and
meaning. -/
theorem reduceWith_sound {rds : List Pass} (h : ∀ f ∈ rds, Sound sc f)
    (hneg : ∀ path n n', sc.negatable n → reduceWith rds path n = some n' → sc.negatable n')
    (hn : Shaped sc n) (path : Path) : ∃ n', reduceWith rds path n = some n' ∧ Reduced sc n n' := by
  induction n generalizing path with
  | operator kind operands ih =>
    obtain ⟨reduced, hr, hall⟩ := reduceOperands_sound
      (fun o ho p => ih o ho (hn.operands o ho) p) path 0
    obtain ⟨hs, hv, hd⟩ := Reduced.operator hn hall
    obtain ⟨n', ha, hs', hv', hd'⟩ := applyReducers_sound h path hs
    have he : reduceWith rds path (.operator kind operands) = some n' := by
      rw [reduceWith, hr, Option.bind_some, ha]
    exact ⟨n', he, hs', fun v ha => (hv' v ha).trans (hv v ha), fun y hy => hd' y (hd y hy),
      fun hx => hneg path _ n' hx he⟩
  | _ =>
    obtain ⟨n', ha, hs', hv', hd'⟩ := applyReducers_sound h path hn
    exact ⟨n', by rw [reduceWith, ha], hs', hv', hd',
      fun hx => hneg path _ n' hx (by rw [reduceWith, ha])⟩

theorem reduceWith_atom (h : ∀ f ∈ rds, Sound sc f) (path : Path) (hn : IsAtom n) :
    reduceWith rds path n = some n := by
  cases n with
  | operator => exact hn.elim
  | _ => rw [reduceWith, applyReducers_atom h path hn]

theorem reduce_shaped (hneg : ∀ n, sc.negatable n → IsAtom n) (hn : Shaped sc n) :
    ∃ n', reduce rt n = some n' ∧ Shaped sc n' ∧ SameMeaning sc n n' := by
  have hsnd : ∀ f ∈ defaultReducers rt, Sound sc f := defaultReducers_sound
  have hat : ∀ path n n', sc.negatable n → reduceWith (defaultReducers rt) path n = some n' →
      sc.negatable n' := by
    intro path n n' hx hr
    rw [reduceWith_atom hsnd path (hneg n hx)] at hr
    exact Option.some.inj hr ▸ hx
  obtain ⟨n', hr, h⟩ := reduceWith_sound hsnd hat hn []
  exact ⟨n', hr, h.shaped, h.meaning⟩

theorem reduce_wellFormed (hn : WellFormed n) :
    ∃ n', reduce rt n = some n' ∧ WellFormed n' ∧ SameMeaning .all n n' := by
  obtain ⟨n', hr, h⟩ := reduceWith_sound defaultReducers_sound (fun _ _ _ _ _ => trivial) hn []
  exact ⟨n', hr, h.shaped, h.meaning⟩

theorem values_eq (h : ∀ o ∈ operands, value v o = some (eval v o)) :
    values v operands = some (operands.map (eval v)) := by
  induction operands with
  | nil => rfl
  | cons od rest ih =>
    rw [values, h od mem_cons_self, Option.bind_some,
      ih (forall_mem_cons.mp h).2, Option.map_some, map_cons]

theorem value_wellFormed {n : Node} (hn : WellFormed n) : value v n = some (eval v n) := by
  induction n with
  | operator kind operands ih =>
    have hops := values_eq fun o ho => ih o ho (hn.operands o ho)
    cases kind with
    | and => simp [value, hops, all_map]
    | or => simp [value, hops, any_map]
    | not =>
      obtain ⟨first, rest, rfl, _⟩ := hn.negated
      simp [value, hops]
  | _ => rfl

theorem illFormed_cases (hn : ¬ WellFormed n) : ∃ kind operands, n = .operator kind operands ∧
    ((∃ o ∈ operands, ¬ WellFormed o) ∨ (kind = .not ∧ operands = [])) := by
  cases n with
  | operator kind operands =>
    refine ⟨kind, operands, rfl, ?_⟩
    by_contra hnot
    rw [not_or, not_exists] at hnot
    have hall : ∀ o ∈ operands, WellFormed o := by
      intro o ho
      by_contra hw
      exact hnot.1 o ⟨ho, hw⟩
    have hcom : operands.Pairwise (Scope.all).Compatible :=
      pairwise_of_forall fun _ _ _ _ _ _ _ => trivial
    refine hn (.operator kind operands ?_ (fun _ => hcom) hall)
    rintro rfl
    cases operands with
    | nil => exact absurd ⟨rfl, rfl⟩ hnot.2
    | cons first rest => exact ⟨first, rest, rfl, trivial⟩
  | regexp fd expr ic => exact absurd (.regexp _ _ _ trivial) hn
  | commitBefore time => exact absurd (.commitBefore _) hn
  | commitAfter time => exact absurd (.commitAfter _) hn
  | boolean val => exact absurd (.boolean _) hn

theorem values_none (ho : o ∈ operands) (h : value v o = none) : values v operands = none := by
  induction operands with
  | nil => cases ho
  | cons od rest ih =>
    rw [values]
    rcases mem_cons.mp ho with rfl | ho
    · rw [h, Option.bind_none]
    · simp [ih ho]

theorem value_illFormed (hn : ¬ WellFormed n) : value v n = none := by
  induction n with
  | operator kind operands ih =>
    obtain ⟨_, _, ⟨⟩, ⟨o, ho, hw⟩ | ⟨rfl, rfl⟩⟩ := illFormed_cases hn
    · have hno := values_none ho (ih o ho hw)
      cases kind <;> simp [value, hno]
    · rfl
  | _ =>
    obtain ⟨_, _, hop, -⟩ := illFormed_cases hn
    cases hop

theorem reduceOperands_none (ho : o ∈ operands) (h : ∀ path, reduceWith rds path o = none)
    (path : Path) : reduceOperands rds path i operands = none := by
  induction operands generalizing i with
  | nil => cases ho
  | cons od rest ih =>
    rw [reduceOperands]
    rcases mem_cons.mp ho with rfl | ho
    · rw [h, Option.bind_none]
    · simp [ih ho]

theorem reduceWith_illFormed (hn : ¬ WellFormed n) (path : Path) :
    reduceWith (defaultReducers rt) path n = none := by
  induction n generalizing path with
  | operator kind operands ih =>
    rw [reduceWith]
    obtain ⟨_, _, ⟨⟩, ⟨o, ho, hw⟩ | ⟨rfl, rfl⟩⟩ := illFormed_cases hn
    · rw [reduceOperands_none ho (ih o ho hw), Option.bind_none]
    · rfl
  | _ =>
    obtain ⟨_, _, hop, -⟩ := illFormed_cases hn
    cases hop

/-- Evaluating the reduced tree returns what evaluating the tree does; if that panics, so does
reducing. -/
theorem reduce_value (hv : v.Alternates fun _ _ _ => True) :
    (reduce rt n).bind (value v) = value v n := by
  by_cases hn : WellFormed n
  · obtain ⟨n', hr, hn', hsm⟩ := reduce_wellFormed hn
    rw [hr, Option.bind_some, value_wellFormed hn', value_wellFormed hn, hsm v hv]
  · rw [reduce, reduceWith_illFormed hn, Option.bind_none, value_illFormed hn]

end CommitQueryReduce
