import Mathlib

/-! # Query trees

Nodes of the search query language, the reducing constructor `NewOperator` and the two readings of a
tree: the sequence of its leaves, and its truth value under a valuation of them. -/
namespace QueryNodes

open List

/-- The bit set `labels`, one flag per label. -/
structure Labels where
  literal : Bool := false
  regexp : Bool := false
  quoted : Bool := false
  heuristicParensAsPatterns : Bool := false
  heuristicDanglingParens : Bool := false
  heuristicHoisted : Bool := false
  structural : Bool := false
  isPredicate : Bool := false
  isAlias : Bool := false
  standard : Bool := false
  deriving DecidableEq

/-- The columns of a source range; `newRange` puts every range on line 0. -/
structure Range where
  start : ℕ := 0
  stop : ℕ := 0
  deriving DecidableEq

structure Annotation where
  labels : Labels := {}
  range : Range := {}
  deriving DecidableEq

structure Pattern where
  value : String
  negated : Bool := false
  annotation : Annotation := {}
  deriving DecidableEq

structure Parameter where
  field : String
  value : String
  negated : Bool := false
  annotation : Annotation := {}
  deriving DecidableEq

inductive OperatorKind where
  | or
  | and
  | concat
  deriving DecidableEq

inductive Node where
  | pattern (p : Pattern)
  | parameter (p : Parameter)
  | operator (kind : OperatorKind) (operands : List Node)

@[induction_eliminator]
theorem Node.induction {P : Node → Prop} (pattern : ∀ p, P (.pattern p))
    (parameter : ∀ p, P (.parameter p))
    (operator : ∀ kind operands, (∀ o ∈ operands, P o) → P (.operator kind operands)) : ∀ n, P n :=
  @Node.rec P (fun l => ∀ o ∈ l, P o) pattern parameter operator (by simp) (by
    intro o os ho hos x hx
    rcases mem_cons.mp hx with rfl | hx
    · exact ho
    · exact hos x hx)

inductive Leaf where
  | pattern (p : Pattern)
  | parameter (p : Parameter)
  deriving DecidableEq

def Leaf.value : Leaf → String
  | .pattern p => p.value
  | .parameter p => p.value

def Leaf.isParameter : Leaf → Bool
  | .parameter _ => true
  | .pattern _ => false

def Leaf.annotation : Leaf → Annotation
  | .pattern p => p.annotation
  | .parameter p => p.annotation

def Leaf.node : Leaf → Node
  | .pattern p => .pattern p
  | .parameter p => .parameter p

mutual
def leaves : Node → List Leaf
  | .pattern p => [.pattern p]
  | .parameter p => [.parameter p]
  | .operator _ operands => leavesAll operands
def leavesAll : List Node → List Leaf
  | [] => []
  | node :: rest => leaves node ++ leavesAll rest
end

mutual
def size : Node → ℕ
  | .operator _ operands => sizeAll operands + 1
  | _ => 1
def sizeAll : List Node → ℕ
  | [] => 0
  | node :: rest => size node + sizeAll rest
end

mutual
/-- Concat is read as a conjunction, like And. -/
def eval (v : Leaf → Bool) : Node → Bool
  | .pattern p => v (.pattern p)
  | .parameter p => v (.parameter p)
  | .operator .or operands => evalAny v operands
  | .operator _ operands => evalAll v operands
def evalAll (v : Leaf → Bool) : List Node → Bool
  | [] => true
  | node :: rest => eval v node && evalAll v rest
def evalAny (v : Leaf → Bool) : List Node → Bool
  | [] => false
  | node :: rest => eval v node || evalAny v rest
end

theorem leavesAll_eq (ns : List Node) : leavesAll ns = ns.flatMap leaves := by
  induction ns with
  | nil => rfl
  | cons node rest ih => rw [leavesAll, ih, flatMap_cons]

@[simp] theorem leaves_operator (kind : OperatorKind) (os : List Node) :
    leaves (.operator kind os) = os.flatMap leaves := leavesAll_eq os

theorem sizeAll_append : sizeAll (l ++ l') = sizeAll l + sizeAll l' := by
  induction l with
  | nil => simp [sizeAll]
  | cons node rest ih => simp [sizeAll, ih, Nat.add_assoc]

theorem size_pos (n : Node) : 0 < size n := by
  cases n <;> simp [size]

theorem evalAll_eq (ns : List Node) : evalAll v ns = ns.all (eval v) := by
  induction ns with
  | nil => rfl
  | cons node rest ih => rw [evalAll, ih, all_cons]

theorem evalAny_eq (ns : List Node) : evalAny v ns = ns.any (eval v) := by
  induction ns with
  | nil => rfl
  | cons node rest ih => rw [evalAny, ih, any_cons]

def combine (kind : OperatorKind) (bs : List Bool) : Bool :=
  match kind with
  | .or => bs.any id
  | _ => bs.all id

theorem eval_operator (kind : OperatorKind) (os : List Node) :
    eval v (.operator kind os) = combine kind (os.map (eval v)) := by
  cases kind with
  | or => simp [eval, evalAny_eq, combine, any_map]
  | and | concat => simp [eval, evalAll_eq, combine, all_map]

theorem combine_append (kind : OperatorKind) :
    combine kind (bs ++ cs) = combine kind [combine kind bs, combine kind cs] := by
  cases kind <;> simp [combine]

theorem combine_singleton (kind : OperatorKind) : combine kind [b] = b := by
  cases kind <;> simp [combine]

theorem combine_splice (kind : OperatorKind) (bs inner cs : List Bool) :
    combine kind (bs ++ combine kind inner :: cs) = combine kind (bs ++ inner ++ cs) := by
  cases kind <;> simp [combine]

def emptyParameter : Node → Bool
  | .parameter p => p.value == ""
  | _ => false

def operandsOf (kind : OperatorKind) : Node → Option (List Node)
  | .operator termKind operands => if kind = termKind then some operands else none
  | _ => none

/-- The switch of `reduce` on the first node to the right: what replaces `left` and `term`,
if anything does. -/
def reduceTerm (kind : OperatorKind) (left term : Node) : Option (List Node) :=
  match term with
  | .operator _ _ => (operandsOf kind term).map (left :: ·)
  | .parameter p =>
    if p.value = "" then some [left] else (operandsOf kind left).map (· ++ [term])
  | .pattern p =>
    if p.value = "" then some [left] else (operandsOf kind left).map (· ++ [term])

/-- Go passes two slices, a singleton and one that is never empty: `[left]` and `term :: rest`
here. -/
def reduce (kind : OperatorKind) (left term : Node) (rest : List Node) : List Node × Bool :=
  if emptyParameter left then (term :: rest, true)
  else match reduceTerm kind left term, rest with
    | some merged, _ => (merged ++ rest, true)
    | none, [] => ([left, term], false)
    | none, next :: rest' =>
      let reduced := reduce kind term next rest'
      if reduced.2 then (left :: reduced.1, true) else (left :: term :: rest, false)

/-- The recursion of `NewOperator`, bounded by the number of nodes. -/
def newOperatorFrom (kind : OperatorKind) : ℕ → List Node → List Node
  | _, [] => []
  | _, [node] => [node]
  | 0, nodes => [.operator kind nodes]
  | fuel + 1, first :: second :: rest =>
    let reduced := reduce kind first second rest
    if reduced.2 then newOperatorFrom kind fuel reduced.1
    else [.operator kind reduced.1]

def newOperator (nodes : List Node) (kind : OperatorKind) : List Node :=
  newOperatorFrom kind (sizeAll nodes) nodes

/-- One reduction: an operand of the same kind is replaced by its operands, or a leaf with
an empty value is dropped. -/
inductive Contracts (kind : OperatorKind) : List Node → List Node → Prop
  | splice (before operands after : List Node) :
    Contracts kind (before ++ .operator kind operands :: after) (before ++ operands ++ after)
  | drop (before : List Node) (leaf : Leaf) (after : List Node) (h : leaf.value = "") :
    Contracts kind (before ++ leaf.node :: after) (before ++ after)

variable {kind : OperatorKind}

theorem Contracts.cons {l l' : List Node} (h : Contracts kind l l') (n : Node) :
    Contracts kind (n :: l) (n :: l') := by
  cases h with
  | splice pre os post => exact .splice (n :: pre) os post
  | drop pre leaf post h => exact .drop (n :: pre) leaf post h

theorem operandsOf_eq_some (h : operandsOf kind n = some os) : n = .operator kind os := by
  cases n with
  | operator tk inn =>
    simp only [operandsOf] at h
    split at h
    · rename_i hk
      rw [hk, Option.some.inj h]
    · cases h
  | _ => cases h

theorem reduceTerm_contracts (h : reduceTerm kind left term = some mg) (rest : List Node) :
    Contracts kind (left :: term :: rest) (mg ++ rest) := by
  have hl : (operandsOf kind left).map (· ++ [term]) = some mg →
      Contracts kind (left :: term :: rest) (mg ++ rest) := by
    intro h
    obtain ⟨os, ho, rfl⟩ := Option.map_eq_some_iff.mp h
    rw [operandsOf_eq_some ho]
    simpa using @Contracts.splice kind [] os (term :: rest)
  cases term with
  | operator tk inn =>
    obtain ⟨os, ho, rfl⟩ := Option.map_eq_some_iff.mp h
    rw [operandsOf_eq_some ho]
    exact .splice [left] os rest
  | parameter p =>
    simp only [reduceTerm] at h
    split at h
    · rename_i he
      rw [← Option.some.inj h]
      exact .drop [left] (.parameter p) rest he
    · exact hl h
  | pattern p =>
    simp only [reduceTerm] at h
    split at h
    · rename_i he
      rw [← Option.some.inj h]
      exact .drop [left] (.pattern p) rest he
    · exact hl h

theorem emptyParameter_contracts (h : emptyParameter left = true) (right : List Node) :
    Contracts kind (left :: right) right := by
  cases left with
  | parameter p => exact .drop [] (.parameter p) right (by simpa [emptyParameter, Leaf.value] using h)
  | _ => cases h

theorem reduce_cases (kind : OperatorKind) (left term : Node) (rest : List Node) :
    ((reduce kind left term rest).2 = true ∧
      Contracts kind (left :: term :: rest) (reduce kind left term rest).1) ∨
    ((reduce kind left term rest).2 = false ∧
      (reduce kind left term rest).1 = left :: term :: rest) := by
  fun_induction reduce kind left term rest with
  | case1 left term rest he => exact .inl ⟨rfl, emptyParameter_contracts he _⟩
  | case2 rest left term he mg hm => exact .inl ⟨rfl, reduceTerm_contracts hm rest⟩
  | case4 left term he hm next rest red hb ih =>
    rcases ih with ⟨-, hc⟩ | ⟨hb', -⟩
    · exact .inl ⟨rfl, hc.cons left⟩
    · cases hb.symm.trans hb'
  | _ => exact .inr ⟨rfl, rfl⟩

theorem Contracts.sizeAll_lt (h : Contracts kind l l') : sizeAll l' < sizeAll l := by
  cases h with
  | splice pre os post =>
    simp only [sizeAll_append, sizeAll, size]
    omega
  | drop pre leaf post _ =>
    have := size_pos leaf.node
    simp only [sizeAll_append, sizeAll]
    omega

/-- The operator a list of operands stands for once it cannot be reduced. -/
def close (kind : OperatorKind) : List Node → List Node
  | [] => []
  | [node] => [node]
  | nodes => [.operator kind nodes]

theorem newOperatorFrom_reaches (fuel : ℕ) (ns : List Node) (h : sizeAll ns ≤ fuel) :
    ∃ l, Relation.ReflTransGen (Contracts kind) ns l ∧
      newOperatorFrom kind fuel ns = close kind l := by
  induction fuel generalizing ns with
  | zero =>
    refine ⟨ns, .refl, ?_⟩
    cases ns with
    | nil => rfl
    | cons node rest =>
      have := size_pos node
      simp only [sizeAll] at h
      omega
  | succ fuel ih =>
    match ns with
    | [] => exact ⟨[], .refl, rfl⟩
    | [node] => exact ⟨[node], .refl, rfl⟩
    | first :: sec :: rest =>
      rcases reduce_cases kind first sec rest with ⟨hb, hc⟩ | ⟨hb, he⟩
      · have hlt := hc.sizeAll_lt
        obtain ⟨l, hl, hn⟩ := ih (reduce kind first sec rest).1 (by omega)
        exact ⟨l, hl.head hc, by simpa [newOperatorFrom, hb] using hn⟩
      · exact ⟨_, .refl, by simp [newOperatorFrom, hb, he, close]⟩

/-- `NewOperator` reduces its operands as far as `reduce` gets and then closes the list. -/
theorem newOperator_reaches (ns : List Node) (kind : OperatorKind) :
    ∃ l, Relation.ReflTransGen (Contracts kind) ns l ∧ newOperator ns kind = close kind l :=
  newOperatorFrom_reaches (sizeAll ns) ns (Nat.le_refl _)

theorem reduceTerm_ne_nil (h : reduceTerm kind left term = some mg) : mg ≠ [] := by
  revert h
  fun_cases reduceTerm kind left term with
  | case2 | case4 =>
    rintro ⟨⟩
    simp
  | _ =>
    intro h
    obtain ⟨os, -, rfl⟩ := Option.map_eq_some_iff.mp h
    simp

theorem reduce_ne_nil (kind : OperatorKind) (left term : Node) (rest : List Node) :
    (reduce kind left term rest).1 ≠ [] := by
  fun_cases reduce kind left term rest with
  | case2 _ _ _ hm => simp [reduceTerm_ne_nil hm]
  | _ => simp

theorem newOperatorFrom_ne_nil (fuel : ℕ) (h : ns ≠ []) : newOperatorFrom kind fuel ns ≠ [] := by
  fun_induction newOperatorFrom kind fuel ns with
  | case1 => exact h
  | case4 fuel first sec rest red hb ih => exact ih (reduce_ne_nil kind first sec rest)
  | _ => simp

theorem newOperator_ne_nil (h : ns ≠ []) (kind : OperatorKind) :
    newOperator ns kind ≠ [] := newOperatorFrom_ne_nil _ h

/-- The invariant rule of `NewOperator`: what holds of its operands and is kept by every reduction
holds in the end. -/
theorem newOperator_invariant {P : List Node → Prop} (h : P ns)
    (hst : ∀ l l', P l → Contracts kind l l' → P l') :
    ∃ l, P l ∧ newOperator ns kind = close kind l := by
  obtain ⟨l, hl, hn⟩ := newOperator_reaches ns kind
  refine ⟨l, ?_, hn⟩
  clear hn
  induction hl with
  | refl => exact h
  | tail _ hc ih => exact hst _ _ ih hc

theorem leaves_node (leaf : Leaf) : leaves leaf.node = [leaf] := by
  cases leaf <;> rfl

theorem flatMap_leaves_close (kind : OperatorKind) :
    (close kind l).flatMap leaves = l.flatMap leaves := by
  match l with
  | [] => rfl
  | [node] => rfl
  | first :: sec :: rest => simp [close]

/-- `NewOperator` changes the leaves of its operands by dropping empty ones only. -/
theorem newOperator_leaves {P : List Leaf → Prop} {ns : List Node} (kind : OperatorKind)
    (h : P (ns.flatMap leaves))
    (hdr : ∀ pre leaf post, leaf.value = "" → P (pre ++ leaf :: post) →
      P (pre ++ post)) :
    P ((newOperator ns kind).flatMap leaves) := by
  have hst : ∀ l l', P (l.flatMap leaves) → Contracts kind l l' → P (l'.flatMap leaves) := by
    intro l l' hl hc
    cases hc with
    | splice pre os post => simpa using hl
    | drop pre leaf post he =>
      simp only [flatMap_append, flatMap_cons, leaves_node, singleton_append] at hl
      simpa using hdr _ leaf _ he hl
  obtain ⟨l, hl, hn⟩ := newOperator_invariant (P := fun l => P (l.flatMap leaves)) h hst
  rw [hn, flatMap_leaves_close]
  exact hl

theorem newOperatorFrom_fuel (h : sizeAll ns ≤ fuel) (h' : sizeAll ns ≤ fuel') :
    newOperatorFrom kind fuel ns = newOperatorFrom kind fuel' ns := by
  induction fuel generalizing ns fuel' with
  | zero =>
    cases ns with
    | nil => simp [newOperatorFrom]
    | cons node rest => exact absurd h (by have := size_pos node; simp [sizeAll]; omega)
  | succ fuel ih =>
    match ns, fuel' with
    | [], _ => simp [newOperatorFrom]
    | [node], _ => simp [newOperatorFrom]
    | first :: sec :: rest, 0 =>
      exact absurd h' (by have := size_pos first; simp [sizeAll]; omega)
    | first :: sec :: rest, fuel' + 1 =>
      rw [newOperatorFrom, newOperatorFrom]
      rcases reduce_cases kind first sec rest with ⟨hb, hc⟩ | ⟨hb, _⟩
      · have hlt := hc.sizeAll_lt
        rw [if_pos hb, if_pos hb]
        exact ih (by omega) (by omega)
      · simp [hb]

theorem Contracts.eval_eq (h : Contracts kind l l')
    (hvs : ∀ leaf ∈ l.flatMap leaves, leaf.value ≠ "") :
    combine kind (l'.map (eval v)) = combine kind (l.map (eval v)) := by
  cases h with
  | splice before operands after =>
    rw [map_append, map_append, map_append, map_cons, eval_operator, combine_splice]
  | drop before leaf after he => exact absurd he (hvs leaf (by simp [leaves_node]))

theorem combine_close (kind : OperatorKind) :
    combine kind ((close kind l).map (eval v)) = combine kind (l.map (eval v)) := by
  match l with
  | [] => rfl
  | [node] => rfl
  | first :: sec :: rest =>
    show combine kind [eval v (.operator kind (first :: sec :: rest))] = _
    rw [combine_singleton, eval_operator]

/-- `reduce` is repeated only on fewer nodes. Operators of the same kind give way to their operands,
and of the leaves only empty ones are lost. -/
theorem newOperator_reshapes (nodes : List Node) (kind : OperatorKind) :
    (∀ left term rest, (reduce kind left term rest).2 = true →
      sizeAll (reduce kind left term rest).1 < sizeAll (left :: term :: rest)) ∧
    (∀ fuel, sizeAll nodes ≤ fuel → newOperatorFrom kind fuel nodes = newOperator nodes kind) ∧
    (∃ l, Relation.ReflTransGen (Contracts kind) nodes l ∧ newOperator nodes kind = close kind l) ∧
    ((newOperator nodes kind).flatMap leaves).Sublist (nodes.flatMap leaves) ∧
    ((newOperator nodes kind).flatMap leaves).filter (·.value ≠ "") =
      (nodes.flatMap leaves).filter (·.value ≠ "") ∧
    ((∀ leaf ∈ nodes.flatMap leaves, leaf.value ≠ "") →
      (newOperator nodes kind).flatMap leaves = nodes.flatMap leaves ∧
      ∀ v, combine kind ((newOperator nodes kind).map (eval v)) =
        combine kind (nodes.map (eval v))) := by
  have hlvs := @newOperator_leaves (fun found => found.Sublist (nodes.flatMap leaves) ∧
    found.filter (·.value ≠ "") = (nodes.flatMap leaves).filter (·.value ≠ "")) nodes kind
    ⟨.refl _, rfl⟩ fun pre leaf post he hfnd => by
      refine ⟨((sublist_cons_self leaf post).append_left pre).trans hfnd.1, ?_⟩
      rw [← hfnd.2, filter_append, filter_append, filter_cons_of_neg (by simp [he])]
  refine ⟨fun left term rest hb => ?_, fun fuel h => newOperatorFrom_fuel h (Nat.le_refl _),
    newOperator_reaches nodes kind, hlvs.1, hlvs.2, fun hvs => ⟨?_, fun v => ?_⟩⟩
  · rcases reduce_cases kind left term rest with ⟨_, hc⟩ | ⟨hb', _⟩
    · exact hc.sizeAll_lt
    · rw [hb] at hb'
      cases hb'
  · have hfil := hlvs.2
    rwa [filter_eq_self.mpr fun leaf h => by simpa using hvs leaf (hlvs.1.subset h),
      filter_eq_self.mpr fun leaf h => by simpa using hvs leaf h] at hfil
  · obtain ⟨l, ⟨-, hl⟩, hn⟩ := @newOperator_invariant kind nodes (fun l =>
      (∀ leaf ∈ l.flatMap leaves, leaf.value ≠ "") ∧
        combine kind (l.map (eval v)) = combine kind (nodes.map (eval v))) ⟨hvs, rfl⟩
      fun l l' ⟨hl, hev⟩ hc => by
        refine ⟨fun leaf hlf => hl leaf ?_, (hc.eval_eq hl).trans hev⟩
        cases hc with
        | splice pre os post => simpa using hlf
        | drop pre leaf' post _ =>
          simp only [flatMap_append, flatMap_cons, mem_append] at hlf ⊢
          exact hlf.imp_right .inr
    rw [hn, combine_close, hl]

/-- Trees without empty leaves and without operators that have no operands. -/
inductive Proper : Node → Prop
  | pattern (p : Pattern) (h : p.value ≠ "") : Proper (.pattern p)
  | parameter (p : Parameter) (h : p.value ≠ "") : Proper (.parameter p)
  | operator (kind : OperatorKind) (operands : List Node) (hne : operands ≠ [])
    (h : ∀ o ∈ operands, Proper o) : Proper (.operator kind operands)

theorem Proper.operands {os : List Node} (h : Proper (.operator kind os)) : ∀ o ∈ os, Proper o := by
  cases h with
  | operator _ _ _ h => exact h

theorem Proper.operands_ne_nil {os : List Node} (h : Proper (.operator kind os)) : os ≠ [] := by
  cases h with
  | operator _ _ hne _ => exact hne

theorem Proper.leaf_value {leaf : Leaf} (h : Proper leaf.node) : leaf.value ≠ "" := by
  cases leaf with
  | pattern p =>
    cases h with
    | pattern _ h => exact h
  | parameter p =>
    cases h with
    | parameter _ h => exact h

structure Operands (kind : OperatorKind) (value : (Leaf → Bool) → Bool) (l : List Node) : Prop where
  proper : ∀ n ∈ l, Proper n
  ne_nil : l ≠ []
  eval : ∀ v, combine kind (l.map (eval v)) = value v

theorem Operands.contracts {l' : List Node} (h : Operands kind value l) (hc : Contracts kind l l') :
    Operands kind value l' := by
  cases hc with
  | splice before operands after =>
    have hop := h.proper (.operator kind operands) (by simp)
    refine ⟨?_, ?_, ?_⟩
    · intro n hn
      simp only [mem_append] at hn
      rcases hn with (hn | hn) | hn
      · exact h.proper n (by simp [hn])
      · exact hop.operands n hn
      · exact h.proper n (by simp [hn])
    · simp [hop.operands_ne_nil]
    · intro v
      rw [← h.eval v, map_append, map_append, map_append, map_cons, eval_operator, combine_splice]
  | drop before leaf after he =>
    exact absurd he (h.proper leaf.node (by simp)).leaf_value

theorem Operands.close (h : Operands kind val l) :
    ∃ n, close kind l = [n] ∧ Proper n ∧ ∀ v, QueryNodes.eval v n = val v := by
  match l, h with
  | [], h => exact absurd rfl h.ne_nil
  | [n], h =>
    refine ⟨n, rfl, h.proper n (by simp), fun v => ?_⟩
    rw [← h.eval v, map_cons, map_nil, combine_singleton]
  | first :: sec :: rest, h =>
    refine ⟨_, rfl, .operator _ _ (by simp) h.proper, fun v => ?_⟩
    rw [eval_operator, h.eval]

/-- On proper operands `NewOperator` returns one proper node with the operator's meaning. -/
theorem newOperator_proper (h : ∀ n ∈ ns, Proper n) (hne : ns ≠ []) (kind : OperatorKind) :
    ∃ n, newOperator ns kind = [n] ∧ Proper n ∧ ∀ v, eval v n = combine kind (ns.map (eval v)) := by
  have hops : Operands kind (fun v => combine kind (ns.map (eval v))) ns :=
    ⟨h, hne, fun _ => rfl⟩
  obtain ⟨l, hl, hn⟩ := newOperator_invariant hops fun l l' hl hc => hl.contracts hc
  rw [hn]
  exact hl.close

end QueryNodes
