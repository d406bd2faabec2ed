import Sourcegraph.QueryNodes

/-! # Whitespace substitution

`substituteConcat` replaces every Concat operator by the patterns it joins. A callback
decides how a run of patterns is joined; its invocations are recorded with the nodes. -/
namespace QueryConcat

open QueryNodes List

abbrev Callback := List Pattern → List Node

/-- `regexp.QuoteMeta`. -/
def quoteMeta (s : String) : String :=
  .ofList (s.toList.flatMap fun c =>
    if c ∈ ['\\', '.', '+', '*', '?', '(', ')', '|', '[', ']', '\x7b', '\x7d', '^', '$'] then
      ['\\', c]
    else [c])

/-- The three callbacks are never invoked with an empty run, for which they would index
out of range. -/
def fuzzyRegexp : Callback
  | [] => []
  | [p] => [.pattern p]
  | patterns =>
    let values := patterns.map fun p =>
      if p.annotation.labels.literal then quoteMeta p.value else p.value
    [.pattern { value := "(?:" ++ String.intercalate ").*?(?:" values ++ ")"
                annotation := { labels := { regexp := true } } }]

def spacePattern (first : Pattern) (rest : List Pattern) : Pattern :=
  match rest with
  | [] => first
  | _ => { value := String.intercalate " " (first.value :: rest.map (·.value))
           annotation := first.annotation }

def space : Callback
  | [] => []
  | first :: rest => [.pattern (spacePattern first rest)]

/-- The loop of `standard` over a run, with the literals accumulated so far. -/
def standardFrom : List Pattern → List Pattern → List Node
  | literals, [] => space literals
  | literals, p :: rest =>
    if p.annotation.labels.regexp then space literals ++ .pattern p :: standardFrom [] rest
    else standardFrom (literals ++ [p]) rest

def standard : Callback
  | [p] => [.pattern p]
  | patterns => standardFrom [] patterns

def isPattern : Node → Bool
  | .pattern p => !p.negated
  | _ => false

def continues (previous node : Node) : Option Pattern :=
  match node with
  | .pattern p => if isPattern node && isPattern previous then some p else none
  | _ => none

structure Substituted where
  nodes : List Node
  invocations : List (List Pattern)

def Substituted.append (a b : Substituted) : Substituted :=
  ⟨a.nodes ++ b.nodes, a.invocations ++ b.invocations⟩

def flush (callback : Callback) (ps : List Pattern) : Substituted :=
  if ps.isEmpty then ⟨[], []⟩ else ⟨callback ps, [ps]⟩

def firstRun : Node → List Pattern
  | .pattern p => [p]
  | _ => []

mutual
/-- `none` is the panic of a Concat without operands. -/
def substituteNode (callback : Callback) : Node → Option Substituted
  | .pattern p => some ⟨[.pattern p], []⟩
  | .parameter p => some ⟨[.parameter p], []⟩
  | .operator .concat [] => none
  | .operator .concat (first :: rest) =>
    substituteOperands callback first (firstRun first) rest
  | .operator .and operands =>
    (substituteNodes callback operands).map fun s => ⟨newOperator s.nodes .and, s.invocations⟩
  | .operator .or operands =>
    (substituteNodes callback operands).map fun s => ⟨newOperator s.nodes .or, s.invocations⟩
def substituteNodes (callback : Callback) : List Node → Option Substituted
  | [] => some ⟨[], []⟩
  | node :: rest =>
    (substituteNode callback node).bind fun a => (substituteNodes callback rest).map a.append
/-- The operands of a Concat after its first one, given the last operand that joined a run
and the pending run. -/
def substituteOperands (callback : Callback) (previous : Node) (ps : List Pattern) :
    List Node → Option Substituted
  | [] => some (flush callback ps)
  | node :: rest =>
    match continues previous node with
    | some p => substituteOperands callback node (ps ++ [p]) rest
    | none =>
      (substituteNode callback node).bind fun a =>
        (substituteOperands callback previous [] rest).map fun b =>
          (flush callback ps).append (a.append b)
end

def substituteConcat (callback : Callback) (nodes : List Node) : Option (List Node) :=
  (substituteNodes callback nodes).map (·.nodes)

/-- Each leaf is kept, or it is part of one run that is handed to the callback and replaced by the
leaves of its result, of which only empty ones may be missing. -/
inductive Accounted (callback : Callback) : List Leaf → List (List Pattern) → List Leaf → Prop
  | nil : Accounted callback [] [] []
  | kept (leaf : Leaf) {ls : List Leaf} {invocations : List (List Pattern)} {out : List Leaf}
    (h : Accounted callback ls invocations out) :
    Accounted callback (leaf :: ls) invocations (leaf :: out)
  | merged (run : List Pattern) (produced : List Leaf) {ls : List Leaf}
    {invocations : List (List Pattern)} {out : List Leaf}
    (hsub : produced.Sublist ((callback run).flatMap leaves))
    (hkeep : (((callback run).flatMap leaves).filter (·.value ≠ "")).Sublist produced)
    (h : Accounted callback ls invocations out) :
    Accounted callback (run.map .pattern ++ ls) (run :: invocations) (produced ++ out)

variable {before after : List Leaf}

theorem standardFrom_literals {rest : List Pattern}
    (h : ∀ p ∈ rest, p.annotation.labels.regexp = false) (lits : List Pattern) :
    standardFrom lits rest = space (lits ++ rest) := by
  induction rest generalizing lits with
  | nil => rw [standardFrom, append_nil]
  | cons p rest ih =>
    rw [standardFrom, if_neg (by simp [h p (by simp)]), ih (forall_mem_cons.mp h).2,
      append_assoc, singleton_append]

theorem Accounted.append (h : Accounted cb ls inv out) (h' : Accounted cb ls' inv' out')
    : Accounted cb (ls ++ ls') (inv ++ inv') (out ++ out') := by
  induction h with
  | nil => exact h'
  | kept leaf _ ih => exact .kept leaf ih
  | merged run pro hsub hke _ ih =>
    rw [append_assoc, append_assoc]
    exact .merged run pro hsub hke ih

theorem sublist_drop_empty {kept : List Leaf} (he : leaf.value = "")
    (h : (kept.filter (·.value ≠ "")).Sublist (before ++ leaf :: after)) :
    (kept.filter (·.value ≠ "")).Sublist (before ++ after) := by
  have hf := h.filter (·.value ≠ "")
  rw [filter_append, filter_cons_of_neg (by simp [he]), ← filter_append] at hf
  simpa using hf.trans filter_sublist

/-- Dropping an empty leaf from the output keeps the account of a sequence without empty
leaves: the leaf comes from the callback. -/
theorem Accounted.drop (h : Accounted cb ls inv out) (hne : ∀ leaf ∈ ls, leaf.value ≠ "")
    (ho : out = before ++ leaf :: after) (he : leaf.value = "") :
    Accounted cb ls inv (before ++ after) := by
  induction h generalizing before with
  | nil => simp at ho
  | kept first _ ih =>
    cases before with
    | nil =>
      obtain ⟨rfl, _⟩ := cons.inj ho
      exact absurd he (hne first (by simp))
    | cons b before =>
      obtain ⟨rfl, hrs⟩ := cons.inj ho
      exact .kept first (ih (forall_mem_cons.mp hne).2 hrs)
  | merged run pro hsub hke h ih =>
    rcases append_eq_append_iff.mp ho with ⟨mid, rfl, hrs⟩ | ⟨mid, rfl, hrs⟩
    · rw [append_assoc]
      exact .merged run pro hsub hke (ih (fun x hx => hne x (by simp [hx])) hrs)
    cases mid with
    | nil =>
      rw [append_nil] at hsub hke
      exact .merged run before hsub hke
        (ih (fun x hx => hne x (by simp [hx])) (show _ = [] ++ leaf :: after from hrs.symm))
    | cons m mid =>
      rw [cons_append] at hrs
      obtain ⟨rfl, rfl⟩ := hrs
      rw [← append_assoc]
      refine .merged run (before ++ mid) ?_ (sublist_drop_empty he hke) h
      exact (Sublist.append_left (sublist_cons_self _ _) before).trans hsub

theorem accounted_flush (cb : Callback) (ps : List Pattern) :
    Accounted cb (ps.map .pattern) (flush cb ps).invocations
      ((flush cb ps).nodes.flatMap leaves) := by
  cases ps with
  | nil => exact .nil
  | cons p ps =>
    simpa [flush] using Accounted.merged (p :: ps) _ (Sublist.refl _) filter_sublist
      (@Accounted.nil cb)

theorem Accounted.newOperator (h : Accounted cb ls inv (ns.flatMap leaves))
    (hne : ∀ leaf ∈ ls, leaf.value ≠ "") (kind : OperatorKind) :
    Accounted cb ls inv ((newOperator ns kind).flatMap leaves) :=
  newOperator_leaves kind h fun _ _ _ he hacc => hacc.drop hne rfl he

theorem Accounted.identity (h : Accounted cb ls inv out)
    (hid : ∀ ps, cb ps = ps.map .pattern) (hne : ∀ leaf ∈ ls, leaf.value ≠ "") : out = ls := by
  induction h with
  | nil => rfl
  | kept leaf _ ih => rw [ih (forall_mem_cons.mp hne).2]
  | merged run pro hsub hke _ ih =>
    have hrun : (cb run).flatMap leaves = run.map .pattern := by
      rw [hid, flatMap_map]
      exact map_eq_flatMap.symm
    have hall : ((cb run).flatMap leaves).filter (·.value ≠ "") =
        (cb run).flatMap leaves := by
      rw [hrun, filter_eq_self]
      intro leaf hmem
      simpa using hne leaf (mem_append_left _ hmem)
    rw [hall] at hke
    rw [hsub.antisymm hke, hrun, ih (forall_mem_append.mp hne).2]

/-- Every Concat that is visited has a first operand, which is a pattern or has no leaves. -/
inductive KeepsFirst : Node → Prop
  | pattern (p : Pattern) : KeepsFirst (.pattern p)
  | parameter (p : Parameter) : KeepsFirst (.parameter p)
  | concat (first : Node) (rest : List Node)
    (hfirst : (∃ p, first = .pattern p) ∨ leaves first = [])
    (h : ∀ o ∈ rest, KeepsFirst o) : KeepsFirst (.operator .concat (first :: rest))
  | and (operands : List Node) (h : ∀ o ∈ operands, KeepsFirst o) :
    KeepsFirst (.operator .and operands)
  | or (operands : List Node) (h : ∀ o ∈ operands, KeepsFirst o) :
    KeepsFirst (.operator .or operands)

theorem firstRun_leaves (h : (∃ p, first = .pattern p) ∨ leaves first = []) :
    (firstRun first).map Leaf.pattern = leaves first := by
  rcases h with ⟨p, rfl⟩ | h
  · rfl
  cases first with
  | pattern p | parameter p => simp [leaves] at h
  | operator kind os => rw [h]; rfl

theorem continues_eq_some (h : continues prv node = some p) : node = .pattern p := by
  cases node with
  | pattern q =>
    simp only [continues] at h
    split at h
    · rw [Option.some.inj h]
    · cases h
  | _ => cases h

def Accounts (callback : Callback) (input : List Leaf) (outcome : Option Substituted) : Prop :=
  ∃ s, outcome = some s ∧ Accounted callback input s.invocations (s.nodes.flatMap leaves)

theorem substituteNodes_accounts (h : ∀ n ∈ ns, Accounts cb (leaves n) (substituteNode cb n)) :
    Accounts cb (ns.flatMap leaves) (substituteNodes cb ns) := by
  induction ns with
  | nil => exact ⟨_, rfl, .nil⟩
  | cons node rest ih =>
    obtain ⟨a, ha, hacc⟩ := h node (by simp)
    obtain ⟨b, hb, hacc'⟩ := ih (forall_mem_cons.mp h).2
    refine ⟨a.append b, by rw [substituteNodes, ha, hb]; rfl, ?_⟩
    simpa [Substituted.append] using hacc.append hacc'

theorem substituteOperands_accounts
    (h : ∀ n ∈ rest, Accounts cb (leaves n) (substituteNode cb n)) (prv : Node)
    (ps : List Pattern) : Accounts cb (ps.map .pattern ++ rest.flatMap leaves)
      (substituteOperands cb prv ps rest) := by
  induction rest generalizing prv ps with
  | nil => exact ⟨_, rfl, by simpa using accounted_flush cb ps⟩
  | cons node rest ih =>
    have hrs : ∀ n ∈ rest, Accounts cb (leaves n) (substituteNode cb n) :=
      (forall_mem_cons.mp h).2
    rw [substituteOperands]
    split
    · rename_i p hp
      rw [continues_eq_some hp]
      simpa [leaves] using ih hrs (.pattern p) (ps ++ [p])
    obtain ⟨a, ha, hacc⟩ := h node (by simp)
    obtain ⟨b, hb, hacc'⟩ := ih hrs prv []
    refine ⟨_, by rw [ha, hb]; rfl, ?_⟩
    simpa [Substituted.append] using (accounted_flush cb ps).append (hacc.append hacc')

theorem substituteNode_accounts (hn : KeepsFirst n) (hne : ∀ leaf ∈ leaves n, leaf.value ≠ "") :
    Accounts cb (leaves n) (substituteNode cb n) := by
  have hop : ∀ (kind : OperatorKind) (os : List Node),
      Accounts cb (os.flatMap leaves) (substituteNodes cb os) →
      (∀ leaf ∈ os.flatMap leaves, leaf.value ≠ "") →
      Accounts cb (os.flatMap leaves) ((substituteNodes cb os).map
        fun s => ⟨newOperator s.nodes kind, s.invocations⟩) := by
    rintro kind os ⟨s, hs, hacc⟩ hne
    exact ⟨_, by rw [hs]; rfl, hacc.newOperator hne kind⟩
  induction hn with
  | pattern p | parameter p => exact ⟨_, rfl, .kept _ .nil⟩
  | concat first rest hf _ ih =>
    rw [leaves_operator, flatMap_cons] at hne ⊢
    rw [← firstRun_leaves hf]
    refine substituteOperands_accounts (fun n hn => ih n hn fun leaf hl => ?_) first _
    exact hne leaf (mem_append_right _ (mem_flatMap.mpr ⟨n, hn, hl⟩))
  | and os _ ih | or os _ ih =>
    rw [leaves_operator] at hne ⊢
    exact hop _ _ (substituteNodes_accounts fun n hn => ih n hn fun leaf hl =>
      hne leaf (mem_flatMap.mpr ⟨n, hn, hl⟩)) hne

def identity : Callback := fun ps => ps.map .pattern

theorem flush_identity_leaves : (flush identity ps).nodes.flatMap leaves = ps.map .pattern := by
  cases ps with
  | nil => rfl
  | cons p ps =>
    simp only [flush, identity, isEmpty_cons, Bool.false_eq_true, if_false, flatMap_map]
    exact map_eq_flatMap.symm

theorem firstRun_length_le (first : Node) : (firstRun first).length ≤ (leaves first).length := by
  cases first <;> simp [firstRun, leaves]

theorem first_of_firstRun_length (h : (firstRun first).length = (leaves first).length) :
    (∃ p, first = .pattern p) ∨ leaves first = [] := by
  cases first with
  | pattern p => exact .inl ⟨p, rfl⟩
  | parameter p => simp [firstRun, leaves] at h
  | operator kind os => exact .inr (eq_nil_of_length_eq_zero h.symm)

/-- How many leaves come out of an identity substitution: none are added, and if none are
missing then the given property holds. -/
def Bounded (total : ℕ) (outcome : Option Substituted) (complete : Prop) : Prop :=
  ∀ s, outcome = some s → (s.nodes.flatMap leaves).length ≤ total ∧
    ((s.nodes.flatMap leaves).length = total → complete)

theorem substituteNodes_bounded
    (h : ∀ n ∈ ns, Bounded (leaves n).length (substituteNode identity n) (KeepsFirst n)) :
    Bounded (ns.flatMap leaves).length (substituteNodes identity ns) (∀ n ∈ ns, KeepsFirst n) := by
  induction ns with
  | nil =>
    intro s hs
    obtain rfl := Option.some.inj hs
    exact ⟨Nat.le_refl _, fun _ => by simp⟩
  | cons node rest ih =>
    intro s hs
    obtain ⟨a, ha, hs⟩ := Option.bind_eq_some_iff.mp hs
    obtain ⟨b, hb, rfl⟩ := Option.map_eq_some_iff.mp hs
    obtain ⟨hle, heq⟩ := h node (by simp) a ha
    obtain ⟨hle', heq'⟩ := ih (forall_mem_cons.mp h).2 b hb
    simp only [Substituted.append, flatMap_append, flatMap_cons, length_append]
    refine ⟨by omega, fun htot => ?_⟩
    exact forall_mem_cons.mpr ⟨heq (by omega), heq' (by omega)⟩

theorem substituteOperands_bounded
    (h : ∀ n ∈ rest, Bounded (leaves n).length (substituteNode identity n) (KeepsFirst n))
    (prv : Node) (ps : List Pattern) : Bounded (ps.length + (rest.flatMap leaves).length)
      (substituteOperands identity prv ps rest) (∀ n ∈ rest, KeepsFirst n) := by
  induction rest generalizing prv ps with
  | nil =>
    intro s hs
    obtain rfl := Option.some.inj hs
    simp [flush_identity_leaves]
  | cons node rest ih =>
    have hrs : ∀ n ∈ rest, Bounded (leaves n).length (substituteNode identity n) (KeepsFirst n) :=
      (forall_mem_cons.mp h).2
    intro s hs
    rw [substituteOperands] at hs
    split at hs
    · rename_i p hp
      obtain ⟨hle, heq⟩ := ih hrs node (ps ++ [p]) s hs
      rw [continues_eq_some hp] at *
      simp only [length_append, length_singleton, flatMap_cons, leaves] at hle heq ⊢
      refine ⟨by omega, fun htot => ?_⟩
      exact forall_mem_cons.mpr ⟨.pattern p, heq (by omega)⟩
    obtain ⟨a, ha, hs⟩ := Option.bind_eq_some_iff.mp hs
    obtain ⟨b, hb, rfl⟩ := Option.map_eq_some_iff.mp hs
    obtain ⟨hle, heq⟩ := h node (by simp) a ha
    obtain ⟨hle', heq'⟩ := ih hrs prv [] b hb
    simp only [Substituted.append, flatMap_append, flatMap_cons, length_append,
      flush_identity_leaves, length_map, length_nil] at hle' heq' ⊢
    refine ⟨by omega, fun htot => ?_⟩
    exact forall_mem_cons.mpr ⟨heq (by omega), heq' (by omega)⟩

theorem substituteNode_bounded :
    Bounded (leaves n).length (substituteNode identity n) (KeepsFirst n) := by
  have hop : ∀ (kind : OperatorKind) (os : List Node) (cpl cpl' : Prop),
      Bounded (os.flatMap leaves).length (substituteNodes identity os) cpl →
      (cpl → cpl') →
      Bounded (os.flatMap leaves).length ((substituteNodes identity os).map
        fun s => ⟨newOperator s.nodes kind, s.invocations⟩) cpl' := by
    intro kind os cpl cpl' hb himp s hs
    obtain ⟨a, ha, rfl⟩ := Option.map_eq_some_iff.mp hs
    obtain ⟨hle, heq⟩ := hb a ha
    have hnew : ((newOperator a.nodes kind).flatMap leaves).length ≤
        (a.nodes.flatMap leaves).length := by
      refine newOperator_leaves (P := fun ls => ls.length ≤ _) kind (Nat.le_refl _) ?_
      intro before leaf after _ h
      simp only [length_append, length_cons] at h ⊢
      omega
    dsimp only
    exact ⟨by omega, fun htot => himp (heq (by omega))⟩
  induction n with
  | pattern p =>
    intro s hs
    obtain rfl := Option.some.inj hs
    exact ⟨Nat.le_refl _, fun _ => .pattern p⟩
  | parameter p =>
    intro s hs
    obtain rfl := Option.some.inj hs
    exact ⟨Nat.le_refl _, fun _ => .parameter p⟩
  | operator kind os ih =>
    rw [leaves_operator]
    cases kind with
    | and => exact hop _ _ _ _ (substituteNodes_bounded ih) (.and os)
    | or => exact hop _ _ _ _ (substituteNodes_bounded ih) (.or os)
    | concat =>
      cases os with
      | nil =>
        intro s hs
        cases hs
      | cons first rest =>
        intro s hs
        have hf := firstRun_length_le first
        obtain ⟨hle, heq⟩ := substituteOperands_bounded (forall_mem_cons.mp ih).2 first
          (firstRun first) s hs
        simp only [flatMap_cons, length_append]
        refine ⟨by omega, fun htot => ?_⟩
        exact .concat first rest (first_of_firstRun_length (by omega)) (heq (by omega))

/-- Whatever the callback, the substitution returns and each leaf is kept or handed to one callback;
the one that returns its patterns leaves the leaves as they are. -/
def NoTermLost (nodes : List Node) : Prop :=
  ∀ callback : Callback, ∃ s, substituteNodes callback nodes = some s ∧
    Accounted callback (nodes.flatMap leaves) s.invocations (s.nodes.flatMap leaves) ∧
    (callback = identity → s.nodes.flatMap leaves = nodes.flatMap leaves)

/-- No term is lost exactly when no Concat starts with a parameter or a group. -/
theorem no_term_lost_iff (nodes : List Node)
    (hne : ∀ leaf ∈ nodes.flatMap leaves, leaf.value ≠ "") :
    NoTermLost nodes ↔ ∀ n ∈ nodes, KeepsFirst n := by
  constructor
  · intro h
    obtain ⟨s, hs, _, hid⟩ := h identity
    exact (substituteNodes_bounded (fun n _ => substituteNode_bounded) s hs).2
      (congrArg length (hid rfl))
  · intro h cb
    have hns : Accounts cb (nodes.flatMap leaves) (substituteNodes cb nodes) :=
      substituteNodes_accounts fun n hn => substituteNode_accounts (h n hn) fun leaf hl =>
        hne leaf (mem_flatMap.mpr ⟨n, hn, hl⟩)
    obtain ⟨s, hs, hacc⟩ := hns
    refine ⟨s, hs, hacc, ?_⟩
    rintro rfl
    exact hacc.identity (fun _ => rfl) hne

def term (value : String) : Node := .pattern { value := value }

/-- `(a or b) c`: the group is neither kept nor handed to the callback. -/
theorem leading_group_lost :
    ¬ NoTermLost [.operator .concat [.operator .or [term "a", term "b"], term "c"]] := by
  intro h
  obtain ⟨s, hs, _, hid⟩ := h identity
  obtain rfl := Option.some.inj hs
  exact absurd (hid rfl) (by decide)

theorem trailing_group_kept :
    NoTermLost [.operator .concat [term "a", .operator .or [term "b", term "c"]]] := by
  refine (no_term_lost_iff _ (by decide)).mpr ?_
  refine forall_mem_singleton.mpr ?_
  refine .concat _ _ (.inl ⟨_, rfl⟩) ?_
  refine forall_mem_singleton.mpr ?_
  refine .or _ ?_
  intro o ho
  rcases mem_pair.mp ho with rfl | rfl <;> exact .pattern _

end QueryConcat
