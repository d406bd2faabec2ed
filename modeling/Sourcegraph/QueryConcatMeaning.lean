import Sourcegraph.QueryConcat

/-! # The meaning of whitespace

A Concat means the conjunction of its operands with each maximal run of patterns joined.
Substitution splices its parts into the enclosing operator, and that is a conjunction only if the
operator is one. -/
namespace QueryConcatMeaning

open QueryNodes QueryConcat List

inductive Joiner where
  | standard
  | space
  | fuzzyRegexp
  deriving DecidableEq

def Joiner.callback : Joiner → Callback
  | .standard => QueryConcat.standard
  | .space => QueryConcat.space
  | .fuzzyRegexp => QueryConcat.fuzzyRegexp

def plainPattern : Node → Option Pattern
  | .pattern p => if p.negated then none else some p
  | _ => none

/-- Trees without empty leaves or operators in which every Concat starts with a pattern that
is not negated. -/
inductive Joinable : Node → Prop
  | pattern (p : Pattern) (h : p.value ≠ "") : Joinable (.pattern p)
  | parameter (p : Parameter) (h : p.value ≠ "") : Joinable (.parameter p)
  | concat (p : Pattern) (rest : List Node) (hv : p.value ≠ "") (hp : p.negated = false)
    (h : ∀ o ∈ rest, Joinable o) : Joinable (.operator .concat (.pattern p :: rest))
  | and (operands : List Node) (hne : operands ≠ []) (h : ∀ o ∈ operands, Joinable o) :
    Joinable (.operator .and operands)
  | or (operands : List Node) (hne : operands ≠ []) (h : ∀ o ∈ operands, Joinable o) :
    Joinable (.operator .or operands)

/-- The truth of a run once it is joined; a run without patterns does not count. -/
def joined (callback : Callback) (v : Leaf → Bool) (mode : OperatorKind) (run : List Pattern) : Bool :=
  combine mode ((flush callback run).nodes.map (eval v))

mutual
/-- The truth of a node where `mode` is the operator which combines the parts of a Concat at
this place and `below` the one which combines them if the Concat is an operand of an Or. -/
def truth (callback : Callback) (v : Leaf → Bool) (below mode : OperatorKind) : Node → Bool
  | .pattern p => v (.pattern p)
  | .parameter p => v (.parameter p)
  | .operator .concat operands => truthRuns callback v below mode [] operands
  | .operator .and operands => truthAll callback v below operands
  | .operator .or operands => truthAny callback v below operands
def truthRuns (callback : Callback) (v : Leaf → Bool) (below mode : OperatorKind)
    (run : List Pattern) : List Node → Bool
  | [] => joined callback v mode run
  | node :: rest =>
    match plainPattern node with
    | some p => truthRuns callback v below mode (run ++ [p]) rest
    | none => combine mode [joined callback v mode run, truth callback v below mode node,
        truthRuns callback v below mode [] rest]
def truthAll (callback : Callback) (v : Leaf → Bool) (below : OperatorKind) : List Node → Bool
  | [] => true
  | node :: rest => truth callback v below .and node && truthAll callback v below rest
def truthAny (callback : Callback) (v : Leaf → Bool) (below : OperatorKind) : List Node → Bool
  | [] => false
  | node :: rest => truth callback v below below node || truthAny callback v below rest
end

/-- What a query means: every Concat is a conjunction. -/
def meaning (callback : Callback) (v : Leaf → Bool) (n : Node) : Bool :=
  truth callback v .and .and n

variable {run ps : List Pattern} {rest nodes operands l : List Node}

def Plain (p : Pattern) : Prop := p.value ≠ "" ∧ p.negated = false

def marked (p : Pattern) : Bool := p.value.toList.contains 't'

structure Joined (run result : List Pattern) : Prop where
  ne_nil : run ≠ [] → result ≠ []
  plain : (∀ p ∈ run, Plain p) → ∀ p ∈ result, Plain p
  uniform : ∀ b, (∀ p ∈ run, marked p = b) → ∀ p ∈ result, marked p = b

theorem Joined.append (h : Joined run res) (h' : Joined run' res') :
    Joined (run ++ run') (res ++ res') := by
  refine ⟨?_, ?_, ?_⟩
  · simp only [ne_eq, append_eq_nil_iff, not_and_or]
    exact Or.imp h.ne_nil h'.ne_nil
  · intro hp
    rw [forall_mem_append] at hp ⊢
    exact ⟨h.plain hp.1, h'.plain hp.2⟩
  · intro b hb
    rw [forall_mem_append] at hb ⊢
    exact ⟨h.uniform b hb.1, h'.uniform b hb.2⟩

theorem joined_nil : Joined [] [] := ⟨fun h => h, by simp, by simp⟩

theorem joined_self (p : Pattern) : Joined [p] [p] :=
  ⟨fun h => h, fun h => h, fun _ h => h⟩

theorem mem_intercalate (sep : String) (c : Char) (hc : c ∉ sep.toList) (val : List String) :
    c ∈ (sep.intercalate val).toList ↔ ∃ valu ∈ val, c ∈ valu.toList := by
  induction val with
  | nil => simp
  | cons valu rest ih =>
    cases rest with
    | nil => simp
    | cons next rest =>
      rw [String.intercalate_cons_cons, String.toList_append, String.toList_append]
      simp only [mem_append, hc, ih, mem_cons, exists_eq_or_imp]
      tauto

theorem joined_one (hne : run ≠ []) (hpl : (∀ q ∈ run, Plain q) → Plain p)
    (hmk : marked p = true ↔ ∃ q ∈ run, marked q = true) : Joined run [p] := by
  refine ⟨by simp, ?_, ?_⟩
  · intro hp q hq
    rw [mem_singleton.mp hq]
    exact hpl hp
  · intro b hb q hq
    rw [mem_singleton.mp hq]
    obtain ⟨first, hf⟩ := exists_mem_of_ne_nil run hne
    cases b with
    | true => exact hmk.mpr ⟨first, hf, hb first hf⟩
    | false =>
      by_contra hm
      obtain ⟨q, hq, hqm⟩ := hmk.mp (by simpa using hm)
      rw [hb q hq] at hqm
      cases hqm

theorem append_ne_empty (h : b ≠ "") : a ++ b ≠ "" := by
  intro he
  exact h (String.append_eq_empty_iff.mp he).2

theorem spacePattern_joined (first : Pattern) (rest : List Pattern) :
    Joined (first :: rest) [spacePattern first rest] := by
  cases rest with
  | nil => exact joined_self first
  | cons next rest =>
    refine joined_one (by simp) ?_ ?_
    · intro h
      refine ⟨?_, rfl⟩
      simp only [spacePattern, map_cons, String.intercalate_cons_cons]
      rw [String.append_assoc]
      exact append_ne_empty (by simp [String.append_eq_empty_iff])
    · simp only [marked, spacePattern, contains_iff_mem]
      rw [mem_intercalate " " 't' (by decide)]
      simp

theorem mem_quoteMeta : 't' ∈ (quoteMeta s).toList ↔ 't' ∈ s.toList := by
  rw [quoteMeta, String.toList_ofList, mem_flatMap]
  constructor
  · rintro ⟨c, hc, ht⟩
    split at ht
    · simp only [mem_cons, not_mem_nil, or_false] at ht
      rcases ht with h | rfl
      · exact absurd h (by decide)
      · exact hc
    · rwa [mem_singleton.mp ht]
  · intro h
    exact ⟨'t', h, by simp⟩

theorem fuzzyRegexp_joined (run : List Pattern) :
    ∃ res, fuzzyRegexp run = res.map .pattern ∧ Joined run res := by
  match run with
  | [] => exact ⟨[], rfl, joined_nil⟩
  | [p] => exact ⟨[p], rfl, joined_self p⟩
  | first :: sec :: rest =>
    refine ⟨[_], rfl, joined_one (by simp) ?_ ?_⟩
    · intro _
      exact ⟨append_ne_empty (by decide), rfl⟩
    · have hv : ∀ q : Pattern, 't' ∈ (if q.annotation.labels.literal = true then
          quoteMeta q.value else q.value).toList ↔ 't' ∈ q.value.toList := by
        intro q
        split
        · exact mem_quoteMeta
        · rfl
      have hop : 't' ∉ "(?:".toList := by decide
      have hcls : 't' ∉ ")".toList := by decide
      simp only [marked, contains_iff_mem, String.toList_append, mem_append,
        mem_intercalate ").*?(?:" 't' (by decide), hop, hcls, false_or, or_false,
        mem_map, exists_exists_and_eq_and, hv]

theorem space_joined (run : List Pattern) :
    ∃ res, space run = res.map .pattern ∧ Joined run res := by
  cases run with
  | nil => exact ⟨[], rfl, joined_nil⟩
  | cons first rest => exact ⟨[_], rfl, spacePattern_joined first rest⟩

theorem standardFrom_joined (lits rest : List Pattern) :
    ∃ res, standardFrom lits rest = res.map .pattern ∧ Joined (lits ++ rest) res := by
  induction rest generalizing lits with
  | nil => simpa [standardFrom] using space_joined lits
  | cons p rest ih =>
    rw [standardFrom]
    split
    · obtain ⟨before, hb, hjb⟩ := space_joined lits
      obtain ⟨after, ha, hja⟩ := ih []
      refine ⟨before ++ p :: after, by simp [hb, ha], ?_⟩
      exact hjb.append ((joined_self p).append hja)
    · simpa using ih (lits ++ [p])

theorem callback_joined (j : Joiner) (run : List Pattern) :
    ∃ res, j.callback run = res.map .pattern ∧ Joined run res := by
  cases j with
  | standard =>
    match run with
    | [] => exact ⟨[], rfl, joined_nil⟩
    | [p] => exact ⟨[p], rfl, joined_self p⟩
    | first :: sec :: rest => exact standardFrom_joined [] (first :: sec :: rest)
  | space => exact space_joined run
  | fuzzyRegexp => exact fuzzyRegexp_joined run

section Output

variable {j : Joiner}

theorem proper_callback (h : ∀ p ∈ run, Plain p) :
    ∀ n ∈ (flush j.callback run).nodes, Proper n := by
  intro n hn
  unfold flush at hn
  split at hn
  · cases hn
  obtain ⟨res, hr, hj⟩ := callback_joined j run
  rw [hr] at hn
  obtain ⟨p, hp, rfl⟩ := mem_map.mp hn
  exact .pattern p (hj.plain h p hp).1

theorem flush_ne_nil (h : run ≠ []) : (flush j.callback run).nodes ≠ [] := by
  obtain ⟨res, hr, hj⟩ := callback_joined j run
  simp [flush, h, hr, hj.ne_nil h]

theorem continues_eq_plainPattern (h : isPattern prv = true) (node : Node) :
    continues prv node = plainPattern node := by
  cases node with
  | pattern p =>
    have hpl : isPattern (.pattern p) = !p.negated := rfl
    simp only [continues, plainPattern, hpl, h]
    cases p.negated <;> rfl
  | _ => rfl

theorem plainPattern_eq_some (h : plainPattern node = some p) :
    node = .pattern p ∧ p.negated = false := by
  cases node with
  | pattern q =>
    cases hq : q.negated with
    | true => simp [plainPattern, hq] at h
    | false =>
      obtain rfl : q = p := by simpa [plainPattern, hq] using h
      exact ⟨rfl, hq⟩
  | _ => cases h

/-- The nodes a substitution returns: they are proper and, combined by the operator around
them, have the given truth. -/
structure Output (value : (Leaf → Bool) → OperatorKind → Bool) (s : Substituted) : Prop where
  proper : ∀ n ∈ s.nodes, Proper n
  eval : ∀ v mode, combine mode (s.nodes.map (eval v)) = value v mode

def Substitutes (j : Joiner) (n : Node) : Prop :=
  ∃ s, substituteNode j.callback n = some s ∧ s.nodes ≠ [] ∧
    Output (fun v mode => truth j.callback v .or mode n) s

theorem combine_append_three (as bs cs : List Bool) :
    combine mode (as ++ (bs ++ cs)) =
      combine mode [combine mode as, combine mode bs, combine mode cs] := by
  cases mode <;> simp [combine]

theorem substituteOperands_output (h : ∀ n ∈ rest, Joinable n ∧ Substitutes j n)
    (hpr : isPattern prv = true) (hps : ∀ p ∈ ps, Plain p) :
    ∃ s, substituteOperands j.callback prv ps rest = some s ∧ (ps ≠ [] → s.nodes ≠ []) ∧
      Output (fun v mode => truthRuns j.callback v .or mode ps rest) s := by
  induction rest generalizing prv ps with
  | nil => exact ⟨_, rfl, flush_ne_nil, proper_callback hps, fun _ _ => rfl⟩
  | cons node rest ih =>
    have hrs : ∀ n ∈ rest, Joinable n ∧ Substitutes j n := (forall_mem_cons.mp h).2
    rw [substituteOperands, continues_eq_plainPattern hpr]
    cases hp : plainPattern node with
    | some p =>
      obtain ⟨rfl, hneg⟩ := plainPattern_eq_some hp
      have hpl : ∀ q ∈ ps ++ [p], Plain q := by
        refine forall_mem_append.mpr ⟨hps, forall_mem_singleton.mpr ?_⟩
        cases (h (.pattern p) (by simp)).1 with
        | pattern _ hv => exact ⟨hv, hneg⟩
      obtain ⟨s, hs, hne, hout⟩ := ih hrs
        (show isPattern (.pattern p) = true by simp [isPattern, hneg]) hpl
      refine ⟨s, hs, fun _ => hne (by simp), hout.proper, fun v mode => ?_⟩
      rw [hout.eval, truthRuns, hp]
    | none =>
      obtain ⟨_, a, ha, hane, hao⟩ := h node (by simp)
      obtain ⟨b, hb, _, hbo⟩ := ih hrs hpr (show ∀ p ∈ ([] : List Pattern), Plain p by simp)
      refine ⟨_, by rw [ha, hb]; rfl, ?_, ?_, ?_⟩
      · simp [Substituted.append, hane]
      · intro n hn
        simp only [Substituted.append, mem_append] at hn
        rcases hn with hn | hn | hn
        · exact proper_callback hps n hn
        · exact hao.proper n hn
        · exact hbo.proper n hn
      · intro v mode
        simp only [Substituted.append, map_append]
        rw [combine_append_three, hao.eval, hbo.eval, truthRuns, hp]
        rfl

theorem substituteNodes_output (h : ∀ n ∈ nodes, Substitutes j n) :
    ∃ s, substituteNodes j.callback nodes = some s ∧ (nodes ≠ [] → s.nodes ≠ []) ∧
      Output (fun v mode => combine mode (nodes.map (truth j.callback v .or mode))) s := by
  induction nodes with
  | nil => exact ⟨_, rfl, fun hne => absurd rfl hne, by simp, fun _ _ => rfl⟩
  | cons node rest ih =>
    obtain ⟨a, ha, hane, hao⟩ := h node (by simp)
    obtain ⟨b, hb, _, hbo⟩ := ih (forall_mem_cons.mp h).2
    refine ⟨_, by rw [substituteNodes, ha, hb]; rfl, ?_, ?_, ?_⟩
    · simp [Substituted.append, hane]
    · exact forall_mem_append.mpr ⟨hao.proper, hbo.proper⟩
    · intro v mode
      simp only [Substituted.append, map_append]
      rw [combine_append, hao.eval, hbo.eval]
      cases mode <;> simp [combine]

theorem truthAll_eq (cb : Callback) (bl : OperatorKind) (nodes : List Node) :
    truthAll cb v bl nodes = combine .and (nodes.map (truth cb v bl .and)) := by
  induction nodes with
  | nil => rfl
  | cons node rest ih => rw [truthAll, ih]; simp [combine]

theorem truthAny_eq (cb : Callback) (bl : OperatorKind) (nodes : List Node) :
    truthAny cb v bl nodes = combine .or (nodes.map (truth cb v bl bl)) := by
  induction nodes with
  | nil => rfl
  | cons node rest ih => rw [truthAny, ih]; simp [combine]

/-- Substitution as a change of meaning: the parts of a Concat below an Or become operands
of the Or. -/
theorem substituteNode_output (hn : Joinable n) : Substitutes j n := by
  have hop : ∀ (kind : OperatorKind) (operands : List Node), operands ≠ [] →
      (∀ o ∈ operands, Substitutes j o) →
      ∃ s, (substituteNodes j.callback operands).map
          (fun s => (⟨newOperator s.nodes kind, s.invocations⟩ : Substituted)) = some s ∧
        s.nodes ≠ [] ∧ Output (fun v _ => combine kind (operands.map
          (truth j.callback v .or kind))) s := by
    intro kind operands hne hops
    obtain ⟨s, hs, hsne, hout⟩ := substituteNodes_output hops
    obtain ⟨n, hn, hpro, hev⟩ := newOperator_proper hout.proper (hsne hne) kind
    refine ⟨_, by rw [hs]; rfl, by simp [hn], ?_, ?_⟩
    · simpa [hn] using hpro
    · simp [hn, combine_singleton, hev, hout.eval]
  induction hn with
  | pattern p h =>
    exact ⟨_, rfl, by simp, by simpa using .pattern p h, fun v mode => combine_singleton mode⟩
  | parameter p h =>
    exact ⟨_, rfl, by simp, by simpa using .parameter p h, fun v mode => combine_singleton mode⟩
  | concat p rest hv hp h ih =>
    have hpl : ∀ q ∈ [p], Plain q := by simpa using ⟨hv, hp⟩
    obtain ⟨s, hs, hne, hout⟩ := substituteOperands_output (fun n hn => ⟨h n hn, ih n hn⟩)
      (show isPattern (.pattern p) = true by simp [isPattern, hp]) hpl
    refine ⟨s, hs, hne (by simp), hout.proper, fun v mode => ?_⟩
    rw [hout.eval, truth, truthRuns, show plainPattern (.pattern p) = some p by
      simp [plainPattern, hp]]
    rfl
  | and operands hne _ ih =>
    obtain ⟨s, hs, hsne, hout⟩ := hop .and operands hne ih
    exact ⟨s, hs, hsne, hout.proper, fun v mode => by rw [hout.eval, truth, truthAll_eq]⟩
  | or operands hne _ ih =>
    obtain ⟨s, hs, hsne, hout⟩ := hop .or operands hne ih
    exact ⟨s, hs, hsne, hout.proper, fun v mode => by rw [hout.eval, truth, truthAny_eq]⟩

theorem substituteConcat_truth (h : ∀ n ∈ nodes, Joinable n) :
    ∃ out, substituteConcat j.callback nodes = some out ∧
      ∀ v, out.all (eval v) = nodes.all (truth j.callback v .or .and) := by
  obtain ⟨s, hs, _, hout⟩ := substituteNodes_output fun n hn => substituteNode_output (h n hn)
  refine ⟨s.nodes, by rw [substituteConcat, hs]; rfl, fun v => ?_⟩
  have hall := hout.eval v .and
  simpa [combine] using hall

end Output

def regexpLabel : Node → Bool
  | .pattern p => p.annotation.labels.regexp
  | _ => false

def joinsToOne (j : Joiner) (operands : List Node) : Bool :=
  operands.all isPattern && match j with
    | .standard => operands.length == 1 || operands.all fun o => !regexpLabel o
    | _ => true

def orOperand (j : Joiner) : Node → Bool
  | .operator .concat inner => joinsToOne j inner
  | _ => true

mutual
def unspliced (j : Joiner) : Node → Bool
  | .pattern _ => true
  | .parameter _ => true
  | .operator .or operands => unsplicedAll j operands && operands.all (orOperand j)
  | .operator .and operands => unsplicedAll j operands
  | .operator .concat operands => unsplicedAll j operands
def unsplicedAll (j : Joiner) : List Node → Bool
  | [] => true
  | node :: rest => unspliced j node && unsplicedAll j rest
end

theorem unsplicedAll_eq (nodes : List Node) : unsplicedAll j nodes = nodes.all (unspliced j) := by
  induction nodes with
  | nil => rfl
  | cons node rest ih => rw [unsplicedAll, ih, all_cons]

theorem truthRuns_patterns (h : ∀ p ∈ ps, p.negated = false) (bl mode : OperatorKind)
    (run : List Pattern) :
    truthRuns cb v bl mode run (ps.map .pattern) = joined cb v mode (run ++ ps) := by
  induction ps generalizing run with
  | nil => rw [map_nil, truthRuns, append_nil]
  | cons p ps ih =>
    rw [map_cons, truthRuns, show plainPattern (.pattern p) = some p by
      simp [plainPattern, h p (by simp)]]
    dsimp only
    rw [ih (forall_mem_cons.mp h).2, append_assoc, singleton_append]

theorem patterns_of_all_isPattern (h : operands.all isPattern = true) :
    ∃ ps : List Pattern, operands = ps.map .pattern ∧ ∀ p ∈ ps, p.negated = false := by
  induction operands with
  | nil => exact ⟨[], rfl, by simp⟩
  | cons node rest ih =>
    rw [all_cons, Bool.and_eq_true] at h
    obtain ⟨ps, rfl, hps⟩ := ih h.2
    cases node with
    | pattern p =>
      have hp : p.negated = false := by simpa [isPattern] using h.1
      exact ⟨p :: ps, rfl, forall_mem_cons.mpr ⟨hp, hps⟩⟩
    | _ => cases h.1

theorem joined_one_mode (hone : (flush cb ps).nodes.length = 1) :
    joined cb v mode ps = joined cb v mode' ps := by
  obtain ⟨n, hn⟩ := length_eq_one_iff.mp hone
  simp [joined, hn, combine_singleton]

theorem callback_length_one (hne : ps ≠ []) (h : joinsToOne j (ps.map .pattern) = true) :
    (flush j.callback ps).nodes.length = 1 := by
  have hflu : (flush j.callback ps).nodes = j.callback ps := by simp [flush, hne]
  rw [hflu]
  cases ps with
  | nil => exact absurd rfl hne
  | cons first rest =>
    cases rest with
    | nil => cases j <;> rfl
    | cons sec rest =>
      cases j with
      | space | fuzzyRegexp => rfl
      | standard =>
        have hlit : ∀ p ∈ first :: sec :: rest, p.annotation.labels.regexp = false := by
          simp only [joinsToOne, Bool.and_eq_true, Bool.or_eq_true] at h
          rcases h.2 with hl | hl
          · simp at hl
          intro p hp
          have := all_eq_true.mp hl (.pattern p) (mem_map.mpr ⟨p, hp, rfl⟩)
          simpa [regexpLabel] using this
        have : Joiner.standard.callback (first :: sec :: rest) = space (first :: sec :: rest) :=
          standardFrom_literals hlit []
        rw [this]
        rfl

theorem truth_mode (ho : ∀ inn, o ≠ .operator .concat inn) (bl mode mode' : OperatorKind) :
    truth cb v bl mode o = truth cb v bl mode' o := by
  match o with
  | .pattern p => rfl
  | .parameter p => rfl
  | .operator .and operands => rfl
  | .operator .or operands => rfl
  | .operator .concat operands => exact absurd rfl (ho operands)

theorem truth_orOperand (hj : Joinable o) (ho : orOperand j o = true)
    (bl mode mode' : OperatorKind) :
    truth j.callback v bl mode o = truth j.callback v bl mode' o := by
  by_cases hc : ∀ inn, o ≠ .operator .concat inn
  · exact truth_mode hc bl mode mode'
  simp only [ne_eq, not_forall, not_not] at hc
  obtain ⟨inn, rfl⟩ := hc
  have hall : inn.all isPattern = true := by
    simp only [orOperand, joinsToOne, Bool.and_eq_true] at ho
    exact ho.1
  obtain ⟨ps, rfl, hps⟩ := patterns_of_all_isPattern hall
  have hne : ps ≠ [] := by
    rintro rfl
    cases hj
  rw [truth, truth, truthRuns_patterns hps, truthRuns_patterns hps]
  exact joined_one_mode (callback_length_one hne ho)

theorem truthRuns_congr (h : ∀ o ∈ rest, truth cb v bl mode o = truth cb v bl' mode o)
    (run : List Pattern) : truthRuns cb v bl mode run rest = truthRuns cb v bl' mode run rest := by
  induction rest generalizing run with
  | nil => rfl
  | cons node rest ih =>
    have hrs := ih (forall_mem_cons.mp h).2
    rw [truthRuns, truthRuns]
    cases plainPattern node with
    | some p => exact hrs _
    | none => simp [h node (by simp), hrs]

/-- If every Concat below an Or joins to one pattern, splicing keeps the meaning. -/
theorem unspliced_meaning (hj : Joinable n) (hn : unspliced j n = true) (v : Leaf → Bool) :
    truth j.callback v .or .and n = meaning j.callback v n := by
  unfold meaning
  induction hj with
  | pattern p _ | parameter p _ => rfl
  | concat p rest _ _ _ ih =>
    rw [unspliced, unsplicedAll_eq, all_cons, Bool.and_eq_true, all_eq_true] at hn
    refine truthRuns_congr ?_ []
    intro o ho
    rcases mem_cons.mp ho with rfl | ho
    · rfl
    · exact ih o ho (hn.2 o ho)
  | and operands _ _ ih =>
    rw [unspliced, unsplicedAll_eq, all_eq_true] at hn
    rw [truth, truth, truthAll_eq, truthAll_eq]
    refine congrArg _ (map_congr_left fun o ho => ih o ho (hn o ho))
  | or operands _ hops ih =>
    rw [unspliced, unsplicedAll_eq, Bool.and_eq_true, all_eq_true, all_eq_true] at hn
    rw [truth, truth, truthAny_eq, truthAny_eq]
    refine congrArg _ (map_congr_left fun o ho => ?_)
    rw [truth_orOperand (hops o ho) (hn.2 o ho) .or .or .and, ih o ho (hn.1 o ho)]

mutual
def relabel (f : Bool → String) : Node → Node
  | .pattern p => .pattern { p with value := f p.negated }
  | .parameter p => .parameter { p with value := f p.negated }
  | .operator kind operands => .operator kind (relabelAll f operands)
def relabelAll (f : Bool → String) : List Node → List Node
  | [] => []
  | node :: rest => relabel f node :: relabelAll f rest
end

def shape (n : Node) : Node := relabel (fun _ => "") n

def paint (b : Bool) (n : Node) : Node :=
  relabel (fun negated => if xor b negated then "t" else "f") n

def readMark : Leaf → Bool
  | .pattern p => xor p.negated (marked p)
  | .parameter p => xor p.negated (p.value.toList.contains 't')

section Necessity

variable {j : Joiner}

theorem relabelAll_eq (nodes : List Node) : relabelAll f nodes = nodes.map (relabel f) := by
  induction nodes with
  | nil => rfl
  | cons node rest ih => rw [relabelAll, ih, map_cons]

theorem relabel_operator (kind : OperatorKind) (operands : List Node) :
    relabel f (.operator kind operands) = .operator kind (operands.map (relabel f)) := by
  rw [relabel, relabelAll_eq]

theorem relabel_relabel : relabel f (relabel g n) = relabel f n := by
  induction n with
  | pattern p | parameter p => rfl
  | operator kind operands ih =>
    rw [relabel_operator, relabel_operator, relabel_operator, map_map]
    exact congrArg _ (map_congr_left fun o ho => ih o ho)

theorem shape_operator (kind : OperatorKind) (operands : List Node) :
    shape (.operator kind operands) = .operator kind (operands.map shape) :=
  relabel_operator kind operands

theorem paint_operator (kind : OperatorKind) (operands : List Node) :
    paint b (.operator kind operands) = .operator kind (operands.map (paint b)) :=
  relabel_operator kind operands

theorem shape_paint (b : Bool) (n : Node) : shape (paint b n) = shape n := relabel_relabel

theorem shape_map_paint (nodes : List Node) :
    (nodes.map (paint b)).map shape = nodes.map shape := by
  rw [map_map]
  exact map_congr_left fun n _ => shape_paint b n

theorem joinable_relabel (hf : ∀ b, f b ≠ "") (h : Joinable n) : Joinable (relabel f n) := by
  induction h with
  | pattern p _ => exact .pattern _ (hf _)
  | parameter p _ => exact .parameter _ (hf _)
  | concat p rest _ hp _ ih =>
    rw [relabel_operator]
    exact .concat _ _ (hf _) hp (forall_mem_map.mpr ih)
  | and operands hne _ ih =>
    rw [relabel_operator]
    exact .and _ (by simpa using hne) (forall_mem_map.mpr ih)
  | or operands hne _ ih =>
    rw [relabel_operator]
    exact .or _ (by simpa using hne) (forall_mem_map.mpr ih)

theorem joinable_paint (h : Joinable n) : Joinable (paint b n) := by
  refine joinable_relabel ?_ h
  intro nega
  split <;> decide

theorem joinable_map_paint (h : ∀ n ∈ nodes, Joinable n) : ∀ n ∈ nodes.map (paint b), Joinable n :=
  forall_mem_map.mpr fun n hn => joinable_paint (h n hn)

theorem combine_uniform (hne : bs ≠ []) (h : ∀ x ∈ bs, x = b) : combine mode bs = b := by
  have hb : bs = replicate bs.length b := eq_replicate_iff.mpr ⟨rfl, h⟩
  have hlen : bs.length ≠ 0 := by simpa using hne
  rw [hb]
  cases b <;> cases mode <;> simp [combine, hlen]

def Uniform (b : Bool) (run : List Pattern) : Prop := ∀ p ∈ run, Plain p ∧ marked p = b

theorem Uniform.eval (h : Uniform b run) : ∀ p ∈ run, eval readMark (.pattern p) = b := by
  intro p hp
  simp [QueryNodes.eval, readMark, (h p hp).1.2, (h p hp).2]

theorem Joined.keeps (hj : Joined run res) (h : Uniform b run) : Uniform b res := fun p hp =>
  ⟨hj.plain (fun q hq => (h q hq).1) p hp, hj.uniform b (fun q hq => (h q hq).2) p hp⟩

theorem joined_uniform (hne : run ≠ []) (h : Uniform b run) :
    joined j.callback readMark mode run = b := by
  obtain ⟨res, hr, hj⟩ := callback_joined j run
  have hns : (flush j.callback run).nodes = res.map .pattern := by simp [flush, hne, hr]
  rw [joined, hns, map_map]
  exact combine_uniform (by simpa using hj.ne_nil hne) (forall_mem_map.mpr (hj.keeps h).eval)

theorem combine_three (mode : OperatorKind) (hx : x = b ∨ x = combine mode [])
    (hy : y = b ∨ y = combine mode []) : combine mode [x, b, y] = b := by
  rcases hx with rfl | rfl <;> rcases hy with rfl | rfl <;>
    cases mode <;> simp [combine]

theorem truthRuns_uniform (hj : ∀ o ∈ rest, Joinable o)
    (h : ∀ o ∈ rest, truth j.callback readMark bl mode o = b) (hrun : Uniform b run)
    (hne : run ≠ [] ∨ rest ≠ []) : truthRuns j.callback readMark bl mode run rest = b := by
  induction rest generalizing run with
  | nil => exact joined_uniform (by simpa using hne) hrun
  | cons node rest ih =>
    have hrs : ∀ {run : List Pattern}, Uniform b run → run ≠ [] ∨ rest ≠ [] →
        truthRuns j.callback readMark bl mode run rest = b :=
      ih (forall_mem_cons.mp hj).2 fun o ho => h o (by simp [ho])
    rw [truthRuns]
    cases hp : plainPattern node with
    | some p =>
      obtain ⟨rfl, hneg⟩ := plainPattern_eq_some hp
      refine hrs (forall_mem_append.mpr ⟨hrun, forall_mem_singleton.mpr ?_⟩) (.inl (by simp))
      have hmk := h (.pattern p) (by simp)
      rw [truth, readMark, hneg, Bool.false_xor] at hmk
      cases hj (.pattern p) (by simp) with
      | pattern _ hv => exact ⟨⟨hv, hneg⟩, hmk⟩
    | none =>
      rw [h node (by simp)]
      refine combine_three mode ?_ ?_
      · by_cases hr : run = []
        · exact .inr (by simp [hr, joined, flush])
        · exact .inl (joined_uniform hr hrun)
      · by_cases hr : rest = []
        · exact .inr (by simp [hr, truthRuns, joined, flush])
        · exact .inl (hrs (by simp [Uniform]) (.inr hr))

theorem truth_paint (b : Bool) (h : Joinable n) (bl mode : OperatorKind) :
    truth j.callback readMark bl mode (paint b n) = b := by
  have hlf : ∀ nega, xor nega ((if xor b nega then "t" else "f").toList.contains 't')
      = b := by
    intro nega
    cases b <;> cases nega <;> rfl
  induction h generalizing mode with
  | pattern p _ | parameter p _ => exact hlf _
  | concat p rest hv hp hrs ih =>
    rw [paint_operator]
    have hf : Joinable (.pattern p) := .pattern p hv
    refine truthRuns_uniform ?_ ?_ (by simp [Uniform]) (.inr (by simp))
    · exact joinable_map_paint (forall_mem_cons.mpr ⟨hf, hrs⟩)
    · exact forall_mem_map.mpr (forall_mem_cons.mpr ⟨hlf _, fun o ho => ih o ho mode⟩)
  | and operands hne _ ih =>
    rw [paint_operator, truth, truthAll_eq, map_map]
    exact combine_uniform (by simpa using hne) (forall_mem_map.mpr fun o ho => ih o ho _)
  | or operands hne _ ih =>
    rw [paint_operator, truth, truthAny_eq, map_map]
    exact combine_uniform (by simpa using hne) (forall_mem_map.mpr fun o ho => ih o ho _)

theorem truthRuns_split (h : plainPattern node = none) (before after : List Node)
    (run : List Pattern) :
    truthRuns cb v bl mode run (before ++ node :: after) =
      combine mode [truthRuns cb v bl mode run before, truth cb v bl mode node,
        truthRuns cb v bl mode [] after] := by
  induction before generalizing run with
  | nil => simp [truthRuns, h]
  | cons first before ih =>
    rw [cons_append, truthRuns, truthRuns]
    cases plainPattern first with
    | some p => exact ih _
    | none =>
      rw [ih]
      cases mode <;> simp [combine, Bool.and_assoc, Bool.or_assoc]

theorem plainPattern_of_unspliced (h : unspliced j o = false) (hs : shape o' = shape o) :
    plainPattern o' = none := by
  cases o with
  | operator kind operands =>
    cases o' with
    | operator _ _ | parameter p => rfl
    | pattern p =>
      cases hs
  | _ => cases h

theorem exists_unspliced (h : unsplicedAll j operands = false) :
    ∃ before o after, operands = before ++ o :: after ∧ unspliced j o = false := by
  rw [unsplicedAll_eq, all_eq_false] at h
  obtain ⟨o, ho, hb⟩ := h
  obtain ⟨before, after, rfl⟩ := append_of_mem ho
  exact ⟨before, o, after, rfl, by simpa using hb⟩

theorem shape_around {kind : OperatorKind} {before after : List Node} {o o' : Node} (b c : Bool)
    (h : shape o' = shape o) :
    shape (.operator kind (before.map (paint b) ++ o' :: after.map (paint c))) =
      shape (.operator kind (before ++ o :: after)) := by
  simp only [shape_operator, map_append, map_cons, shape_map_paint, h]

theorem joinable_around {after : List Node} (b c : Bool)
    (h : ∀ x ∈ before ++ o :: after, Joinable x) (ho : Joinable o') :
    ∀ x ∈ before.map (paint b) ++ o' :: after.map (paint c), Joinable x := by
  obtain ⟨hbef, haft⟩ := forall_mem_append.mp h
  exact forall_mem_append.mpr ⟨joinable_map_paint hbef,
    forall_mem_cons.mpr ⟨ho, joinable_map_paint (forall_mem_cons.mp haft).2⟩⟩

theorem truthRuns_map_paint (b : Bool) (h : ∀ n ∈ nodes, Joinable n) (hne : nodes ≠ [])
    (bl mode : OperatorKind) :
    truthRuns j.callback readMark bl mode [] (nodes.map (paint b)) = b := by
  refine truthRuns_uniform (joinable_map_paint h) ?_ (by simp [Uniform]) (.inr (by simpa using hne))
  exact forall_mem_map.mpr fun n hn => truth_paint b (h n hn) bl mode

variable {after before : List Node}

theorem joinable_concat_around
    (hj : Joinable (.operator .concat (.pattern p :: before ++ o :: after))) (ho : Joinable o') :
    Joinable (.operator .concat
      ((.pattern p :: before).map (paint true) ++ o' :: after.map (paint c))) := by
  cases hj with
  | concat _ _ hv hp h =>
    refine .concat _ _ ?_ hp (joinable_around true c h ho)
    dsimp only
    split <;> decide

/-- A tree of the same shape is false before and true after the substitution. -/
def Separated (callback : Callback) (n : Node) : Prop :=
  ∃ n', shape n' = shape n ∧ Joinable n' ∧ meaning callback readMark n' = false ∧
    truth callback readMark .or .or n' = true

theorem not_pattern_separates
    (hj : Joinable (.operator .concat (.pattern p :: before ++ x :: after)))
    (hx : isPattern x = false) :
    Separated j.callback (.operator .concat (.pattern p :: before ++ x :: after)) := by
  have hpl : plainPattern (paint false x) = none := by
    cases x with
    | pattern q =>
      have hq : q.negated = true := by simpa [isPattern] using hx
      simp [paint, relabel, plainPattern, hq]
    | parameter q => rfl
    | operator kind operands => rfl
  have hops : ∀ o ∈ .pattern p :: before ++ x :: after, Joinable o := by
    cases hj with
    | concat _ _ hv hp h => exact forall_mem_cons.mpr ⟨.pattern p hv, h⟩
  have hbef : ∀ o ∈ .pattern p :: before, Joinable o :=
    (forall_mem_append.mp hops).1
  have hxj : Joinable x := hops x (by simp)
  refine ⟨_, shape_around true false (shape_paint false x),
    joinable_concat_around hj (joinable_paint hxj), ?_, ?_⟩
  · rw [meaning, truth, truthRuns_split hpl, truth_paint false hxj]
    simp [combine]
  · rw [truth, truthRuns_split hpl, truthRuns_map_paint true hbef (by simp)]
    simp [combine]

theorem standardFrom_split (hp : p.annotation.labels.regexp = true)
    (lits before after : List Pattern) :
    standardFrom lits (before ++ p :: after) =
      standardFrom lits before ++ .pattern p :: standardFrom [] after := by
  induction before generalizing lits with
  | nil => simp [standardFrom, hp]
  | cons q before ih =>
    rw [cons_append, standardFrom, standardFrom]
    split
    · rw [ih, append_assoc, cons_append]
    · exact ih _

def paintPattern (b : Bool) (p : Pattern) : Pattern :=
  { p with value := if xor b p.negated then "t" else "f" }

theorem uniform_paintPattern (b : Bool) (h : ∀ p ∈ ps, p.negated = false) :
    Uniform b (ps.map (paintPattern b)) := by
  refine forall_mem_map.mpr fun p hp => ?_
  have hn := h p hp
  refine ⟨⟨?_, hn⟩, ?_⟩
  · simp only [paintPattern]
    split <;> decide
  · cases b <;> simp [marked, paintPattern, hn]

theorem standardFrom_unmarked (h : Uniform false ps) (hne : ps ≠ []) :
    ∃ n ∈ standardFrom [] ps, eval readMark n = false := by
  obtain ⟨res, hr, hj⟩ := standardFrom_joined [] ps
  obtain ⟨p, hp⟩ := exists_mem_of_ne_nil _ (hj.ne_nil hne)
  exact ⟨.pattern p, hr ▸ mem_map_of_mem hp, (hj.keeps h).eval p hp⟩

theorem flush_standard (h : 2 ≤ ps.length) : (flush standard ps).nodes = standardFrom [] ps := by
  match ps, h with
  | first :: sec :: rest, _ => rfl

theorem joinable_patterns (hne : ps ≠ []) (h : ∀ p ∈ ps, Plain p) :
    Joinable (.operator .concat (ps.map .pattern)) := by
  cases ps with
  | nil => exact absurd rfl hne
  | cons p ps =>
    obtain ⟨hp, hps⟩ := forall_mem_cons.mp h
    exact .concat p _ hp.1 hp.2 (forall_mem_map.mpr fun q hq => .pattern q (hps q hq).1)

theorem map_paint_pattern :
    (ps.map Node.pattern).map (paint b) = (ps.map (paintPattern b)).map .pattern := by
  rw [map_map, map_map]
  rfl

/-- A run with a regexp is not joined to one pattern: mark the regexp only. -/
theorem regexp_separates {before after : List Pattern}
    (hneg : ∀ q ∈ before ++ p :: after, q.negated = false) (hp : p.annotation.labels.regexp = true)
    (hlen : before ≠ [] ∨ after ≠ []) :
    Separated standard (.operator .concat ((before ++ p :: after).map .pattern)) := by
  obtain ⟨hb, hpc⟩ := forall_mem_append.mp hneg
  obtain ⟨hpn, hc⟩ := forall_mem_cons.mp hpc
  have hub := uniform_paintPattern false hb
  have huc := uniform_paintPattern false hc
  have hup := uniform_paintPattern true (forall_mem_singleton.mpr hpn)
  let run := before.map (paintPattern false) ++
    paintPattern true p :: after.map (paintPattern false)
  have hpl : ∀ q ∈ run, Plain q := by
    refine forall_mem_append.mpr ⟨fun q hq => (hub q hq).1, ?_⟩
    exact forall_mem_cons.mpr ⟨(hup _ (by simp)).1, fun q hq => (huc q hq).1⟩
  have hns : (flush standard run).nodes =
      standardFrom [] (before.map (paintPattern false)) ++
        .pattern (paintPattern true p) :: standardFrom [] (after.map (paintPattern false)) := by
    have hlo : 2 ≤ run.length := by
      have hcn : 0 < before.length ∨ 0 < after.length :=
        hlen.imp length_pos_iff.mpr length_pos_iff.mpr
      simp only [run, length_append, length_cons, length_map]
      omega
    rw [← standardFrom_split (by exact hp), flush_standard hlo]
  have ht := hup.eval _ mem_cons_self
  refine ⟨.operator .concat (run.map .pattern), ?_, joinable_patterns (by simp [run]) hpl, ?_, ?_⟩
  · have hs := @shape_around .concat (before.map .pattern) (after.map .pattern) (.pattern p)
      (.pattern (paintPattern true p)) false false rfl
    simpa only [map_paint_pattern, run, map_append, map_cons] using hs
  · rw [meaning, truth, truthRuns_patterns fun q hq => (hpl q hq).2, nil_append, joined, hns]
    have hff : ∃ n ∈ standardFrom [] (before.map (paintPattern false)) ++
        .pattern (paintPattern true p) :: standardFrom [] (after.map (paintPattern false)),
        eval readMark n = false := by
      rcases hlen with hne | hne
      · obtain ⟨n, hn, hf⟩ := standardFrom_unmarked hub (by simpa using hne)
        exact ⟨n, by simp [hn], hf⟩
      obtain ⟨n, hn, hf⟩ := standardFrom_unmarked huc (by simpa using hne)
      exact ⟨n, by simp [hn], hf⟩
    obtain ⟨n, hn, hf⟩ := hff
    exact all_eq_false.mpr ⟨_, mem_map.mpr ⟨n, hn, rfl⟩, by simp [hf]⟩
  · rw [truth, truthRuns_patterns fun q hq => (hpl q hq).2, nil_append, joined, hns]
    simp [combine, ht]

theorem orOperand_separates (hj : Joinable o) (ho : orOperand j o = false) :
    Separated j.callback o := by
  cases hj with
  | concat p rest hv hp h =>
    have hj : Joinable (.operator .concat (.pattern p :: rest)) := .concat p rest hv hp h
    have hf : isPattern (.pattern p) = true := by simp [isPattern, hp]
    cases hall : (Node.pattern p :: rest).all isPattern with
    | false =>
      obtain ⟨x, hmem, hx⟩ := all_eq_false.mp hall
      obtain ⟨before, after, he⟩ := append_of_mem hmem
      cases before with
      | nil =>
        obtain ⟨rfl, _⟩ := cons.inj he
        exact absurd hf hx
      | cons q before =>
        obtain ⟨rfl, rfl⟩ := cons.inj he
        exact not_pattern_separates hj (by simpa using hx)
    | true =>
      obtain ⟨ps, he, hps⟩ := patterns_of_all_isPattern hall
      rw [he] at hall ho ⊢
      simp only [orOperand, joinsToOne, hall, Bool.true_and] at ho
      cases j with
      | standard =>
        simp only [Bool.or_eq_false_iff, length_map, beq_eq_false_iff_ne] at ho
        obtain ⟨n, hn, hreg⟩ := all_eq_false.mp ho.2
        obtain ⟨q, hq, rfl⟩ := mem_map.mp hn
        obtain ⟨before, after, rfl⟩ := append_of_mem hq
        refine regexp_separates hps (by simpa [regexpLabel] using hreg) ?_
        by_contra hnil
        rw [not_or, not_not, not_not] at hnil
        exact ho.1 (by simp [hnil])
      | space | fuzzyRegexp => cases ho
  | pattern p _ | parameter p _ | and operands _ _ | or operands _ _ => cases ho

theorem combine_around (kind : OperatorKind) (b : Bool) (hb : combine kind [] = b)
    (h : ∀ x ∈ before ++ o :: after, Joinable x) (bl mode : OperatorKind) :
    combine kind ((before.map (paint b) ++ o' :: after.map (paint b)).map
      (truth j.callback readMark bl mode)) = truth j.callback readMark bl mode o' := by
  have hpai : ∀ nodes : List Node, (∀ x ∈ nodes, Joinable x) →
      (nodes.map (paint b)).map (truth j.callback readMark bl mode) =
        replicate nodes.length b := by
    intro nodes hn
    rw [map_map, ← map_const']
    exact map_congr_left fun x hx => truth_paint b (hn x hx) bl mode
  rw [map_append, map_cons, hpai before fun x hx => h x (by simp [hx]),
    hpai after fun x hx => h x (by simp [hx])]
  subst hb
  cases kind <;> simp [combine, all_replicate, any_replicate]

/-- A tree in which a Concat is spliced into an Or has the shape of a tree that is false
before and true after the substitution. -/
theorem spliced_separates (hj : Joinable n) (hn : unspliced j n = false) :
    ∃ n', shape n' = shape n ∧ Joinable n' ∧ meaning j.callback readMark n' = false ∧
      ∀ mode, truth j.callback readMark .or mode n' = true := by
  induction hj with
  | pattern p _ | parameter p _ => cases hn
  | concat p rest hv hp h ih =>
    have hj : Joinable (.operator .concat (.pattern p :: rest)) := .concat p rest hv hp h
    rw [unspliced, unsplicedAll] at hn
    obtain ⟨before, o, after, rfl, ho⟩ := exists_unspliced hn
    obtain ⟨o', hs, hj', hm, ht⟩ := ih o (by simp) ho
    have hpl := plainPattern_of_unspliced ho hs
    have hbef : ∀ x ∈ .pattern p :: before, Joinable x :=
      forall_mem_cons.mpr ⟨.pattern p hv, fun x hx => h x (by simp [hx])⟩
    refine ⟨_, shape_around true true hs, joinable_concat_around hj hj', ?_, ?_⟩
    · rw [meaning] at hm
      rw [meaning, truth, truthRuns_split hpl, hm]
      simp [combine]
    · intro mode
      rw [truth, truthRuns_split hpl, ht, truthRuns_map_paint true hbef (by simp)]
      refine combine_three mode (.inl rfl) ?_
      by_cases hnil : after = []
      · exact .inr (by simp [hnil, truthRuns, joined, flush])
      · exact .inl (truthRuns_map_paint true (fun x hx => h x (by simp [hx])) hnil _ _)
  | and operands hne h ih =>
    obtain ⟨before, o, after, rfl, ho⟩ := exists_unspliced hn
    obtain ⟨o', hs, hj', hm, ht⟩ := ih o (by simp) ho
    refine ⟨_, shape_around true true hs, .and _ (by simp) (joinable_around true true h hj'), ?_, ?_⟩
    · rw [meaning, truth, truthAll_eq, combine_around .and true rfl h]
      exact hm
    · intro mode
      rw [truth, truthAll_eq, combine_around .and true rfl h]
      exact ht .and
  | or operands hne h ih =>
    have hcls : ∀ before o after, operands = before ++ o :: after → Separated j.callback o →
        ∃ n', shape n' = shape (.operator .or operands) ∧ Joinable n' ∧
          meaning j.callback readMark n' = false ∧
          ∀ mode, truth j.callback readMark .or mode n' = true := by
      rintro before o after rfl ⟨o', hs, hj', hm, ht⟩
      refine ⟨_, shape_around false false hs,
        .or _ (by simp) (joinable_around false false h hj'), ?_, ?_⟩
      · rw [meaning, truth, truthAny_eq, combine_around .or false rfl h]
        exact hm
      · intro mode
        rw [truth, truthAny_eq, combine_around .or false rfl h]
        exact ht
    rw [unspliced, Bool.and_eq_false_iff] at hn
    rcases hn with hn | hn
    · obtain ⟨before, o, after, he, ho⟩ := exists_unspliced hn
      obtain ⟨o', hs, hj', hm, ht⟩ := ih o (by simp [he]) ho
      exact hcls before o after he ⟨o', hs, hj', hm, ht .or⟩
    obtain ⟨o, hmem, ho⟩ := all_eq_false.mp hn
    obtain ⟨before, after, he⟩ := append_of_mem hmem
    exact hcls before o after he (orOperand_separates (h o hmem) (by simpa using ho))

theorem all_congr_mem (h : ∀ x ∈ l, p x = q x) : l.all p = l.all q := by
  rw [Bool.eq_iff_iff, all_eq_true, all_eq_true]
  exact forall₂_congr fun x hx => by rw [h x hx]

theorem unspliced_relabel (f : Bool → String) (n : Node) :
    unspliced j (relabel f n) = unspliced j n := by
  have hpat : ∀ n, isPattern (relabel f n) = isPattern n := by
    intro n
    cases n <;> simp [relabel, isPattern]
  have hre : ∀ n, regexpLabel (relabel f n) = regexpLabel n := by
    intro n
    cases n <;> simp [relabel, regexpLabel]
  have hor : ∀ n, orOperand j (relabel f n) = orOperand j n := by
    intro n
    cases n with
    | pattern p | parameter p => rfl
    | operator kind inn =>
      cases kind with
      | and | or => rfl
      | concat =>
        rw [relabel_operator]
        simp only [orOperand, joinsToOne, all_map, length_map, Function.comp_def, hpat, hre]
  have hall : ∀ operands : List Node, (∀ o ∈ operands, unspliced j (relabel f o) = unspliced j o) →
      unsplicedAll j (operands.map (relabel f)) = unsplicedAll j operands := by
    intro operands ih
    rw [unsplicedAll_eq, unsplicedAll_eq, all_map]
    exact all_congr_mem ih
  induction n with
  | pattern p | parameter p => rfl
  | operator kind operands ih =>
    rw [relabel_operator]
    cases kind with
    | and | concat => exact hall operands ih
    | or =>
      rw [unspliced, unspliced, hall operands ih, all_map]
      simp only [Function.comp_def, hor]

theorem unspliced_of_shape (h : shape n' = shape n) : unspliced j n' = unspliced j n := by
  rw [← unspliced_relabel (fun _ => "") n', ← unspliced_relabel (fun _ => "") n]
  exact congrArg _ h

end Necessity

def PreservesMeaning (callback : Callback) (nodes : List Node) : Prop :=
  ∀ v : Leaf → Bool, ∃ out, substituteConcat callback nodes = some out ∧
    out.all (eval v) = nodes.all (meaning callback v)

/-- Whitespace substitution preserves meaning, for a query and for all queries of its shape,
exactly when every Concat directly below an Or joins to one pattern. -/
theorem substituteConcat_preserves_iff (j : Joiner) (nodes : List Node)
    (h : ∀ n ∈ nodes, Joinable n) :
    (nodes.all (unspliced j) = true ↔
      ∀ nodes' : List Node, nodes'.map shape = nodes.map shape → (∀ n ∈ nodes', Joinable n) →
        PreservesMeaning j.callback nodes') := by
  constructor
  · intro hn nodes' hs hj v
    obtain ⟨out, hout, hev⟩ := substituteConcat_truth hj
    refine ⟨out, hout, ?_⟩
    rw [hev]
    refine all_congr_mem ?_
    intro n' hn'
    obtain ⟨n, hmem, hsha⟩ : ∃ n ∈ nodes, shape n' = shape n := by
      have hm : shape n' ∈ nodes.map shape := hs ▸ mem_map.mpr ⟨n', hn', rfl⟩
      obtain ⟨n, hmem, he⟩ := mem_map.mp hm
      exact ⟨n, hmem, he.symm⟩
    have hun := all_eq_true.mp hn n hmem
    exact unspliced_meaning (hj n' hn') (by rw [unspliced_of_shape hsha, hun]) v
  · intro hall
    by_contra hn
    rw [Bool.not_eq_true, all_eq_false] at hn
    obtain ⟨n, hmem, hun⟩ := hn
    obtain ⟨before, after, rfl⟩ := append_of_mem hmem
    obtain ⟨n', hs, hj', hm, ht⟩ := spliced_separates (h n hmem) (by simpa using hun)
    have hja := joinable_around true true h hj'
    obtain ⟨out, hout, hev⟩ := hall (before.map (paint true) ++ n' :: after.map (paint true))
      (by simp only [map_append, map_cons, shape_map_paint, hs]) hja readMark
    obtain ⟨out', hout', hev'⟩ := substituteConcat_truth hja
    obtain rfl : out' = out := Option.some.inj (hout'.symm.trans hout)
    have htru : ∀ bl, (before.map (paint true) ++ n' :: after.map (paint true)).all
        (truth j.callback readMark bl .and) = truth j.callback readMark bl .and n' := by
      intro bl
      have hcom : ∀ (l : List Node) (f : Node → Bool), l.all f = combine .and (l.map f) := by
        simp [combine, all_map]
      rw [hcom, combine_around .and true rfl h]
    have hm' : truth j.callback readMark .and .and n' = false := hm
    have hev'' := (hev' readMark).symm.trans hev
    unfold meaning at hev''
    rw [htru, htru, ht, hm'] at hev''
    cases hev''

def notTerm (value : String) : Node := .pattern { value := value, negated := true }

theorem joinable_or_concat (hn : Joinable n) :
    ∀ q ∈ [Node.operator .or [.operator .concat [term "a", n], term "c"]], Joinable q := by
  refine forall_mem_singleton.mpr (.or _ (by simp) (forall_mem_cons.mpr ⟨?_, ?_⟩))
  · exact .concat _ _ (by decide) rfl (forall_mem_singleton.mpr hn)
  · exact forall_mem_singleton.mpr (.pattern _ (by decide))

/-- `a not b or c`: the two parts of the first operand become operands of the Or. -/
theorem negated_pattern_spliced :
    (∀ n ∈ [Node.operator .or [.operator .concat [term "a", notTerm "b"], term "c"]], Joinable n) ∧
    ¬ PreservesMeaning Joiner.standard.callback
      [.operator .or [.operator .concat [term "a", notTerm "b"], term "c"]] := by
  constructor
  · exact joinable_or_concat (.pattern _ (by decide))
  · intro h
    obtain ⟨out, hout, hev⟩ := h fun leaf => leaf == .pattern { value := "a" }
    obtain rfl := Option.some.inj hout
    exact absurd hev (by decide)

theorem plain_patterns_preserved :
    PreservesMeaning Joiner.standard.callback
      [.operator .or [.operator .concat [term "a", term "b"], term "c"]] := by
  have hj := @joinable_or_concat (term "b") (.pattern _ (by decide))
  exact (substituteConcat_preserves_iff .standard _ hj).mp rfl _ rfl hj

end QueryConcatMeaning
