import Sourcegraph.QueryNodes

/-! # Query plans

`BuildPlan` turns a query into a disjunction of basic queries by distributing Or over
parameters. Pattern expressions are not distributed. -/
namespace QueryPlan

open QueryNodes List

structure Basic where
  parameters : List Parameter
  pattern : Option Node

abbrev Plan := List Basic

def isPatternExpression (nodes : List Node) : Bool :=
  !(nodes.flatMap leaves).any Leaf.isParameter

/-- The first node of the reduced conjunction is taken without a check: `none` is the panic
if there is none. -/
def conjoinPatterns : Option Node → Option Node → Option (Option Node)
  | none, right => some right
  | some left, none => some (some left)
  | some left, some right => (newOperator [left, right] .and).head?.map some

def conjunction (left right : Basic) : Option Basic :=
  (conjoinPatterns left.pattern right.pattern).map fun pattern =>
    ⟨left.parameters ++ right.parameters, pattern⟩

def conjoinAll (toMerge : Basic) : List Basic → Option (List Basic)
  | [] => some []
  | basic :: rest =>
    (conjunction basic toMerge).bind fun merged => (conjoinAll toMerge rest).map (merged :: ·)

def product (basics : List Basic) (toMerge : Basic) : Option (List Basic) :=
  match basics with
  | [] => some [toMerge]
  | _ => conjoinAll toMerge basics

def products (prefixes : List Basic) : List Basic → Option (List Basic)
  | [] => some []
  | newBasic :: rest =>
    (product prefixes newBasic).bind fun merged => (products prefixes rest).map (merged ++ ·)

mutual
def distributeNode (prefixes : List Basic) : Node → Option (List Basic)
  | .operator kind operands =>
    if isPatternExpression operands then product prefixes ⟨[], some (.operator kind operands)⟩
    else match kind with
      | .or => distributeOr prefixes operands
      | .and => distribute prefixes operands
      | .concat => distribute prefixes operands
  | .parameter p => product prefixes ⟨[p], none⟩
  | .pattern p => product prefixes ⟨[], some (.pattern p)⟩
def distribute (prefixes : List Basic) : List Node → Option (List Basic)
  | [] => some prefixes
  | node :: rest => (distributeNode prefixes node).bind fun updated => distribute updated rest
def distributeOr (prefixes : List Basic) : List Node → Option (List Basic)
  | [] => some []
  | operand :: rest =>
    (distributeNode [] operand).bind fun newBasics =>
      (products prefixes newBasics).bind fun result =>
        (distributeOr prefixes rest).map (result ++ ·)
end

def buildPlan (query : List Node) : Option Plan := distribute [] query

def evalBasic (v : Leaf → Bool) (b : Basic) : Bool :=
  b.parameters.all (fun p => v (.parameter p)) && b.pattern.all (eval v)

def evalPlan (v : Leaf → Bool) (plan : Plan) : Bool := plan.any (evalBasic v)

/-- The truth of a list of prefixes, which constrains nothing while it is empty. -/
def evalPrefixes (v : Leaf → Bool) (prefixes : List Basic) : Bool :=
  prefixes.isEmpty || evalPlan v prefixes

def Sound (b : Basic) : Prop :=
  ∀ n, b.pattern = some n → Proper n ∧ ∀ leaf ∈ leaves n, leaf.isParameter = false

def SoundAll (basics : List Basic) : Prop := ∀ b ∈ basics, Sound b

theorem patternFree_newOperator (kind : OperatorKind)
    (h : ∀ leaf ∈ ns.flatMap leaves, leaf.isParameter = false) :
    ∀ leaf ∈ (newOperator ns kind).flatMap leaves, leaf.isParameter = false := by
  refine newOperator_leaves (P := fun ls => ∀ leaf ∈ ls, leaf.isParameter = false) kind h ?_
  intro pre leaf post _ hall x hx
  rcases mem_append.mp hx with hx | hx
  · exact hall x (mem_append_left _ hx)
  · exact hall x (mem_append_right _ (mem_cons_of_mem _ hx))

theorem conjunction_spec (hl : Sound left) (hr : Sound right) :
    ∃ b, conjunction left right = some b ∧ Sound b ∧
      ∀ v, evalBasic v b = (evalBasic v left && evalBasic v right) := by
  obtain ⟨lps, lpat⟩ := left
  obtain ⟨rps, rpat⟩ := right
  cases lpat with
  | none =>
    refine ⟨_, rfl, hr, fun v => ?_⟩
    simp [evalBasic, Bool.and_assoc]
  | some l =>
    cases rpat with
    | none =>
      refine ⟨_, rfl, hl, fun v => ?_⟩
      simp [evalBasic, Bool.and_assoc, Bool.and_comm]
    | some r =>
      obtain ⟨hlp, hlf⟩ := hl l rfl
      obtain ⟨hrp, hrf⟩ := hr r rfl
      obtain ⟨n, hn, hpro, hev⟩ := newOperator_proper
        (show ∀ x ∈ [l, r], Proper x by simpa using ⟨hlp, hrp⟩) (by simp) .and
      have hbo : ∀ leaf ∈ [l, r].flatMap leaves, leaf.isParameter = false := by
        simp only [flatMap_cons, flatMap_nil, append_nil, mem_append]
        rintro leaf (hx | hx)
        · exact hlf leaf hx
        · exact hrf leaf hx
      have hfr := patternFree_newOperator .and hbo
      refine ⟨⟨lps ++ rps, some n⟩, by simp [conjunction, conjoinPatterns, hn], ?_, fun v => ?_⟩
      · intro m hm
        obtain rfl := Option.some.inj hm
        rw [hn] at hfr
        exact ⟨hpro, by simpa using hfr⟩
      · simp only [evalBasic, all_append, Option.all_some, hev]
        simp only [combine, map_cons, map_nil, all_cons, all_nil, id, Bool.and_true]
        cases all lps fun p => v (.parameter p) <;> cases eval v l <;> simp

theorem conjoinAll_spec (hm : Sound tm) (hb : SoundAll bas) :
    ∃ r, conjoinAll tm bas = some r ∧ r.length = bas.length ∧ SoundAll r ∧
      ∀ v, evalPlan v r = (evalPlan v bas && evalBasic v tm) := by
  induction bas with
  | nil => exact ⟨[], rfl, rfl, by simp [SoundAll], fun v => by simp [evalPlan]⟩
  | cons basi rest ih =>
    obtain ⟨b, hbm, hsnd, hev⟩ := conjunction_spec (hb basi (by simp)) hm
    obtain ⟨r, hr, hlen, hall, heva⟩ := ih (forall_mem_cons.mp hb).2
    refine ⟨b :: r, by rw [conjoinAll, hbm, hr]; rfl, by simp [hlen],
      forall_mem_cons.mpr ⟨hsnd, hall⟩, fun v => ?_⟩
    have hrs := heva v
    unfold evalPlan at hrs ⊢
    rw [any_cons, any_cons, hev, hrs, Bool.and_or_distrib_right]

structure Extends (prefixes : List Basic) (condition : (Leaf → Bool) → Bool) (r : List Basic) :
    Prop where
  ne_nil : r ≠ []
  sound : SoundAll r
  eval : ∀ v, evalPlan v r = (evalPrefixes v prefixes && condition v)

theorem product_spec (hp : SoundAll pres) (hm : Sound tm) :
    ∃ r, product pres tm = some r ∧ Extends pres (evalBasic · tm) r := by
  cases pres with
  | nil =>
    refine ⟨[tm], rfl, by simp, by simpa [SoundAll] using hm, fun v => ?_⟩
    simp [evalPlan, evalPrefixes]
  | cons bas rest =>
    obtain ⟨r, hr, hlen, hall, hev⟩ := conjoinAll_spec hm hp
    refine ⟨r, hr, ?_, hall, fun v => ?_⟩
    · rintro rfl
      simp at hlen
    · rw [hev]
      simp [evalPrefixes]

theorem products_spec (hp : SoundAll pres) (hn : SoundAll nbs) :
    ∃ r, products pres nbs = some r ∧ (nbs ≠ [] → r ≠ []) ∧ SoundAll r ∧
      ∀ v, evalPlan v r = (evalPrefixes v pres && evalPlan v nbs) := by
  induction nbs with
  | nil => exact ⟨[], rfl, id, by simp [SoundAll], fun v => by simp [evalPlan]⟩
  | cons new rest ih =>
    obtain ⟨r, hr, hext⟩ := product_spec hp (hn new (by simp))
    obtain ⟨r', hr', _, hall, hev⟩ := ih (forall_mem_cons.mp hn).2
    refine ⟨r ++ r', by rw [products, hr, hr']; rfl, by simp [hext.ne_nil],
      forall_mem_append.mpr ⟨hext.sound, hall⟩, fun v => ?_⟩
    have hf := hext.eval v
    have hrs := hev v
    unfold evalPlan at hf hrs ⊢
    rw [any_append, any_cons, hf, hrs, Bool.and_or_distrib_left]

theorem distribute_spec (h : ∀ n ∈ ns, ∀ pres, SoundAll pres →
      ∃ r, distributeNode pres n = some r ∧ Extends pres (eval · n) r)
    (hp : SoundAll pres) :
    ∃ r, distribute pres ns = some r ∧ (ns ≠ [] → r ≠ []) ∧ SoundAll r ∧
      ∀ v, evalPrefixes v r = (evalPrefixes v pres && ns.all (eval v)) := by
  induction ns generalizing pres with
  | nil => exact ⟨pres, rfl, fun hne => absurd rfl hne, hp, fun v => by simp⟩
  | cons node rest ih =>
    obtain ⟨r, hr, hext⟩ := h node (by simp) pres hp
    obtain ⟨r', hr', hne, hall, hev⟩ := ih (forall_mem_cons.mp h).2 hext.sound
    refine ⟨r', by rw [distribute, hr]; exact hr', ?_, hall, fun v => ?_⟩
    · intro _
      cases rest with
      | nil =>
        obtain rfl := Option.some.inj hr'
        exact hext.ne_nil
      | cons n rest => exact hne (by simp)
    · have hr : evalPrefixes v r = evalPlan v r := by simp [evalPrefixes, hext.ne_nil]
      rw [hev, hr, hext.eval, all_cons, Bool.and_assoc]

theorem distributeOr_spec (h : ∀ n ∈ os, ∀ pres, SoundAll pres →
      ∃ r, distributeNode pres n = some r ∧ Extends pres (eval · n) r)
    (hp : SoundAll pres) :
    ∃ r, distributeOr pres os = some r ∧ (os ≠ [] → r ≠ []) ∧ SoundAll r ∧
      ∀ v, evalPlan v r = (evalPrefixes v pres && os.any (eval v)) := by
  induction os with
  | nil => exact ⟨[], rfl, fun hne => absurd rfl hne, by simp [SoundAll], fun v => by simp [evalPlan]⟩
  | cons od rest ih =>
    obtain ⟨nbs, hnew, hext⟩ := h od (by simp) [] (by simp [SoundAll])
    obtain ⟨r, hr, hne, hall, hev⟩ := products_spec hp hext.sound
    obtain ⟨r', hr', _, hall', hev'⟩ := ih (forall_mem_cons.mp h).2
    refine ⟨r ++ r', by rw [distributeOr, hnew, Option.bind_some, hr, hr']; rfl, ?_,
      forall_mem_append.mpr ⟨hall, hall'⟩, fun v => ?_⟩
    · simp [hne hext.ne_nil]
    · have hf := hev v
      have hrs := hev' v
      have hop := hext.eval v
      rw [hop] at hf
      unfold evalPlan at hf hrs ⊢
      rw [any_append, any_cons, hf, hrs, Bool.and_or_distrib_left]
      simp [evalPrefixes]

theorem distributeNode_spec (hn : Proper n) (hp : SoundAll pres) :
    ∃ r, distributeNode pres n = some r ∧ Extends pres (eval · n) r := by
  have hpat : ∀ n, Proper n → (∀ leaf ∈ leaves n, leaf.isParameter = false) →
      ∀ {pres}, SoundAll pres →
      ∃ r, product pres ⟨[], some n⟩ = some r ∧ Extends pres (eval · n) r := by
    intro n hn hfr pres hp
    have hsnd : Sound ⟨[], some n⟩ := by
      intro m hm
      obtain rfl := Option.some.inj hm
      exact ⟨hn, hfr⟩
    simpa [evalBasic] using product_spec hp hsnd
  induction hn generalizing pres with
  | pattern p h => exact hpat _ (.pattern p h) (by simp [leaves, Leaf.isParameter]) hp
  | parameter p h =>
    have hsnd : Sound ⟨[p], none⟩ := fun m hm => by cases hm
    simpa [evalBasic, distributeNode, eval] using product_spec hp hsnd
  | operator kind os hne h ih =>
    rw [distributeNode.eq_def]
    dsimp only
    split
    · rename_i hfr
      refine hpat _ (.operator kind os hne h) ?_ hp
      intro leaf hlf
      rw [leaves_operator] at hlf
      have hany : (os.flatMap leaves).any Leaf.isParameter = false := by
        rw [← Bool.not_eq_true']
        exact hfr
      simpa using any_eq_false.mp hany leaf hlf
    · have hand : ∃ r, distribute pres os = some r ∧ Extends pres (fun v => os.all (eval v)) r := by
        obtain ⟨r, hr, hrne, hall, hev⟩ := distribute_spec (fun n hn p hp => ih n hn hp) hp
        refine ⟨r, hr, hrne hne, hall, fun v => ?_⟩
        rw [← hev]
        simp [evalPrefixes, hrne hne]
      cases kind with
      | and | concat => simpa [eval, evalAll_eq] using hand
      | or =>
        obtain ⟨r, hr, hrne, hall, hev⟩ := distributeOr_spec (fun n hn p hp => ih n hn hp) hp
        refine ⟨r, hr, hrne hne, hall, fun v => ?_⟩
        rw [hev, eval, evalAny_eq]

/-- The plan of a non-empty query is a disjunction of basic queries that means the query. -/
theorem buildPlan_preserves_meaning (nodes : List Node) (hne : nodes ≠ [])
    (h : ∀ n ∈ nodes, Proper n) :
    ∃ plan, buildPlan nodes = some plan ∧ plan ≠ [] ∧
      (∀ b ∈ plan, ∀ n, b.pattern = some n → ∀ leaf ∈ leaves n, leaf.isParameter = false) ∧
      ∀ v, evalPlan v plan = nodes.all (eval v) := by
  obtain ⟨plan, hpl, hpne, hsnd, hev⟩ := distribute_spec
    (fun n hn pres hp => distributeNode_spec (h n hn) hp) (show SoundAll [] by simp [SoundAll])
  refine ⟨plan, hpl, hpne hne, fun b hb n hn => (hsnd b hb n hn).2, fun v => ?_⟩
  have hpl : evalPrefixes v plan = evalPlan v plan := by simp [evalPrefixes, hpne hne]
  rw [← hpl, hev]
  simp [evalPrefixes]

/-- `repo:a (b or repo:c)`. -/
theorem plan_of_nested_or :
    ∃ plan, buildPlan [.parameter { field := "repo", value := "a" },
        .operator .or [.pattern { value := "b" }, .parameter { field := "repo", value := "c" }]] =
      some plan ∧ plan ≠ [] ∧
      (∀ b ∈ plan, ∀ n, b.pattern = some n → ∀ leaf ∈ leaves n, leaf.isParameter = false) ∧
      ∀ v, evalPlan v plan = [Node.parameter { field := "repo", value := "a" },
        .operator .or [.pattern { value := "b" },
          .parameter { field := "repo", value := "c" }]].all (eval v) := by
  refine buildPlan_preserves_meaning _ (by simp) ?_
  intro n hn
  rcases mem_pair.mp hn with rfl | rfl
  · exact .parameter _ (by decide)
  refine .operator _ _ (by simp) ?_
  intro o ho
  rcases mem_pair.mp ho with rfl | rfl
  · exact .pattern _ (by decide)
  · exact .parameter _ (by decide)

/-- The empty query constrains nothing, but its plan has no basic query. -/
theorem plan_of_empty_query :
    buildPlan [] = some [] ∧ ∀ v, evalPlan v [] ≠ ([] : List Node).all (eval v) := by
  exact ⟨rfl, fun v => by simp [evalPlan]⟩

end QueryPlan
