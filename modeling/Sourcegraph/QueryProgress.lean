import Sourcegraph.QueryPanics

/-! # Progress of the parser

Every iteration and every recursive call goes on behind the position of the one before it, and no
panic is reached. -/
namespace QueryProgress

open GoStrings QueryScanners QueryTransform QueryParser QueryRuns List Relation

/-- The iterations and calls that follow a call. -/
inductive Enters : Call × Parser → Call × Parser → Prop
  | leaf {label start nodes p label' leaf q}
    (h : leafStep label start nodes p = (.collect label' leaf, q)) :
    Enters (.leaves label start nodes, p) (.leaves label' start (nodes ++ [leaf.node]), q)
  | group {label start nodes p q} (h : leafStep label start nodes p = (.group, q)) :
    Enters (.leaves label start nodes, p) (.level .or, q)
  | resume {label start nodes p q fuel result r} (h : leafStep label start nodes p = (.group, q))
    (inner : call fuel q (.level .or) = (.ok result, r)) :
    Enters (.leaves label start nodes, p) (.leaves label start (nodes ++ result), r)
  | operand {level p} : Enters (.level level, p) (level.operand p, p)
  | operator {level p fuel nodes q} (left : call fuel p (level.operand p) = (.ok nodes, q))
    (h : q.matchesText level.keyword = true) :
    Enters (.level level, p) (.level level, expectOperator q level.keyword)

theorem call_frame (h : call fuel p c = (r, q)) : ∃ es, Frame p q es := by
  have hrun := run_call fuel p c
  rw [h] at hrun
  exact hrun.frame

theorem Enters.frame (h : Enters s t) : (∃ es, Frame s.2 t.2 es) ∧
    (s.2.pos < t.2.pos ∨ ∃ lv, s.1 = .level lv ∧ t = (lv.operand s.2, s.2)) := by
  cases h with
  | leaf h =>
    obtain ⟨es, ho⟩ := leafStep_outcome h
    exact ⟨⟨es, ho.frame⟩, .inl (by cases ho <;> assumption)⟩
  | group h =>
    obtain ⟨es, ho⟩ := leafStep_outcome h
    exact ⟨⟨es, ho.frame⟩, .inl ho.group_progress⟩
  | resume h inn =>
    obtain ⟨es, ho⟩ := leafStep_outcome h
    obtain ⟨es', hf⟩ := call_frame inn
    exact ⟨⟨_, ho.frame.trans hf⟩, .inl (Nat.lt_of_lt_of_le ho.group_progress hf.le)⟩
  | operand => exact ⟨⟨[], (Forward.refl _).frame⟩, .inr ⟨_, rfl, rfl⟩⟩
  | operator left h =>
    obtain ⟨es, hf⟩ := call_frame left
    exact ⟨⟨_, hf.trans (expectOperator_frame h)⟩,
      .inl (Nat.lt_of_le_of_lt hf.le (expectOperator_progress _ _))⟩

structure Progresses (input : Bytes) (s : Call × Parser) : Prop where
  bound : s.2.pos ≤ input.length
  iteration : ∀ label start nodes step q, s.1 = .leaves label start nodes →
    leafStep label start nodes s.2 = (step, q) → q.pos ≤ input.length
  enters : ∀ t, Enters s t →
    s.2.pos < t.2.pos ∨ ∃ level, s.1 = .level level ∧ t = (level.operand s.2, s.2)

theorem reached_progresses {p : Parser} (hp : p.pos ≤ p.buf.length)
    (h : ReflTransGen Enters (c, p) s) : Progresses p.buf s := by
  have hs : ∃ es, Frame p s.2 es := by
    induction h with
    | refl => exact ⟨[], (Forward.refl p).frame⟩
    | tail _ h ih =>
      obtain ⟨es, hf⟩ := ih
      obtain ⟨es', hf'⟩ := h.frame.1
      exact ⟨_, hf.trans hf'⟩
  obtain ⟨es, hf⟩ := hs
  refine ⟨hf.bound hp, fun lb start ns step q _ hst => ?_, fun t ht => ht.frame.2⟩
  obtain ⟨es', ho⟩ := leafStep_outcome hst
  exact (hf.trans ho.frame).bound hp

theorem parseOr_terminates (input : Bytes) (st : SearchType) (heuristics : Heuristics) :
    (parseOr (enoughFuel input) ⟨input, heuristics, 0, 0, st, []⟩).1 ≠ .error .outOfFuel :=
  (run_call (enoughFuel input) ⟨input, heuristics, 0, 0, st, []⟩ (.level .or)).enough_fuel
    (Nat.zero_le _) (Nat.le_refl _)

theorem parse_terminates (input : Bytes) (st : SearchType) :
    parse input st ≠ .error .outOfFuel := by
  have hma := parseOr_terminates input st { parensAsPatterns := true }
  intro h
  unfold parse at h
  split at h
  · cases h
  split at h
  · unfold retry at h
    split at h <;> cases h
  · rename_i hrun
    cases h
    exact hma (congrArg Prod.fst hrun)
  · split at h
    · unfold retry at h
      split at h <;> cases h
    · unfold finish at h
      dsimp only at h
      split at h <;> cases h

/-- Whatever the heuristics and the bytes, the parser moves forward in its buffer until it
returns, and it does not panic on its way. -/
theorem parser_progresses (input : Bytes) (searchType : SearchType) (heuristics : Heuristics) :
    (∀ s, ReflTransGen Enters (.level .or, ⟨input, heuristics, 0, 0, searchType, []⟩) s →
      Progresses input s) ∧
    (parseOr (enoughFuel input) ⟨input, heuristics, 0, 0, searchType, []⟩).1 ≠
      .error .outOfFuel ∧
    parse input searchType ≠ .error .outOfFuel ∧
    QueryPanics.parseOr (enoughFuel input) ⟨input, heuristics, 0, 0, searchType, []⟩ =
      some (parseOr (enoughFuel input) ⟨input, heuristics, 0, 0, searchType, []⟩) ∧
    QueryPanics.parse input searchType = some (parse input searchType) :=
  ⟨fun _ hs => reached_progresses (Nat.zero_le _) hs, parseOr_terminates _ _ _,
    parse_terminates _ _, QueryPanics.parseOr_eq _ _, QueryPanics.parse_eq _ _⟩

end QueryProgress
