import Sourcegraph.QueryRuns

/-! # Where the parser finds operators

`parseLeaves` stops at a keyword only if whitespace delimits it, but also after the closing
parenthesis of a group, where `parseAnd` and `parseOr` consume the letters that follow without
looking at their neighbours. -/
namespace QueryOperators

open GoStrings QueryNodes QueryParser QueryRuns QueryTransform List

def startsWith (buf : Bytes) (i : ℕ) (keyword : Keyword) : Bool :=
  equalFold (((runes (buf.drop i)).take keyword.text.length).map Rune.char) keyword.text

def whitespaceAt (buf : Bytes) (i : ℕ) : Bool := (buf[i]?).any fun b => isSpace (decodeRune [b]).1

/-- What `matchKeyword` demands of the neighbours of a keyword. -/
def Delimited (buf : Bytes) (keyword : Keyword) (start : ℕ) : Prop :=
  start ≠ 0 ∧ whitespaceAt buf (start - 1) = true ∧
    whitespaceAt buf (start + keyword.text.length) = true

instance (buf : Bytes) (keyword : Keyword) (start : ℕ) : Decidable (Delimited buf keyword start) :=
  inferInstanceAs (Decidable (_ ∧ _ ∧ _))

theorem matchesText_eq (p : Parser) (kw : Keyword) :
    p.matchesText kw = startsWith p.buf p.pos kw := by
  unfold Parser.matchesText Parser.peek startsWith Parser.rest
  split
  · rename_i h
    split at h
    · symm
      rw [Bool.eq_false_iff, equalFold, ne_eq, beq_iff_eq]
      intro he
      have := congrArg length he
      simp only [length_map, length_take] at this
      omega
    · cases h
  · rename_i v h
    split at h
    · cases h
    · rw [Option.some.inj h]

theorem startsWith_taken (h : startsWith buf i kw = true) :
    ∃ tk left, runes (buf.drop i) = tk ++ left ∧ tk.map (fun r => foldRune r.char) = kw.text := by
  have hm := matchesText_eq ⟨buf, {}, i, 0, .standard, []⟩ kw
  rw [h] at hm
  exact matchesText_iff.mp hm

theorem matchKeyword_delimited {p : Parser} (h : p.matchKeyword kw = true) :
    Delimited p.buf kw p.pos := by
  simp only [Parser.matchKeyword, Bool.and_eq_true, decide_eq_true_eq] at h
  exact ⟨h.1.1.1, h.1.1.2, h.1.2⟩

/-- An operator that is not delimited directly follows the end of a group, and a keyword there
becomes an operator. -/
structure Follows (buf : Bytes) (e e' : Event) : Prop where
  explained : ∀ keyword start, e' = .operator keyword start →
    Delimited buf keyword start ∨ ∃ range empty, e = .closed range empty ∧ range.stop = start
  consumed : ∀ range empty, e = .closed range empty → ∀ level : Level,
    startsWith buf range.stop level.keyword = true → e' = .operator level.keyword range.stop

structure Ordered (buf : Bytes) (events : List Event) : Prop where
  chain : events.IsChain (Follows buf)
  first : ∀ keyword start, events.head? = some (.operator keyword start) →
    Delimited buf keyword start
  text : ∀ keyword start, .operator keyword start ∈ events →
    ∃ level : Level, keyword = level.keyword ∧ startsWith buf start keyword = true
  paren : ∀ range empty, .closed range empty ∈ events → ∃ i, range.stop = i + 1 ∧ buf[i]? = some 41

/-- No keyword waits to be consumed after the last event. -/
def Settled (buf : Bytes) (events : List Event) : Prop :=
  ∀ range empty, events.getLast? = some (.closed range empty) → ∀ level : Level,
    startsWith buf range.stop level.keyword = false

theorem Ordered.append {buf : Bytes} (h : Ordered buf es) (hs : Settled buf es)
    (h' : Ordered buf es') : Ordered buf (es ++ es') where
  chain := by
    refine isChain_append.mpr ⟨h.chain, h'.chain, fun x hx y hy => ⟨?_, ?_⟩⟩
    · rintro kw start rfl
      exact .inl (h'.first kw start hy)
    · rintro rg emp rfl lv hlv
      rw [hs rg emp hx lv] at hlv
      cases hlv
  first kw start hhd := by
    cases es with
    | nil => exact h'.first kw start hhd
    | cons e es => exact h.first kw start hhd
  text kw start hmem := by
    rcases mem_append.mp hmem with hmem | hmem
    · exact h.text kw start hmem
    · exact h'.text kw start hmem
  paren rg emp hmem := by
    rcases mem_append.mp hmem with hmem | hmem
    · exact h.paren rg emp hmem
    · exact h'.paren rg emp hmem

def Plain : Event → Prop
  | .leaf _ => True
  | .opened _ => True
  | .dropped _ => True
  | .operator _ _ => False
  | .closed _ _ => False

theorem Ordered.plain {buf : Bytes} {es : List Event} (h : ∀ e ∈ es, Plain e) :
    Ordered buf es ∧ Settled buf es := by
  have hop : ∀ kw start, Event.operator kw start ∉ es := fun _ _ hmem => h _ hmem
  have hcl : ∀ rg emp, Event.closed rg emp ∉ es := fun _ _ hmem => h _ hmem
  refine ⟨⟨?_, ?_, ?_, ?_⟩, ?_⟩
  · clear hop hcl
    induction es with
    | nil => exact .nil
    | cons e es ih =>
      refine isChain_cons.mpr ⟨fun y hy => ⟨?_, ?_⟩, ih (forall_mem_cons.mp h).2⟩
      · rintro kw start rfl
        exact absurd (h _ (mem_cons_of_mem _ (mem_of_mem_head? hy))) id
      · rintro rg emp rfl
        exact absurd (h (.closed rg emp) (by simp)) id
  · intro kw start hhd
    exact absurd (mem_of_mem_head? hhd) (hop kw start)
  · exact fun kw start hmem => absurd hmem (hop kw start)
  · exact fun rg emp hmem => absurd hmem (hcl rg emp)
  · exact fun rg emp hla => absurd (mem_of_mem_getLast? hla) (hcl rg emp)

theorem Ordered.operator {buf : Bytes} {es : List Event} {lv : Level} {i : ℕ}
    (h : Ordered buf es) (htx : startsWith buf i lv.keyword = true)
    (hla : ∀ rg emp, es.getLast? = some (.closed rg emp) → ∀ lv' : Level,
      startsWith buf rg.stop lv'.keyword = true → rg.stop = i ∧ lv' = lv)
    (hsp : Delimited buf lv.keyword i ∨
      ∃ rg emp, es.getLast? = some (.closed rg emp) ∧ rg.stop = i) :
    Ordered buf (es ++ [.operator lv.keyword i]) where
  chain := by
    refine isChain_append.mpr ⟨h.chain, .singleton _, fun x hx y hy => ?_⟩
    obtain rfl : .operator lv.keyword i = y := by simpa using hy
    refine ⟨?_, ?_⟩
    · rintro kw start he
      obtain ⟨rfl, rfl⟩ := Event.operator.inj he
      rcases hsp with hd | ⟨rg, emp, hcl, hi⟩
      · exact .inl hd
      rw [hcl] at hx
      exact .inr ⟨rg, emp, (Option.some.inj hx).symm, hi⟩
    · rintro rg emp rfl lv' hlv
      obtain ⟨rfl, rfl⟩ := hla rg emp hx lv' hlv
      rfl
  first kw start hhd := by
    cases hes : es with
    | nil =>
      rw [hes] at hhd hsp
      obtain ⟨rfl, rfl⟩ := Event.operator.inj (Option.some.inj hhd)
      rcases hsp with hd | ⟨rg, emp, hcl, -⟩
      · exact hd
      · cases hcl
    | cons e es' =>
      rw [hes] at hhd
      exact h.first kw start (by rw [hes]; exact hhd)
  text kw start hmem := by
    rcases mem_append.mp hmem with hmem | hmem
    · exact h.text kw start hmem
    obtain ⟨rfl, rfl⟩ := Event.operator.inj (mem_singleton.mp hmem)
    exact ⟨lv, rfl, htx⟩
  paren rg emp hmem := by
    rcases mem_append.mp hmem with hmem | hmem
    · exact h.paren rg emp hmem
    · cases mem_singleton.mp hmem

structure Spec (c : Call) (p q : Parser) (r : Result) (events : List Event) : Prop where
  frame : Frame p q events
  ordered : Ordered p.buf events
  settled : ∀ range empty, events.getLast? = some (.closed range empty) → ∀ level : Level,
    startsWith p.buf range.stop level.keyword = true →
      (∃ nodes, r = .ok nodes) ∧ range.stop = q.pos ∧ level ∈ pending c
  stopped : ∀ nodes, r = .ok nodes → ∀ level : Level, q.matchesText level.keyword = true →
    Delimited p.buf level.keyword q.pos ∨
      ∃ range empty, events.getLast? = some (.closed range empty) ∧ range.stop = q.pos

theorem Spec.of_settled {e : ParseError} (hf : Frame p q es) (ho : Ordered p.buf es)
    (hs : Settled p.buf es) : Spec c p q (.error e) es where
  frame := hf
  ordered := ho
  settled range empty hla level hlv := by
    rw [hs range empty hla level] at hlv
    cases hlv
  stopped nodes he := by cases he

theorem Spec.prepend {c' : Call} {s : Parser} {r : Result} (hf : Frame p q es)
    (ho : Ordered p.buf es) (hs : Settled p.buf es) (h : Spec c q s r es')
    (hc : ∀ lv, lv ∈ pending c → lv ∈ pending c') : Spec c' p s r (es ++ es') where
  frame := hf.trans h.frame
  ordered := ho.append hs (by rw [← hf.buf]; exact h.ordered)
  settled rg emp hla lv hlv := by
    rw [getLast?_append, Option.or_eq_some_iff] at hla
    rcases hla with hla | ⟨-, hla⟩
    · rw [← hf.buf] at hlv
      obtain ⟨hr, hsp, hmem⟩ := h.settled rg emp hla lv hlv
      exact ⟨hr, hsp, hc lv hmem⟩
    rw [hs rg emp hla lv] at hlv
    cases hlv
  stopped nodes hr lv hlv := by
    rw [← hf.buf]
    refine (h.stopped nodes hr lv hlv).imp_right ?_
    rintro ⟨rg, emp, hla, hsp⟩
    refine ⟨rg, emp, ?_, hsp⟩
    rw [getLast?_append, hla]
    rfl

theorem Spec.of_ok {ns' : List Node} (h : Spec c p q (.ok ns) es) : Spec c p q (.ok ns') es where
  frame := h.frame
  ordered := h.ordered
  settled range empty hla level hlv :=
    ⟨⟨ns', rfl⟩, (h.settled range empty hla level hlv).2⟩
  stopped _ _ := h.stopped ns rfl

theorem Spec.operator {lv : Level} {p q : Parser} {ns : List Node} {es : List Event}
    (h : Spec (lv.operand p) p q (.ok ns) es) (hm : q.matchesText lv.keyword = true) :
    Ordered p.buf (es ++ [.operator lv.keyword q.pos]) := by
  have htx : startsWith p.buf q.pos lv.keyword = true := by
    rw [← h.frame.buf, ← matchesText_eq]
    exact hm
  refine h.ordered.operator htx (fun rg emp hla lv' hlv => ?_) (h.stopped ns rfl lv hm)
  obtain ⟨-, hsp, -⟩ := h.settled rg emp hla lv' hlv
  refine ⟨hsp, level_unique ?_ hm⟩
  rw [matchesText_eq, h.frame.buf, ← hsp]
  exact hlv

theorem stop_spec (h : leafStep lb start ns p = (.stop ns', q)) :
    ∃ es, Spec (.leaves lb start ns) p q (.ok r) es := by
  obtain ⟨es, ho⟩ := leafStep_outcome h
  have hnot : Ordered p.buf [] := (Ordered.plain (by simp)).1
  cases ho with
  | done frm _ _ hdo =>
    refine ⟨[], frm, hnot, by simp, fun _ _ lv hlv => ?_⟩
    rw [matchesText_done hdo] at hlv
    cases hlv
  | keyword frm _ _ lv' hkw =>
    refine ⟨[], frm, hnot, by simp, fun _ _ lv hlv => .inl ?_⟩
    rw [level_unique hlv (matchKeyword_matchesText hkw), ← frm.buf]
    exact matchKeyword_delimited hkw
  | @closed _ _ i rg emp frm _ _ hby hsp =>
    refine ⟨_, frm, ⟨.singleton _, ?_, ?_, ?_⟩, ?_, ?_⟩
    · intro kw start hhd
      cases hhd
    · intro kw start hmem
      cases mem_singleton.mp hmem
    · intro rg' emp' hmem
      obtain ⟨rfl, rfl⟩ := Event.closed.inj (mem_singleton.mp hmem)
      exact ⟨i, hsp.2.trans hsp.1, hby⟩
    · intro rg' emp' hla lv _
      obtain ⟨rfl, rfl⟩ := Event.closed.inj (Option.some.inj hla)
      exact ⟨⟨r, rfl⟩, hsp.2, by cases lv <;> simp [pending]⟩
    · exact fun _ _ _ _ => .inr ⟨rg, emp, rfl, hsp.2⟩

theorem step_plain (h : leafStep lb start ns p = (step, q))
    (hs : ∀ ns', step ≠ .stop ns') : ∃ es, Frame p q es ∧ Ordered p.buf es ∧ Settled p.buf es := by
  obtain ⟨es, ho⟩ := leafStep_outcome h
  have hpl : ∀ e ∈ es, Plain e := by
    cases ho with
    | done | keyword | closed => exact absurd rfl (hs _)
    | leaf | dropped | opened => simp [Plain]
    | fail _ _ qui =>
      intro e he
      obtain ⟨i, rfl⟩ := qui e he
      exact trivial
  exact ⟨es, ho.frame, Ordered.plain hpl⟩

/-- Every run meets the specification of its call. -/
theorem run_spec (h : Run fuel c p r q) : ∃ es, Spec c p q r es := by
  induction h with
  | outOfFuel c p =>
    obtain ⟨ho, hs⟩ := @Ordered.plain p.buf [] (by simp)
    exact ⟨[], .of_settled (Forward.refl p).frame ho hs⟩
  | stop h => exact stop_spec h
  | fail h =>
    obtain ⟨es, hf, ho, hs⟩ := step_plain h (by simp)
    exact ⟨es, .of_settled hf ho hs⟩
  | collect h _ ih =>
    obtain ⟨es, hf, ho, hs⟩ := step_plain h (by simp)
    obtain ⟨es', hsp⟩ := ih
    exact ⟨_, hsp.prepend hf ho hs fun _ => id⟩
  | groupError h _ ih =>
    obtain ⟨es, hf, ho, hs⟩ := step_plain h (by simp)
    obtain ⟨es', hsp⟩ := ih
    exact ⟨_, hsp.prepend hf ho hs (by simp [pending])⟩
  | @group fuel lb start ns p q res s r t h inn next ih ih' =>
    obtain ⟨es, hf, ho, hs⟩ := step_plain h (by simp)
    obtain ⟨es', hin⟩ := ih
    obtain ⟨es'', hnx⟩ := ih'
    have hgrp : Spec (.level .or) p s (.ok res) (es ++ es') :=
      hin.prepend hf ho hs fun _ => id
    refine ⟨_, hnx.prepend hgrp.frame hgrp.ordered ?_ fun _ => id⟩
    intro rg emp hla lv
    by_contra hlv
    obtain ⟨-, -, hmem⟩ := hgrp.settled rg emp hla lv (eq_true_of_ne_false hlv)
    cases hmem
  | operandError _ ih =>
    obtain ⟨es, hsp⟩ := ih
    refine ⟨es, hsp.frame, hsp.ordered, ?_, by simp⟩
    intro rg emp hla lv hlv
    obtain ⟨⟨ns, he⟩, -⟩ := hsp.settled rg emp hla lv hlv
    cases he
  | operandMissing left ih =>
    obtain ⟨es, hsp⟩ := ih
    have htr := hsp.frame.trace
    rw [left.trace_of_nil, self_eq_append_right] at htr
    subst htr
    exact ⟨[], .of_settled hsp.frame hsp.ordered (Ordered.plain (by simp)).2⟩
  | @operand fuel lv p ns q left hne hm ih =>
    obtain ⟨es, hsp⟩ := ih
    refine ⟨es, hsp.frame, hsp.ordered, ?_, fun _ _ => hsp.stopped ns rfl⟩
    intro rg emp hla lv' hlv
    obtain ⟨-, hst, hmem⟩ := hsp.settled rg emp hla lv' hlv
    refine ⟨⟨ns, rfl⟩, hst, pending_operand hmem ?_⟩
    rintro rfl
    rw [matchesText_eq, hsp.frame.buf, ← hst, hlv] at hm
    cases hm
  | operatorError left _ hm _ ih ih' =>
    obtain ⟨es, hl⟩ := ih
    obtain ⟨es', hrt⟩ := ih'
    exact ⟨_, hrt.prepend (hl.frame.trans (expectOperator_frame hm)) (hl.operator hm)
      (by intro rg emp hla; simp at hla) fun _ => id⟩
  | operator left _ hm _ ih ih' =>
    obtain ⟨es, hl⟩ := ih
    obtain ⟨es', hrt⟩ := ih'
    refine ⟨_, (hrt.prepend (hl.frame.trans (expectOperator_frame hm)) (hl.operator hm)
      (by intro rg emp hla; simp at hla) fun _ => id).of_ok⟩

/-- Every operator that is consumed is delimited by whitespace. -/
def OperatorsDelimited (buf : Bytes) (events : List Event) : Prop :=
  ∀ keyword start, .operator keyword start ∈ events → Delimited buf keyword start

/-- The letters of no operator directly follow the end of a group. -/
def NoKeywordAfterGroup (buf : Bytes) (events : List Event) : Prop :=
  ∀ range empty, .closed range empty ∈ events → ∀ level : Level,
    startsWith buf range.stop level.keyword = false

theorem Ordered.delimited_iff (h : Ordered buf es) (hs : Settled buf es) :
    OperatorsDelimited buf es ↔ NoKeywordAfterGroup buf es := by
  constructor
  · intro hd rg emp hmem lv
    by_contra hlv
    have hlv := eq_true_of_ne_false hlv
    obtain ⟨i, hi, hby⟩ := h.paren rg emp hmem
    obtain ⟨pre, post, rfl⟩ := append_of_mem hmem
    have hcha := (isChain_append.mp h.chain).2.1
    cases post with
    | nil =>
      rw [hs rg emp (by simp) lv] at hlv
      cases hlv
    | cons next post =>
      have hnx := (isChain_cons_cons.mp hcha).1.consumed rg emp rfl lv hlv
      subst hnx
      -- The operator would have to be preceded by whitespace, not by the parenthesis.
      obtain ⟨-, hsp, -⟩ := hd lv.keyword rg.stop (by simp)
      rw [hi, Nat.add_sub_cancel, whitespaceAt, hby] at hsp
      exact absurd hsp (by decide)
  · intro hn kw start hmem
    obtain ⟨lv, rfl, htx⟩ := h.text kw start hmem
    obtain ⟨pre, post, rfl⟩ := append_of_mem hmem
    rcases eq_nil_or_concat pre with rfl | ⟨pre, last, rfl⟩
    · exact h.first lv.keyword start rfl
    have hfol := (isChain_append.mp h.chain).2.2 last (by simp) _ rfl
    rcases hfol.explained lv.keyword start rfl with hd | ⟨rg, emp, rfl, rfl⟩
    · exact hd
    rw [hn rg emp (by simp) lv] at htx
    cases htx

/-- The operators of a whole run are delimited exactly if no keyword follows a group. -/
theorem run_delimited_iff (fuel : ℕ) (p : Parser) (hp : p.trace = []) :
    OperatorsDelimited p.buf (parseOr fuel p).2.trace ↔
      NoKeywordAfterGroup p.buf (parseOr fuel p).2.trace := by
  obtain ⟨es, hsp⟩ := run_spec (run_call fuel p (.level .or))
  have htr := hsp.frame.trace
  rw [hp] at htr
  simp only [call] at htr
  rw [htr]
  apply hsp.ordered.delimited_iff
  intro rg emp hla lv
  by_contra hlv
  obtain ⟨-, -, hmem⟩ := hsp.settled rg emp hla lv (eq_true_of_ne_false hlv)
  cases hmem

/-- Parsing consumes `and` and `or` only between whitespace exactly if no group that the parser
closes is directly followed by the letters of one of them. -/
theorem operators_delimited_iff (input : Bytes) (searchType : SearchType) :
    OperatorsDelimited input (parseTrace input searchType) ↔
      NoKeywordAfterGroup input (parseTrace input searchType) := by
  have hma : OperatorsDelimited input (mainRun input searchType).2.trace ↔
      NoKeywordAfterGroup input (mainRun input searchType).2.trace :=
    run_delimited_iff (enoughFuel input) _ rfl
  have hfal : OperatorsDelimited input (fallbackRun input searchType).2.trace ↔
      NoKeywordAfterGroup input (fallbackRun input searchType).2.trace :=
    run_delimited_iff (enoughFuel input) _ rfl
  unfold parseTrace
  split
  · simp [OperatorsDelimited, NoKeywordAfterGroup]
  split
  · simp only [OperatorsDelimited, NoKeywordAfterGroup, mem_append, or_imp,
      forall_and] at hma hfal ⊢
    rw [hma, hfal]
  · exact hma

/-- The text `android` after a group is split into the operator `and` and the pattern `roid`. -/
theorem android_after_group_split : ¬ OperatorsDelimited (bytes "(a or b)android")
      (parseTrace (bytes "(a or b)android") .standard) := by
  intro h
  have hspl := h .and 8 (by decide)
  exact absurd hspl (by decide)

end QueryOperators
