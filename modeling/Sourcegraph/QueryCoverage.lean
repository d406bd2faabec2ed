import Sourcegraph.QueryOperators

/-! # What becomes of the text of a query

The events of a run tile the input: between the leaves there are only whitespace, the letters of
operators and parentheses that open or close a group. But the fallback parser can consume a closing
parenthesis and then forget it. -/
namespace QueryCoverage

open GoStrings QueryNodes QueryParser QueryRuns QueryTransform QueryOperators List

def eventRange : Event → Range
  | .leaf leaf => leaf.annotation.range
  | .operator keyword start => ⟨start, start + keyword.text.length⟩
  | .opened start => ⟨start, start + 1⟩
  | .closed range _ => range
  | .dropped start => ⟨start, start + 1⟩

def collectedLeaf : Event → Option Leaf
  | .leaf leaf => some leaf
  | .closed _ empty => empty
  | .operator _ _ => none
  | .opened _ => none
  | .dropped _ => none

abbrev Tiles (buf : Bytes) : ℕ → List Event → ℕ → Prop :=
  Tiling.Tiles (fun e => (eventRange e).start) (fun e => (eventRange e).stop) (Blank buf)

/-- What an event stands for in the input, by the heuristics of the parser that records it. -/
def Valid (buf : Bytes) (dangling : Bool) : Event → Prop
  | .leaf _ => True
  | .operator keyword start => (∃ level : Level, keyword = level.keyword) ∧
      startsWith buf start keyword = true
  | .opened start => dangling = false ∧ buf[start]? = some 40
  | .closed range none => dangling = false ∧ buf[range.start]? = some 41 ∧
      range.stop = range.start + 1
  | .closed range (some leaf) => dangling = false ∧ leaf.annotation.range = range
  | .dropped start => dangling = true ∧ buf[start]? = some 41

variable {level : Level}

theorem tiles_single (h : Blank buf a (eventRange e).start)
    (hle : (eventRange e).start ≤ (eventRange e).stop) (hsp : (eventRange e).stop = b) :
    Tiles buf a [e] b :=
  .cons h hle (.nil (by rw [hsp]; exact Blank.refl buf b))

def origin (p : Parser) : Call → ℕ
  | .leaves _ start _ => start
  | .level _ => p.pos

/-- The events since the origin of a call. A loop without nodes has recorded none. -/
def Since (p : Parser) (before : List Event) : Call → Prop
  | .leaves _ start nodes => Tiles p.buf start before p.pos ∧ (nodes = [] → before = [])
  | .level _ => before = []

/-- Where a call that succeeds stops: at the end, after a parenthesis that closes one more group
than it opened, or at a keyword. -/
def Stopped (c : Call) (p q : Parser) : Prop :=
  q.done = true ∨ q.balanced < p.balanced ∨
    q.balanced ≤ p.balanced ∧ ∃ level ∈ pending c, q.matchKeyword level.keyword = true

structure Covered (c : Call) (before : List Event) (p q : Parser) (events : List Event) :
    Prop where
  frame : Frame p q events
  tiles : Tiles p.buf (origin p c) (before ++ events) q.pos
  valid : ∀ e ∈ events, Valid p.buf p.heuristics.allowDanglingParens e
  stopped : Stopped c p q

theorem since_operand : Since p [] (level.operand p) := by
  cases level with
  | and => exact ⟨.nil (Blank.refl _ _), fun _ => rfl⟩
  | or => rfl

theorem origin_operand : origin p (level.operand p) = p.pos := by
  cases level <;> rfl

theorem stop_covered (h : leafStep lb start ns p = (.stop ns', q))
    (hs : Since p pre (.leaves lb start ns)) :
    ∃ events, Covered (.leaves lb start ns) pre p q events := by
  obtain ⟨htl, hno⟩ := hs
  obtain ⟨events, ho⟩ := leafStep_outcome h
  have hgap := blank_gap p.buf
  cases ho with
  | done frm bal bk hdo =>
    exact ⟨[], frm, htl.append hgap (.nil bk), by simp, .inl hdo⟩
  | keyword frm bal bk level hk =>
    refine ⟨[], frm, htl.append hgap (.nil bk), by simp, .inr (.inr ?_)⟩
    exact ⟨Nat.le_of_eq bal, level, by cases level <;> simp [pending], hk⟩
  | @closed _ _ i rg emp frm bal bk byte stop _ dan grp =>
    have hle := hgap.le bk
    refine ⟨_, frm, ?_, ?_, .inr (.inl (by omega))⟩
    · rcases grp with ⟨rfl, -⟩ | ⟨hnil, hst, -⟩
      · exact htl.append hgap (tiles_single bk (by simp only [eventRange]; omega) stop.2)
      · have hst' := htl.le hgap
        rw [hno hnil]
        refine tiles_single ?_ ?_ stop.2
        · simp only [eventRange, hst]
          exact Blank.refl _ _
        · simp only [eventRange]
          omega
    · refine forall_mem_singleton.mpr ?_
      rcases grp with ⟨rfl, rfl⟩ | ⟨-, -, leaf, rfl, hrng⟩
      · exact ⟨dan, byte, by omega⟩
      · exact ⟨dan, hrng⟩

theorem collect_since (h : leafStep lb start ns p = (.collect lb' leaf, q))
    (hs : Since p pre (.leaves lb start ns)) :
    ∃ events, Frame p q events ∧ q.balanced = p.balanced ∧
      (∀ e ∈ events, Valid p.buf p.heuristics.allowDanglingParens e) ∧
      Since q (pre ++ events) (.leaves lb' start (ns ++ [leaf.node])) := by
  obtain ⟨htl, hno⟩ := hs
  obtain ⟨events, ho⟩ := leafStep_outcome h
  have hgap := blank_gap p.buf
  cases ho with
  | leaf frm bal bk stop pro =>
    refine ⟨_, frm, bal, by simp [Valid], ?_, by simp⟩
    rw [frm.buf]
    exact htl.append hgap (tiles_single bk (by simp only [eventRange]; omega) stop.2)
  | @dropped _ _ _ i frm bal bk byte dan stop pro =>
    refine ⟨_, frm, bal, by simp [Valid, dan, byte], ?_, by simp⟩
    rw [frm.buf]
    have hdro : Tiles p.buf p.pos [.dropped i] (i + 1) :=
      tiles_single bk (by simp [eventRange]) rfl
    refine htl.append hgap (hdro.append hgap (tiles_single ?_ ?_ stop.2.2))
    · simp only [eventRange, stop.1]
      exact Blank.refl _ _
    · simp only [eventRange]
      omega

theorem group_since (h : leafStep lb start ns p = (.group, q))
    (hs : Since p pre (.leaves lb start ns)) :
    ∃ events, Frame p q events ∧ q.balanced = p.balanced + 1 ∧
      (∀ e ∈ events, Valid p.buf p.heuristics.allowDanglingParens e) ∧
      Tiles p.buf start (pre ++ events) q.pos := by
  obtain ⟨htl, hno⟩ := hs
  obtain ⟨events, ho⟩ := leafStep_outcome h
  cases ho with
  | opened frm bal bk byte stop dan =>
    refine ⟨_, frm, bal, by simp [Valid, dan, byte], ?_⟩
    exact htl.append (blank_gap p.buf) (tiles_single bk (by simp [eventRange]) stop.symm)

variable {events : List Event}

theorem done_mono (h : Frame p q events) (hp : p.done = true) : q.done = true := by
  have := h.le
  simp only [Parser.done, decide_eq_true_eq, h.buf] at *
  omega

theorem valid_trans (hf : Frame p q es)
    (h : ∀ e ∈ es, Valid p.buf p.heuristics.allowDanglingParens e)
    (h' : ∀ e ∈ es', Valid q.buf q.heuristics.allowDanglingParens e) :
    ∀ e ∈ es ++ es', Valid p.buf p.heuristics.allowDanglingParens e := by
  intro e he
  rcases mem_append.mp he with he | he
  · exact h e he
  have := h' e he
  rwa [hf.buf, hf.dangling] at this

theorem Stopped.trans (hf : Frame q s events) (h : q.done = true ∨ q.balanced ≤ p.balanced)
    (h' : Stopped c q s) : Stopped c p s := by
  rcases h with h | h
  · exact .inl (done_mono hf h)
  rcases h' with h' | h' | ⟨h', hk⟩
  · exact .inl h'
  · exact .inr (.inl (by omega))
  · exact .inr (.inr ⟨by omega, hk⟩)

theorem Stopped.operand {level : Level} {p q : Parser} (h : Stopped (level.operand p) p q)
    (hm : q.matchesText level.keyword = false) : Stopped (.level level) p q := by
  rcases h with h | h | ⟨h, level', hmem, hk⟩
  · exact .inl h
  · exact .inr (.inl h)
  · refine .inr (.inr ⟨h, level', pending_operand hmem ?_, hk⟩)
    rintro rfl
    rw [matchKeyword_matchesText hk] at hm
    cases hm

theorem operator_covered (h : Covered (level.operand p) [] p q events)
    (hm : q.matchesText level.keyword = true) :
    Frame p (expectOperator q level.keyword) (events ++ [.operator level.keyword q.pos]) ∧
    Tiles p.buf p.pos (events ++ [.operator level.keyword q.pos])
      (expectOperator q level.keyword).pos ∧
    (∀ e ∈ events ++ [.operator level.keyword q.pos],
      Valid p.buf p.heuristics.allowDanglingParens e) ∧
    (expectOperator q level.keyword).balanced ≤ p.balanced := by
  have htl := h.tiles
  rw [origin_operand] at htl
  refine ⟨h.frame.trans (expectOperator_frame hm), ?_, ?_, ?_⟩
  · refine htl.append (blank_gap p.buf) (tiles_single (Blank.refl _ _) ?_ rfl)
    exact Nat.le_add_right _ _
  · refine valid_trans h.frame h.valid fun e he => ?_
    rw [mem_singleton.mp he]
    exact ⟨⟨level, rfl⟩, by rw [← matchesText_eq]; exact hm⟩
  · rcases h.stopped with hd | hlt | ⟨hle, -⟩
    · rw [matchesText_done hd] at hm
      cases hm
    · exact Nat.le_of_lt hlt
    · exact hle

/-- A call that succeeds has accounted for everything it consumed. -/
theorem run_covered {fuel : ℕ} {c : Call} {p q : Parser} {r : Result} (h : Run fuel c p r q)
    {pre : List Event} (hs : Since p pre c) {ns : List Node} (hr : r = .ok ns) :
    ∃ events, Covered c pre p q events := by
  induction h generalizing pre ns with
  | stop h => exact stop_covered h hs
  | @collect fuel lb start _ p lb' leaf q r s h next ih =>
    obtain ⟨events, hf, hbal, hvld, hsin⟩ := collect_since h hs
    obtain ⟨events', hnx⟩ := ih hsin hr
    refine ⟨events ++ events', hf.trans hnx.frame, ?_, valid_trans hf hvld hnx.valid, ?_⟩
    · have htl := hnx.tiles
      rw [hf.buf, append_assoc] at htl
      exact htl
    · exact Stopped.trans hnx.frame (.inr (Nat.le_of_eq hbal)) hnx.stopped
  | @group fuel lb start ns' p q res s r t h inn next ih ih' =>
    obtain ⟨events, hf, hbal, hvld, htl⟩ := group_since h hs
    obtain ⟨events', hin⟩ := @ih [] rfl res rfl
    have hfrm := hf.trans hin.frame
    have hvld' := valid_trans hf hvld hin.valid
    have hsin : Since s (pre ++ (events ++ events')) (.leaves lb start (ns' ++ res)) := by
      refine ⟨?_, fun hnil => ?_⟩
      · have hinn := hin.tiles
        rw [hf.buf] at hinn
        rw [hfrm.buf, ← append_assoc]
        exact htl.append (blank_gap p.buf) hinn
      · obtain ⟨-, rfl⟩ := append_eq_nil_iff.mp hnil
        exact absurd rfl (inn.ne_nil (by simp))
    obtain ⟨events'', hnx⟩ := ih' hsin hr
    refine ⟨_, hfrm.trans hnx.frame, ?_, valid_trans hfrm hvld' hnx.valid, ?_⟩
    · have hnex := hnx.tiles
      rw [hfrm.buf, append_assoc] at hnex
      exact hnex
    · refine Stopped.trans hnx.frame ?_ hnx.stopped
      rcases hin.stopped with hd | hlt | ⟨-, level, hmem, -⟩
      · exact .inl hd
      · exact .inr (by omega)
      · cases hmem
  | @operand fuel level p ns' q left hne hm ih =>
    obtain ⟨events, hl⟩ := ih since_operand hr
    obtain rfl : pre = [] := hs
    refine ⟨events, hl.frame, ?_, hl.valid, hl.stopped.operand hm⟩
    have htl := hl.tiles
    rwa [origin_operand] at htl
  | @operator fuel level p ns₁ q ns₂ r left hne hm right ih ih' =>
    obtain ⟨events, hl⟩ := ih since_operand rfl
    obtain rfl : pre = [] := hs
    obtain ⟨hf, htl, hvld, hle⟩ := operator_covered hl hm
    obtain ⟨events', hrt⟩ := @ih' [] rfl ns₂ rfl
    refine ⟨_, hf.trans hrt.frame, ?_, valid_trans hf hvld hrt.valid,
      Stopped.trans hrt.frame (.inr hle) hrt.stopped⟩
    have hrig := hrt.tiles
    rw [hf.buf] at hrig
    rw [nil_append]
    exact htl.append (blank_gap p.buf) hrig
  | _ => cases hr

theorem parseOr_covered (htr : p.trace = []) (hpos : p.pos = 0) (hbal : p.balanced = 0)
    (h : (parseOr fuel p).1 = .ok ns) :
    Tiles p.buf 0 (parseOr fuel p).2.trace p.buf.length ∧
      ∀ e ∈ (parseOr fuel p).2.trace, Valid p.buf p.heuristics.allowDanglingParens e := by
  obtain ⟨events, hcov⟩ := @run_covered _ _ _ _ _ (run_call fuel p (.level .or)) [] rfl ns h
  have hfrm := hcov.frame
  have ht := hfrm.trace
  simp only [call, htr, nil_append] at ht
  have hdo : (parseOr fuel p).2.pos = p.buf.length := by
    have hbd := hfrm.bound (by omega)
    rcases hcov.stopped with hd | hlt | ⟨-, level, hmem, -⟩
    · simp only [Parser.done, decide_eq_true_eq, hfrm.buf] at hd
      exact Nat.le_antisymm hbd hd
    · omega
    · cases hmem
  rw [ht]
  refine ⟨?_, hcov.valid⟩
  have htl := hcov.tiles
  simp only [origin, hpos, nil_append] at htl
  rw [← hdo]
  exact htl

def fromFallback (input : Bytes) (searchType : SearchType) : Bool :=
  !isBlank input && fallsBack input searchType

def resultTrace (input : Bytes) (searchType : SearchType) : List Event :=
  if isBlank input then []
  else if fallsBack input searchType then (fallbackRun input searchType).2.trace
  else (mainRun input searchType).2.trace

def collected (input : Bytes) (searchType : SearchType) : List Leaf :=
  (resultTrace input searchType).filterMap collectedLeaf

def Covers (leaf : Leaf) (i : ℕ) : Prop :=
  leaf.annotation.range.start ≤ i ∧ i < leaf.annotation.range.stop

instance (leaf : Leaf) (i : ℕ) : Decidable (Covers leaf i) := inferInstanceAs (Decidable (_ ∧ _))

def SpaceByte (input : Bytes) (i : ℕ) : Prop := ∃ a b, Blank input a b ∧ a ≤ i ∧ i < b

def KeywordByte (input : Bytes) (events : List Event) (i : ℕ) : Prop :=
  ∃ keyword start, .operator keyword start ∈ events ∧ startsWith input start keyword = true ∧
    start ≤ i ∧ i < start + keyword.text.length

def GroupParen (input : Bytes) (events : List Event) (i : ℕ) : Prop :=
  .opened i ∈ events ∧ input[i]? = some 40 ∨ .closed ⟨i, i + 1⟩ none ∈ events ∧ input[i]? = some 41

/-- No text of the query is silently discarded. -/
structure NoTextLost (input : Bytes) (searchType : SearchType) : Prop where
  within : ∀ leaf ∈ collected input searchType,
    leaf.annotation.range.start ≤ leaf.annotation.range.stop ∧
      leaf.annotation.range.stop ≤ input.length
  ordered : (collected input searchType).Pairwise fun leaf next =>
    leaf.annotation.range.stop ≤ next.annotation.range.start
  accounted : ∀ i < input.length, (∀ leaf ∈ collected input searchType, ¬ Covers leaf i) →
    SpaceByte input i ∨ KeywordByte input (resultTrace input searchType) i ∨
      fromFallback input searchType = false ∧ GroupParen input (resultTrace input searchType) i
  parens : fromFallback input searchType = true → ∀ i,
    input[i]? = some 40 ∨ input[i]? = some 41 → ∃ leaf ∈ collected input searchType, Covers leaf i

/-- No iteration of the fallback parser starts at a closing parenthesis. -/
def NoParenDropped (input : Bytes) (searchType : SearchType) : Prop :=
  ∀ i, .dropped i ∉ (fallbackRun input searchType).2.trace

theorem collectedLeaf_range (hv : Valid buf dan e) (h : collectedLeaf e = some leaf) :
    eventRange e = leaf.annotation.range := by
  cases e with
  | leaf l => cases h; rfl
  | closed rg emp => cases h; exact hv.2.symm
  | _ => cases h

theorem not_paren_of_blank (h : SpaceByte buf i) : buf[i]? ≠ some 40 ∧ buf[i]? ≠ some 41 := by
  obtain ⟨a, b, ⟨tk, left, hrs, hall, rfl⟩, ha, hb⟩ := h
  constructor
  all_goals
    intro hc
    obtain ⟨r, hr, he⟩ := runes_byte hrs (show i - a < width tk by omega) (by
      rw [getElem?_drop, show a + (i - a) = i by omega]
      exact hc) (by decide)
    simpa [isSpace, he] using hall r hr

theorem not_paren_of_keyword (h : startsWith buf start level.keyword = true) (hs : start ≤ i)
    (hi : i < start + level.keyword.text.length) : buf[i]? ≠ some 40 ∧ buf[i]? ≠ some 41 := by
  obtain ⟨tk, left, hrs, htx⟩ := startsWith_taken h
  have hwd := fold_width hrs htx
  constructor
  all_goals
    intro hc
    obtain ⟨r, hr, he⟩ := runes_byte hrs (show i - start < width tk by omega) (by
      rw [getElem?_drop, show start + (i - start) = i by omega]
      exact hc) (by decide)
    have := fold_mem htx r hr
    rw [← Char.ofNat_toNat r.char, he] at this
    cases level <;> revert this <;> decide

theorem retry_ok (h : retry input st e = .ok ns) :
    ∃ ns', (fallbackRun input st).1 = .ok ns' ∧ ns = newOperator ((hoist ns').getD ns') .and := by
  unfold retry tryFallbackParser at h
  cases hr : (fallbackRun input st).1 with
  | error e' => simp [hr] at h
  | ok ns' =>
    simp only [hr, Except.ok.injEq] at h
    exact ⟨ns', rfl, h.symm⟩

theorem parse_ok (h : parse input st = .ok ns) (hb : isBlank input = false) :
    (fallsBack input st = true ∧ ∃ ns', (fallbackRun input st).1 = .ok ns' ∧
      ns = newOperator ((hoist ns').getD ns') .and) ∨
    (fallsBack input st = false ∧ ∃ ns', (mainRun input st).1 = .ok ns' ∧
      finish st (mainRun input st).2 ns' = .ok ns) := by
  unfold parse at h
  unfold fallsBack
  rw [hb] at h
  cases hma : mainRun input st with
  | mk r p =>
    simp only [hma, Bool.false_eq_true, if_false] at h
    cases r with
    | error e =>
      cases e with
      | expectedOperand msg => exact .inl ⟨rfl, retry_ok h⟩
      | other msg | outOfFuel => cases h
    | ok ns' =>
      simp only at h
      split at h
      · rename_i hbal
        exact .inl ⟨by simpa using hbal, retry_ok h⟩
      rename_i hbal
      exact .inr ⟨by simpa using hbal, ns', rfl, h⟩

/-- The events of the run that yields the result tile the input. -/
theorem resultTrace_covered (h : parse input st = .ok ns) :
    Tiles input 0 (resultTrace input st) input.length ∧
      ∀ e ∈ resultTrace input st, Valid input (fromFallback input st) e := by
  unfold resultTrace fromFallback
  cases hb : isBlank input with
  | true =>
    refine ⟨.nil ⟨runes input, [], ?_, all_eq_true.mp hb, ?_⟩, by simp⟩
    · simp
    · rw [width_runes, Nat.zero_add]
  | false =>
    rcases parse_ok h hb with ⟨hf, ns', hr, -⟩ | ⟨hf, ns', hr, -⟩
    · simp only [hf, Bool.false_eq_true, if_false, if_true]
      exact parseOr_covered rfl rfl rfl hr
    simp only [hf, Bool.false_eq_true, if_false]
    exact parseOr_covered rfl rfl rfl hr

theorem covers_of_event (hvld : ∀ e ∈ events, Valid buf dan e) (he : e ∈ events)
    (hlf : collectedLeaf e = some leaf) (hi : (eventRange e).start ≤ i)
    (hi' : i < (eventRange e).stop) : ∃ leaf ∈ events.filterMap collectedLeaf, Covers leaf i := by
  rw [collectedLeaf_range (hvld e he) hlf] at hi hi'
  exact ⟨leaf, mem_filterMap.mpr ⟨e, he, hlf⟩, hi, hi'⟩

theorem position_cases (htl : Tiles buf 0 events buf.length)
    (hvld : ∀ e ∈ events, Valid buf dan e) (hi : i < buf.length) :
    (∃ leaf ∈ events.filterMap collectedLeaf, Covers leaf i) ∨ SpaceByte buf i ∨
      KeywordByte buf events i ∨ dan = false ∧ GroupParen buf events i ∨
      dan = true ∧ .dropped i ∈ events := by
  rcases htl.cover (Nat.zero_le i) hi with ⟨e, he, hlo, hhi⟩ | ⟨a, b, hbl, ha, hb⟩
  · have hv := hvld e he
    cases e with
    | leaf leaf => exact .inl (covers_of_event hvld he rfl hlo hhi)
    | operator kw start =>
      exact .inr (.inr (.inl ⟨kw, start, he, hv.2, hlo, hhi⟩))
    | opened start =>
      simp only [eventRange] at hlo hhi
      obtain rfl : i = start := by omega
      exact .inr (.inr (.inr (.inl ⟨hv.1, .inl ⟨he, hv.2⟩⟩)))
    | dropped start =>
      simp only [eventRange] at hlo hhi
      obtain rfl : i = start := by omega
      exact .inr (.inr (.inr (.inr ⟨hv.1, he⟩)))
    | closed rg emp =>
      cases emp with
      | some leaf => exact .inl (covers_of_event hvld he rfl hlo hhi)
      | none =>
        obtain ⟨start, stop⟩ := rg
        obtain ⟨hd, hby, hsp⟩ := hv
        simp only at hby hsp
        subst hsp
        simp only [eventRange] at hlo hhi
        obtain rfl : i = start := by omega
        exact .inr (.inr (.inr (.inl ⟨hd, .inr ⟨he, hby⟩⟩)))
  · exact .inr (.inl ⟨a, b, hbl, ha, hb⟩)

/-- Whenever parsing succeeds, no text of the query is lost exactly if the main parser gave the
result or the fallback parser met no closing parenthesis at the start of a leaf. -/
theorem no_text_lost_iff {input : Bytes} {searchType : SearchType} {nodes : List Node}
    (h : parse input searchType = .ok nodes) :
    NoTextLost input searchType ↔
      (fromFallback input searchType = true → NoParenDropped input searchType) := by
  obtain ⟨htl, hvld⟩ := resultTrace_covered h
  have hgap := blank_gap input
  have htr : fromFallback input searchType = true →
      resultTrace input searchType = (fallbackRun input searchType).2.trace := by
    intro hf
    simp only [fromFallback, Bool.and_eq_true, Bool.not_eq_true'] at hf
    simp [resultTrace, hf.1, hf.2]
  constructor
  · intro hlos hf i hi
    rw [← htr hf] at hi
    have hby := (hvld _ hi).2
    obtain ⟨leaf, hlf, hcov⟩ := hlos.parens hf i (.inr hby)
    obtain ⟨e, he, hso⟩ := mem_filterMap.mp hlf
    unfold Covers at hcov
    rw [← collectedLeaf_range (hvld e he) hso] at hcov
    have huni := htl.unique hgap he hi hcov ⟨Nat.le_refl i, Nat.lt_succ_self i⟩
    subst huni
    cases hso
  · intro hdro
    have hcas : ∀ {i : ℕ}, i < input.length →
        (∃ leaf ∈ collected input searchType, Covers leaf i) ∨ SpaceByte input i ∨
          KeywordByte input (resultTrace input searchType) i ∨
          fromFallback input searchType = false ∧
            GroupParen input (resultTrace input searchType) i := by
      intro i hi
      rcases position_cases htl hvld hi with hc | hc | hc | hc | ⟨hf, hc⟩
      · exact .inl hc
      · exact .inr (.inl hc)
      · exact .inr (.inr (.inl hc))
      · exact .inr (.inr (.inr hc))
      · rw [htr hf] at hc
        exact absurd hc (hdro hf i)
    refine ⟨?_, ?_, ?_, ?_⟩
    · intro leaf hlf
      obtain ⟨e, he, hso⟩ := mem_filterMap.mp hlf
      rw [← collectedLeaf_range (hvld e he) hso]
      exact (htl.bounds hgap e he).2
    · refine Pairwise.filterMap _ ?_ (Pairwise.and_mem.mp (htl.pairwise hgap))
      rintro e e' ⟨he, he', hle⟩ leaf hlf leaf' hlf'
      rw [← collectedLeaf_range (hvld e he) hlf, ← collectedLeaf_range (hvld e' he') hlf']
      exact hle
    · intro i hi hno
      rcases hcas hi with ⟨leaf, hlf, hc⟩ | hc
      · exact absurd hc (hno leaf hlf)
      · exact hc
    · intro hf i hby
      have hi : i < input.length := by
        rcases hby with hb | hb <;> exact (List.getElem?_eq_some_iff.mp hb).1
      rcases hcas hi with hc | hc | ⟨kw, start, hmem, htx, hlo, hhi⟩ | ⟨hc, -⟩
      · exact hc
      · have := not_paren_of_blank hc
        exact absurd hby (not_or.mpr this)
      · obtain ⟨⟨level, rfl⟩, -⟩ := hvld _ hmem
        exact absurd hby (not_or.mpr (not_paren_of_keyword htx hlo hhi))
      · rw [hf] at hc
        cases hc

theorem grouped_query_kept : NoTextLost (bytes "(a or b) c") .regex :=
  (no_text_lost_iff (show parse (bytes "(a or b) c") .regex = .ok _ from rfl)).mpr
    fun h => absurd h (by decide)

/-- The closing parenthesis of `((a )` is in no leaf of the result, which is the pattern `((a`. -/
theorem dangling_paren_lost : (∃ nodes, parse (bytes "((a )") .standard = .ok nodes) ∧
    ¬ NoTextLost (bytes "((a )") .standard := by
  refine ⟨⟨_, rfl⟩, fun h => ?_⟩
  obtain ⟨leaf, hlf, hcov⟩ := h.parens (by decide) 4 (.inr rfl)
  have hno : ∀ leaf ∈ collected (bytes "((a )") .standard, ¬ Covers leaf 4 := by decide
  exact hno leaf hlf hcov

end QueryCoverage
