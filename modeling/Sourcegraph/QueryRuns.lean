import Sourcegraph.QueryParser
import Sourcegraph.Tiling

/-! # Runs of the parser

The calls of the parser as derivations, so that an invariant of a run is proved by one
induction, and what one iteration of the loop of `parseLeaves` can do. -/
namespace QueryRuns

open GoStrings QueryNodes QueryScanners QueryTransform QueryParser List

inductive Level where
  | and
  | or
  deriving DecidableEq

def Level.keyword : Level → Keyword
  | .and => .and
  | .or => .or

def Level.kind : Level → OperatorKind
  | .and => .and
  | .or => .or

inductive Call where
  | leaves (label : Labels) (start : ℕ) (nodes : List Node)
  | level (level : Level)

def Level.operand (p : Parser) : Level → Call
  | .and => .leaves (leafLabel p.leafParser) p.pos []
  | .or => .level .and

abbrev Result := Except ParseError (List Node)

def call (fuel : ℕ) (p : Parser) : Call → Result × Parser
  | .leaves label start nodes => parseLeaves fuel label start nodes p
  | .level .and => parseAnd fuel p
  | .level .or => parseOr fuel p

inductive Run : ℕ → Call → Parser → Result → Parser → Prop
  | outOfFuel (c : Call) (p : Parser) : Run 0 c p (.error .outOfFuel) p
  | stop {fuel label start nodes p nodes' q}
    (h : leafStep label start nodes p = (.stop nodes', q)) :
    Run (fuel + 1) (.leaves label start nodes) p (.ok (partitionParameters nodes')) q
  | fail {fuel label start nodes p e q} (h : leafStep label start nodes p = (.fail e, q)) :
    Run (fuel + 1) (.leaves label start nodes) p (.error e) q
  | collect {fuel label start nodes p label' leaf q r s}
    (h : leafStep label start nodes p = (.collect label' leaf, q))
    (next : Run fuel (.leaves label' start (nodes ++ [leaf.node])) q r s) :
    Run (fuel + 1) (.leaves label start nodes) p r s
  | groupError {fuel label start nodes p q e s} (h : leafStep label start nodes p = (.group, q))
    (inner : Run fuel (.level .or) q (.error e) s) :
    Run (fuel + 1) (.leaves label start nodes) p (.error e) s
  | group {fuel label start nodes p q result s r t} (h : leafStep label start nodes p = (.group, q))
    (inner : Run fuel (.level .or) q (.ok result) s)
    (next : Run fuel (.leaves label start (nodes ++ result)) s r t) :
    Run (fuel + 1) (.leaves label start nodes) p r t
  | operandError {fuel level p e q} (left : Run fuel (level.operand p) p (.error e) q) :
    Run (fuel + 1) (.level level) p (.error e) q
  | operandMissing {fuel level p q} (left : Run fuel (level.operand p) p (.ok []) q) :
    Run (fuel + 1) (.level level) p (.error (expectedOperand q)) q
  | operand {fuel level p nodes q} (left : Run fuel (level.operand p) p (.ok nodes) q)
    (hne : nodes ≠ []) (h : q.matchesText level.keyword = false) :
    Run (fuel + 1) (.level level) p (.ok nodes) q
  | operatorError {fuel level p nodes q e r} (left : Run fuel (level.operand p) p (.ok nodes) q)
    (hne : nodes ≠ []) (h : q.matchesText level.keyword = true)
    (right : Run fuel (.level level) (expectOperator q level.keyword) (.error e) r) :
    Run (fuel + 1) (.level level) p (.error e) r
  | operator {fuel level p nodes q nodes' r} (left : Run fuel (level.operand p) p (.ok nodes) q)
    (hne : nodes ≠ []) (h : q.matchesText level.keyword = true)
    (right : Run fuel (.level level) (expectOperator q level.keyword) (.ok nodes') r) :
    Run (fuel + 1) (.level level) p (.ok (newOperator (nodes ++ nodes') level.kind)) r

theorem call_operand (fuel : ℕ) : call (fuel + 1) p (.level lv) =
      match call fuel p (lv.operand p) with
      | (.error e, q) => (.error e, q)
      | (.ok left, q) =>
        if left = [] then (.error (expectedOperand q), q)
        else if !q.matchesText lv.keyword then (.ok left, q)
        else match call fuel (expectOperator q lv.keyword) (.level lv) with
          | (.error e, r) => (.error e, r)
          | (.ok right, r) => (.ok (newOperator (left ++ right) lv.kind), r) := by
  cases lv <;> rfl

/-- Every call of the parser is a run. -/
theorem run_call (fuel : ℕ) (p : Parser) (c : Call) :
    Run fuel c p (call fuel p c).1 (call fuel p c).2 := by
  induction fuel generalizing p c with
  | zero =>
    rcases c with _ | ⟨_ | _⟩
    all_goals exact .outOfFuel _ p
  | succ fuel ih =>
    cases c with
    | leaves lb start ns =>
      rw [call, parseLeaves]
      cases hs : leafStep lb start ns p with
      | mk step q =>
        cases step with
        | stop ns' => exact .stop hs
        | fail e => exact .fail hs
        | collect lb' leaf =>
          exact .collect hs (ih q (.leaves lb' start (ns ++ [leaf.node])))
        | group =>
          have hin := ih q (.level .or)
          simp only [call] at hin
          cases hr : parseOr fuel q with
          | mk r s =>
            rw [hr] at hin
            cases r with
            | error e => simpa [hr] using Run.groupError hs hin
            | ok res =>
              have hnx := ih s (.leaves lb start (ns ++ res))
              simp only [call] at hnx
              simpa [hr] using Run.group hs hin hnx
    | level lv =>
      rw [call_operand]
      have hle := ih p (lv.operand p)
      cases hl : call fuel p (lv.operand p) with
      | mk r q =>
        rw [hl] at hle
        cases r with
        | error e => exact .operandError hle
        | ok left =>
          simp only
          by_cases hne : left = []
          · subst hne
            exact .operandMissing hle
          rw [if_neg hne]
          cases hm : q.matchesText lv.keyword with
          | false => exact .operand hle hne hm
          | true =>
            have hrt := ih (expectOperator q lv.keyword) (.level lv)
            cases hr : call fuel (expectOperator q lv.keyword) (.level lv) with
            | mk r s =>
              rw [hr] at hrt
              cases r with
              | error e => exact .operatorError hle hne hm hrt
              | ok right => exact .operator hle hne hm hrt

variable {c : Call}

def Forward (p q : Parser) : Prop :=
  ∃ count, q = p.advance count ∧ (count = 0 ∨ p.pos + count ≤ p.buf.length)

theorem Forward.refl (p : Parser) : Forward p p := ⟨0, rfl, .inl rfl⟩

theorem advance_advance (p : Parser) (m n : ℕ) : (p.advance m).advance n = p.advance (m + n) := by
  simp [Parser.advance, Nat.add_assoc]

theorem Forward.balanced (h : Forward p q) : q.balanced = p.balanced := by
  obtain ⟨cnt, rfl, -⟩ := h
  rfl

theorem Forward.trans (h : Forward p q) (h' : Forward q r) : Forward p r := by
  obtain ⟨m, rfl, hm⟩ := h
  obtain ⟨n, rfl, hn⟩ := h'
  refine ⟨m + n, advance_advance p m n, ?_⟩
  simp only [Parser.advance] at hn
  omega

theorem takes_bound {p : Parser} {cnt : ℕ} (h : Takes p.rest cnt) :
    cnt = 0 ∨ p.pos + cnt ≤ p.buf.length := by
  obtain ⟨tk, left, hrs, rfl⟩ := h
  have := width_le_of_prefix hrs
  simp only [length_drop] at this
  omega

theorem Forward.of_takes {cnt : ℕ} (h : Takes p.rest cnt) :
    Forward p (p.advance cnt) := ⟨cnt, rfl, takes_bound h⟩

theorem rest_eq_nil {p : Parser} : p.rest = [] ↔ p.done = true := by
  simp [Parser.rest, Parser.done, runes_eq_nil, drop_eq_nil_iff]

theorem rest_advance {p : Parser} (h : p.rest = tk ++ left) :
    (p.advance (width tk)).rest = left := by
  have := runes_drop h
  rwa [drop_drop] at this

theorem rune_pos {p : Parser} (h : p.rest = r :: left) : 0 < r.width := rune_width_pos h

def Blank (buf : Bytes) (a b : ℕ) : Prop :=
  ∃ taken left, runes (buf.drop a) = taken ++ left ∧ (∀ r ∈ taken, isSpace r.char = true) ∧
    b = a + width taken

theorem Blank.refl (buf : Bytes) (a : ℕ) : Blank buf a a := ⟨[], _, rfl, by simp, rfl⟩

theorem blank_gap (buf : Bytes) : Tiling.Gap (Blank buf) where
  le := by
    rintro a b ⟨tk, left, -, -, rfl⟩
    omega
  trans := by
    rintro a b c ⟨tk, left, hrs, hall, rfl⟩ ⟨tk', left', hrs', hall', rfl⟩
    have hl := runes_drop hrs
    rw [drop_drop, hrs'] at hl
    refine ⟨tk ++ tk', left', by rw [hrs, ← hl, append_assoc], ?_, ?_⟩
    · exact forall_mem_append.mpr ⟨hall, hall'⟩
    · rw [width_append, Nat.add_assoc]

theorem skipSpaces_spec (h : p.skipSpaces = some q) :
    Forward p q ∧ Blank p.buf p.pos q.pos ∧
      (q.done = true ∨ ∃ r left, q.rest = r :: left ∧ isSpace r.char = false) := by
  rw [Parser.skipSpaces] at h
  split at h
  · cases h
  cases h
  have hrs : p.rest = p.rest.takeWhile (fun r => isSpace r.char) ++
      p.rest.dropWhile (fun r => isSpace r.char) := takeWhile_append_dropWhile.symm
  refine ⟨.of_takes ⟨_, _, hrs, rfl⟩, ⟨_, _, hrs, ?_, rfl⟩, ?_⟩
  · intro r hr
    exact all_eq_true.mp (all_takeWhile (l := p.rest)) r hr
  · have hl := rest_advance hrs
    cases hd : p.rest.dropWhile (fun r => isSpace r.char) with
    | nil =>
      rw [hd] at hl
      exact .inl (rest_eq_nil.mp hl)
    | cons r left =>
      rw [hd] at hl
      refine .inr ⟨r, left, hl, ?_⟩
      have := head?_dropWhile_not (fun r : Rune => isSpace r.char) p.rest
      simpa [hd] using this

theorem foldRune_text {keyword : Keyword} : keyword.text.map foldRune = keyword.text := by
  cases keyword <;> rfl

theorem toLower_of_ge {c : Char} (h : 0x80 ≤ c.toNat) : c.toLower = c := by
  unfold Char.toLower
  rw [dif_neg]
  intro hle
  have h₁ : c.val.toNat ≤ 90 := hle.2
  have h₂ : c.toNat = c.val.toNat := rfl
  omega

theorem foldRune_ascii {keyword : Keyword} {c : Char} (h : foldRune c ∈ keyword.text) :
    c.toNat < 0x80 := by
  have htx : (keyword.text.all fun k => k.toNat < 0x80 ∧ k ≠ 's' ∧ k ≠ 'k') = true := by
    cases keyword <;> decide
  obtain ⟨h₁, h₂, h₃⟩ := of_decide_eq_true (all_eq_true.mp htx _ h)
  by_contra hc
  by_cases hs : c.toNat = 0x17F
  · exact h₂ (by rw [foldRune, if_pos hs])
  by_cases hk : c.toNat = 0x212A
  · exact h₃ (by rw [foldRune, if_neg hs, if_pos hk])
  rw [foldRune, if_neg hs, if_neg hk, toLower_of_ge (by omega)] at h₁
  exact hc h₁

variable {keyword : Keyword}

theorem matchesText_iff {p : Parser} :
    p.matchesText keyword = true ↔ ∃ tk left, p.rest = tk ++ left ∧
      tk.map (fun r => foldRune r.char) = keyword.text := by
  unfold Parser.matchesText Parser.peek
  constructor
  · intro h
    split at h
    · cases h
    rename_i v hv
    split at hv
    · cases hv
    rw [← Option.some.inj hv, equalFold, beq_iff_eq, foldRune_text, map_map] at h
    exact ⟨_, _, (take_append_drop keyword.text.length p.rest).symm, h⟩
  · rintro ⟨tk, left, hrs, htx⟩
    have hlen : tk.length = keyword.text.length := by rw [← htx, length_map]
    have hta : p.rest.take keyword.text.length = tk := by rw [hrs, ← hlen, take_left]
    rw [if_neg (by rw [hrs, length_append]; omega)]
    simp only [hta, equalFold, foldRune_text, map_map, beq_iff_eq]
    exact htx

theorem fold_mem {xs : List α} {f : α → Char}
    (h : xs.map (fun x => foldRune (f x)) = keyword.text) :
    ∀ x ∈ xs, foldRune (f x) ∈ keyword.text := by
  intro x hx
  rw [← h]
  exact mem_map_of_mem hx

theorem fold_width (hrs : runes bs = tk ++ left)
    (h : tk.map (fun r => foldRune r.char) = keyword.text) : width tk = keyword.text.length := by
  rw [width_ascii hrs fun r hr => foldRune_ascii (fold_mem h r hr), ← h, length_map]

theorem matchesText_takes {p : Parser} {keyword : Keyword} (h : p.matchesText keyword = true) :
    Takes p.rest keyword.text.length := by
  obtain ⟨tk, left, hrs, htx⟩ := matchesText_iff.mp h
  exact ⟨tk, left, hrs, (fold_width hrs htx).symm⟩

theorem foldRune_symbol {c : Char} (hkw : keyword.text = [k]) (h : foldRune c = k) : c = k := by
  have hk : k ∈ ['(', ')', '\'', '"', '/'] := by
    cases keyword <;> cases hkw <;> decide
  have hc : c.toNat < 0x80 := by
    apply @foldRune_ascii keyword
    rw [hkw, h]
    exact mem_singleton_self k
  have hall : ∀ n < 0x80, (['(', ')', '\'', '"', '/'].all fun k =>
      foldRune (Char.ofNat n) = k → Char.ofNat n = k) = true := by decide
  have := of_decide_eq_true (all_eq_true.mp (hall c.toNat hc) k hk)
  rw [Char.ofNat_toNat] at this
  exact this h

theorem matchesText_symbol {p : Parser} (hkw : keyword.text = [k]) :
    p.matchesText keyword = true ↔ ∃ r left, p.rest = r :: left ∧ r.char = k := by
  rw [matchesText_iff, hkw]
  constructor
  · rintro ⟨tk, left, hrs, htx⟩
    obtain ⟨r, rfl, hr⟩ := map_eq_singleton_iff.mp htx
    exact ⟨r, left, hrs, foldRune_symbol hkw hr⟩
  · rintro ⟨r, left, hrs, rfl⟩
    refine ⟨[r], left, hrs, ?_⟩
    have hfo := @foldRune_text keyword
    rwa [hkw] at hfo

theorem matchesText_lparen {p : Parser} :
    p.matchesText .lparen = true ↔ ∃ r left, p.rest = r :: left ∧ r.char = '(' :=
  matchesText_symbol rfl

theorem matchesText_rparen {p : Parser} :
    p.matchesText .rparen = true ↔ ∃ r left, p.rest = r :: left ∧ r.char = ')' :=
  matchesText_symbol rfl

theorem matchesText_head {p : Parser} (h : p.matchesText keyword = true) :
    (p.rest.map fun r => foldRune r.char).head? = keyword.text.head? := by
  obtain ⟨tk, left, hrs, htx⟩ := matchesText_iff.mp h
  rw [hrs, map_append, htx]
  cases keyword <;> rfl

theorem matchKeyword_matchesText {p : Parser} (h : p.matchKeyword keyword = true) :
    p.matchesText keyword = true := by
  rw [Parser.matchKeyword, Bool.and_eq_true] at h
  exact h.2

structure Spans (p q : Parser) (range : Range) : Prop where
  forward : Forward p q
  range : range = ⟨p.pos, q.pos⟩

theorem parseQuoted_spans (h : parseQuoted dl p = some r) :
    Spans p r.2 ⟨p.pos, r.2.pos⟩ ∧ (p.done = false → p.pos < r.2.pos) := by
  rw [parseQuoted] at h
  cases hs : scanDelimited false dl p.rest with
  | error e => simp [hs] at h
  | ok scan =>
    simp only [hs] at h
    split at h
    · cases h
    cases h
    refine ⟨⟨.of_takes (scanDelimited_ends hs).takes, rfl⟩, fun hdo => ?_⟩
    cases hrs : p.rest with
    | nil => rw [rest_eq_nil.mp hrs] at hdo; cases hdo
    | cons r left =>
      rw [hrs] at hs
      have := scanDelimited_progress hs
      have := rune_pos hrs
      simp only [Parser.advance]
      omega

theorem parseStringQuotes_spans (h : parseStringQuotes p = some (pat, q)) :
    Spans p q pat.annotation.range ∧ (p.done = false → p.pos < q.pos) := by
  have hquo : ∀ dl, quotedPattern dl p = some (pat, q) →
      Spans p q pat.annotation.range ∧ (p.done = false → p.pos < q.pos) := by
    intro dl hq
    obtain ⟨r, hr, he⟩ := Option.map_eq_some_iff.mp hq
    cases he
    exact parseQuoted_spans hr
  unfold parseStringQuotes at h
  split at h
  · exact hquo _ h
  split at h
  · exact hquo _ h
  · cases h

theorem parseRegexpQuotes_spans (h : parseRegexpQuotes p = some (pat, q)) :
    Spans p q pat.annotation.range ∧ (p.done = false → p.pos < q.pos) := by
  unfold parseRegexpQuotes at h
  split at h
  · cases h
  obtain ⟨r, hr, he⟩ := Option.map_eq_some_iff.mp h
  split at he
  all_goals
    cases he
    exact parseQuoted_spans hr

theorem tryScanBalancedPattern_spans (h : tryScanBalancedPattern lb p = some (pat, q)) :
    Spans p q pat.annotation.range := by
  obtain ⟨scan, hs, he⟩ := Option.map_eq_some_iff.mp h
  cases he
  exact ⟨.of_takes (scanBalancedPattern_reads hs).takes, rfl⟩

theorem parsePlain_spans :
    Spans p (parsePlain lb p).2 (Pattern.annotation (parsePlain lb p).1).range := by
  refine ⟨.of_takes ?_, rfl⟩
  split
  · exact scanValue_reads.takes
  · exact scanAnyPattern_reads.takes

theorem parsePattern_cases : parseRegexpQuotes p = some (parsePattern lb p) ∨
    parseStringQuotes p = some (parsePattern lb p) ∨
    tryScanBalancedPattern lb p = some (parsePattern lb p) ∨
    parsePattern lb p = parsePlain lb p := by
  have hor : ∀ (o o' : Option (Pattern × Parser)) (d : Pattern × Parser),
      o = some ((o.or o').getD d) ∨ (o.or o').getD d = o'.getD d := by
    intro o o' d
    cases o <;> simp
  have hite : ∀ (b : Bool) (o : Option (Pattern × Parser)) (x : Pattern × Parser),
      (if b then o else none) = some x → o = some x := by
    intro b o x hx
    cases b <;> simp_all
  unfold parsePattern
  rcases hor (if lb.standard || lb.regexp then parseRegexpQuotes p else none) _
    (parsePlain lb p) with h | h
  · exact .inl (hite _ _ _ h)
  refine .inr ?_
  rw [h]
  rcases hor (if lb.regexp then parseStringQuotes p else none) _ (parsePlain lb p) with h | h
  · exact .inl (hite _ _ _ h)
  refine .inr ?_
  rw [h]
  cases hb : (if p.heuristics.parensAsPatterns then tryScanBalancedPattern lb p else none) with
  | none => exact .inr rfl
  | some x => exact .inl (hite _ _ _ hb)

theorem parsePattern_spans (lb : Labels) (p : Parser) :
    Spans p (parsePattern lb p).2 (Pattern.annotation (parsePattern lb p).1).range := by
  rcases parsePattern_cases with h | h | h | h
  · exact (parseRegexpQuotes_spans h).1
  · exact (parseStringQuotes_spans h).1
  · exact tryScanBalancedPattern_spans h
  · rw [h]
    exact parsePlain_spans

theorem parsePattern_progress (lb : Labels) {p : Parser} (hrs : p.rest = r :: left)
    (hs : isSpace r.char = false) (hcls : r.char ≠ ')')
    (hop : r.char = '(' → p.heuristics.allowDanglingParens = true) :
    p.pos < (parsePattern lb p).2.pos := by
  have hr := rune_pos hrs
  have hdo : p.done = false := by
    by_contra hd
    rw [rest_eq_nil.mpr (eq_true_of_ne_false hd)] at hrs
    cases hrs
  rcases parsePattern_cases with h | h | h | h
  · exact (parseRegexpQuotes_spans h).2 hdo
  · exact (parseStringQuotes_spans h).2 hdo
  · obtain ⟨scan, hsc, he⟩ := Option.map_eq_some_iff.mp h
    rw [hrs] at hsc
    have := scanBalancedPattern_progress hs hcls hsc
    rw [← he]
    simp only [Parser.advance]
    omega
  · rw [h, parsePlain, hrs]
    simp only [Parser.advance]
    split
    · have := @scanValue_progress r left p.heuristics.allowDanglingParens hs fun h =>
        h.elim hop fun h => absurd h hcls
      omega
    have := @scanAnyPattern_progress r left hs
    omega

def Consumes (p : Parser) : Except ParseError (List Char × Labels × Parser) → Prop
  | .ok r => Forward p r.2.2
  | .error e => e ≠ .outOfFuel

theorem parseFieldValue_consumes (fd : List Char) (p : Parser) :
    Consumes p (parseFieldValue fd p) := by
  have hdel : ∀ dl, Consumes p (delimited dl p) := by
    intro dl
    unfold delimited
    split
    · exact ParseError.noConfusion
    · rename_i scan hs
      exact .of_takes (scanDelimited_ends hs).takes
  unfold parseFieldValue
  split
  · exact hdel _
  split
  · exact hdel _
  split
  · rename_i scan hs
    exact .of_takes (scanPredicate_reads hs).takes
  split
  · rename_i scan hs
    exact .of_takes (scanBalancedPattern_reads hs).takes
  exact .of_takes scanValue_reads.takes

theorem parseParameter_none (h : parseParameter p = (.ok none, q)) : q = p := by
  unfold parseParameter at h
  split at h
  · cases h
    rfl
  simp only at h
  split at h <;> cases h

theorem parseParameter_error (h : parseParameter p = (.error e, q)) :
    Forward p q ∧ e ≠ .outOfFuel := by
  unfold parseParameter at h
  split at h
  · cases h
  rename_i fd hf
  have hcon := parseFieldValue_consumes fd.name (p.advance fd.count)
  simp only at h
  split at h
  · rename_i he
    cases h
    rw [he] at hcon
    exact ⟨.of_takes (scanField_takes hf), hcon⟩
  · cases h

theorem parseParameter_some (h : parseParameter p = (.ok (some par), q)) :
    Spans p q par.annotation.range ∧ p.pos < q.pos := by
  unfold parseParameter at h
  split at h
  · cases h
  rename_i fd hf
  simp only at h
  split at h
  · cases h
  rename_i v lbs r hv
  cases h
  have hforward := parseFieldValue_consumes fd.name (p.advance fd.count)
  rw [hv] at hforward
  refine ⟨⟨(Forward.of_takes (scanField_takes hf)).trans hforward, rfl⟩, ?_⟩
  obtain ⟨cnt, rfl, -⟩ := hforward
  cases hrs : p.rest with
  | nil => simp [hrs, scanField] at hf
  | cons r left =>
    rw [hrs] at hf
    have := scanField_progress hf
    have := rune_pos hrs
    simp only [Parser.advance]
    omega

/-- What the cases of the switch after the parentheses do. -/
inductive Word (nodes : List Node) (p : Parser) : Step → Parser → Prop
  | keyword (level : Level) (h : p.matchKeyword level.keyword = true) : Word nodes p (.stop nodes) p
  | leaf {label : Labels} {leaf : Leaf} {q : Parser} (spans : Spans p q leaf.annotation.range) :
    Word nodes p (.collect label leaf) (q.record (.leaf leaf))
  | fail {e : ParseError} {q : Parser} (h : e ≠ .outOfFuel) (forward : Forward p q) :
    Word nodes p (.fail e) q

theorem matchUnaryKeyword_matchesText {p : Parser} (h : p.matchUnaryKeyword keyword = true) :
    p.matchesText keyword = true := by
  rw [Parser.matchUnaryKeyword, Bool.and_eq_true] at h
  exact h.2

theorem negatedPattern_word (ns : List Node) (h : Forward p q)
    (hn : negatedPattern lb p.pos q = (step, r)) : Word ns p step r ∧ q.pos ≤ r.pos := by
  obtain ⟨rfl, rfl⟩ := Prod.mk.inj hn
  have hspn := (parsePattern_spans lb q).forward
  refine ⟨.leaf ⟨h.trans hspn, rfl⟩, ?_⟩
  obtain ⟨cnt, hq, -⟩ := hspn
  simp only [Parser.record, hq, Parser.advance]
  omega

theorem notStep_word (ns : List Node) (hp : p.matchesText .not = true)
    (h : notStep lb p = (step, q)) :
    Word ns p step q ∧ (∀ lb' leaf, step = .collect lb' leaf → p.pos < q.pos) := by
  have hnot : Forward p (p.advance Keyword.not.text.length) := .of_takes (matchesText_takes hp)
  have hlt : ∀ {r : Parser}, Forward (p.advance Keyword.not.text.length) r → p.pos < r.pos := by
    rintro r ⟨cnt, rfl, -⟩
    simp only [Parser.advance, Keyword.text, length_cons, length_nil]
    omega
  rw [notStep] at h
  split at h
  · cases h
    exact ⟨.fail ParseError.noConfusion hnot, fun _ _ he => Step.noConfusion he⟩
  rename_i r hr
  have hsk := (skipSpaces_spec hr).1
  split at h
  · cases h
    exact ⟨.fail ParseError.noConfusion (hnot.trans hsk), fun _ _ he => Step.noConfusion he⟩
  split at h
  · rename_i par s hpm
    have hs := (parseParameter_some hpm).1.forward
    split at h
    · cases h
      exact ⟨.fail ParseError.noConfusion ((hnot.trans hsk).trans hs),
        fun _ _ he => Step.noConfusion he⟩
    cases h
    exact ⟨.leaf ⟨(hnot.trans hsk).trans hs, rfl⟩,
      fun _ _ _ => show p.pos < s.pos from hlt (hsk.trans hs)⟩
  · rename_i s hpm
    obtain rfl := parseParameter_none hpm
    obtain ⟨hwd, hle⟩ := negatedPattern_word ns (hnot.trans hsk) h
    exact ⟨hwd, fun _ _ _ => Nat.lt_of_lt_of_le (hlt hsk) hle⟩
  · rename_i e s hpm
    have hs := (parseParameter_error hpm).1
    obtain ⟨hwd, hle⟩ := negatedPattern_word ns ((hnot.trans hsk).trans hs) h
    exact ⟨hwd, fun _ _ _ => Nat.lt_of_lt_of_le (hlt (hsk.trans hs)) hle⟩

theorem defaultStep_word (ns : List Node) (h : defaultStep lb p = (step, q)) :
    Word ns p step q ∧ (p.pos < (parsePattern lb p).2.pos →
      ∀ lb' leaf, step = .collect lb' leaf → p.pos < q.pos) := by
  rw [defaultStep] at h
  cases hpm : parseParameter p with
  | mk res s =>
    rw [hpm] at h
    cases res with
    | error e =>
      cases h
      obtain ⟨hforward, he⟩ := parseParameter_error hpm
      exact ⟨.fail he hforward, fun _ _ _ he => Step.noConfusion he⟩
    | ok found =>
      cases found with
      | none =>
        obtain rfl := parseParameter_none hpm
        cases h
        exact ⟨.leaf (parsePattern_spans lb s), fun hlt _ _ _ => hlt⟩
      | some par =>
        obtain ⟨hspn, hlt⟩ := parseParameter_some hpm
        cases h
        exact ⟨.leaf hspn, fun _ _ _ _ => hlt⟩

theorem wordStep_word (h : wordStep lb ns p = (step, q)) :
    Word ns p step q ∧ (p.pos < (parsePattern lb p).2.pos →
      ∀ lb' leaf, step = .collect lb' leaf → p.pos < q.pos) := by
  rw [wordStep] at h
  split at h
  · rename_i hk
    cases h
    refine ⟨?_, fun _ _ _ he => Step.noConfusion he⟩
    rcases (Bool.or_eq_true _ _).mp hk with hk | hk
    · exact .keyword .and hk
    · exact .keyword .or hk
  split at h
  · rename_i hnot
    obtain ⟨hwd, hlt⟩ := notStep_word ns (matchUnaryKeyword_matchesText hnot) h
    exact ⟨hwd, fun _ => hlt⟩
  · exact defaultStep_word ns h

structure Frame (p q : Parser) (events : List Event) : Prop where
  buf : q.buf = p.buf
  leafParser : q.leafParser = p.leafParser
  parens : q.heuristics.parensAsPatterns = p.heuristics.parensAsPatterns
  dangling : q.heuristics.allowDanglingParens = p.heuristics.allowDanglingParens
  trace : q.trace = p.trace ++ events
  le : p.pos ≤ q.pos
  bound : p.pos ≤ p.buf.length → q.pos ≤ p.buf.length

theorem Forward.frame (h : Forward p q) : Frame p q [] := by
  obtain ⟨cnt, rfl, hcn⟩ := h
  refine ⟨rfl, rfl, rfl, rfl, by simp [Parser.advance], ?_, fun hp => ?_⟩
  all_goals
    simp only [Parser.advance]
    omega

theorem Frame.trans {p q r : Parser} {es es' : List Event} (h : Frame p q es) (h' : Frame q r es') :
    Frame p r (es ++ es') where
  buf := h'.buf.trans h.buf
  leafParser := h'.leafParser.trans h.leafParser
  parens := h'.parens.trans h.parens
  dangling := h'.dangling.trans h.dangling
  trace := by rw [h'.trace, h.trace, append_assoc]
  le := Nat.le_trans h.le h'.le
  bound hp := by
    rw [← h.buf]
    exact h'.bound (by rw [h.buf]; exact h.bound hp)

theorem Frame.record (h : Frame p q es) (e : Event) : Frame p (q.record e) (es ++ [e]) :=
  ⟨h.buf, h.leafParser, h.parens, h.dangling, by simp [Parser.record, h.trace], h.le, h.bound⟩

inductive Outcome (start : ℕ) (nodes : List Node) (p : Parser) : Step → Parser → List Event → Prop
  | done {q} (frame : Frame p q []) (balanced : q.balanced = p.balanced)
    (blank : Blank p.buf p.pos q.pos) (h : q.done = true) : Outcome start nodes p (.stop nodes) q []
  | keyword {q} (frame : Frame p q []) (balanced : q.balanced = p.balanced)
    (blank : Blank p.buf p.pos q.pos) (level : Level)
    (h : q.matchKeyword level.keyword = true) : Outcome start nodes p (.stop nodes) q []
  | closed {q nodes' i range empty} (frame : Frame p q [.closed range empty])
    (balanced : p.balanced = q.balanced + 1) (blank : Blank p.buf p.pos i)
    (byte : p.buf[i]? = some 41) (stop : q.pos = i + 1 ∧ range.stop = q.pos)
    (hne : nodes' ≠ []) (dangling : p.heuristics.allowDanglingParens = false)
    (group : range.start = i ∧ empty = none ∨ nodes = [] ∧ range.start = start ∧
      ∃ leaf, empty = some leaf ∧ leaf.annotation.range = range)
    (kept : nodes' = nodes ∨ nodes = [] ∧ ∃ leaf : Leaf, nodes' = [leaf.node] ∧
      (leaf.isParameter = true → leaf.value = "")) :
    Outcome start nodes p (.stop nodes') q [.closed range empty]
  | leaf {q label leaf} (frame : Frame p q [.leaf leaf]) (balanced : q.balanced = p.balanced)
    (blank : Blank p.buf p.pos leaf.annotation.range.start)
    (stop : leaf.annotation.range.start ≤ q.pos ∧ leaf.annotation.range.stop = q.pos)
    (progress : p.pos < q.pos) : Outcome start nodes p (.collect label leaf) q [.leaf leaf]
  | dropped {q label leaf i} (frame : Frame p q [.dropped i, .leaf leaf])
    (balanced : q.balanced = p.balanced) (blank : Blank p.buf p.pos i)
    (byte : p.buf[i]? = some 41) (dangling : p.heuristics.allowDanglingParens = true)
    (stop : leaf.annotation.range.start = i + 1 ∧ i + 1 ≤ q.pos ∧
      leaf.annotation.range.stop = q.pos)
    (progress : p.pos < q.pos) :
    Outcome start nodes p (.collect label leaf) q [.dropped i, .leaf leaf]
  | opened {q i} (frame : Frame p q [.opened i]) (balanced : q.balanced = p.balanced + 1)
    (blank : Blank p.buf p.pos i) (byte : p.buf[i]? = some 40) (stop : q.pos = i + 1)
    (dangling : p.heuristics.allowDanglingParens = false) :
    Outcome start nodes p .group q [.opened i]
  | fail {e q events} (h : e ≠ .outOfFuel) (frame : Frame p q events)
    (quiet : ∀ event ∈ events, ∃ i, event = .dropped i) : Outcome start nodes p (.fail e) q events

theorem byte_of_rest {p : Parser} {r : Rune} {left : List Rune} (h : p.rest = r :: left) {b : UInt8}
    (hb : r.char.toNat = b.toNat) (hlt : b.toNat < 0x80) : p.buf[p.pos]? = some b := by
  obtain ⟨b', rest, hbuf, hb', -, -⟩ := runes_ascii h (by omega)
  have hget : (p.buf.drop p.pos)[0]? = some b' := by rw [hbuf]; rfl
  rw [getElem?_drop] at hget
  rw [show b = b' from UInt8.toNat_inj.mp (by omega)]
  exact hget

theorem symbol_byte {p : Parser} {b : UInt8} (hkw : keyword.text = [k]) (hb : k.toNat = b.toNat)
    (hlt : b.toNat < 0x80) (h : p.matchesText keyword = true) : p.buf[p.pos]? = some b := by
  obtain ⟨r, left, hrs, rfl⟩ := (matchesText_symbol hkw).mp h
  exact byte_of_rest hrs hb hlt

theorem paren_takes {p : Parser} (h : p.rest = r :: left) (hr : r.char = '(' ∨ r.char = ')') :
    Takes p.rest 1 := by
  rcases hr with hr | hr
  · exact @matchesText_takes p .lparen (matchesText_lparen.mpr ⟨r, left, h, hr⟩)
  · exact @matchesText_takes p .rparen (matchesText_rparen.mpr ⟨r, left, h, hr⟩)

section Steps

variable (hforward : Forward p q) (hblank : Blank p.buf p.pos q.pos) (hrs : q.rest = r :: left)
include hforward hblank hrs

theorem openStep_outcome (hr : r.char = '(') (hd : q.heuristics.allowDanglingParens = false)
    (h : openStep lb q = (step, s)) : ∃ es, Outcome start ns p step s es := by
  have hfrm := hforward.frame
  have hwd := rune_pos hrs
  unfold openStep at h
  split at h
  · rename_i scan hsc
    have hsc' : scanBalancedPattern q.rest = some scan := by
      split at hsc
      · exact hsc
      · cases hsc
    have hnx := (Forward.of_takes (scanBalancedPattern_reads hsc').takes).frame
    rw [hrs] at hsc'
    have hpro := scanBalancedPattern_progress (by rw [hr]; decide) (by rw [hr]; decide) hsc'
    obtain ⟨cnt, rfl, -⟩ := hforward
    cases h
    refine ⟨_, .leaf ((hfrm.trans hnx).record _) rfl hblank ?_ ?_⟩
    · exact ⟨Nat.le_add_right _ _, rfl⟩
    · simp only [Parser.record, Parser.advance]
      omega
  · cases h
    have hby := @byte_of_rest q r left hrs 40 (by rw [hr]; rfl) (by decide)
    have hnx := (Forward.of_takes (paren_takes hrs (.inl hr))).frame
    obtain ⟨cnt, rfl, -⟩ := hforward
    refine ⟨_, .opened ⟨hfrm.buf, hfrm.leafParser, hfrm.parens, hfrm.dangling, ?_, ?_, ?_⟩
      rfl hblank hby rfl hd⟩
    · rfl
    · exact (hfrm.trans hnx).le
    · exact (hfrm.trans hnx).bound

theorem closeStep_outcome (hr : r.char = ')') (hd : q.heuristics.allowDanglingParens = false)
    (h : closeStep start ns q = (step, s)) : ∃ es, Outcome start ns p step s es := by
  have hfrm := hforward.frame
  have hnx := hfrm.trans (Forward.of_takes (paren_takes hrs (.inr hr))).frame
  have hby := @byte_of_rest q r left hrs 41 (by rw [hr]; rfl) (by decide)
  have hcl : ∀ ev, Frame p (Parser.record { q.advance 1 with
      balanced := q.balanced - 1
      heuristics := { q.heuristics with disambiguated := true } } ev) [ev] := fun ev =>
    ⟨hfrm.buf, hfrm.leafParser, hfrm.parens, hfrm.dangling,
      by simp [Parser.record, Parser.advance, hfrm.trace], hnx.le, hnx.bound⟩
  have hbal := hforward.balanced
  rw [hfrm.buf] at hby
  rw [hfrm.dangling] at hd
  unfold closeStep at h
  split at h
  · cases h
    exact ⟨[], .fail ParseError.noConfusion hnx (by simp)⟩
  have hmin : p.balanced = q.balanced - 1 + 1 := by omega
  split at h
  · rename_i hne
    cases h
    exact ⟨_, .closed (hcl _) hmin hblank hby ⟨rfl, rfl⟩ hne hd (.inl ⟨rfl, rfl⟩) (.inl rfl)⟩
  rename_i hnil
  split at h
  · cases h
    exact ⟨_, .closed (hcl _) hmin hblank hby ⟨rfl, rfl⟩ (by simp) hd
      (.inr ⟨not_not.mp hnil, rfl, _, rfl, rfl⟩)
      (.inr ⟨not_not.mp hnil, .pattern _, rfl, nofun⟩)⟩
  cases h
  exact ⟨_, .closed (hcl _) hmin hblank hby ⟨rfl, rfl⟩ (by simp) hd
    (.inl ⟨rfl, rfl⟩) (.inr ⟨not_not.mp hnil, .parameter _, rfl, fun _ => rfl⟩)⟩

theorem wordStep_outcome (hs : isSpace r.char = false) (hcls : r.char ≠ ')')
    (hop : r.char = '(' → q.heuristics.allowDanglingParens = true)
    (h : wordStep lb ns q = (step, s)) : ∃ es, Outcome start ns p step s es := by
  have hfrm := hforward.frame
  have hle := hfrm.le
  have hbal := hforward.balanced
  obtain ⟨hwd, hlt⟩ := wordStep_word h
  have hlt := hlt (parsePattern_progress lb hrs hs hcls hop)
  cases hwd with
  | keyword lv hk => exact ⟨[], .keyword hfrm hbal hblank lv hk⟩
  | fail he hforward' => exact ⟨_, .fail he (hfrm.trans hforward'.frame) (by simp)⟩
  | @leaf _ leaf t hspn =>
    have hlt := hlt _ _ rfl
    have hnx := hfrm.trans hspn.forward.frame
    have hst : leaf.annotation.range.start = q.pos := by rw [hspn.range]
    have hsp : leaf.annotation.range.stop = t.pos := by rw [hspn.range]
    obtain ⟨cnt, rfl, -⟩ := hspn.forward
    exact ⟨_, .leaf (hnx.record _) hbal (by rw [hst]; exact hblank)
      ⟨by rw [hst]; exact Nat.le_of_lt hlt, hsp⟩ (Nat.lt_of_le_of_lt hle hlt)⟩

omit hforward hblank hrs in
/-- No keyword is recognised right after a parenthesis. -/
theorem not_matchKeyword_of_paren {p : Parser} {i : ℕ} {keyword : Keyword}
    (hby : p.buf[i]? = some 41) (hpos : p.pos = i + 1) : p.matchKeyword keyword = false := by
  have hsp : p.spaceAt (p.pos - 1) = false := by
    rw [Parser.spaceAt, hpos, Nat.add_sub_cancel, hby]
    decide
  simp [Parser.matchKeyword, hsp]

theorem droppedStep_outcome (hr : r.char = ')') (hd : q.heuristics.allowDanglingParens = true)
    (h : wordStep lb ns ((q.advance 1).record (.dropped q.pos)) = (step, s)) :
    ∃ es, Outcome start ns p step s es := by
  have hfrm := hforward.frame
  have hnx := (hfrm.trans (Forward.of_takes (paren_takes hrs (.inr hr))).frame).record
    (.dropped q.pos)
  have hby := @byte_of_rest q r left hrs 41 (by rw [hr]; rfl) (by decide)
  have hbal := hforward.balanced
  have hle := hfrm.le
  cases (wordStep_word h).1 with
  | keyword lv hk =>
    have hno := @not_matchKeyword_of_paren ((q.advance 1).record (.dropped q.pos)) q.pos
      lv.keyword hby rfl
    rw [hno] at hk
    cases hk
  | fail he hforward' =>
    exact ⟨_, .fail he (hnx.trans hforward'.frame) (by simp)⟩
  | @leaf _ leaf t hspn =>
    have hall := (hnx.trans hspn.forward.frame).record (.leaf leaf)
    have hrng := hspn.range
    obtain ⟨cnt, rfl, -⟩ := hspn.forward
    rw [hfrm.buf] at hby
    rw [hfrm.dangling] at hd
    refine ⟨_, .dropped hall hbal hblank hby hd ⟨by rw [hrng]; rfl, ?_, by rw [hrng]; rfl⟩ ?_⟩
    all_goals
      simp only [Parser.record, Parser.advance]
      omega

end Steps

theorem leafStep_outcome {lb : Labels} (h : leafStep lb start ns p = (step, s)) :
    ∃ es, Outcome start ns p step s es := by
  rw [leafStep] at h
  split at h
  · cases h
    exact ⟨[], .fail ParseError.noConfusion (Forward.refl p).frame (by simp)⟩
  rename_i q hq
  obtain ⟨hforward, hblank, hnx⟩ := skipSpaces_spec hq
  have hbal := hforward.balanced
  split at h
  · rename_i hdo
    cases h
    exact ⟨[], .done hforward.frame hbal hblank hdo⟩
  rename_i hdo
  obtain ⟨r, left, hrs, hs⟩ := hnx.resolve_left hdo
  split at h
  · rename_i hop
    simp only [Bool.and_eq_true, Bool.not_eq_true'] at hop
    obtain ⟨r', left', hrs', hr⟩ := matchesText_lparen.mp hop.1
    rw [hrs] at hrs'
    obtain ⟨rfl, rfl⟩ := cons.inj hrs'
    exact openStep_outcome hforward hblank hrs hr hop.2 h
  rename_i hop
  split at h
  · rename_i hcls
    refine wordStep_outcome hforward hblank hrs hs ?_ ?_ h
    · intro hr
      have := matchesText_rparen.mpr ⟨r, left, hrs, hr⟩
      simp [this] at hcls
    · intro hr
      have := matchesText_lparen.mpr ⟨r, left, hrs, hr⟩
      simpa [this] using hop
  · rename_i hcls
    simp only [Bool.not_eq_true', Bool.not_eq_false] at hcls
    obtain ⟨r', left', hrs', hr⟩ := matchesText_rparen.mp hcls
    rw [hrs] at hrs'
    obtain ⟨rfl, rfl⟩ := cons.inj hrs'
    split at h
    · rename_i hd
      exact closeStep_outcome hforward hblank hrs hr (by simpa using hd) h
    rename_i hd
    exact droppedStep_outcome hforward hblank hrs hr (by simpa using hd) h

theorem Outcome.frame (h : Outcome start ns p step q es) : Frame p q es := by
  cases h <;> assumption

theorem Outcome.group_progress (h : Outcome start ns p .group q es) : p.pos < q.pos := by
  cases h with
  | opened _ _ hblank _ hsp _ =>
    have := (blank_gap p.buf).le hblank
    omega

theorem expectOperator_progress (q : Parser) (lv : Level) :
    q.pos < (expectOperator q lv.keyword).pos := by
  cases lv <;> simp [expectOperator, Parser.advance, Parser.record, Level.keyword, Keyword.text]

theorem expectOperator_frame (h : p.matchesText keyword = true) :
    Frame p (expectOperator p keyword) [.operator keyword p.pos] :=
  (Forward.of_takes (matchesText_takes h)).frame.record _

theorem Run.frame (h : Run fuel c p r q) : ∃ es, Frame p q es := by
  induction h with
  | outOfFuel c p => exact ⟨[], (Forward.refl p).frame⟩
  | stop h | fail h =>
    obtain ⟨es, ho⟩ := leafStep_outcome h
    exact ⟨es, ho.frame⟩
  | collect h _ ih | groupError h _ ih =>
    obtain ⟨es, ho⟩ := leafStep_outcome h
    obtain ⟨es', hf⟩ := ih
    exact ⟨_, ho.frame.trans hf⟩
  | group h _ _ ih ih' =>
    obtain ⟨es, ho⟩ := leafStep_outcome h
    obtain ⟨es', hf⟩ := ih
    obtain ⟨es'', hf'⟩ := ih'
    exact ⟨_, (ho.frame.trans hf).trans hf'⟩
  | operandError _ ih | operandMissing _ ih | operand _ _ _ ih => exact ih
  | operatorError _ _ hm _ ih ih' | operator _ _ hm _ ih ih' =>
    obtain ⟨es, hf⟩ := ih
    obtain ⟨es', hf'⟩ := ih'
    exact ⟨_, (hf.trans (expectOperator_frame hm)).trans hf'⟩

/-- The fuel a call needs when `remaining` bytes are left. -/
def Call.fuel (remaining : ℕ) : Call → ℕ
  | .leaves _ _ _ => 3 * remaining + 1
  | .level .and => 3 * remaining + 2
  | .level .or => 3 * remaining + 3

theorem Level.operand_fuel (lv : Level) (p : Parser) (rem : ℕ) :
    (lv.operand p).fuel rem + 1 = (Call.level lv).fuel rem := by
  cases lv <;> rfl

theorem Call.fuel_step {fuel : ℕ} (hlt : m < n)
    (h : ∀ lb start ns, (Call.leaves lb start ns).fuel n ≤ fuel + 1) : c.fuel m ≤ fuel := by
  have := h {} 0 []
  rcases c with _ | ⟨_ | _⟩ <;> simp only [Call.fuel] at * <;> omega

theorem Frame.fuel_step {p q : Parser} (h : Frame p q es) (hp : p.pos ≤ p.buf.length)
    (hlt : p.pos < q.pos) (hfu : ∀ lb start ns,
      (Call.leaves lb start ns).fuel (p.buf.length - p.pos) ≤ fuel + 1) :
    q.pos ≤ q.buf.length ∧ c.fuel (q.buf.length - q.pos) ≤ fuel := by
  have hq := h.bound hp
  rw [h.buf]
  exact ⟨hq, Call.fuel_step (show _ < p.buf.length - p.pos by omega) hfu⟩

/-- With enough fuel a run does not end for the lack of it: the parser terminates. -/
theorem Run.enough_fuel (h : Run fuel c p r q) (hp : p.pos ≤ p.buf.length)
    (hfu : c.fuel (p.buf.length - p.pos) ≤ fuel) : r ≠ .error .outOfFuel := by
  induction h with
  | outOfFuel c p => rcases c with _ | ⟨_ | _⟩ <;> simp [Call.fuel] at hfu
  | stop h | operand _ _ _ _ | operator _ _ _ _ _ _ => simp
  | fail h =>
    obtain ⟨es, ho⟩ := leafStep_outcome h
    cases ho with
    | fail he _ _ => simpa using he
  | @collect fuel lb start ns p lb' leaf q r s h next ih =>
    obtain ⟨es, ho⟩ := leafStep_outcome h
    have hpro : p.pos < q.pos := by cases ho <;> assumption
    obtain ⟨hq, hfu'⟩ := ho.frame.fuel_step hp hpro fun _ _ _ => hfu
    exact ih hq hfu'
  | @groupError fuel lb start ns p q e s h inn ih =>
    obtain ⟨es, ho⟩ := leafStep_outcome h
    obtain ⟨hq, hfu'⟩ := ho.frame.fuel_step hp ho.group_progress fun _ _ _ => hfu
    exact ih hq hfu'
  | @group fuel lb start ns p q res s r t h inn next _ ih' =>
    obtain ⟨es, ho⟩ := leafStep_outcome h
    obtain ⟨es', hin⟩ := inn.frame
    have hpro := Nat.lt_of_lt_of_le ho.group_progress hin.le
    obtain ⟨hs, hfu'⟩ := (ho.frame.trans hin).fuel_step hp hpro fun _ _ _ => hfu
    exact ih' hs hfu'
  | @operandError fuel lv p e q left ih =>
    have := lv.operand_fuel p (p.buf.length - p.pos)
    exact ih hp (by omega)
  | operandMissing _ _ => simp [expectedOperand]
  | @operatorError fuel lv p ns q e r left hne hm right _ ih' =>
    obtain ⟨es, hl⟩ := left.frame
    have hf := hl.trans (expectOperator_frame hm)
    have hq := hf.bound hp
    have hle := hl.le
    have hpro := expectOperator_progress q lv
    apply ih' (by rw [hf.buf]; exact hq)
    rw [hf.buf]
    cases lv <;> simp only [Call.fuel] at * <;> omega

theorem level_unique {p : Parser} {lv lv' : Level}
    (h : p.matchesText lv.keyword = true) (h' : p.matchesText lv'.keyword = true) : lv = lv' := by
  have heq := (matchesText_head h).symm.trans (matchesText_head h')
  cases lv <;> cases lv' <;> first | rfl | exact absurd heq (by decide)

theorem matchesText_done {p : Parser} (h : p.done = true) {lv : Level} :
    p.matchesText lv.keyword = false := by
  by_contra hm
  have hhd := matchesText_head (eq_true_of_ne_false hm)
  rw [rest_eq_nil.mpr h] at hhd
  cases lv <;> cases hhd

/-- The keywords at which a call may stop without consuming them. -/
def pending : Call → List Level
  | .leaves _ _ _ => [.and, .or]
  | .level .and => [.or]
  | .level .or => []

theorem pending_operand (h : lv' ∈ pending (lv.operand p)) (hne : lv' ≠ lv) :
    lv' ∈ pending (.level lv) := by
  cases lv <;> cases lv' <;> simp_all [pending, Level.operand]

theorem Run.ne_nil (h : Run fuel c p r q) (hc : ∀ lb start, c ≠ .leaves lb start []) :
    r ≠ .ok [] := by
  induction h with
  | @stop fuel lb start ns p ns' q h =>
    have hns : ns ≠ [] := by
      rintro rfl
      exact hc lb start rfl
    obtain ⟨es, ho⟩ := leafStep_outcome h
    simp only [ne_eq, Except.ok.injEq]
    apply partitionParameters_ne_nil
    cases ho <;> assumption
  | collect _ _ ih => exact ih (by simp)
  | @group fuel lb start ns p q res s r t _ inn _ ih ih' =>
    refine ih' fun _ _ he => ih (by simp) ?_
    simp only [Call.leaves.injEq, append_eq_nil_iff] at he
    rw [he.2.2.2]
  | operand _ hne _ _ => simpa using hne
  | @operator fuel lv p ns q ns' r _ hne _ _ _ _ =>
    simp only [ne_eq, Except.ok.injEq]
    exact newOperator_ne_nil (by simp [hne]) _
  | _ => simp

theorem Run.trace_of_nil (h : Run fuel c p (.ok []) q) : q.trace = p.trace := by
  generalize hr : (Except.ok [] : Result) = r at h
  cases h with
  | stop h =>
    obtain ⟨es, ho⟩ := leafStep_outcome h
    cases ho with
    | done frm | keyword frm => simpa using frm.trace
    | closed _ _ _ _ _ hne => exact absurd (Except.ok.inj hr).symm (partitionParameters_ne_nil hne)
  | collect _ next => exact absurd hr.symm (next.ne_nil (by simp))
  | group _ inn next =>
    refine absurd hr.symm (next.ne_nil fun _ _ he => inn.ne_nil (by simp) ?_)
    simp only [Call.leaves.injEq, append_eq_nil_iff] at he
    rw [he.2.2.2]
  | operand _ hne _ => exact absurd (Except.ok.inj hr).symm hne
  | operator _ hne _ _ =>
    exact absurd (Except.ok.inj hr).symm (newOperator_ne_nil (by simp [hne]) _)
  | _ => cases hr

end QueryRuns
