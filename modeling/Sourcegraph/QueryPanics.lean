import Sourcegraph.QueryRuns

/-! # The panics of the parser

The functions of the parser that call `next`, `ScanDelimited` or `ScanBalancedParens`, with their
panics: `none` is a panic and ends every function above it. In every state they return what the
functions without panics return. An `expect` behind a `match` of the same keyword reads the same
runes again and is left out. -/
namespace QueryPanics

open GoStrings QueryNodes QueryScanners QueryTransform QueryParser QueryRuns List

def next (p : Parser) : Option (Char × Parser) :=
  if p.done then none
  else
    let decoded := decodeRune (p.buf.drop p.pos)
    some (decoded.1, p.advance decoded.2)

/-- The loop of `peek`. -/
def peekFrom : ℕ → Parser → Option (Option (List Char))
  | 0, _ => some (some [])
  | n + 1, p =>
    if p.done then some none
    else do
      let (r, q) ← next p
      return (← peekFrom n q).map (r :: ·)

def matchesText (p : Parser) (keyword : Keyword) : Option Bool := do
  match ← peekFrom keyword.text.length p with
  | none => return false
  | some v => return equalFold v keyword.text

def matchKeyword (p : Parser) (keyword : Keyword) : Option Bool := do
  if p.pos ≠ 0 && p.spaceAt (p.pos - 1) then
    return p.spaceAt (p.pos + keyword.text.length) && (← matchesText p keyword)
  else return false

def matchUnaryKeyword (p : Parser) (keyword : Keyword) : Option Bool := do
  if p.pos = 0 || p.spaceAt (p.pos - 1) || p.buf[p.pos - 1]? = some 40 then
    return p.spaceAt (p.pos + keyword.text.length) && (← matchesText p keyword)
  else return false

def scanPredicate (field : String) (rs : List Rune) : Option (Option Scan) :=
  match defaultPredicateRegistry (resolveFieldAlias field) with
  | none => some none
  | some table =>
    match scanPredicateName table rs with
    | none => some none
    | some name =>
      match rs.drop name.value.length with
      | [] => some none
      | r :: rest =>
        if r.char = '(' then do
          return (← scanBalancedParensOrPanic (r :: rest)).map fun params =>
            ⟨name.value ++ params.value, name.count + params.count⟩
        else some none

def parseQuoted (delimiter : Char) (p : Parser) : Option (Option (List Char × Parser)) := do
  match ← scanDelimitedOrPanic false delimiter p.rest with
  | .error _ => return none
  | .ok scan =>
    let q := p.advance scan.count
    if !q.done && !q.spaceAt q.pos && !(← matchesText q .rparen) then return none
    else return some (scan.value, q)

def quotedPattern (delimiter : Char) (p : Parser) : Option (Option (Pattern × Parser)) := do
  return (← parseQuoted delimiter p).map fun r =>
    (newPattern r.1 { literal := true, quoted := true } p.pos r.2.pos, r.2)

def parseStringQuotes (p : Parser) : Option (Option (Pattern × Parser)) := do
  if ← matchesText p .dquote then quotedPattern '"' p
  else if ← matchesText p .squote then quotedPattern '\'' p
  else return none

def parseRegexpQuotes (p : Parser) : Option (Option (Pattern × Parser)) := do
  if !(← matchesText p .slash) then return none
  else return (← parseQuoted '/' p).map fun r =>
    if r.1 = [] then (newPattern ['/', '/'] { literal := true } p.pos r.2.pos, r.2)
    else (newPattern r.1 { regexp := true } p.pos r.2.pos, r.2)

def delimited (delimiter : Char) (p : Parser) :
    Option (Except ParseError (List Char × Labels × Parser)) := do
  match ← scanDelimitedOrPanic true delimiter p.rest with
  | .error message => return .error (.other message)
  | .ok scan => return .ok (scan.value, { quoted := true }, p.advance scan.count)

def parseFieldValue (field : List Char) (p : Parser) :
    Option (Except ParseError (List Char × Labels × Parser)) := do
  if ← matchesText p .squote then delimited '\'' p
  else if ← matchesText p .dquote then delimited '"' p
  else match ← scanPredicate (String.ofList field) p.rest with
    | some scan => return .ok (scan.value, { isPredicate := true }, p.advance scan.count)
    | none =>
      match scanBalancedPattern p.rest with
      | some scan => return .ok (scan.value, {}, p.advance scan.count)
      | none =>
        let scan := scanValue false p.rest
        return .ok (scan.value, {}, p.advance scan.count)

def parseParameter (p : Parser) : Option (Except ParseError (Option Parameter) × Parser) := do
  match scanField p.rest with
  | none => return (.ok none, p)
  | some field =>
    let q := p.advance field.count
    match ← parseFieldValue field.name q with
    | .error e => return (.error e, q)
    | .ok (value, labels, r) =>
      return (.ok (some ⟨String.ofList field.name, String.ofList value, field.negated,
        ⟨labels, ⟨p.pos, r.pos⟩⟩⟩), r)

def parsePattern (label : Labels) (p : Parser) : Option (Pattern × Parser) := do
  if label.standard || label.regexp then
    if let some found ← parseRegexpQuotes p then return found
  if label.regexp then
    if let some found ← parseStringQuotes p then return found
  if p.heuristics.parensAsPatterns then
    if let some found := tryScanBalancedPattern label p then return found
  return parsePlain label p

def negatedPattern (label : Labels) (start : ℕ) (p : Parser) : Option (Step × Parser) := do
  let found ← parsePattern label p
  return found.2.collect label (.pattern ⟨found.1.value, true,
    ⟨(Pattern.annotation found.1).labels, ⟨start, found.2.pos⟩⟩⟩)

def notStep (label : Labels) (p : Parser) : Option (Step × Parser) := do
  match (p.advance Keyword.not.text.length).skipSpaces with
  | none => return (.fail (.other "short buffer"), p.advance Keyword.not.text.length)
  | some q =>
    if ← matchesText q .lparen then
      return (.fail (.other "it looks like you tried to use an expression after NOT. The NOT operator can only be used with simple search patterns or filters, and is not supported for expressions or subqueries"), q)
    else match ← parseParameter q with
      | (.ok (some parameter), r) =>
        if parameter.negated then
          return (.fail (.other ("unexpected NOT before \"-" ++ parameter.field ++ ":" ++
            parameter.value ++ "\". Remove NOT and try again")), r)
        else return r.collect label (.parameter ⟨parameter.field, parameter.value, true,
          ⟨parameter.annotation.labels, ⟨p.pos, r.pos⟩⟩⟩)
      | (.ok none, r) => negatedPattern label p.pos r
      | (.error _, r) => negatedPattern label p.pos r

def defaultStep (label : Labels) (p : Parser) : Option (Step × Parser) := do
  match ← parseParameter p with
  | (.error e, q) => return (.fail e, q)
  | (.ok (some parameter), q) => return q.collect label (.parameter parameter)
  | (.ok none, q) =>
    let found ← parsePattern label q
    return found.2.collect label (.pattern found.1)

def wordStep (label : Labels) (nodes : List Node) (p : Parser) : Option (Step × Parser) := do
  if (← matchKeyword p .and) || (← matchKeyword p .or) then return (.stop nodes, p)
  else if ← matchUnaryKeyword p .not then notStep label p
  else defaultStep label p

def leafStep (label : Labels) (start : ℕ) (nodes : List Node) (p : Parser) :
    Option (Step × Parser) := do
  match p.skipSpaces with
  | none => return (.fail (.other "short buffer"), p)
  | some q =>
    if q.done then return (.stop nodes, q)
    else if (← matchesText q .lparen) && !q.heuristics.allowDanglingParens then
      return openStep label q
    else if !(← matchesText q .rparen) then wordStep label nodes q
    else if !q.heuristics.allowDanglingParens then return closeStep start nodes q
    else wordStep label nodes ((q.advance 1).record (.dropped q.pos))

/-- `parseLeaves`, `parseAnd` and `parseOr`. -/
def call : ℕ → Parser → Call → Option (Result × Parser)
  | 0, p, _ => some (.error .outOfFuel, p)
  | fuel + 1, p, .leaves label start nodes => do
    match ← leafStep label start nodes p with
    | (.stop nodes, q) => return (.ok (partitionParameters nodes), q)
    | (.collect label leaf, q) => call fuel q (.leaves label start (nodes ++ [leaf.node]))
    | (.fail e, q) => return (.error e, q)
    | (.group, q) =>
      match ← call fuel q (.level .or) with
      | (.error e, r) => return (.error e, r)
      | (.ok result, r) => call fuel r (.leaves label start (nodes ++ result))
  | fuel + 1, p, .level level => do
    match ← call fuel p (level.operand p) with
    | (.error e, q) => return (.error e, q)
    | (.ok left, q) =>
      if left = [] then return (.error (expectedOperand q), q)
      else if !(← matchesText q level.keyword) then return (.ok left, q)
      else match ← call fuel (expectOperator q level.keyword) (.level level) with
        | (.error e, r) => return (.error e, r)
        | (.ok right, r) => return (.ok (newOperator (left ++ right) level.kind), r)

def parseOr (fuel : ℕ) (p : Parser) : Option (Result × Parser) := call fuel p (.level .or)

def mainRun (input : Bytes) (searchType : SearchType) : Option (Result × Parser) :=
  parseOr (enoughFuel input) ⟨input, { parensAsPatterns := true }, 0, 0, searchType, []⟩

def fallbackRun (input : Bytes) (searchType : SearchType) : Option (Result × Parser) :=
  parseOr (enoughFuel input) ⟨input, { allowDanglingParens := true }, 0, 0, searchType, []⟩

def tryFallbackParser (input : Bytes) (searchType : SearchType) : Option Result := do
  match ← fallbackRun input searchType with
  | (.error e, _) => return .error e
  | (.ok nodes, _) => return .ok (newOperator ((hoist nodes).getD nodes) .and)

def retry (input : Bytes) (searchType : SearchType) (error : ParseError) : Option Result := do
  match ← tryFallbackParser input searchType with
  | .ok nodes => return .ok nodes
  | .error _ => return .error error

def parse (input : Bytes) (searchType : SearchType) : Option Result := do
  if isBlank input then return .ok []
  else match ← mainRun input searchType with
    | (.error (.expectedOperand message), _) => retry input searchType (.expectedOperand message)
    | (.error e, _) => return .error e
    | (.ok nodes, p) =>
      if p.balanced ≠ 0 then retry input searchType (.other "unbalanced expression")
      else return finish searchType p nodes

theorem peekFrom_eq (n : ℕ) (p : Parser) : peekFrom n p = some (p.peek n) := by
  induction n generalizing p with
  | zero => simp [peekFrom, Parser.peek]
  | succ n ih =>
    rw [peekFrom]
    split
    · rename_i hdo
      simp [Parser.peek, rest_eq_nil.mpr hdo]
    rename_i hdo
    obtain ⟨r, rest, hrs⟩ := exists_cons_of_ne_nil (mt rest_eq_nil.mp hdo)
    obtain ⟨-, -, -, hr, hre⟩ := runes_head hrs
    have hq : (p.advance (decodeRune (p.buf.drop p.pos)).2).rest = rest := by
      rw [hre, hr, drop_drop]
      rfl
    simp only [next, if_neg hdo, Option.bind_eq_bind, Option.bind_some, ih, Option.pure_def,
      Parser.peek, hq, hrs, hr]
    split <;> rename_i hlt <;> simp [hlt]

@[simp] theorem matchesText_eq (p : Parser) (kw : Keyword) :
    matchesText p kw = some (p.matchesText kw) := by
  rw [matchesText, peekFrom_eq, Parser.matchesText]
  cases p.peek kw.text.length <;> rfl

@[simp] theorem matchKeyword_eq (p : Parser) (kw : Keyword) :
    matchKeyword p kw = some (p.matchKeyword kw) := by
  unfold matchKeyword Parser.matchKeyword
  split <;> rename_i h <;> simp_all

@[simp] theorem matchUnaryKeyword_eq (p : Parser) (kw : Keyword) :
    matchUnaryKeyword p kw = some (p.matchUnaryKeyword kw) := by
  unfold matchUnaryKeyword Parser.matchUnaryKeyword
  split
  · rename_i h
    simp [h]
  · rename_i h
    simp [Bool.eq_false_iff.mpr h]

/-- The parenthesis has been looked at before `ScanBalancedParens` is called. -/
@[simp] theorem scanPredicate_eq (fd : String) (rs : List Rune) :
    scanPredicate fd rs = some (QueryScanners.scanPredicate fd rs) := by
  fun_cases QueryScanners.scanPredicate fd rs with
  | case1 ht => simp [scanPredicate, ht]
  | case2 tb ht hn => simp [scanPredicate, ht, hn]
  | case3 tb ht name hn hd => simp [scanPredicate, ht, hn, hd]
  | case4 tb ht name hn r rest hd hr =>
    simp [scanPredicate, ht, hn, hd, hr, scanBalancedParens, scanBalancedParensOrPanic]
  | case5 tb ht name hn r rest hd hr => simp [scanPredicate, ht, hn, hd, hr]

theorem scanDelimitedOrPanic_eq {p : Parser} {kw : Keyword} (hkw : kw.text = [dl])
    (h : p.matchesText kw = true) :
    scanDelimitedOrPanic str dl p.rest = some (scanDelimited str dl p.rest) := by
  obtain ⟨r, rest, hrs, hr⟩ := (matchesText_symbol hkw).mp h
  simp [scanDelimited, scanDelimitedOrPanic, hrs, hr]

theorem parseQuoted_eq {p : Parser} {kw : Keyword} (hkw : kw.text = [dl])
    (h : p.matchesText kw = true) : parseQuoted dl p = some (QueryParser.parseQuoted dl p) := by
  unfold parseQuoted QueryParser.parseQuoted
  rw [scanDelimitedOrPanic_eq hkw h]
  cases scanDelimited false dl p.rest with
  | error e => rfl
  | ok scan =>
    simp
    split <;> rfl

theorem delimited_eq {p : Parser} {kw : Keyword} (hkw : kw.text = [dl])
    (h : p.matchesText kw = true) : delimited dl p = some (QueryParser.delimited dl p) := by
  unfold delimited QueryParser.delimited
  rw [scanDelimitedOrPanic_eq hkw h]
  cases scanDelimited true dl p.rest <;> rfl

@[simp] theorem parseStringQuotes_eq (p : Parser) :
    parseStringQuotes p = some (QueryParser.parseStringQuotes p) := by
  unfold parseStringQuotes QueryParser.parseStringQuotes
  simp only [matchesText_eq, Option.bind_eq_bind, Option.bind_some]
  split
  · rename_i h
    simp [quotedPattern, parseQuoted_eq rfl h, QueryParser.quotedPattern]
  split
  · rename_i h
    simp [quotedPattern, parseQuoted_eq rfl h, QueryParser.quotedPattern]
  · rfl

@[simp] theorem parseRegexpQuotes_eq (p : Parser) :
    parseRegexpQuotes p = some (QueryParser.parseRegexpQuotes p) := by
  unfold parseRegexpQuotes QueryParser.parseRegexpQuotes
  simp only [matchesText_eq, Option.bind_eq_bind, Option.bind_some]
  split
  · rfl
  · rename_i h
    simp [parseQuoted_eq rfl (by simpa using h)]

@[simp] theorem parseFieldValue_eq (fd : List Char) (p : Parser) :
    parseFieldValue fd p = some (QueryParser.parseFieldValue fd p) := by
  unfold parseFieldValue QueryParser.parseFieldValue
  simp only [matchesText_eq, scanPredicate_eq, Option.bind_eq_bind, Option.bind_some]
  split
  · rename_i h
    exact delimited_eq rfl h
  split
  · rename_i h
    exact delimited_eq rfl h
  · cases QueryScanners.scanPredicate (String.ofList fd) p.rest with
    | some scan => rfl
    | none => cases scanBalancedPattern p.rest <;> rfl

@[simp] theorem parseParameter_eq (p : Parser) :
    parseParameter p = some (QueryParser.parseParameter p) := by
  unfold parseParameter QueryParser.parseParameter
  cases scanField p.rest with
  | none => rfl
  | some fd =>
    simp only [parseFieldValue_eq, Option.bind_eq_bind, Option.bind_some]
    cases QueryParser.parseFieldValue fd.name (p.advance fd.count) <;> rfl

@[simp] theorem parsePattern_eq (lb : Labels) (p : Parser) :
    parsePattern lb p = some (QueryParser.parsePattern lb p) := by
  unfold parsePattern QueryParser.parsePattern
  simp only [parseRegexpQuotes_eq, parseStringQuotes_eq, Option.bind_eq_bind, Option.bind_some]
  generalize QueryParser.parseRegexpQuotes p = x
  generalize QueryParser.parseStringQuotes p = y
  generalize tryScanBalancedPattern lb p = z
  cases lb.standard || lb.regexp <;> cases lb.regexp <;> cases p.heuristics.parensAsPatterns <;>
    cases x <;> cases y <;> cases z <;> rfl

theorem negatedPattern_eq (lb : Labels) (start : ℕ) (p : Parser) :
    negatedPattern lb start p = some (QueryParser.negatedPattern lb start p) := by
  simp [negatedPattern, QueryParser.negatedPattern]

@[simp] theorem notStep_eq (lb : Labels) (p : Parser) :
    notStep lb p = some (QueryParser.notStep lb p) := by
  unfold notStep QueryParser.notStep
  cases (p.advance Keyword.not.text.length).skipSpaces with
  | none => rfl
  | some q =>
    simp only [matchesText_eq, parseParameter_eq, Option.bind_eq_bind, Option.bind_some]
    split
    · rfl
    obtain ⟨r, s⟩ := QueryParser.parseParameter q
    rcases r with e | _ | prm
    · exact negatedPattern_eq lb p.pos s
    · exact negatedPattern_eq lb p.pos s
    · dsimp only
      split <;> rfl

@[simp] theorem defaultStep_eq (lb : Labels) (p : Parser) :
    defaultStep lb p = some (QueryParser.defaultStep lb p) := by
  unfold defaultStep QueryParser.defaultStep
  simp only [parseParameter_eq, parsePattern_eq, Option.bind_eq_bind, Option.bind_some]
  obtain ⟨r, q⟩ := QueryParser.parseParameter p
  rcases r with e | _ | prm <;> rfl

@[simp] theorem wordStep_eq (lb : Labels) (ns : List Node) (p : Parser) :
    wordStep lb ns p = some (QueryParser.wordStep lb ns p) := by
  unfold wordStep QueryParser.wordStep
  simp only [matchKeyword_eq, matchUnaryKeyword_eq, notStep_eq, defaultStep_eq,
    Option.bind_eq_bind, Option.bind_some]
  split
  · rfl
  split <;> rfl

@[simp] theorem leafStep_eq (lb : Labels) (start : ℕ) (ns : List Node) (p : Parser) :
    leafStep lb start ns p = some (QueryParser.leafStep lb start ns p) := by
  unfold leafStep QueryParser.leafStep
  cases p.skipSpaces with
  | none => rfl
  | some q =>
    simp only [matchesText_eq, wordStep_eq, Option.bind_eq_bind, Option.bind_some]
    repeat' split
    all_goals rfl

/-- No call panics, whatever its fuel and its state. -/
theorem call_eq (fuel : ℕ) (p : Parser) (c : Call) :
    call fuel p c = some (QueryRuns.call fuel p c) := by
  induction fuel generalizing p c with
  | zero => rcases c with _ | ⟨_ | _⟩ <;> rfl
  | succ fuel ih =>
    cases c with
    | leaves lb start ns =>
      rw [call, QueryRuns.call, parseLeaves, leafStep_eq, Option.bind_eq_bind, Option.bind_some]
      obtain ⟨step, q⟩ := QueryParser.leafStep lb start ns p
      cases step with
      | stop | fail => rfl
      | collect lb' leaf => exact ih q (.leaves lb' start (ns ++ [leaf.node]))
      | group =>
        dsimp only
        rw [ih, Option.bind_eq_bind, Option.bind_some, QueryRuns.call]
        obtain ⟨r, s⟩ := QueryParser.parseOr fuel q
        cases r with
        | error e => rfl
        | ok res => exact ih s (.leaves lb start (ns ++ res))
    | level lv =>
      rw [call, call_operand, ih, Option.bind_eq_bind, Option.bind_some]
      obtain ⟨r, q⟩ := QueryRuns.call fuel p (lv.operand p)
      cases r with
      | error e => rfl
      | ok left =>
        simp only [matchesText_eq, ih, Option.bind_eq_bind, Option.bind_some]
        split
        · rfl
        split
        · rfl
        obtain ⟨r, s⟩ := QueryRuns.call fuel (expectOperator q lv.keyword) (.level lv)
        cases r <;> rfl

theorem parseOr_eq (fuel : ℕ) (p : Parser) :
    parseOr fuel p = some (QueryParser.parseOr fuel p) :=
  call_eq fuel p (.level .or)

theorem retry_eq (input : Bytes) (st : SearchType) (e : ParseError) :
    retry input st e = some (QueryParser.retry input st e) := by
  simp only [retry, tryFallbackParser, fallbackRun, parseOr_eq, QueryParser.retry,
    QueryParser.tryFallbackParser, QueryParser.fallbackRun, Option.bind_eq_bind, Option.bind_some]
  generalize QueryParser.parseOr _ _ = r
  rcases r with ⟨_ | _, _⟩ <;> rfl

theorem parse_eq (input : Bytes) (st : SearchType) :
    parse input st = some (QueryParser.parse input st) := by
  simp only [parse, QueryParser.parse, mainRun, QueryParser.mainRun, parseOr_eq, retry_eq,
    Option.bind_eq_bind, Option.bind_some]
  generalize QueryParser.parseOr _ _ = r
  split
  · rfl
  rcases r with ⟨(_ | _ | _) | _, _⟩
  · rfl
  · rfl
  · rfl
  · dsimp only
    split <;> rfl

end QueryPanics
