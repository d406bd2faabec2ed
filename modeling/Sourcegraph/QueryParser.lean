import Sourcegraph.QueryScanners
import Sourcegraph.QueryTransform

/-! # The parser of the query language

`parseOr`, `parseAnd` and `parseLeaves` over an explicit parser state. Besides the fields of
the source the state keeps a trace of what the parser consumes, on which nothing depends. -/
namespace QueryParser

open GoStrings QueryNodes QueryScanners QueryTransform

inductive Keyword where
  | and
  | or
  | lparen
  | rparen
  | squote
  | dquote
  | slash
  | not
  deriving DecidableEq

def Keyword.text : Keyword → List Char
  | .and => ['a', 'n', 'd']
  | .or => ['o', 'r']
  | .lparen => ['(']
  | .rparen => [')']
  | .squote => ['\'']
  | .dquote => ['"']
  | .slash => ['/']
  | .not => ['n', 'o', 't']

structure Heuristics where
  parensAsPatterns : Bool := false
  allowDanglingParens : Bool := false
  disambiguated : Bool := false
  deriving DecidableEq

/-- What the parser consumes, in the order of the input. An empty group becomes a leaf, and
`dropped` is a closing parenthesis that is ignored. -/
inductive Event where
  | leaf (leaf : Leaf)
  | operator (kind : Keyword) (start : ℕ)
  | opened (start : ℕ)
  | closed (range : Range) (empty : Option Leaf)
  | dropped (start : ℕ)
  deriving DecidableEq

structure Parser where
  buf : Bytes
  heuristics : Heuristics
  pos : ℕ := 0
  balanced : ℕ := 0
  leafParser : SearchType
  trace : List Event := []
  deriving DecidableEq

inductive ParseError where
  | expectedOperand (message : String)
  | other (message : String)
  | outOfFuel
  deriving DecidableEq

namespace Parser

def done (p : Parser) : Bool := p.buf.length ≤ p.pos

def rest (p : Parser) : List Rune := runes (p.buf.drop p.pos)

def advance (p : Parser) (count : ℕ) : Parser := { p with pos := p.pos + count }

def record (p : Parser) (event : Event) : Parser := { p with trace := p.trace ++ [event] }

def peek (p : Parser) (n : ℕ) : Option (List Char) :=
  if p.rest.length < n then none else some ((p.rest.take n).map Rune.char)

/-- `match`. -/
def matchesText (p : Parser) (keyword : Keyword) : Bool :=
  match p.peek keyword.text.length with
  | none => false
  | some v => equalFold v keyword.text

/-- `isSpace` of a slice of one byte. -/
def spaceAt (p : Parser) (i : ℕ) : Bool := (p.buf[i]?).any fun b => isSpace (decodeRune [b]).1

def matchKeyword (p : Parser) (keyword : Keyword) : Bool :=
  p.pos ≠ 0 && p.spaceAt (p.pos - 1) && p.spaceAt (p.pos + keyword.text.length) &&
    p.matchesText keyword

def matchUnaryKeyword (p : Parser) (keyword : Keyword) : Bool :=
  (p.pos = 0 || p.spaceAt (p.pos - 1) || p.buf[p.pos - 1]? = some 40) &&
    p.spaceAt (p.pos + keyword.text.length) && p.matchesText keyword

/-- `none` is `io.ErrShortBuffer`. -/
def skipSpaces (p : Parser) : Option Parser :=
  if p.buf.length < p.pos then none
  else some (p.advance (width (p.rest.takeWhile fun r => isSpace r.char)))

end Parser

def newPattern (value : List Char) (labels : Labels) (start stop : ℕ) : Pattern :=
  ⟨String.ofList value, false, ⟨labels, ⟨start, stop⟩⟩⟩

def parseQuoted (delimiter : Char) (p : Parser) : Option (List Char × Parser) :=
  match scanDelimited false delimiter p.rest with
  | .error _ => none
  | .ok scan =>
    let q := p.advance scan.count
    -- A delimited value is followed by whitespace or a closing parenthesis.
    if !q.done && !q.spaceAt q.pos && !q.matchesText .rparen then none else some (scan.value, q)

def quotedPattern (delimiter : Char) (p : Parser) : Option (Pattern × Parser) :=
  (parseQuoted delimiter p).map fun r =>
    (newPattern r.1 { literal := true, quoted := true } p.pos r.2.pos, r.2)

def parseStringQuotes (p : Parser) : Option (Pattern × Parser) :=
  if p.matchesText .dquote then quotedPattern '"' p
  else if p.matchesText .squote then quotedPattern '\'' p
  else none

/-- An empty `//` is read as the literal pattern `//`. -/
def parseRegexpQuotes (p : Parser) : Option (Pattern × Parser) :=
  if !p.matchesText .slash then none
  else (parseQuoted '/' p).map fun r =>
    if r.1 = [] then (newPattern ['/', '/'] { literal := true } p.pos r.2.pos, r.2)
    else (newPattern r.1 { regexp := true } p.pos r.2.pos, r.2)

def delimited (delimiter : Char) (p : Parser) : Except ParseError (List Char × Labels × Parser) :=
  match scanDelimited true delimiter p.rest with
  | .error message => .error (.other message)
  | .ok scan => .ok (scan.value, { quoted := true }, p.advance scan.count)

def parseFieldValue (field : List Char) (p : Parser) :
    Except ParseError (List Char × Labels × Parser) :=
  if p.matchesText .squote then delimited '\'' p
  else if p.matchesText .dquote then delimited '"' p
  else match scanPredicate (String.ofList field) p.rest with
    | some scan => .ok (scan.value, { isPredicate := true }, p.advance scan.count)
    | none =>
      match scanBalancedPattern p.rest with
      | some scan => .ok (scan.value, {}, p.advance scan.count)
      | none =>
        let scan := scanValue false p.rest
        .ok (scan.value, {}, p.advance scan.count)

/-- No parameter starts here, or one does and its value is or is not malformed. The field has
been consumed in the last case too. -/
def parseParameter (p : Parser) : Except ParseError (Option Parameter) × Parser :=
  match scanField p.rest with
  | none => (.ok none, p)
  | some field =>
    let q := p.advance field.count
    match parseFieldValue field.name q with
    | .error e => (.error e, q)
    | .ok (value, labels, r) =>
      (.ok (some ⟨String.ofList field.name, String.ofList value, field.negated,
        ⟨labels, ⟨p.pos, r.pos⟩⟩⟩), r)

def tryScanBalancedPattern (label : Labels) (p : Parser) : Option (Pattern × Parser) :=
  (scanBalancedPattern p.rest).map fun scan =>
    (newPattern scan.value label p.pos (p.pos + scan.count), p.advance scan.count)

/-- What `ParsePattern` does once no quoted or balanced pattern was found. -/
def parsePlain (label : Labels) (p : Parser) : Pattern × Parser :=
  let scan := if label.regexp then scanValue p.heuristics.allowDanglingParens p.rest
    else scanAnyPattern p.rest
  let label := if p.heuristics.allowDanglingParens then
    { label with heuristicDanglingParens := true } else label
  (newPattern scan.value label p.pos (p.pos + scan.count), p.advance scan.count)

def parsePattern (label : Labels) (p : Parser) : Pattern × Parser :=
  let regexpQuotes := if label.standard || label.regexp then parseRegexpQuotes p else none
  let stringQuotes := if label.regexp then parseStringQuotes p else none
  let balanced := if p.heuristics.parensAsPatterns then tryScanBalancedPattern label p else none
  (regexpQuotes.or (stringQuotes.or balanced)).getD (parsePlain label p)

/-- How one iteration of the loop of `parseLeaves` ends. A leaf comes with the label for the rest of
the loop. -/
inductive Step where
  | stop (nodes : List Node)
  | collect (label : Labels) (leaf : Leaf)
  | group
  | fail (error : ParseError)

def Parser.collect (p : Parser) (label : Labels) (leaf : Leaf) : Step × Parser :=
  (.collect label leaf, p.record (.leaf leaf))

/-- At an opening parenthesis: a balanced pattern or else a group. -/
def openStep (label : Labels) (p : Parser) : Step × Parser :=
  let opened := { p.advance 1 with balanced := p.balanced + 1,
                                   heuristics := { p.heuristics with disambiguated := true } }
  match if p.heuristics.parensAsPatterns then scanBalancedPattern p.rest else none with
  | some scan =>
    let label := if label.literal then { label with heuristicParensAsPatterns := true } else label
    (p.advance scan.count).collect label
      (.pattern (newPattern scan.value label p.pos (p.pos + scan.count)))
  | none => (.group, opened.record (.opened p.pos))

/-- At a closing parenthesis, for the nodes collected since `start`. -/
def closeStep (start : ℕ) (nodes : List Node) (p : Parser) : Step × Parser :=
  let closed := { p.advance 1 with balanced := p.balanced - 1,
                                   heuristics := { p.heuristics with disambiguated := true } }
  let paren : Range := ⟨p.pos, p.pos + 1⟩
  if p.balanced = 0 then
    (.fail (.other "unsupported expression. The combination of parentheses in the query have an unclear meaning. Try using the content: filter to quote patterns that contain parentheses"),
      p.advance 1)
  else if nodes ≠ [] then (.stop nodes, closed.record (.closed paren none))
  else if p.heuristics.parensAsPatterns then
    let pattern := newPattern ['(', ')'] { literal := true, heuristicParensAsPatterns := true }
      start (p.pos + 1)
    (.stop [.pattern pattern], closed.record (.closed ⟨start, p.pos + 1⟩ (some (.pattern pattern))))
  else (.stop [.parameter ⟨"", "", false, {}⟩], closed.record (.closed paren none))

def negatedPattern (label : Labels) (start : ℕ) (p : Parser) : Step × Parser :=
  let found := parsePattern label p
  found.2.collect label (.pattern ⟨found.1.value, true,
    ⟨(Pattern.annotation found.1).labels, ⟨start, found.2.pos⟩⟩⟩)

/-- At the keyword `not`. An error of `ParseParameter` is ignored. -/
def notStep (label : Labels) (p : Parser) : Step × Parser :=
  match (p.advance Keyword.not.text.length).skipSpaces with
  | none => (.fail (.other "short buffer"), p.advance Keyword.not.text.length)
  | some q =>
    if q.matchesText .lparen then
      (.fail (.other "it looks like you tried to use an expression after NOT. The NOT operator can only be used with simple search patterns or filters, and is not supported for expressions or subqueries"), q)
    else match parseParameter q with
      | (.ok (some parameter), r) =>
        if parameter.negated then
          (.fail (.other ("unexpected NOT before \"-" ++ parameter.field ++ ":" ++ parameter.value ++
            "\". Remove NOT and try again")), r)
        else r.collect label (.parameter ⟨parameter.field, parameter.value, true,
          ⟨parameter.annotation.labels, ⟨p.pos, r.pos⟩⟩⟩)
      | (.ok none, r) => negatedPattern label p.pos r
      | (.error _, r) => negatedPattern label p.pos r

def defaultStep (label : Labels) (p : Parser) : Step × Parser :=
  match parseParameter p with
  | (.error e, q) => (.fail e, q)
  | (.ok (some parameter), q) => q.collect label (.parameter parameter)
  | (.ok none, q) => (parsePattern label q).2.collect label (.pattern (parsePattern label q).1)

def wordStep (label : Labels) (nodes : List Node) (p : Parser) : Step × Parser :=
  if p.matchKeyword .and || p.matchKeyword .or then (.stop nodes, p)
  else if p.matchUnaryKeyword .not then notStep label p
  else defaultStep label p

/-- One iteration of the loop of `parseLeaves`. Under `allowDanglingParens` the guard of the
second case has consumed a closing parenthesis before the case is rejected. -/
def leafStep (label : Labels) (start : ℕ) (nodes : List Node) (p : Parser) : Step × Parser :=
  match p.skipSpaces with
  | none => (.fail (.other "short buffer"), p)
  | some q =>
    if q.done then (.stop nodes, q)
    else if q.matchesText .lparen && !q.heuristics.allowDanglingParens then openStep label q
    else if !q.matchesText .rparen then wordStep label nodes q
    else if !q.heuristics.allowDanglingParens then closeStep start nodes q
    else wordStep label nodes ((q.advance 1).record (.dropped q.pos))

def leafLabel : SearchType → Labels
  | .regex => { regexp := true }
  | .literal => { literal := true }
  | .structural => { literal := true }
  | .standard => { literal := true, standard := true }
  | .lucky => { literal := true, standard := true }
  | .keyword => { literal := true, standard := true }

def expectedOperand (p : Parser) : ParseError :=
  .expectedOperand ("expected operand at " ++ toString p.pos)

/-- `expect` of the keyword of an operator. -/
def expectOperator (p : Parser) (kind : Keyword) : Parser :=
  (p.advance kind.text.length).record (.operator kind p.pos)

mutual
/-- The loop of `parseLeaves`. -/
def parseLeaves : ℕ → Labels → ℕ → List Node → Parser → Except ParseError (List Node) × Parser
  | 0, _, _, _, p => (.error .outOfFuel, p)
  | fuel + 1, label, start, nodes, p =>
    match leafStep label start nodes p with
    | (.stop nodes, q) => (.ok (partitionParameters nodes), q)
    | (.collect label leaf, q) => parseLeaves fuel label start (nodes ++ [leaf.node]) q
    | (.fail e, q) => (.error e, q)
    | (.group, q) =>
      match parseOr fuel q with
      | (.error e, r) => (.error e, r)
      | (.ok result, r) => parseLeaves fuel label start (nodes ++ result) r
def parseAnd : ℕ → Parser → Except ParseError (List Node) × Parser
  | 0, p => (.error .outOfFuel, p)
  | fuel + 1, p =>
    match parseLeaves fuel (leafLabel p.leafParser) p.pos [] p with
    | (.error e, q) => (.error e, q)
    | (.ok left, q) =>
      if left = [] then (.error (expectedOperand q), q)
      else if !q.matchesText .and then (.ok left, q)
      else match parseAnd fuel (expectOperator q .and) with
        | (.error e, r) => (.error e, r)
        | (.ok right, r) => (.ok (newOperator (left ++ right) .and), r)
def parseOr : ℕ → Parser → Except ParseError (List Node) × Parser
  | 0, p => (.error .outOfFuel, p)
  | fuel + 1, p =>
    match parseAnd fuel p with
    | (.error e, q) => (.error e, q)
    | (.ok left, q) =>
      if left = [] then (.error (expectedOperand q), q)
      else if !q.matchesText .or then (.ok left, q)
      else match parseOr fuel (expectOperator q .or) with
        | (.error e, r) => (.error e, r)
        | (.ok right, r) => (.ok (newOperator (left ++ right) .or), r)
end

/-- Every call takes one unit, and at most three calls are made before a byte is consumed. -/
def enoughFuel (input : Bytes) : ℕ := 3 * input.length + 3

def mainRun (input : Bytes) (searchType : SearchType) : Except ParseError (List Node) × Parser :=
  parseOr (enoughFuel input) ⟨input, { parensAsPatterns := true }, 0, 0, searchType, []⟩

def fallbackRun (input : Bytes) (searchType : SearchType) :
    Except ParseError (List Node) × Parser :=
  parseOr (enoughFuel input) ⟨input, { allowDanglingParens := true }, 0, 0, searchType, []⟩

def tryFallbackParser (input : Bytes) (searchType : SearchType) :
    Except ParseError (List Node) :=
  match (fallbackRun input searchType).1 with
  | .error e => .error e
  | .ok nodes => .ok (newOperator ((hoist nodes).getD nodes) .and)

/-- What remains to do when the main parser returns nodes and is balanced. -/
def finish (searchType : SearchType) (p : Parser) (nodes : List Node) :
    Except ParseError (List Node) :=
  let nodes := if p.heuristics.disambiguated then nodes else (hoist nodes).getD nodes
  match if searchType = .literal ∨ searchType = .standard then
      validatePureLiteralPattern nodes (p.balanced = 0) else none with
  | some message => .error (.other message)
  | none => .ok (newOperator nodes .and)

/-- `strings.TrimSpace` leaves nothing. -/
def isBlank (input : Bytes) : Bool := (runes input).all fun r => isSpace r.char

/-- Try harder; if that fails too, the first error is reported. -/
def retry (input : Bytes) (searchType : SearchType) (error : ParseError) :
    Except ParseError (List Node) :=
  match tryFallbackParser input searchType with
  | .ok nodes => .ok nodes
  | .error _ => .error error

def parse (input : Bytes) (searchType : SearchType) : Except ParseError (List Node) :=
  if isBlank input then .ok []
  else match mainRun input searchType with
    | (.error (.expectedOperand message), _) =>
      retry input searchType (.expectedOperand message)
    | (.error e, _) => .error e
    | (.ok nodes, p) =>
      if p.balanced ≠ 0 then retry input searchType (.other "unbalanced expression")
      else finish searchType p nodes

/-- The main parser expected an operand or was left unbalanced. -/
def fallsBack (input : Bytes) (searchType : SearchType) : Bool :=
  match mainRun input searchType with
  | (.error (.expectedOperand _), _) => true
  | (.error (.other _), _) => false
  | (.error .outOfFuel, _) => false
  | (.ok _, p) => p.balanced ≠ 0

/-- What the runs that `Parse` makes consume. -/
def parseTrace (input : Bytes) (searchType : SearchType) : List Event :=
  if isBlank input then []
  else if fallsBack input searchType then
    (mainRun input searchType).2.trace ++ (fallbackRun input searchType).2.trace
  else (mainRun input searchType).2.trace

end QueryParser
