import Sourcegraph.QueryFieldNames
import Sourcegraph.QueryRenaming

/-! # The parser on texts that differ in the case of field names

Two such texts take the parser through the same steps, as long as they agree on where a predicate
follows a field name. The leaves have the same labels and ranges, and the same value where its text
is the same. -/
namespace QueryRecasing

open GoStrings QueryNodes QueryScanners QueryTransform QueryParser QueryRuns QueryOperators
  QueryLetterCase QueryFieldNames QueryRenaming List

/-- Texts that agree on where predicates follow the field names that the parser can find. -/
structure TextsAlike (buf buf' : Bytes) : Prop extends BytesAlike buf buf' where
  predicate : ∀ n name, Boundary buf n → NameAt buf n name → isField name = true →
    predicateAt buf n = predicateAt buf' n

structure Sim (buf buf' : Bytes) (p p' : Parser) : Prop where
  buf : p.buf = buf
  buf' : p'.buf = buf'
  pos : p'.pos = p.pos
  balanced : p'.balanced = p.balanced
  heuristics : p'.heuristics = p.heuristics
  leafParser : p'.leafParser = p.leafParser

variable {buf buf' : Bytes}

theorem Sim.advance (h : Sim buf buf' p p') (hmn : m = n) :
    Sim buf buf' (p.advance m) (p'.advance n) :=
  ⟨h.buf, h.buf', by simp [Parser.advance, h.pos, hmn], h.balanced, h.heuristics, h.leafParser⟩

theorem Sim.record (h : Sim buf buf' p p') (e e' : Event) :
    Sim buf buf' (p.record e) (p'.record e') :=
  ⟨h.buf, h.buf', h.pos, h.balanced, h.heuristics, h.leafParser⟩

section Tests

variable (A : BytesAlike buf buf') (h : Sim buf buf' p p')
include A h

theorem Sim.rest : Alike p.rest p'.rest := by
  rw [Parser.rest, Parser.rest, h.buf, h.buf', h.pos]
  exact A.runes_drop p.pos

theorem Sim.done : p'.done = p.done := by
  simp [Parser.done, h.buf, h.buf', h.pos, A.length]

theorem Sim.matchesText (kw : Keyword) : p'.matchesText kw = p.matchesText kw := by
  have hfo : p'.rest.map (fun r => foldRune r.char) = p.rest.map fun r => foldRune r.char := by
    have := congrArg (map fun r : Rune => foldRune r.char) (h.rest A).map_lower
    simpa [Function.comp_def] using this.symm
  rw [matchesText_eq, matchesText_eq, startsWith, startsWith, equalFold, equalFold, map_map,
    map_map, map_take, map_take]
  exact congrArg (fun text => text.take kw.text.length == kw.text.map foldRune) hfo

theorem Sim.spaceAt (i : ℕ) : p'.spaceAt i = p.spaceAt i := by
  rw [Parser.spaceAt, Parser.spaceAt, h.buf, h.buf']
  cases hb : buf[i]? with
  | none => rw [A.byte_none hb]
  | some b =>
    obtain ⟨b', hb', rfl | hr⟩ := A.byte hb
    · rw [hb']
    rw [hb', Option.any_some, Option.any_some, decodeRune_ascii hr.ascii.1,
      decodeRune_ascii hr.ascii.2, ← isSpace_toLower, ← hr.lower, isSpace_toLower]

theorem Sim.matchKeyword (kw : Keyword) : p'.matchKeyword kw = p.matchKeyword kw := by
  simp [Parser.matchKeyword, h.pos, h.spaceAt A, h.matchesText A]

theorem Sim.matchUnaryKeyword (kw : Keyword) :
    p'.matchUnaryKeyword kw = p.matchUnaryKeyword kw := by
  have hpn : (p'.buf[p.pos - 1]? = some 40) ↔ (p.buf[p.pos - 1]? = some 40) := by
    rw [h.buf, h.buf']
    cases hb : buf[p.pos - 1]? with
    | none => rw [A.byte_none hb]
    | some b =>
      obtain ⟨b', hb', hbb⟩ := A.byte hb
      rw [hb', Option.some.injEq, Option.some.injEq]
      by_cases heq : b = b'
      · rw [heq]
      have hr := hbb.resolve_left heq
      have hlt := hr.letter heq
      have hlt' : (Char.ofNat b'.toNat).isAlpha = true := by
        rwa [← Char.isAlpha_toLower_eq_isAlpha, ← hr.lower, Char.isAlpha_toLower_eq_isAlpha]
      constructor
      · rintro rfl
        exact absurd hlt' (by decide)
      · rintro rfl
        exact absurd hlt (by decide)
  simp [Parser.matchUnaryKeyword, h.pos, h.spaceAt A, h.matchesText A, hpn]

theorem Sim.takeWhile_width : width (p'.rest.takeWhile fun r => isSpace r.char) =
    width (p.rest.takeWhile fun r => isSpace r.char) := by
  have hmap : ∀ rs : List Rune, (rs.takeWhile fun r => isSpace r.char).map lower =
      (rs.map lower).takeWhile fun r => isSpace r.char := by
    intro rs
    rw [takeWhile_map]
    simp [Function.comp_def]
  rw [← width_lower, hmap, ← (h.rest A).map_lower, ← hmap, width_lower]

theorem Sim.skipSpaces : Option.Rel (Sim buf buf') p.skipSpaces p'.skipSpaces := by
  rw [Parser.skipSpaces, Parser.skipSpaces, h.buf, h.buf', h.pos, A.length]
  split
  · exact .none
  · exact .some (h.advance (h.takeWhile_width A).symm)

end Tests

def Unchanged (buf buf' : Bytes) (lo hi : ℕ) : Prop := ∀ i, lo ≤ i → i < hi → buf[i]? = buf'[i]?

theorem Unchanged.mono (h : Unchanged buf buf' lo hi) (hlo : lo ≤ lo') (hhi : hi' ≤ hi) :
    Unchanged buf buf' lo' hi' :=
  fun i hi₁ hi₂ => h i (Nat.le_trans hlo hi₁) (Nat.lt_of_lt_of_le hi₂ hhi)

structure ValuesAlike (buf buf' : Bytes) (lo : ℕ) (x x' : List Char × Parser) : Prop where
  sim : Sim buf buf' x.2 x'.2
  empty : x.1 = [] ↔ x'.1 = []
  same : Unchanged buf buf' lo x.2.pos → x.1 = x'.1

structure FoundAlike (buf buf' : Bytes) (lo : ℕ) (x x' : Pattern × Parser) : Prop where
  sim : Sim buf buf' x.2 x'.2
  annotation : Pattern.annotation x.1 = Pattern.annotation x'.1
  same : Unchanged buf buf' lo x.2.pos → x.1 = x'.1

theorem Together.valuesAlike (h : Sim buf buf' p p') (ht : Together p.rest p'.rest scan scan') :
    ValuesAlike buf buf' p.pos (scan.value, p.advance scan.count) (scan'.value, p'.advance scan'.count) := by
  refine ⟨h.advance ht.count_eq, ht.1, fun hsm => ?_⟩
  rw [Parser.rest, Parser.rest, h.buf, h.buf', h.pos] at ht
  exact ht.value_eq hsm

theorem ValuesAlike.found (h : ValuesAlike buf buf' lo x x') (lbs : Labels) (start : ℕ) :
    FoundAlike buf buf' lo (newPattern x.1 lbs start x.2.pos, x.2)
      (newPattern x'.1 lbs start x'.2.pos, x'.2) :=
  ⟨h.sim, by simp [newPattern, h.sim.pos], fun hsm => by rw [h.same hsm, h.sim.pos]⟩

section Rel

variable {α β : Type}

theorem rel_map (h : Option.Rel r o o') (hf : ∀ a a', r a a' → s (f a) (f' a')) :
    Option.Rel s (o.map f) (o'.map f') := by
  cases h with
  | none => exact .none
  | some h => exact .some (hf _ _ h)

theorem rel_of_map (h : o.map f = o'.map f)
    (hr : ∀ a a', o = some a → o' = some a' → f a = f a' → r a a') : Option.Rel r o o' := by
  cases o with
  | none =>
    rw [Option.map_none, eq_comm, Option.map_eq_none_iff] at h
    rw [h]
    exact .none
  | some a =>
    rw [Option.map_some, eq_comm, Option.map_eq_some_iff] at h
    obtain ⟨a', rfl, he⟩ := h
    exact .some (hr a a' rfl rfl he.symm)

theorem rel_or (h : Option.Rel r o o') (hb : Option.Rel r b b') :
    Option.Rel r (o.or b) (o'.or b') := by
  cases h with
  | none => exact hb
  | some h => exact .some h

theorem rel_getD (h : Option.Rel r o o') (hd : r d d') : r (o.getD d) (o'.getD d') := by
  cases h with
  | none => exact hd
  | some h => exact h

theorem rel_ite (b : Bool) (h : Option.Rel r o o') :
    Option.Rel r (if b then o else none) (if b then o' else none) := by
  cases b
  · exact .none
  · exact h

end Rel

section Patterns

variable (A : BytesAlike buf buf') (h : Sim buf buf' p p')
include A h

theorem Sim.parseQuoted (hd : dl.isAlpha = false) :
    Option.Rel (ValuesAlike buf buf' p.pos) (parseQuoted dl p) (parseQuoted dl p') := by
  have hsc := @scanDelimited_alike false dl hd _ _ (h.rest A)
  unfold QueryParser.parseQuoted
  generalize scanDelimited false dl p.rest = x at hsc ⊢
  generalize scanDelimited false dl p'.rest = x' at hsc ⊢
  cases hsc with
  | error e => exact .none
  | @ok scan scan' ht =>
    have hv := Together.valuesAlike h ht
    have hsim : Sim buf buf' (p.advance scan.count) (p'.advance scan'.count) := hv.sim
    simp only [hsim.done A, hsim.pos, hsim.spaceAt A, hsim.matchesText A]
    split
    · exact .none
    · exact .some hv

theorem Sim.quotedPattern (hd : dl.isAlpha = false) :
    Option.Rel (FoundAlike buf buf' p.pos) (quotedPattern dl p) (quotedPattern dl p') := by
  refine rel_map (h.parseQuoted A hd) fun x x' hv => ?_
  rw [h.pos]
  exact hv.found _ _

theorem Sim.parseStringQuotes :
    Option.Rel (FoundAlike buf buf' p.pos) (parseStringQuotes p) (parseStringQuotes p') := by
  unfold QueryParser.parseStringQuotes
  rw [h.matchesText A, h.matchesText A]
  split
  · exact h.quotedPattern A (by decide)
  split
  · exact h.quotedPattern A (by decide)
  · exact .none

theorem Sim.parseRegexpQuotes :
    Option.Rel (FoundAlike buf buf' p.pos) (parseRegexpQuotes p) (parseRegexpQuotes p') := by
  unfold QueryParser.parseRegexpQuotes
  rw [h.matchesText A]
  split
  · exact .none
  refine rel_map (h.parseQuoted A (by decide)) fun x x' hv => ?_
  simp only [← hv.empty, h.pos]
  split
  · have hli : ValuesAlike buf buf' p.pos (['/', '/'], x.2) (['/', '/'], x'.2) :=
      ⟨hv.sim, Iff.rfl, fun _ => rfl⟩
    exact hli.found _ _
  · exact hv.found _ _

theorem Sim.scanBalancedPattern : Option.Rel (Together p.rest p'.rest)
    (scanBalancedPattern p.rest) (scanBalancedPattern p'.rest) := by
  have hlo := (h.rest A).map_lower
  refine rel_of_map (f := lowerScan) ?_ fun scan scan' hs hs' he =>
    Together.of_reads (scanBalancedPattern_reads hs) (scanBalancedPattern_reads hs') hlo he
  rw [← scanBalancedPattern_lower, hlo, scanBalancedPattern_lower]

theorem Sim.scanValue (alw : Bool) :
    Together p.rest p'.rest (scanValue alw p.rest) (scanValue alw p'.rest) := by
  have hlo := (h.rest A).map_lower
  refine Together.of_reads scanValue_reads scanValue_reads hlo ?_
  rw [← scanValue_lower, hlo, scanValue_lower]

theorem Sim.scanAnyPattern :
    Together p.rest p'.rest (scanAnyPattern p.rest) (scanAnyPattern p'.rest) := by
  have hlo := (h.rest A).map_lower
  refine Together.of_reads scanAnyPattern_reads scanAnyPattern_reads hlo ?_
  rw [← scanAnyPattern_lower, hlo, scanAnyPattern_lower]

theorem Sim.tryScanBalancedPattern (lb : Labels) :
    Option.Rel (FoundAlike buf buf' p.pos) (tryScanBalancedPattern lb p)
      (tryScanBalancedPattern lb p') := by
  refine rel_map (h.scanBalancedPattern A) fun scan scan' ht => ?_
  have := (Together.valuesAlike h ht).found lb p.pos
  simpa [Parser.advance, h.pos] using this

theorem Sim.parsePlain (lb : Labels) :
    FoundAlike buf buf' p.pos (parsePlain lb p) (parsePlain lb p') := by
  have hsc : Together p.rest p'.rest
      (if lb.regexp then QueryScanners.scanValue p.heuristics.allowDanglingParens p.rest
        else QueryScanners.scanAnyPattern p.rest)
      (if lb.regexp then QueryScanners.scanValue p.heuristics.allowDanglingParens p'.rest
        else QueryScanners.scanAnyPattern p'.rest) := by
    split
    · exact h.scanValue A _
    · exact h.scanAnyPattern A
  have := (Together.valuesAlike h hsc).found (if p.heuristics.allowDanglingParens then
    { lb with heuristicDanglingParens := true } else lb) p.pos
  simpa [QueryParser.parsePlain, h.heuristics, Parser.advance, h.pos] using this

theorem Sim.parsePattern (lb : Labels) :
    FoundAlike buf buf' p.pos (parsePattern lb p) (parsePattern lb p') := by
  unfold QueryParser.parsePattern
  rw [h.heuristics]
  refine rel_getD (rel_or (rel_ite _ ?_) (rel_or (rel_ite _ ?_) (rel_ite _ ?_))) (h.parsePlain A lb)
  · exact h.parseRegexpQuotes A
  · exact h.parseStringQuotes A
  · exact h.tryScanBalancedPattern A lb

end Patterns

structure ParametersAlike (buf buf' : Bytes) (lo : ℕ) (parameter parameter' : Parameter) : Prop where
  annotation : parameter.annotation = Parameter.annotation parameter'
  negated : parameter.negated = parameter'.negated
  field : toLower parameter.field = toLower parameter'.field
  same : Unchanged buf buf' lo parameter.annotation.range.stop → parameter.value = parameter'.value

section Parameters

variable (A : BytesAlike buf buf') (h : Sim buf buf' p p')
include A h

theorem Sim.scanField : Option.Rel (fun fd fd' => fd.negated = fd'.negated ∧
    fd.count = fd'.count ∧ fd.name.map Char.toLower = fd'.name.map Char.toLower)
    (scanField p.rest) (scanField p'.rest) := by
  refine rel_of_map (f := lowerField) ?_ fun fd fd' _ _ he => ?_
  · rw [← scanField_lower, (h.rest A).map_lower, scanField_lower]
  · simp only [lowerField, Field.mk.injEq] at he
    exact ⟨he.2.1, he.2.2, he.1⟩

inductive FieldValuesAlike (buf buf' : Bytes) (lo : ℕ) :
    Except ParseError (List Char × Labels × Parser) →
    Except ParseError (List Char × Labels × Parser) → Prop
  | error (message : String) : FieldValuesAlike buf buf' lo (.error (.other message))
      (.error (.other message))
  | ok {value value' : List Char} (labels : Labels) {q q' : Parser}
    (h : ValuesAlike buf buf' lo (value, q) (value', q')) :
    FieldValuesAlike buf buf' lo (.ok (value, labels, q)) (.ok (value', labels, q'))

theorem Sim.delimited (hd : dl.isAlpha = false) :
    FieldValuesAlike buf buf' p.pos (delimited dl p) (delimited dl p') := by
  have hsc := @scanDelimited_alike true dl hd _ _ (h.rest A)
  unfold QueryParser.delimited
  generalize scanDelimited true dl p.rest = x at hsc ⊢
  generalize scanDelimited true dl p'.rest = x' at hsc ⊢
  cases hsc with
  | error e => exact .error e
  | ok ht => exact .ok _ (Together.valuesAlike h ht)

theorem Sim.parseFieldValue (hpd : (scanPredicate (String.ofList fd) p.rest).isSome =
      (scanPredicate (String.ofList fd') p'.rest).isSome) :
    FieldValuesAlike buf buf' p.pos (parseFieldValue fd p) (parseFieldValue fd' p') := by
  unfold QueryParser.parseFieldValue
  rw [h.matchesText A, h.matchesText A]
  split
  · exact h.delimited A (by decide)
  split
  · exact h.delimited A (by decide)
  cases hs : scanPredicate (String.ofList fd) p.rest with
  | some scan =>
    rw [hs] at hpd
    obtain ⟨scan', hs'⟩ := Option.isSome_iff_exists.mp hpd.symm
    rw [hs']
    have hlo := (h.rest A).map_lower
    exact .ok _ (Together.valuesAlike h (Together.of_reads (scanPredicate_reads hs)
      (scanPredicate_reads hs') hlo (scanPredicate_lower hlo hs hs')))
  | none =>
    rw [hs] at hpd
    rw [Option.isSome_eq_false_iff.mp hpd.symm |> Option.isNone_iff_eq_none.mp]
    have hsc := h.scanBalancedPattern A
    generalize QueryScanners.scanBalancedPattern p.rest = o at hsc ⊢
    generalize QueryScanners.scanBalancedPattern p'.rest = o' at hsc ⊢
    cases hsc with
    | none => exact .ok _ (Together.valuesAlike h (h.scanValue A false))
    | some ht => exact .ok _ (Together.valuesAlike h ht)

end Parameters

inductive ParsedAlike (buf buf' : Bytes) (pos : ℕ) : Except ParseError (Option Parameter) × Parser →
    Except ParseError (Option Parameter) × Parser → Prop
  | none {q q' : Parser} (sim : Sim buf buf' q q') :
    ParsedAlike buf buf' pos (.ok none, q) (.ok none, q')
  | error (message : String) {q q' : Parser} (sim : Sim buf buf' q q') :
    ParsedAlike buf buf' pos (.error (.other message), q) (.error (.other message), q')
  | some {parameter parameter' : Parameter} {q q' : Parser} (sim : Sim buf buf' q q')
    (h : ParametersAlike buf buf' ((if parameter.negated then pos + 1 else pos) +
      parameter.field.length + 1) parameter parameter') :
    ParsedAlike buf buf' pos (.ok (some parameter), q) (.ok (some parameter'), q')

theorem predicateAt_name {p : Parser} {fd : Field} (h : NameAt p.buf n fd.name)
    (hlen : n + fd.name.length + 1 = p.pos + fd.count) :
    predicateAt p.buf n =
      (scanPredicate (String.ofList fd.name) (p.advance fd.count).rest).isSome := by
  rw [h.predicateAt_eq, hlen]
  rfl

theorem Sim.parseParameter (A : TextsAlike buf buf') (h : Sim buf buf' p p') (hp : Fresh p) :
    ParsedAlike buf buf' p.pos (parseParameter p) (parseParameter p') := by
  have hsc := h.scanField A.toBytesAlike
  unfold QueryParser.parseParameter
  generalize hf : QueryScanners.scanField p.rest = o at hsc ⊢
  generalize hf' : QueryScanners.scanField p'.rest = o' at hsc ⊢
  cases hsc with
  | none => exact .none h
  | @some fd fd' hrel =>
    obtain ⟨hneg, hcn, hlo⟩ := hrel
    obtain ⟨n, hn, hbou, hnm, hlen⟩ := scanField_name hf
    obtain ⟨n', hn', -, hnm', hlen'⟩ := scanField_name hf'
    obtain ⟨-, -, -, -, -, -, hkn, -⟩ := scanField_eq_some hf
    have hnn : n = n' := by rw [hn, hn', ← hneg, h.pos]
    subst hnn
    have hadv := h.advance hcn
    have hpd : (scanPredicate (String.ofList fd.name) (p.advance fd.count).rest).isSome =
        (scanPredicate (String.ofList fd'.name) (p'.advance fd'.count).rest).isSome := by
      rw [← predicateAt_name hnm hlen, ← predicateAt_name hnm' hlen', h.buf, h.buf']
      have hb := hbou hp
      rw [h.buf] at hb hnm
      exact A.predicate n fd.name hb hnm hkn
    simp only
    have hva := hadv.parseFieldValue A.toBytesAlike hpd
    generalize QueryParser.parseFieldValue fd.name (p.advance fd.count) = x at hva ⊢
    generalize QueryParser.parseFieldValue fd'.name (p'.advance fd'.count) = x' at hva ⊢
    cases hva with
    | error msg => exact .error msg hadv
    | ok lbs hv =>
      refine .some hv.sim ⟨?_, hneg, ?_, ?_⟩
      · simp only [h.pos]
        rw [show _ = _ from hv.sim.pos]
      · simp only [toLower, String.toList_ofList, hlo]
      · intro hsm
        simp only [String.length_ofList] at hsm
        rw [← hn, hlen] at hsm
        exact congrArg String.ofList (hv.same hsm)

/-- The only text of a leaf that differs is the name of its own field. -/
def Intact (buf buf' : Bytes) (leaf : Leaf) : Prop :=
  ∀ i, leaf.annotation.range.start ≤ i → i < leaf.annotation.range.stop → buf[i]? ≠ buf'[i]? →
    ∃ parameter, leaf = .parameter parameter ∧ nameStart buf leaf.annotation.range ≤ i ∧
      i < nameStart buf leaf.annotation.range + parameter.field.length

def LeavesAlike (buf buf' : Bytes) (leaf leaf' : Leaf) : Prop :=
  Intact buf buf' leaf → renameLeaf toLower leaf = renameLeaf toLower leaf'

theorem intact_pattern (h : Intact buf buf' (.pattern pat)) :
    Unchanged buf buf' pat.annotation.range.start pat.annotation.range.stop := by
  intro i hlo hhi
  by_contra hne
  obtain ⟨par, he, -⟩ := h i hlo hhi hne
  cases he

theorem intact_parameter (h : Intact buf buf' (.parameter par))
    (hst : par.annotation.range.start ≤ nameStart buf par.annotation.range) :
    Unchanged buf buf' (nameStart buf par.annotation.range + par.field.length + 1)
      par.annotation.range.stop := by
  intro i hlo hhi
  by_contra hne
  obtain ⟨par', he, -, hlt⟩ := h i (by simp only [Leaf.annotation]; omega) hhi hne
  cases he
  simp only [Leaf.annotation] at hlt
  omega

inductive StepsAlike (buf buf' : Bytes) (nodes nodes' : List Node) :
    Step × Parser → Step × Parser → Prop
  | stop {q q' : Parser} (sim : Sim buf buf' q q') :
    StepsAlike buf buf' nodes nodes' (.stop nodes, q) (.stop nodes', q')
  | closed (leaf : Leaf) {q q' : Parser} (sim : Sim buf buf' q q') :
    StepsAlike buf buf' nodes nodes' (.stop [leaf.node], q) (.stop [leaf.node], q')
  | collect (label : Labels) {leaf leaf' : Leaf} {q q' : Parser} (sim : Sim buf buf' q q')
    (recorded : .leaf leaf ∈ q.trace) (h : LeavesAlike buf buf' leaf leaf') :
    StepsAlike buf buf' nodes nodes' (.collect label leaf, q) (.collect label leaf', q')
  | group {q q' : Parser} (sim : Sim buf buf' q q') :
    StepsAlike buf buf' nodes nodes' (.group, q) (.group, q')
  | fail (message message' : String) {q q' : Parser} (sim : Sim buf buf' q q') :
    StepsAlike buf buf' nodes nodes' (.fail (.other message), q) (.fail (.other message'), q')

theorem Sim.collect {p p' : Parser} (h : Sim buf buf' p p') (ns ns' : List Node)
    (lb : Labels) {leaf leaf' : Leaf} (hlf : LeavesAlike buf buf' leaf leaf') :
    StepsAlike buf buf' ns ns' (p.collect lb leaf) (p'.collect lb leaf') :=
  .collect lb (h.record _ _) (by simp [Parser.record]) hlf

section Steps

variable (A : TextsAlike buf buf') (h : Sim buf buf' p p')
include h

theorem Sim.closeStep (start : ℕ) (hns : ns = [] ↔ ns' = []) :
    StepsAlike buf buf' ns ns' (closeStep start ns p) (closeStep start ns' p') := by
  have hcl : ∀ e e', Sim buf buf'
      (Parser.record { p.advance 1 with balanced := p.balanced - 1,
                                        heuristics := { p.heuristics with disambiguated := true } } e)
      (Parser.record { p'.advance 1 with balanced := p.balanced - 1,
                                         heuristics := { p.heuristics with disambiguated := true } } e') :=
    fun e e' => ⟨h.buf, h.buf', by simp [Parser.advance, Parser.record, h.pos], rfl, rfl, h.leafParser⟩
  unfold QueryParser.closeStep
  simp only [h.balanced, h.heuristics, ← hns, ne_eq, h.pos]
  split
  · exact .fail _ _ (h.advance rfl)
  split
  · exact .stop (hcl _ _)
  split
  · exact .closed (.pattern _) (hcl _ _)
  · exact .closed (.parameter _) (hcl _ _)

include A

theorem Sim.openStep (lb : Labels) :
    StepsAlike buf buf' ns ns' (openStep lb p) (openStep lb p') := by
  have hsc := rel_ite p.heuristics.parensAsPatterns (h.scanBalancedPattern A.toBytesAlike)
  unfold QueryParser.openStep
  simp only [h.heuristics, h.balanced, h.pos]
  generalize (if p.heuristics.parensAsPatterns = true then QueryScanners.scanBalancedPattern p.rest
    else none) = o at hsc ⊢
  generalize (if p.heuristics.parensAsPatterns = true then QueryScanners.scanBalancedPattern p'.rest
    else none) = o' at hsc ⊢
  cases hsc with
  | none =>
    exact .group ⟨h.buf, h.buf', by simp [Parser.advance, Parser.record, h.pos], rfl, rfl, h.leafParser⟩
  | @some scan scan' ht =>
    have hv := Together.valuesAlike h ht
    refine Sim.collect hv.sim _ _ _ fun hint => ?_
    have hsm : scan.value = scan'.value := hv.same (intact_pattern hint)
    rw [hsm, ht.count_eq]

theorem Sim.negatedPattern (lb : Labels) (hst : start ≤ p.pos) :
    StepsAlike buf buf' ns ns' (negatedPattern lb start p) (negatedPattern lb start p') := by
  have hfnd := h.parsePattern A.toBytesAlike lb
  refine Sim.collect hfnd.sim _ _ _ fun hint => ?_
  have hsm := hfnd.same ((intact_pattern hint).mono hst (Nat.le_refl _))
  rw [hsm, hfnd.sim.pos]

theorem Sim.notStep (lb : Labels) (hm : p.matchesText .not = true)
    (hs : p.spaceAt (p.pos + Keyword.not.text.length) = true) :
    StepsAlike buf buf' ns ns' (notStep lb p) (notStep lb p') := by
  have hadv := h.advance (rfl : Keyword.not.text.length = Keyword.not.text.length)
  unfold QueryParser.notStep
  have hsp := hadv.skipSpaces A.toBytesAlike
  generalize hsk : (p.advance Keyword.not.text.length).skipSpaces = o at hsp ⊢
  generalize (p'.advance Keyword.not.text.length).skipSpaces = o' at hsp ⊢
  cases hsp with
  | none => exact .fail _ _ hadv
  | @some q q' hq =>
    simp only [hq.matchesText A.toBytesAlike, h.pos]
    have hfrm := (skipSpaces_spec hsk).1.frame
    have hle : p.pos ≤ q.pos := Nat.le_trans (Nat.le_add_right _ _) hfrm.le
    have hfr : Fresh q := by
      apply Boundary.fresh
      rw [show q.buf = p.buf from hfrm.buf]
      exact not_boundary hs hsk
    split
    · exact .fail _ _ hq
    have hprd := hq.parseParameter A hfr
    generalize hx : QueryParser.parseParameter q = x at hprd ⊢
    generalize QueryParser.parseParameter q' = x' at hprd ⊢
    cases hprd with
    | none sim =>
      obtain rfl := parseParameter_none hx
      exact sim.negatedPattern A lb hle
    | error msg sim =>
      have := (parseParameter_error hx).1.frame.le
      exact sim.negatedPattern A lb (Nat.le_trans hle this)
    | @some par par' r r' sim hp =>
      simp only [← hp.negated]
      split
      · exact .fail _ _ sim
      rename_i hneg
      refine sim.collect _ _ _ fun hint => ?_
      have hst := nameStart_not hm hs hsk r.pos
      rw [h.buf] at hst
      have hunc := intact_parameter hint (by simp only [hst]; exact hle)
      have hv : par.value = par'.value := by
        apply hp.same
        rw [if_neg hneg, (parseParameter_some hx).1.range]
        simpa only [hst] using hunc
      simp only [renameLeaf, rename, hp.field, hv, hp.annotation, sim.pos]

theorem Sim.defaultStep (lb : Labels) (hfr : Fresh p) :
    StepsAlike buf buf' ns ns' (defaultStep lb p) (defaultStep lb p') := by
  have hprd := h.parseParameter A hfr
  unfold QueryParser.defaultStep
  generalize hx : QueryParser.parseParameter p = x at hprd ⊢
  generalize QueryParser.parseParameter p' = x' at hprd ⊢
  cases hprd with
  | error msg sim => exact .fail _ _ sim
  | none sim =>
    have hfnd := sim.parsePattern A.toBytesAlike lb
    refine hfnd.sim.collect _ _ _ fun hint => ?_
    have hunc := intact_pattern hint
    rw [(parsePattern_spans lb _).range] at hunc
    rw [hfnd.same hunc]
  | @some par par' r r' sim hp =>
    refine sim.collect _ _ _ fun hint => ?_
    have hst := nameStart_parameter hx
    rw [h.buf] at hst
    have hrng := (parseParameter_some hx).1.range
    have hunc := intact_parameter hint (by
      rw [hst, hrng]
      split
      · exact Nat.le_succ p.pos
      · exact Nat.le_refl p.pos)
    have hv : par.value = par'.value := by
      apply hp.same
      rwa [hst] at hunc
    simp only [renameLeaf, rename, hp.field, hv, hp.annotation, hp.negated]

theorem Sim.wordStep (lb : Labels) (hfr : Fresh p) :
    StepsAlike buf buf' ns ns' (wordStep lb ns p) (wordStep lb ns' p') := by
  unfold QueryParser.wordStep
  simp only [h.matchKeyword A.toBytesAlike, h.matchUnaryKeyword A.toBytesAlike]
  split
  · exact .stop h
  split
  · rename_i hnot
    simp only [Parser.matchUnaryKeyword, Bool.and_eq_true] at hnot
    exact h.notStep A lb hnot.2 hnot.1.2
  · exact h.defaultStep A lb hfr

theorem Sim.leafStep (lb : Labels) (start : ℕ) (hfr : Fresh p) (hns : ns = [] ↔ ns' = []) :
    StepsAlike buf buf' ns ns' (leafStep lb start ns p) (leafStep lb start ns' p') := by
  unfold QueryParser.leafStep
  have hsp := h.skipSpaces A.toBytesAlike
  generalize hsk : p.skipSpaces = o at hsp ⊢
  generalize p'.skipSpaces = o' at hsp ⊢
  cases hsp with
  | none => exact .fail _ _ h
  | @some q q' hq =>
    have hfr' := skipSpaces_fresh hsk hfr
    simp only [hq.done A.toBytesAlike, hq.matchesText A.toBytesAlike, hq.heuristics, hq.pos]
    split
    · exact .stop hq
    split
    · exact hq.openStep A lb
    split
    · exact hq.wordStep A lb hfr'
    split
    · exact hq.closeStep start hns
    rename_i hcls _
    have hby := @symbol_byte .rparen _ q 41 rfl rfl (by decide) (by simpa using hcls)
    have hdro := (hq.advance (rfl : 1 = 1)).record (.dropped q.pos) (.dropped q.pos)
    exact hdro.wordStep A lb (paren_boundary hby (.inr rfl)).fresh

end Steps

def AllIntact (buf buf' : Bytes) (trace : List Event) : Prop :=
  ∀ leaf, .leaf leaf ∈ trace → Intact buf buf' leaf

theorem AllIntact.frame (h : AllIntact buf buf' q.trace) (hf : Frame p q es) :
    AllIntact buf buf' p.trace := by
  intro leaf hlf
  apply h
  rw [hf.trace]
  exact mem_append_left _ hlf

/-- Node lists that agree up to the case of field names, if all leaves so far are intact. -/
structure NodesAlike (buf buf' : Bytes) (p : Parser) (nodes nodes' : List Node) : Prop where
  nil : nodes = [] ↔ nodes' = []
  same : AllIntact buf buf' p.trace →
    nodes.map (renameNode toLower) = nodes'.map (renameNode toLower)

inductive ErrorsAlike : ParseError → ParseError → Prop
  | expectedOperand (message message' : String) :
    ErrorsAlike (.expectedOperand message) (.expectedOperand message')
  | other (message message' : String) : ErrorsAlike (.other message) (.other message')
  | outOfFuel : ErrorsAlike .outOfFuel .outOfFuel

inductive ResultsAlike (buf buf' : Bytes) (q : Parser) : Result → Result → Prop
  | ok {nodes nodes' : List Node} (h : NodesAlike buf buf' q nodes nodes') :
    ResultsAlike buf buf' q (.ok nodes) (.ok nodes')
  | error {e e' : ParseError} (h : ErrorsAlike e e') : ResultsAlike buf buf' q (.error e) (.error e')

inductive CallsAlike (buf buf' : Bytes) (p : Parser) : Call → Call → Prop
  | leaves (label : Labels) (start : ℕ) {nodes nodes' : List Node}
    (h : NodesAlike buf buf' p nodes nodes') :
    CallsAlike buf buf' p (.leaves label start nodes) (.leaves label start nodes')
  | level (level : Level) : CallsAlike buf buf' p (.level level) (.level level)

theorem NodesAlike.refl (p : Parser) (ns : List Node) : NodesAlike buf buf' p ns ns :=
  ⟨Iff.rfl, fun _ => rfl⟩

theorem NodesAlike.frame (h : NodesAlike buf buf' p ns ns') (hf : Frame p q es) :
    NodesAlike buf buf' q ns ns' := ⟨h.nil, fun hint => h.same (hint.frame hf)⟩

theorem NodesAlike.append (h : NodesAlike buf buf' q ns ns')
    (h' : NodesAlike buf buf' q more more') :
    NodesAlike buf buf' q (ns ++ more) (ns' ++ more') := by
  refine ⟨?_, fun hint => ?_⟩
  · rw [append_eq_nil_iff, append_eq_nil_iff, h.nil, h'.nil]
  · rw [map_append, map_append, h.same hint, h'.same hint]

theorem NodesAlike.apply (h : NodesAlike buf buf' q ns ns') {f : List Node → List Node}
    (hnil : f [] = []) (hne : ∀ {l}, l ≠ [] → f l ≠ [])
    (hf : ∀ l, f (l.map (renameNode toLower)) = (f l).map (renameNode toLower)) :
    NodesAlike buf buf' q (f ns) (f ns') := by
  have hiff : ∀ l, f l = [] ↔ l = [] := fun l =>
    ⟨fun hl => by_contra fun hl' => hne hl' hl, fun hl => hl ▸ hnil⟩
  refine ⟨by rw [hiff, hiff, h.nil], fun hint => ?_⟩
  rw [← hf, ← hf, h.same hint]

theorem Sim.operand {p p' : Parser} (h : Sim buf buf' p p') (lv : Level) :
    CallsAlike buf buf' p (lv.operand p) (lv.operand p') := by
  cases lv with
  | and =>
    simp only [Level.operand, h.leafParser, h.pos]
    exact .leaves _ _ (.refl p [])
  | or => exact .level .and

theorem Sim.expectOperator (h : Sim buf buf' p p') (kw : Keyword) :
    Sim buf buf' (expectOperator p kw) (expectOperator p' kw) :=
  (h.advance rfl).record _ _

/-- The two texts take the parser through the same steps. -/
theorem call_alike (A : TextsAlike buf buf') (hsim : Sim buf buf' p p') (hfr : Fresh p)
    (hnm : AllNamed p) (hc : CallsAlike buf buf' p c c') :
    Sim buf buf' (call fuel p c).2 (call fuel p' c').2 ∧
      ResultsAlike buf buf' (call fuel p c).2 (call fuel p c).1 (call fuel p' c').1 := by
  induction fuel generalizing c c' p p' with
  | zero =>
    cases hc with
    | leaves _ _ _ => exact ⟨hsim, .error .outOfFuel⟩
    | level lv => cases lv <;> exact ⟨hsim, .error .outOfFuel⟩
  | succ fuel ih =>
    cases hc with
    | @leaves lb start ns ns' hns =>
      have hste := hsim.leafStep A lb start hfr hns.nil
      simp only [call, parseLeaves]
      generalize hx : leafStep lb start ns p = x at hste
      generalize leafStep lb start ns' p' = x' at hste
      obtain ⟨step, q⟩ := x
      obtain ⟨es, ho⟩ := leafStep_outcome hx
      obtain ⟨hnm', hfr'⟩ := leafStep_named hnm hfr hx
      cases hste with
      | stop sim => exact ⟨sim, .ok ((hns.frame ho.frame).apply rfl
        partitionParameters_ne_nil (partitionParameters_rename _))⟩
      | closed leaf sim => exact ⟨sim, .ok (.refl _ _)⟩
      | fail msg msg' sim => exact ⟨sim, .error (.other _ _)⟩
      | @collect lb' leaf leaf' _ q' sim reco hlf =>
        have hns' : NodesAlike buf buf' q [leaf.node] [leaf'.node] := by
          refine ⟨by simp, fun hint => ?_⟩
          rw [map_singleton, map_singleton, renameNode_leaf, renameNode_leaf, hlf (hint leaf reco)]
        exact ih sim hfr' hnm' (.leaves lb' start ((hns.frame ho.frame).append hns'))
      | @group _ q' sim =>
        have hrun := run_call fuel q (.level .or)
        have hin := ih sim hfr' hnm' (.level .or)
        simp only [call] at hrun hin ⊢
        generalize parseOr fuel q = y at hrun hin ⊢
        generalize parseOr fuel q' = y' at hin ⊢
        obtain ⟨r, s⟩ := y
        obtain ⟨r', s'⟩ := y'
        obtain ⟨hsim', hr⟩ := hin
        obtain ⟨es', hfrm⟩ := hrun.frame
        obtain ⟨hnm'', hlan⟩ := run_named hrun hnm' hfr'
        cases hr with
        | error he => exact ⟨hsim', .error he⟩
        | ok hres =>
          exact ih hsim' (hlan _ rfl).fresh hnm''
            (.leaves lb start ((hns.frame (ho.frame.trans hfrm)).append hres))
    | level lv =>
      rw [call_operand, call_operand]
      have hl := run_call fuel p (lv.operand p)
      have hope := ih hsim hfr hnm (hsim.operand lv)
      generalize call fuel p (lv.operand p) = x at hl hope
      generalize call fuel p' (lv.operand p') = x' at hope
      obtain ⟨r, q⟩ := x
      obtain ⟨r', q'⟩ := x'
      obtain ⟨hsim', hr⟩ := hope
      obtain ⟨hnm', hlan⟩ := run_named hl hnm hfr
      cases hr with
      | error he => exact ⟨hsim', .error he⟩
      | ok hns =>
        simp only [hns.nil, hsim'.matchesText A.toBytesAlike]
        split
        · exact ⟨hsim', .error (.expectedOperand _ _)⟩
        split
        · exact ⟨hsim', .ok hns⟩
        rename_i hm
        rw [Bool.not_eq_true', Bool.not_eq_false] at hm
        obtain ⟨hfr', hnm''⟩ := operand_fresh (hlan _ rfl) hm hnm'
        have hrt := run_call fuel (expectOperator q lv.keyword) (.level lv)
        have hnx := ih (hsim'.expectOperator _) hfr' hnm'' (.level lv)
        generalize call fuel (expectOperator q lv.keyword) (.level lv) = y at hrt hnx
        generalize call fuel (expectOperator q' lv.keyword) (.level lv) = y' at hnx
        obtain ⟨es, hfrm⟩ := hrt.frame
        obtain ⟨r, s⟩ := y
        obtain ⟨r', s'⟩ := y'
        obtain ⟨hsim'', hr⟩ := hnx
        cases hr with
        | error he => exact ⟨hsim'', .error he⟩
        | ok hns' =>
          have hns := hns.frame ((expectOperator_frame hm).trans hfrm)
          exact ⟨hsim'', .ok ((hns.append hns').apply rfl (newOperator_ne_nil · _)
            (newOperator_rename _ · _))⟩

end QueryRecasing
