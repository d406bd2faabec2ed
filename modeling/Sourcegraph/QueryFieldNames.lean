import Sourcegraph.QueryLetterCase
import Sourcegraph.QueryCoverage

/-! # Where the parser finds field names

A leaf never starts in the middle of a word, except behind an operator that directly follows a
group. So the field names that two runs over one text find coincide or do not overlap. -/
namespace QueryFieldNames

open GoStrings QueryNodes QueryScanners QueryParser QueryRuns QueryOperators QueryLetterCase List

def letterByte (b : UInt8) : Bool := (Char.ofNat b.toNat).isAlpha

inductive Boundary (buf : Bytes) : ℕ → Prop
  | start : Boundary buf 0
  | symbol {i : ℕ} {b : UInt8} (h : buf[i]? = some b) (hletter : letterByte b = false)
    (hescape : b ≠ 92) : Boundary buf (i + 1)
  | operator {i : ℕ} (level : Level) (hparen : buf[i]? = some 41)
    (htext : startsWith buf (i + 1) level.keyword = true) :
    Boundary buf (i + 1 + level.keyword.text.length)

def Fresh (p : Parser) : Prop :=
  ∀ b, p.buf[p.pos]? = some b → letterByte b = true → Boundary p.buf p.pos

theorem letterByte_lt (h : letterByte b = true) : b.toNat < 0x80 := by
  have hlt := isAlpha_lt h
  by_contra hb
  have := b.toNat_lt
  rw [ofNat_toNat (by omega)] at hlt
  exact hb hlt

variable {p : Parser}

theorem rest_of_byte (h : p.buf[p.pos]? = some b) (hlt : b.toNat < 0x80) :
    p.rest = ⟨Char.ofNat b.toNat, 1⟩ :: runes (p.buf.drop (p.pos + 1)) := by
  rw [Parser.rest, drop_of_byte h, runes_cons, decodeRune_ascii hlt]
  rfl

theorem fresh_of_rest (h : ∀ r ∈ p.rest.head?, r.char.isAlpha = false) : Fresh p := by
  intro b hb hlt
  rw [rest_of_byte hb (letterByte_lt hlt)] at h
  have := h _ rfl
  rw [letterByte] at hlt
  rw [hlt] at this
  cases this

theorem Boundary.fresh (h : Boundary p.buf p.pos) : Fresh p := fun _ _ _ => h

theorem fresh_of_done (h : p.done = true) : Fresh p := by
  apply fresh_of_rest
  rw [rest_eq_nil.mpr h]
  simp

theorem isAlpha_of_isSpace (h : isSpace c = true) : c.isAlpha = false ∧ c ≠ '\\' := by
  refine char_cases (P := fun c => isSpace c = true → c.isAlpha = false ∧ c ≠ '\\') (by decide) ?_ c h
  intro c hc _
  refine ⟨isAlpha_of_ge hc, ?_⟩
  rintro rfl
  exact absurd hc (by decide)

theorem blank_boundary (h : Blank buf a b) (hlt : a < b) : Boundary buf b := by
  obtain ⟨taken, left, hrs, hall, rfl⟩ := h
  have hbd := width_le_of_prefix hrs
  rw [length_drop] at hbd
  obtain ⟨w, hw⟩ : ∃ w, width taken = w + 1 := ⟨width taken - 1, by omega⟩
  obtain ⟨c, hc⟩ : ∃ c, buf[a + w]? = some c := ⟨_, getElem?_eq_getElem (by omega)⟩
  have hspace : ∀ {k : Char}, c.toNat < 0x80 → Char.ofNat c.toNat = k → isSpace k = true := by
    rintro k hk rfl
    obtain ⟨r, hr, he⟩ := runes_byte hrs (show w < width taken by omega) (by
      rw [getElem?_drop]
      exact hc) hk
    rw [← he, Char.ofNat_toNat]
    exact hall r hr
  rw [hw]
  refine .symbol hc ?_ ?_
  · by_contra hletter
    rw [Bool.not_eq_false] at hletter
    have hs := (isAlpha_of_isSpace (hspace (letterByte_lt hletter) rfl)).1
    rw [letterByte, hs] at hletter
    cases hletter
  · rintro rfl
    have hs := @hspace '\\' (by decide) rfl
    revert hs
    decide

theorem skipSpaces_fresh (h : p.skipSpaces = some q) (hp : Fresh p) : Fresh q := by
  obtain ⟨hfw, hbl, -⟩ := skipSpaces_spec h
  obtain ⟨cnt, rfl, -⟩ := hfw
  by_cases hcn : cnt = 0
  · subst hcn
    exact hp
  · exact (blank_boundary hbl (by simp only [Parser.advance]; omega)).fresh

def Halts (rs : List Rune) (count : ℕ) : Prop :=
  ∃ taken left, rs = taken ++ left ∧ count = width taken ∧ ∀ r ∈ left.head?, r.char.isAlpha = false

theorem Halts.cons {rs : List Rune} {cnt : ℕ} (h : Halts rs cnt) (r : Rune) :
    Halts (r :: rs) (r.width + cnt) := by
  obtain ⟨tk, left, rfl, rfl, hl⟩ := h
  exact ⟨r :: tk, left, rfl, by simp, hl⟩

theorem Halts.here (h : ∀ r ∈ rs.head?, r.char.isAlpha = false) : Halts rs 0 :=
  ⟨[], rs, rfl, rfl, h⟩

theorem Halts.stop {r : Rune} {rs : List Rune} (h : r.char.isAlpha = false) : Halts (r :: rs) 0 := by
  apply Halts.here
  intro r' hr'
  obtain rfl : r = r' := by simpa using hr'
  exact h

theorem Halts.fresh {cnt : ℕ} (h : Halts p.rest cnt) : Fresh (p.advance cnt) := by
  obtain ⟨tk, left, hrs, rfl, hl⟩ := h
  apply fresh_of_rest
  rw [rest_advance hrs]
  exact hl

theorem scanAnyPattern_halts : Halts rs (scanAnyPattern rs).count := by
  induction rs with
  | nil => exact .here (by simp)
  | cons r rest ih =>
    rw [scanAnyPattern]
    split
    · rename_i hr
      exact .stop (isAlpha_of_isSpace hr).1
    · exact ih.cons r

theorem scanValue_halts : Halts rs (scanValue alw rs).count := by
  fun_induction scanValue alw rs with
  | case1 => exact .here (by simp)
  | case2 r rest hr => exact .stop (isAlpha_of_isSpace hr).1
  | case3 r rest _ _ _ ih | case7 r rest _ _ _ ih => exact ih.cons r
  | case4 r rest _ hr =>
    refine .stop ?_
    rcases hr with hr | hr <;> rw [hr] <;> decide
  | case5 r => exact (Halts.here (by simp)).cons r
  | case6 r _ _ _ esc rest ih => exact (ih.cons esc).cons r

theorem scanBalancedFrom_halts (h : scanBalancedFrom bal rs = some scan) : Halts rs scan.count := by
  refine @scanBalancedFrom_invariant _ _ (fun rs scan => Halts rs scan.count)
    (fun rs hrs => .here fun r hr => ?_) (fun r _ _ h => h.cons r) _ h
  rcases hrs r hr with hsp | hpn
  · exact (isAlpha_of_isSpace hsp).1
  rw [hpn]
  decide

theorem scanBalancedPattern_halts (h : scanBalancedPattern rs = some scan) :
    Halts rs scan.count := by
  rw [scanBalancedPattern] at h
  split at h
  · exact scanBalancedFrom_halts h
  · cases h

theorem scanParensFrom_ends (h : scanParensFrom bal rs = some scan) : EndsWith ')' rs scan.count :=
  @scanParensFrom_invariant _ _ (fun rs scan => EndsWith ')' rs scan.count)
    (fun r rest hr => ⟨[], r, rest, rfl, hr, by simp [Scan.push]⟩) (fun r _ _ h => h.cons r) _ h

theorem scanPredicate_ends (h : scanPredicate fd rs = some scan) : EndsWith ')' rs scan.count := by
  obtain ⟨tb, name, r, rest, prs, -, hn, -, hd, -, hp, rfl⟩ := scanPredicate_eq_some h
  obtain ⟨tk, left, rfl, hv, hcn⟩ := scanPredicateLetters_reads hn
  obtain ⟨tk', s, left', rfl, hs, hcn'⟩ := scanParensFrom_ends hp
  have hl : left = r :: (tk' ++ s :: left') := by simpa [hv] using hd
  refine ⟨tk ++ r :: tk', s, left', by simp [hl], hs, ?_⟩
  simp only [hcn, hcn', width_append, width_cons]
  omega

theorem endsWith_fresh (hk : k ∈ [')', '"', '\'', '/']) {cnt : ℕ} (h : EndsWith k p.rest cnt) :
    Fresh (p.advance cnt) := by
  obtain ⟨tk, r, left, hrs, rfl, rfl⟩ := h
  have hre := rest_advance hrs
  have hasc : ([')', '"', '\'', '/'].all fun k => k.toNat < 0x80 ∧
      letterByte (UInt8.ofNat k.toNat) = false ∧ UInt8.ofNat k.toNat ≠ 92) = true := by decide
  obtain ⟨hlt, hle, hes⟩ := of_decide_eq_true (all_eq_true.mp hasc _ hk)
  have hwd : r.width = 1 := by
    obtain ⟨b, rest, -, -, hw, -⟩ := runes_ascii hre hlt
    exact hw
  have hnat : (UInt8.ofNat r.char.toNat).toNat = r.char.toNat := by
    rw [UInt8.toNat_ofNat', Nat.mod_eq_of_lt (by omega)]
  have hby := byte_of_rest hre hnat.symm (by omega)
  apply Boundary.fresh
  rw [hwd]
  exact .symbol hby hle hes

theorem parseQuoted_fresh (hd : dl ∈ [')', '"', '\'', '/'])
    (h : parseQuoted dl p = some (v, q)) : Fresh q := by
  rw [parseQuoted] at h
  cases hs : scanDelimited false dl p.rest with
  | error e => simp [hs] at h
  | ok scan =>
    simp only [hs] at h
    split at h
    · cases h
    cases h
    exact endsWith_fresh hd (scanDelimited_ends hs)

theorem parsePattern_fresh : Fresh (parsePattern lb p).2 := by
  rcases parsePattern_cases with h | h | h | h
  · unfold parseRegexpQuotes at h
    split at h
    · cases h
    obtain ⟨⟨v, q⟩, hq, he⟩ := Option.map_eq_some_iff.mp h
    have hfr := parseQuoted_fresh (by decide) hq
    rw [← he]
    split <;> exact hfr
  · have hquo : ∀ dl ∈ [')', '"', '\'', '/'],
        quotedPattern dl p = some (parsePattern lb p) → Fresh (parsePattern lb p).2 := by
      intro dl hd hq
      obtain ⟨⟨v, q⟩, hq, he⟩ := Option.map_eq_some_iff.mp hq
      rw [← he]
      exact parseQuoted_fresh hd hq
    unfold parseStringQuotes at h
    split at h
    · exact hquo _ (by decide) h
    split at h
    · exact hquo _ (by decide) h
    · cases h
  · obtain ⟨scan, hs, he⟩ := Option.map_eq_some_iff.mp h
    rw [← he]
    exact (scanBalancedPattern_halts hs).fresh
  · rw [h]
    apply Halts.fresh
    split
    · exact scanValue_halts
    · exact scanAnyPattern_halts

theorem scanFieldName_eq_some (h : scanFieldName rs = some scan) :
    ∃ lts col left, rs = lts ++ col :: left ∧ col.char = ':' ∧
      (∀ r ∈ lts, r.char.isAlpha = true) ∧ scan.value = lts.map Rune.char ∧
      scan.count = width lts + col.width := by
  revert h
  fun_induction scanFieldName rs generalizing scan with
  | case2 r rest hr ih =>
    intro h
    obtain ⟨inn, hi, rfl⟩ := Option.map_eq_some_iff.mp h
    obtain ⟨lts, col, left, rfl, hco, hall, hv, hcn⟩ := ih hi
    refine ⟨r :: lts, col, left, rfl, hco, ?_, by simp [Scan.push, hv],
      by simp [Scan.push, hcn, Nat.add_assoc]⟩
    exact forall_mem_cons.mpr ⟨hr, hall⟩
  | case3 r rest _ hr =>
    rintro ⟨⟩
    exact ⟨[], r, rest, rfl, hr, by simp, rfl, by simp⟩
  | _ => exact fun h => by cases h

/-- The name of a field that stands at a position: letters before a colon. -/
structure NameAt (buf : Bytes) (n : ℕ) (name : List Char) : Prop where
  scan : scanFieldName (runes (buf.drop n)) = some ⟨name, name.length + 1⟩
  bound : n + name.length < buf.length
  letter : ∀ k, n ≤ k → k < n + name.length → ∃ b, buf[k]? = some b ∧ letterByte b = true

theorem nameAt_of_scan (h : scanFieldName (runes (buf.drop n)) = some scan) :
    NameAt buf n scan.value ∧ scan.count = scan.value.length + 1 := by
  obtain ⟨lts, col, left, hrs, hco, hall, hv, hcn⟩ := scanFieldName_eq_some h
  have hasc : width lts = lts.length :=
    width_ascii hrs fun r hr => isAlpha_lt (hall r hr)
  have hnx := runes_drop hrs
  obtain ⟨b, rest, hbuf, -, hwd, -⟩ := runes_ascii hnx (by rw [hco]; decide)
  have hlen : scan.value.length = lts.length := by rw [hv, length_map]
  have hcn' : scan.count = scan.value.length + 1 := by omega
  refine ⟨⟨?_, ?_, ?_⟩, hcn'⟩
  · rw [h, ← hcn']
  · have := congrArg length hbuf
    simp only [length_drop, length_cons] at this
    omega
  · intro k hk hk'
    obtain ⟨r, hr⟩ : ∃ r, lts[k - n]? = some r := ⟨_, getElem?_eq_getElem (by omega)⟩
    obtain ⟨c, hc, hnat⟩ := byte_ascii hrs (fun r hr => isAlpha_lt (hall r hr)) hr
    rw [getElem?_drop, show n + (k - n) = k by omega] at hc
    refine ⟨c, hc, ?_⟩
    rw [letterByte, hnat, Char.ofNat_toNat]
    exact hall r (mem_of_getElem? hr)

theorem fields_not_operators : ∀ fd ∈ allFields, ∀ level : Level,
    ¬ level.keyword.text <+: fd.toList := by
  intro fd hfd level
  cases level <;> revert fd <;> decide

theorem foldRune_alpha (h : c.isAlpha = true) : foldRune c = c.toLower := by
  have := isAlpha_lt h
  rw [foldRune, if_neg (by omega), if_neg (by omega)]

variable {level : Level}

theorem NameAt.not_startsWith (h : NameAt buf n name) (hkn : isField name = true)
    (hlen : level.keyword.text.length ≤ name.length) : startsWith buf n level.keyword = false := by
  by_contra hs
  obtain ⟨tk, left, hrs, htx⟩ := startsWith_taken (eq_true_of_ne_false hs)
  obtain ⟨lts, col, left', hrs', -, hall, hv, -⟩ := scanFieldName_eq_some h.scan
  simp only at hv
  have hlen' : tk.length ≤ lts.length := by
    have := congrArg length htx
    rw [length_map] at this
    rw [hv, length_map] at hlen
    omega
  have htk : tk <+: lts := by
    refine prefix_of_prefix_length_le ⟨left, rfl⟩ ?_ hlen'
    rw [← hrs, hrs']
    exact ⟨_, rfl⟩
  have hlo : level.keyword.text <+: name.map Char.toLower := by
    rw [← htx, hv, map_map]
    obtain ⟨post, rfl⟩ := htk
    refine ⟨post.map fun r => r.char.toLower, ?_⟩
    rw [map_append]
    congr 1
    exact map_congr_left fun r hr => foldRune_alpha (hall r (by simp [hr]))
  have hmem : String.ofList (name.map Char.toLower) ∈ allFields := by
    simpa [isField] using hkn
  refine fields_not_operators _ hmem level ?_
  rwa [String.toList_ofList]

theorem startsWith_letter (h : startsWith buf i level.keyword = true) (hk : i ≤ k)
    (hk' : k < i + level.keyword.text.length) : ∃ b, buf[k]? = some b ∧ letterByte b = true := by
  obtain ⟨tk, left, hrs, htx⟩ := startsWith_taken h
  have hmem := fold_mem htx
  have hasc : ∀ r ∈ tk, r.char.toNat < 0x80 := fun r hr => foldRune_ascii (hmem r hr)
  have halp : ∀ n < 0x80, ∀ level : Level, foldRune (Char.ofNat n) ∈ level.keyword.text →
      (Char.ofNat n).isAlpha = true := by
    intro n hn level
    cases level <;> revert n <;> decide
  have hlen := congrArg length htx
  rw [length_map] at hlen
  obtain ⟨r, hr⟩ : ∃ r, tk[k - i]? = some r := ⟨_, getElem?_eq_getElem (by omega)⟩
  obtain ⟨b, hb, hnat⟩ := byte_ascii hrs hasc hr
  rw [getElem?_drop, show i + (k - i) = k by omega] at hb
  have hr' := mem_of_getElem? hr
  refine ⟨b, hb, ?_⟩
  rw [letterByte, hnat]
  refine halp _ (hasc r hr') level ?_
  rw [Char.ofNat_toNat]
  exact hmem r hr'

theorem Boundary.not_within (hn : Boundary buf n) (hm : Boundary buf m) (hnm : NameAt buf n name)
    (hkn : isField name = true) (hlt : n < m) (hwi : m ≤ n + name.length) : False := by
  have hno : ∀ {k : ℕ} {c : UInt8}, buf[k]? = some c → letterByte c = false →
      ¬ ∃ b, buf[k]? = some b ∧ letterByte b = true := by
    rintro k c hk hc ⟨b, hb, hlet⟩
    rw [hk] at hb
    cases hb
    exact absurd hlet (Bool.eq_false_iff.mp hc)
  cases hm with
  | start => omega
  | @symbol i b hb hb' _ => exact hno hb hb' (hnm.letter i (by omega) (by omega))
  | @operator i level hi htx =>
    have hin : i < n := by
      by_contra hge
      exact hno hi (by decide) (hnm.letter i (by omega) (by omega))
    by_cases hst : n = i + 1
    · subst hst
      rw [hnm.not_startsWith hkn (by omega)] at htx
      cases htx
    cases hn with
    | start => omega
    | @symbol j b hb hb' _ =>
      exact hno hb hb' (startsWith_letter htx (show i + 1 ≤ j by omega) (by omega))
    | @operator j level' hj htx' =>
      have hle : j ≤ i := by
        by_contra hgt
        exact hno hj (by decide) (startsWith_letter htx (show i + 1 ≤ j by omega) (by omega))
      have hge : i ≤ j := by
        by_contra hlt'
        exact hno hi (by decide) (startsWith_letter htx' (show j + 1 ≤ i by omega) (by omega))
      obtain rfl : i = j := by omega
      rw [← matchesText_eq ⟨buf, {}, i + 1, 0, .standard, []⟩] at htx htx'
      rw [level_unique htx htx'] at hlt
      exact Nat.lt_irrefl _ hlt

/-- Field names that two runs find are the same or do not overlap. -/
theorem Boundary.unique (hn : Boundary buf n) (hm : Boundary buf m) (hnm : NameAt buf n name)
    (hnm' : NameAt buf m name') (hkn : isField name = true) (hkn' : isField name' = true)
    (hi : n ≤ i ∧ i < n + name.length) (hi' : m ≤ i ∧ i < m + name'.length) : n = m := by
  rcases Nat.lt_trichotomy n m with hlt | heq | hlt
  · exact absurd (hn.not_within hm hnm hkn hlt (by omega)) id
  · exact heq
  · exact absurd (hm.not_within hn hnm' hkn' hlt (by omega)) id

def predicateAt (buf : Bytes) (n : ℕ) : Bool :=
  match scanFieldName (runes (buf.drop n)) with
  | none => false
  | some scan =>
    (scanPredicate (String.ofList scan.value) (runes (buf.drop (n + scan.count)))).isSome

/-- Where the name of a parameter starts: behind a dash, or behind `not` and whitespace. -/
def nameStart (buf : Bytes) (range : Range) : ℕ :=
  match scanField (runes (buf.drop range.start)) with
  | some field => if field.negated then range.start + 1 else range.start
  | none => range.start + Keyword.not.text.length +
      width ((runes (buf.drop (range.start + Keyword.not.text.length))).takeWhile fun r => isSpace r.char)

theorem predicate_head (h : (scanPredicate fd rs).isSome = true) :
    ∃ r left, rs = r :: left ∧ r.char.isAlpha = true := by
  obtain ⟨scan, hs⟩ := Option.isSome_iff_exists.mp h
  obtain ⟨tb, name, -, -, -, ht, hn, hlk, -⟩ := scanPredicate_eq_some hs
  obtain ⟨en, hent, hnm⟩ := lookup_isSome_iff.mp hlk
  have hke : ∀ en ∈ repoPredicates ++ filePredicates,
      (en.1.toList.head?.any Char.isAlpha) = true := by decide
  have hkey := hke en (by
    rcases defaultPredicateRegistry_eq_some ht with ⟨-, rfl⟩ | ⟨-, rfl⟩ <;> simp [hent])
  rw [← eq_of_beq hnm] at hkey
  obtain ⟨tk, left, rfl, hv, -⟩ := scanPredicateLetters_reads hn
  rw [hv] at hkey
  cases tk with
  | nil => cases hkey
  | cons r tk => exact ⟨r, tk ++ left, rfl, by simpa using hkey⟩

theorem letter_plain (h : c.isAlpha = true) : isSpace c = false ∧ c ≠ '(' ∧ c ≠ ')' ∧ c ≠ '\\' := by
  refine ⟨?_, ?_, ?_, ?_⟩
  · by_contra hs
    rw [(isAlpha_of_isSpace (eq_true_of_ne_false hs)).1] at h
    cases h
  all_goals
    rintro rfl
    revert h
    decide

theorem scanValue_ne_nil (hr : r.char.isAlpha = true) : (scanValue alw (r :: rest)).value ≠ [] := by
  obtain ⟨hsp, hsym⟩ := letter_plain hr
  rw [scanValue.eq_def]
  simp [hsp, hsym, Scan.push]

theorem scanBalancedPattern_ne_nil (hr : r.char.isAlpha = true)
    (h : scanBalancedPattern (r :: rest) = some scan) : scan.value ≠ [] := by
  obtain ⟨hsp, hsym⟩ := letter_plain hr
  rw [scanBalancedPattern] at h
  split at h
  · rw [scanBalancedFrom.eq_def] at h
    simp only [hsp, hsym, if_false, Bool.false_eq_true, false_and] at h
    obtain ⟨inn, -, rfl⟩ := Option.map_eq_some_iff.mp h
    simp [Scan.push]
  · cases h

/-- What `ParseFieldValue` finds: the label of predicates, and a value that is not empty where
letters follow. -/
structure FieldValue (field : List Char) (p q : Parser) (value : List Char) (labels : Labels) :
    Prop where
  predicate : labels.isPredicate = (scanPredicate (String.ofList field) p.rest).isSome
  value : ∀ r left, p.rest = r :: left → r.char.isAlpha = true → value ≠ []
  fresh : Fresh q

theorem parseFieldValue_spec {fd : List Char}
    (h : parseFieldValue fd p = .ok (val, lbs, q)) : FieldValue fd p q val lbs := by
  have hdel : ∀ {kw : Keyword} {dl : Char}, kw.text = [dl] →
      dl ∈ [')', '"', '\'', '/'] → p.matchesText kw = true →
      delimited dl p = .ok (val, lbs, q) → FieldValue fd p q val lbs := by
    intro kw dl hkw hd hm h
    have halp : ([')', '"', '\'', '/'].all fun k => k.isAlpha = false) = true := by decide
    obtain ⟨r, left, hrs, hr⟩ := (matchesText_symbol hkw).mp hm
    have hnot : r.char.isAlpha = false := by
      rw [hr]
      exact of_decide_eq_true (all_eq_true.mp halp _ hd)
    unfold delimited at h
    split at h
    · cases h
    rename_i scan hs
    cases h
    have hno : ∀ r' left', p.rest = r' :: left' → r'.char.isAlpha ≠ true := by
      intro r' left' hrs'
      rw [hrs] at hrs'
      obtain ⟨rfl, rfl⟩ := cons.inj hrs'
      exact Bool.eq_false_iff.mp hnot
    refine ⟨?_, fun r' left' hrs' hr' => absurd hr' (hno r' left' hrs'),
      endsWith_fresh hd (scanDelimited_ends hs)⟩
    symm
    rw [Bool.eq_false_iff]
    intro hpd
    obtain ⟨r', left', hrs', hr'⟩ := predicate_head hpd
    exact hno r' left' hrs' hr'
  unfold parseFieldValue at h
  split at h
  · rename_i hm
    exact hdel rfl (by decide) hm h
  split at h
  · rename_i hm
    exact hdel rfl (by decide) hm h
  split at h
  · rename_i scan hs
    cases h
    refine ⟨by simp [hs], fun r left hrs hr => ?_, endsWith_fresh (by decide) (scanPredicate_ends hs)⟩
    obtain ⟨-, name, s, -, prs, -, -, -, -, -, -, rfl⟩ := scanPredicate_eq_some hs
    simp
  rename_i hs
  split at h
  · rename_i scan hb
    cases h
    refine ⟨by simp [hs], fun r left hrs hr => ?_, (scanBalancedPattern_halts hb).fresh⟩
    rw [hrs] at hb
    exact scanBalancedPattern_ne_nil hr hb
  cases h
  refine ⟨by simp [hs], fun r left hrs hr => ?_, scanValue_halts.fresh⟩
  rw [hrs]
  exact scanValue_ne_nil hr

structure NamedAt (buf : Bytes) (parameter : Parameter) (n : ℕ) : Prop where
  boundary : Boundary buf n
  name : NameAt buf n parameter.field.toList
  known : isField parameter.field.toList = true
  stop : n + parameter.field.length + 1 ≤ parameter.annotation.range.stop
  predicate : parameter.annotation.labels.isPredicate = predicateAt buf n
  value : ∀ r left, runes (buf.drop (n + parameter.field.length + 1)) = r :: left →
    r.char.isAlpha = true → parameter.value ≠ ""

theorem NameAt.predicateAt_eq (h : NameAt buf n name) :
    predicateAt buf n = (scanPredicate (String.ofList name)
      (runes (buf.drop (n + name.length + 1)))).isSome := by
  rw [predicateAt, h.scan]
  rfl

theorem scanField_name {p : Parser} {fd : Field} (h : scanField p.rest = some fd) :
    ∃ n, n = (if fd.negated then p.pos + 1 else p.pos) ∧ (Fresh p → Boundary p.buf n) ∧
      NameAt p.buf n fd.name ∧ n + fd.name.length + 1 = p.pos + fd.count := by
  obtain ⟨r, rest, scan, hrs, hsc, hcn, -, ⟨hr, hneg, hnm⟩ | ⟨hr, hneg, hnm⟩⟩ :=
    scanField_eq_some h
  · obtain ⟨b, byt, hbuf, hb, hwd, hre⟩ := runes_ascii hrs (by rw [hr]; decide)
    have hby := byte_of_rest hrs (show r.char.toNat = (45 : UInt8).toNat by rw [hr]; rfl) (by decide)
    have hnx : runes (p.buf.drop (p.pos + 1)) = rest := by
      rw [hre, ← drop_drop, hbuf]
      rfl
    rw [← hnx] at hsc
    obtain ⟨hat, hlen⟩ := nameAt_of_scan hsc
    refine ⟨p.pos + 1, by simp [hneg], fun _ => .symbol hby (by decide) (by decide),
      by rwa [hnm], ?_⟩
    rw [hnm]
    omega
  · have hsc' : scanFieldName (runes (p.buf.drop p.pos)) = some (scan.push r) := by
      rw [show runes (p.buf.drop p.pos) = r :: rest from hrs, scanFieldName, if_pos hr, hsc,
        Option.map_some]
    obtain ⟨hat, hlen⟩ := nameAt_of_scan hsc'
    have hv : (scan.push r).value = fd.name := hnm.symm
    rw [hv] at hat hlen
    refine ⟨p.pos, by simp [hneg], fun hp => ?_, hat, ?_⟩
    · obtain ⟨b, hb, hlt⟩ := hat.letter p.pos (Nat.le_refl _) (by rw [hnm]; simp)
      exact hp b hb hlt
    · have : (scan.push r).count = fd.count := hcn.symm
      omega

theorem parseParameter_named (h : parseParameter p = (.ok (some par), q)) (hp : Fresh p) :
    Fresh q ∧ NamedAt p.buf par (if par.negated then p.pos + 1 else p.pos) := by
  unfold parseParameter at h
  split at h
  · cases h
  rename_i fd hf
  simp only at h
  split at h
  · cases h
  rename_i val lbs r hv
  have hsp := parseFieldValue_spec hv
  obtain ⟨n, hn, hbou, hnm, hlen⟩ := scanField_name hf
  obtain ⟨-, -, -, -, -, -, hkn, -⟩ := scanField_eq_some hf
  have hfw := parseFieldValue_consumes fd.name (p.advance fd.count)
  rw [hv] at hfw
  cases h
  have hre : (p.advance fd.count).rest = runes (p.buf.drop (n + fd.name.length + 1)) := by
    rw [hlen]
    rfl
  refine ⟨hsp.fresh, ?_⟩
  rw [← hn]
  refine ⟨hbou hp, by simpa using hnm, by simpa using hkn, ?_, ?_, ?_⟩
  · obtain ⟨cnt, rfl, -⟩ := hfw
    simp only [Parser.advance, String.length_ofList]
    omega
  · rw [hnm.predicateAt_eq, ← hre]
    exact hsp.predicate
  · intro r left hrs hr
    simp only [String.length_ofList] at hrs
    rw [← hre] at hrs
    have := hsp.value r left hrs hr
    simpa using this

structure Named (buf : Bytes) (parameter : Parameter) : Prop where
  start : parameter.annotation.range.start ≤ nameStart buf parameter.annotation.range
  named : NamedAt buf parameter (nameStart buf parameter.annotation.range)

def AllNamed (p : Parser) : Prop :=
  ∀ parameter, .leaf (.parameter parameter) ∈ p.trace → Named p.buf parameter

theorem AllNamed.of_eq (h : AllNamed p) (hbuf : q.buf = p.buf) (htr : q.trace = p.trace) :
    AllNamed q := by
  intro par hmem
  rw [htr] at hmem
  rw [hbuf]
  exact h par hmem

theorem AllNamed.forward (h : AllNamed p) (hq : Forward p q) : AllNamed q := by
  obtain ⟨cnt, rfl, -⟩ := hq
  exact h.of_eq rfl rfl

theorem AllNamed.record (h : AllNamed p)
    (he : ∀ par, e = .leaf (.parameter par) → Named p.buf par) : AllNamed (p.record e) := by
  intro par hmem
  simp only [Parser.record, mem_append, mem_singleton] at hmem
  rcases hmem with hmem | hmem
  · exact h par hmem
  · exact he par hmem.symm

theorem spaceAt_byte (h : p.spaceAt i = true) :
    ∃ b, p.buf[i]? = some b ∧ b.toNat < 0x80 ∧ isSpace (Char.ofNat b.toNat) = true := by
  rw [Parser.spaceAt] at h
  cases hb : p.buf[i]? with
  | none => simp [hb] at h
  | some b =>
    simp only [hb, Option.any_some] at h
    by_cases hlt : b.toNat < 0x80
    · rw [decodeRune_ascii hlt] at h
      exact ⟨b, rfl, hlt, h⟩
    have hmul : multiByteRune b [] = (runeError, 1) := rfl
    rw [decodeRune, if_neg hlt, hmul] at h
    exact absurd h (by decide)

theorem spaceAt_rest (h : p.spaceAt p.pos = true) :
    ∃ r left, p.rest = r :: left ∧ isSpace r.char = true := by
  obtain ⟨b, hb, hlt, hs⟩ := spaceAt_byte h
  exact ⟨_, _, rest_of_byte hb hlt, hs⟩

theorem scanFieldName_blocked (ht : ∀ r ∈ tk, r.char ≠ ':') (hs : isSpace s.char = true) :
    scanFieldName (tk ++ s :: left) = none := by
  induction tk with
  | nil =>
    have hco : s.char ≠ ':' := by
      intro he
      rw [he] at hs
      revert hs
      decide
    simp [scanFieldName, (isAlpha_of_isSpace hs).1, hco]
  | cons r tk ih =>
    rw [cons_append, scanFieldName, ih (forall_mem_cons.mp ht).2]
    simp [ht r (by simp)]

theorem scanField_not (hm : p.matchesText .not = true)
    (hs : p.spaceAt (p.pos + Keyword.not.text.length) = true) : scanField p.rest = none := by
  obtain ⟨tk, left, hrs, htx⟩ := matchesText_iff.mp hm
  have hl := rest_advance hrs
  rw [fold_width hrs htx] at hl
  obtain ⟨s, left', hs', hsp⟩ := spaceAt_rest (p := p.advance Keyword.not.text.length) hs
  rw [hl] at hs'
  subst hs'
  cases tk with
  | nil => cases htx
  | cons r tk =>
    have hno : scanFieldName (tk ++ s :: left') = none := by
      refine scanFieldName_blocked (fun x hx he => ?_) hsp
      have := fold_mem htx x (by simp [hx])
      rw [he] at this
      revert this
      decide
    rw [hrs, cons_append, scanField, hno]
    simp

theorem not_boundary (hs : p.spaceAt (p.pos + Keyword.not.text.length) = true)
    (h : (p.advance Keyword.not.text.length).skipSpaces = some q) : Boundary p.buf q.pos := by
  obtain ⟨-, hbl, -⟩ := skipSpaces_spec h
  obtain ⟨r, left, hrs, hsp⟩ := spaceAt_rest (p := p.advance Keyword.not.text.length) hs
  have hpos := rune_pos hrs
  rw [Parser.skipSpaces] at h
  split at h
  · cases h
  cases h
  refine blank_boundary hbl ?_
  rw [hrs]
  simp only [Parser.advance, takeWhile_cons, hsp, if_true, width_cons]
  omega

theorem nameStart_not (hm : p.matchesText .not = true)
    (hs : p.spaceAt (p.pos + Keyword.not.text.length) = true)
    (h : (p.advance Keyword.not.text.length).skipSpaces = some q) (stop : ℕ) :
    nameStart p.buf ⟨p.pos, stop⟩ = q.pos := by
  rw [nameStart, show scanField (runes (p.buf.drop p.pos)) = none from scanField_not hm hs]
  rw [Parser.skipSpaces] at h
  split at h
  · cases h
  cases h
  rfl

theorem nameStart_parameter (h : parseParameter p = (.ok (some par), q)) :
    nameStart p.buf par.annotation.range = if par.negated then p.pos + 1 else p.pos := by
  revert h
  fun_cases parseParameter p with
  | case3 fd hf =>
    rintro ⟨⟩
    rw [nameStart, show scanField (runes (p.buf.drop p.pos)) = some fd from hf]
  | _ => nofun

/-- Where a call that succeeds leaves the parser: at the end, at a keyword, or behind the end of
a group. -/
def Landed (q : Parser) : Prop :=
  q.done = true ∨ (∃ level : Level, q.matchKeyword level.keyword = true) ∨
    ∃ i, q.pos = i + 1 ∧ q.buf[i]? = some 41

theorem space_boundary (h : p.spaceAt i = true) : Boundary p.buf (i + 1) := by
  obtain ⟨b, hb, hlt, hs⟩ := spaceAt_byte h
  refine .symbol hb (isAlpha_of_isSpace hs).1 ?_
  rintro rfl
  exact absurd hs (by decide)

theorem paren_boundary (h : buf[i]? = some b) (hb : b = 40 ∨ b = 41) : Boundary buf (i + 1) := by
  rcases hb with rfl | rfl <;> exact .symbol h (by decide) (by decide)

theorem Landed.fresh (h : Landed q) : Fresh q := by
  rcases h with h | ⟨level, h⟩ | ⟨i, hpos, hby⟩
  · exact fresh_of_done h
  · obtain ⟨hne, hsp, -⟩ := matchKeyword_delimited h
    have := space_boundary (p := q) hsp
    rw [show q.pos - 1 + 1 = q.pos by omega] at this
    exact this.fresh
  · apply Boundary.fresh
    rw [hpos]
    exact paren_boundary hby (.inr rfl)

theorem Landed.operator {q : Parser} (h : Landed q) {level : Level}
    (hm : q.matchesText level.keyword = true) : Fresh (expectOperator q level.keyword) := by
  rcases h with h | ⟨level', h⟩ | ⟨i, hpos, hby⟩
  · rw [matchesText_done h] at hm
    cases hm
  · obtain rfl := level_unique hm (matchKeyword_matchesText h)
    obtain ⟨-, -, hsp⟩ := matchKeyword_delimited h
    obtain ⟨r, left, hrs, hr⟩ := spaceAt_rest (p := q.advance level.keyword.text.length) hsp
    apply fresh_of_rest (p := expectOperator q level.keyword)
    intro r' hr'
    rw [show (expectOperator q level.keyword).rest = r :: left from hrs] at hr'
    cases hr'
    exact (isAlpha_of_isSpace hr).1
  · apply Boundary.fresh
    rw [matchesText_eq, hpos] at hm
    rw [show (expectOperator q level.keyword).pos = i + 1 + level.keyword.text.length by
      rw [← hpos]; rfl]
    exact .operator level hby hm

def Settles (q : Parser) : Step → Prop
  | .stop _ => Landed q
  | .collect _ _ => Fresh q
  | .group => Fresh q
  | .fail _ => True

theorem collect_named (hq : AllNamed q) (hfr : Fresh q)
    (hlf : ∀ par, leaf = .parameter par → Named q.buf par) :
    AllNamed (q.collect lb leaf).2 ∧ Settles (q.collect lb leaf).2 (q.collect lb leaf).1 :=
  ⟨hq.record fun par he => hlf par (Event.leaf.inj he), hfr⟩

theorem negatedPattern_named (hp : AllNamed p) (h : negatedPattern lb start p = (step, q)) :
    AllNamed q ∧ Settles q step := by
  obtain ⟨rfl, rfl⟩ := Prod.mk.inj h
  exact collect_named (hp.forward (parsePattern_spans lb p).forward) parsePattern_fresh
    fun par he => Leaf.noConfusion he

theorem notStep_named (hp : AllNamed p) (hm : p.matchesText .not = true)
    (hs : p.spaceAt (p.pos + Keyword.not.text.length) = true) (h : notStep lb p = (step, q)) :
    AllNamed q ∧ Settles q step := by
  rw [notStep] at h
  split at h
  · cases h
    exact ⟨hp.of_eq rfl rfl, trivial⟩
  rename_i r hr
  have hbou := not_boundary hs hr
  obtain ⟨hfw, -, -⟩ := skipSpaces_spec hr
  have hnr := AllNamed.forward (p := p.advance _) hp hfw
  have hbuf : r.buf = p.buf := hfw.frame.buf
  rw [← hbuf] at hbou
  split at h
  · cases h
    exact ⟨hnr, trivial⟩
  split at h
  · rename_i par t hpm
    obtain ⟨hft, hrng⟩ := (parseParameter_some hpm).1
    split at h
    · cases h
      exact ⟨hnr.forward hft, trivial⟩
    rename_i hneg
    obtain ⟨hfr', hnm⟩ := parseParameter_named hpm hbou.fresh
    rw [if_neg hneg, hbuf] at hnm
    obtain ⟨rfl, rfl⟩ := Prod.mk.inj h
    refine collect_named (hnr.forward hft) hfr' fun par' he => ?_
    cases he
    have hst := nameStart_not hm hs hr t.pos
    rw [hft.frame.buf, hbuf]
    refine ⟨?_, ?_⟩
    · simp only [hst]
      exact Nat.le_trans (Nat.le_add_right _ _) hfw.frame.le
    · simp only [hst]
      have hsp : par.annotation.range.stop = t.pos := by rw [hrng]
      exact ⟨hnm.boundary, hnm.name, hnm.known, by rw [← hsp]; exact hnm.stop,
        hnm.predicate, hnm.value⟩
  · rename_i t hpm
    obtain rfl := parseParameter_none hpm
    exact negatedPattern_named hnr h
  · rename_i e t hpm
    exact negatedPattern_named (hnr.forward (parseParameter_error hpm).1) h

theorem defaultStep_named (hp : AllNamed p) (hfr : Fresh p) (h : defaultStep lb p = (step, q)) :
    AllNamed q ∧ Settles q step := by
  rw [defaultStep] at h
  cases hpm : parseParameter p with
  | mk res s =>
    rw [hpm] at h
    cases res with
    | error e =>
      cases h
      exact ⟨hp.forward (parseParameter_error hpm).1, trivial⟩
    | ok found =>
      cases found with
      | none =>
        obtain rfl := parseParameter_none hpm
        obtain ⟨rfl, rfl⟩ := Prod.mk.inj h
        exact collect_named (hp.forward (parsePattern_spans lb s).forward) parsePattern_fresh
          fun par he => Leaf.noConfusion he
      | some par =>
        obtain ⟨rfl, rfl⟩ := Prod.mk.inj h
        obtain ⟨hfw, hrng⟩ := (parseParameter_some hpm).1
        obtain ⟨hfr', hnm⟩ := parseParameter_named hpm hfr
        refine collect_named (hp.forward hfw) hfr' fun par' he => ?_
        cases he
        rw [hfw.frame.buf]
        have hst := nameStart_parameter hpm
        refine ⟨?_, by rwa [hst]⟩
        rw [hst, hrng]
        split
        · exact Nat.le_succ p.pos
        · exact Nat.le_refl p.pos

theorem wordStep_named (hp : AllNamed p) (hfr : Fresh p) (h : wordStep lb ns p = (step, q)) :
    AllNamed q ∧ Settles q step := by
  rw [wordStep] at h
  split at h
  · rename_i hk
    cases h
    refine ⟨hp, .inr (.inl ?_)⟩
    rcases (Bool.or_eq_true _ _).mp hk with hk | hk
    · exact ⟨.and, hk⟩
    · exact ⟨.or, hk⟩
  split at h
  · rename_i hnot
    simp only [Parser.matchUnaryKeyword, Bool.and_eq_true] at hnot
    exact notStep_named hp hnot.2 hnot.1.2 h
  · exact defaultStep_named hp hfr h

theorem openStep_named (hp : AllNamed p) (hm : p.matchesText .lparen = true)
    (h : openStep lb p = (step, q)) : AllNamed q ∧ Settles q step := by
  have hby := @symbol_byte .lparen _ p 40 rfl rfl (by decide) hm
  rw [openStep] at h
  split at h
  · rename_i scan hsc
    have hs : scanBalancedPattern p.rest = some scan := by
      split at hsc
      · exact hsc
      · cases hsc
    obtain ⟨rfl, rfl⟩ := Prod.mk.inj h
    exact collect_named (hp.of_eq rfl rfl) (scanBalancedPattern_halts hs).fresh fun par he =>
      Leaf.noConfusion he
  · cases h
    refine ⟨AllNamed.record (hp.of_eq rfl rfl) fun par he => Event.noConfusion he, ?_⟩
    exact (paren_boundary hby (.inl rfl)).fresh

theorem closeStep_named (hp : AllNamed p) (hm : p.matchesText .rparen = true)
    (h : closeStep start ns p = (step, q)) : AllNamed q ∧ Settles q step := by
  have hby := @symbol_byte .rparen _ p 41 rfl rfl (by decide) hm
  have hcl : ∀ (s : Parser) (rg : Range) (emp : Option Leaf), s.buf = p.buf →
      s.trace = p.trace → s.pos = p.pos + 1 →
      AllNamed (s.record (.closed rg emp)) ∧ Landed (s.record (.closed rg emp)) := by
    intro s rg emp hbuf htr hpos
    refine ⟨(hp.of_eq hbuf htr).record fun par he => Event.noConfusion he,
      .inr (.inr ⟨p.pos, hpos, ?_⟩)⟩
    rw [show (s.record (.closed rg emp)).buf = p.buf from hbuf]
    exact hby
  revert h
  fun_cases closeStep start ns p with
  | case1 =>
    rintro ⟨⟩
    exact ⟨hp.of_eq rfl rfl, trivial⟩
  | _ =>
    rintro ⟨⟩
    exact hcl _ _ _ rfl rfl rfl

theorem leafStep_named (hp : AllNamed p) (hfr : Fresh p)
    (h : leafStep lb start ns p = (step, q)) : AllNamed q ∧ Settles q step := by
  rw [leafStep] at h
  split at h
  · cases h
    exact ⟨hp, trivial⟩
  rename_i s hs
  have hs' := hp.forward (skipSpaces_spec hs).1
  have hfr' := skipSpaces_fresh hs hfr
  split at h
  · rename_i hdo
    cases h
    exact ⟨hs', .inl hdo⟩
  split at h
  · rename_i hop
    exact openStep_named hs' (Bool.and_eq_true_iff.mp hop).1 h
  split at h
  · exact wordStep_named hs' hfr' h
  rename_i hcls
  have hm : s.matchesText .rparen = true := by simpa using hcls
  split at h
  · exact closeStep_named hs' hm h
  have hby := @symbol_byte .rparen _ s 41 rfl rfl (by decide) hm
  refine wordStep_named ?_ (paren_boundary hby (.inr rfl)).fresh h
  exact AllNamed.record (hs'.of_eq rfl rfl) fun par he => Event.noConfusion he

theorem operand_fresh (hq : Landed q) (hm : q.matchesText level.keyword = true) (hnm : AllNamed q) :
    Fresh (expectOperator q level.keyword) ∧ AllNamed (expectOperator q level.keyword) :=
  ⟨hq.operator hm, AllNamed.record (hnm.of_eq rfl rfl) fun _ he => Event.noConfusion he⟩

/-- Every parameter that a run finds has its name where a word starts. -/
theorem run_named (h : Run fuel c p r q) (hp : AllNamed p) (hfr : Fresh p) :
    AllNamed q ∧ ∀ ns, r = .ok ns → Landed q := by
  induction h with
  | outOfFuel c p => exact ⟨hp, nofun⟩
  | stop h =>
    obtain ⟨hnm, hlan⟩ := leafStep_named hp hfr h
    exact ⟨hnm, fun _ _ => hlan⟩
  | fail h => exact ⟨(leafStep_named hp hfr h).1, nofun⟩
  | collect h next ih | groupError h inn ih =>
    obtain ⟨hnm, hfr'⟩ := leafStep_named hp hfr h
    exact ih hnm hfr'
  | group h inn next ih ih' =>
    obtain ⟨hnm, hfr'⟩ := leafStep_named hp hfr h
    obtain ⟨hin, hlan⟩ := ih hnm hfr'
    exact ih' hin (hlan _ rfl).fresh
  | operandError left ih | operand left hne hm ih => exact ih hp hfr
  | operandMissing left ih => exact ⟨(ih hp hfr).1, nofun⟩
  | operatorError left hne hm right ih ih' =>
    obtain ⟨hnm, hlan⟩ := ih hp hfr
    obtain ⟨hfr', hnm'⟩ := operand_fresh (hlan _ rfl) hm hnm
    exact ih' hnm' hfr'
  | operator left hne hm right ih ih' =>
    obtain ⟨hnm, hlan⟩ := ih hp hfr
    obtain ⟨hfr', hnm'⟩ := operand_fresh (hlan _ rfl) hm hnm
    obtain ⟨hrt, hlan'⟩ := ih' hnm' hfr'
    exact ⟨hrt, fun _ _ => hlan' _ rfl⟩

end QueryFieldNames
