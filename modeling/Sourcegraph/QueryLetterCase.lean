import Sourcegraph.QueryRuns
import Sourcegraph.GoRunes

/-! # The scanners and the case of letters

What a scanner takes does not depend on the case of letters, with two exceptions: the names of
predicates, and the letters after a backslash in a quoted value. -/
namespace QueryLetterCase

open GoStrings QueryScanners QueryRuns List
open GoRunes (ByteAlike decodeRune_alike)

theorem char_cases {P : Char → Prop} (hasc : ∀ n < 0x80, P (Char.ofNat n))
    (hge : ∀ c : Char, 0x80 ≤ c.toNat → P c) (c : Char) : P c := by
  by_cases h : c.toNat < 0x80
  · have := hasc c.toNat h
    rwa [Char.ofNat_toNat] at this
  · exact hge c (by omega)

variable {c : Char}

theorem isAlpha_of_ge (h : 0x80 ≤ c.toNat) : c.isAlpha = false := by
  have hv : c.toNat = c.val.toNat := rfl
  have hz : 'Z'.val.toNat = 90 := rfl
  have hz' : 'z'.val.toNat = 122 := rfl
  simp only [Char.isAlpha, Char.isUpper, Char.isLower, Bool.or_eq_false_iff, Bool.and_eq_false_iff,
    decide_eq_false_iff_not, UInt32.le_iff_toNat_le, ge_iff_le]
  constructor <;> omega

@[simp] theorem isSpace_toLower (c : Char) : isSpace c.toLower = isSpace c := by
  revert c
  refine char_cases (by decide) fun c h => ?_
  rw [toLower_of_ge h]

@[simp] theorem foldRune_toLower (c : Char) : foldRune c.toLower = foldRune c := by
  revert c
  refine char_cases (by decide) fun c h => ?_
  rw [toLower_of_ge h]

@[simp] theorem isLetter_toLower (c : Char) : isLetter c.toLower = isLetter c := by
  revert c
  refine char_cases (by decide) fun c h => ?_
  rw [toLower_of_ge h]

theorem toLower_of_not_alpha (h : c.isAlpha = false) : c.toLower = c := by
  refine Char.toLower_eq_of_not_isUpper fun hup => ?_
  simp [Char.isAlpha, hup] at h

theorem toLower_eq_iff {c k : Char} (hk : k.isAlpha = false) : c.toLower = k ↔ c = k := by
  constructor
  · intro h
    have hc : c.isAlpha = false := by
      rw [← Char.isAlpha_toLower_eq_isAlpha, h, hk]
    rw [← h, toLower_of_not_alpha hc]
  · rintro rfl
    exact toLower_of_not_alpha hk

def lower (r : Rune) : Rune := ⟨r.char.toLower, r.width⟩

def lowerScan (scan : Scan) : Scan := ⟨scan.value.map Char.toLower, scan.count⟩

@[simp] theorem lower_char (r : Rune) : (lower r).char = r.char.toLower := rfl

@[simp] theorem lower_width : (lower r).width = r.width := rfl

@[simp] theorem width_lower : width (rs.map lower) = width rs := by
  simp [width, Function.comp_def]

@[simp] theorem lowerScan_nil : lowerScan ⟨[], n⟩ = ⟨[], n⟩ := rfl

@[simp] theorem lowerScan_push (scan : Scan) :
    lowerScan (scan.push r) = (lowerScan scan).push (lower r) := rfl

theorem scanAnyPattern_lower : scanAnyPattern (rs.map lower) = lowerScan (scanAnyPattern rs) := by
  fun_induction scanAnyPattern rs with
  | case1 => rfl
  | _ => simp_all [scanAnyPattern]

theorem scanFieldName_lower (rs : List Rune) :
    scanFieldName (rs.map lower) = (scanFieldName rs).map lowerScan := by
  fun_induction scanFieldName rs with
  | case1 => rfl
  | _ => simp_all [scanFieldName, toLower_eq_iff, Function.comp_def]

theorem isField_lower (name : List Char) : isField (name.map Char.toLower) = isField name := by
  simp [isField, Function.comp_def]

def lowerField (field : Field) : Field :=
  ⟨field.name.map Char.toLower, field.negated, field.count⟩

theorem scanField_lower : scanField (rs.map lower) = (scanField rs).map lowerField := by
  cases rs with
  | nil => rfl
  | cons r rest =>
    have hda := @toLower_eq_iff r.char '-' (by decide)
    simp only [map_cons, scanField, lower_char, Char.isAlpha_toLower_eq_isAlpha, hda,
      scanFieldName_lower]
    cases scanFieldName rest with
    | none => simp
    | some scan =>
      have hfd := isField_lower scan.value
      have hfd' := isField_lower (r.char :: scan.value)
      rw [map_cons] at hfd'
      simp only [Option.map_some, lowerScan, hfd, hfd', lower_width, ne_eq, map_eq_nil_iff]
      split
      · split <;> rfl
      split
      · split <;> rfl
      · rfl

theorem lookahead_lower (text : String) : lookahead text (rs.map lower) = lookahead text rs := by
  simp only [lookahead, length_map, equalFold, map_take, map_map]
  congr 2
  congr 1
  exact map_congr_left fun r _ => foldRune_toLower r.char

@[simp] theorem keepScanning_lower : keepScanning (rs.map lower) = keepScanning rs := by
  simp [keepScanning, scanField_lower, lookahead_lower]

theorem toLower_symbol (c : Char) : (c.toLower = '(' ↔ c = '(') ∧ (c.toLower = ')' ↔ c = ')') ∧
    (c.toLower = '\\' ↔ c = '\\') ∧ (c.toLower = '.' ↔ c = '.') ∧
    (c.toLower = runeError ↔ c = runeError) :=
  ⟨toLower_eq_iff (by decide), toLower_eq_iff (by decide), toLower_eq_iff (by decide),
    toLower_eq_iff (by decide), toLower_eq_iff (by decide)⟩

theorem scanBalancedFrom_lower (bal : ℕ) (rs : List Rune) :
    scanBalancedFrom bal (rs.map lower) = (scanBalancedFrom bal rs).map lowerScan := by
  fun_induction scanBalancedFrom bal rs with
  | case1 | case2 => simp [scanBalancedFrom, *]
  | case10 bal _ _ _ _ _ _ ih =>
    clear ih
    rw [map_cons, scanBalancedFrom.eq_def]
    by_cases bal = 0 <;> simp_all [scanBalancedFrom]
  | _ =>
    rw [map_cons, scanBalancedFrom.eq_def]
    simp_all [toLower_symbol, Function.comp_def]

theorem scanBalancedPattern_lower :
    scanBalancedPattern (rs.map lower) = (scanBalancedPattern rs).map lowerScan := by
  simp only [scanBalancedPattern, keepScanning_lower, scanBalancedFrom_lower]
  split <;> rfl

theorem scanPredicateLetters_lower (rs : List Rune) :
    scanPredicateLetters (rs.map lower) = (scanPredicateLetters rs).map lowerScan := by
  fun_induction scanPredicateLetters rs with
  | case1 => rfl
  | _ => simp_all [scanPredicateLetters, toLower_symbol, Function.comp_def]

theorem scanParensFrom_lower (bal : ℕ) (rs : List Rune) :
    scanParensFrom bal (rs.map lower) = (scanParensFrom bal rs).map lowerScan := by
  fun_induction scanParensFrom bal rs with
  | case1 => rfl
  | _ =>
    rw [map_cons, scanParensFrom.eq_def]
    simp_all [-Nat.not_le, toLower_symbol, Function.comp_def]

theorem scanValue_lower (alw : Bool) (rs : List Rune) :
    scanValue alw (rs.map lower) = lowerScan (scanValue alw rs) := by
  fun_induction scanValue alw rs with
  | case1 => rfl
  | _ =>
    rw [map_cons, scanValue.eq_def]
    simp_all [toLower_symbol]

/-- Texts that differ in the case of letters of field names only, none of which is escaped. -/
inductive Alike : List Rune → List Rune → Prop
  | nil : Alike [] []
  | same {rs rs' : List Rune} (r : Rune) (escape : r.char = '\\' → rs.head? = rs'.head?)
    (h : Alike rs rs') : Alike (r :: rs) (r :: rs')
  | recased {r r' : Rune} {rs rs' : List Rune} (letter : r.char.isAlpha = true)
    (hlower : lower r = lower r') (name : (scanFieldName rs).isSome = true) (h : Alike rs rs') :
    Alike (r :: rs) (r' :: rs')

theorem Alike.map_lower (h : Alike rs rs') : rs.map lower = rs'.map lower := by
  induction h with
  | nil => rfl
  | same r _ _ ih => rw [map_cons, map_cons, ih]
  | recased _ hlo _ _ ih => rw [map_cons, map_cons, ih, hlo]

theorem Alike.cons_left (h : Alike (r :: rs) rs') :
    ∃ r' left, rs' = r' :: left ∧ lower r = lower r' ∧ Alike rs left ∧
      (r.char = '\\' → rs.head? = left.head?) := by
  cases h with
  | same _ esc h => exact ⟨r, _, rfl, rfl, h, esc⟩
  | recased lett hlo _ h =>
    refine ⟨_, _, rfl, hlo, h, fun hr => ?_⟩
    rw [hr] at lett
    exact absurd lett (by decide)

theorem isSome_of_lower {o o' : Option Scan} (h : o.map lowerScan = o'.map lowerScan) :
    o.isSome = o'.isSome := by
  rw [← Option.isSome_map (f := lowerScan), h, Option.isSome_map]

theorem scanFieldName_isSome_lower (h : rs.map lower = rs'.map lower) :
    (scanFieldName rs).isSome = (scanFieldName rs').isSome := by
  apply isSome_of_lower
  rw [← scanFieldName_lower, h, scanFieldName_lower]

theorem char_of_lower (h : lower r = lower r') : r.char.toLower = r'.char.toLower :=
  congrArg Rune.char h

theorem isAlpha_of_lower (h : lower r = lower r') : r.char.isAlpha = r'.char.isAlpha := by
  rw [← Char.isAlpha_toLower_eq_isAlpha, char_of_lower h, Char.isAlpha_toLower_eq_isAlpha]

theorem char_eq_iff_of_lower {r r' : Rune} (h : lower r = lower r') {k : Char}
    (hk : k.isAlpha = false) : r.char = k ↔ r'.char = k := by
  rw [← toLower_eq_iff hk, char_of_lower h, toLower_eq_iff hk]

theorem Alike.symm (h : Alike rs rs') : Alike rs' rs := by
  induction h with
  | nil => exact .nil
  | same r esc _ ih => exact .same r (fun hr => (esc hr).symm) ih
  | recased lett hlo name h ih =>
    refine .recased ?_ hlo.symm ?_ ih
    · rwa [← isAlpha_of_lower hlo]
    · rwa [← scanFieldName_isSome_lower h.map_lower]

/-- Two scans that take the same number of runes, and the same value from the same runes. -/
def Together (rs rs' : List Rune) (scan scan' : Scan) : Prop :=
  (scan.value = [] ↔ scan'.value = []) ∧
  ∃ taken left taken' left', rs = taken ++ left ∧ rs' = taken' ++ left' ∧
    scan.count = width taken ∧ scan'.count = width taken' ∧ taken.map lower = taken'.map lower ∧
    (taken = taken' → scan.value = scan'.value)

theorem Together.count_eq (h : Together rs rs' scan scan') : scan.count = scan'.count := by
  obtain ⟨-, tk, left, tk', left', -, -, hcn, hcn', hlo, -⟩ := h
  rw [hcn, hcn', ← width_lower, hlo, width_lower]

theorem Together.cons {rs rs' : List Rune} {scan scan' : Scan} (h : Together rs rs' scan scan')
    {r r' : Rune} (hr : lower r = lower r') {f f' : List Char → List Char} (hf : r = r' → f = f')
    (hemp : ∀ v v', (v = [] ↔ v' = []) → (f v = [] ↔ f' v' = [])) :
    Together (r :: rs) (r' :: rs') ⟨f scan.value, r.width + scan.count⟩
      ⟨f' scan'.value, r'.width + scan'.count⟩ := by
  obtain ⟨hv, tk, left, tk', left', rfl, rfl, hcn, hcn', hlo, heq⟩ := h
  refine ⟨hemp _ _ hv, r :: tk, left, r' :: tk', left', rfl, rfl, by simp [hcn], by simp [hcn'],
    by simp [hr, hlo], ?_⟩
  intro he
  obtain ⟨rfl, rfl⟩ := cons.inj he
  simp [hf rfl, heq rfl]

theorem Together.of_reads (h : Reads rs scan) (h' : Reads rs' scan')
    (hrs : rs.map lower = rs'.map lower) (hsc : lowerScan scan = lowerScan scan') :
    Together rs rs' scan scan' := by
  obtain ⟨tk, left, rfl, hv, hcn⟩ := h
  obtain ⟨tk', left', rfl, hv', hcn'⟩ := h'
  have hlen : tk.length = tk'.length := by
    have := congrArg (fun s => s.value.length) hsc
    simpa [lowerScan, hv, hv'] using this
  refine ⟨?_, tk, left, tk', left', rfl, rfl, hcn, hcn', ?_, ?_⟩
  · rw [hv, hv', map_eq_nil_iff, map_eq_nil_iff, ← length_eq_zero_iff, hlen, length_eq_zero_iff]
  · rw [map_append, map_append] at hrs
    exact (append_inj hrs (by simp [hlen])).1
  · rintro rfl
    rw [hv, hv']

inductive Delimits (rs rs' : List Rune) : Except String Scan → Except String Scan → Prop
  | error (message : String) : Delimits rs rs' (.error message) (.error message)
  | ok {scan scan' : Scan} (h : Together rs rs' scan scan') : Delimits rs rs' (.ok scan) (.ok scan')

theorem Delimits.cons {rs rs' : List Rune} {x x' : Except String Scan} (h : Delimits rs rs' x x')
    {r r' : Rune} (hr : lower r = lower r') {f f' : List Char → List Char} (hf : r = r' → f = f')
    (hemp : ∀ v v', (v = [] ↔ v' = []) → (f v = [] ↔ f' v' = [])) :
    Delimits (r :: rs) (r' :: rs') (x.map fun scan => ⟨f scan.value, r.width + scan.count⟩)
      (x'.map fun scan => ⟨f' scan.value, r'.width + scan.count⟩) := by
  cases h with
  | error msg => exact .error msg
  | ok h => exact .ok (h.cons hr hf hemp)

theorem scanDelimitedFrom_alike {str : Bool} {dl : Char} (hd : dl.isAlpha = false)
    {rs rs' : List Rune} (h : Alike rs rs') : Delimits rs rs' (scanDelimitedFrom str dl rs)
      (scanDelimitedFrom str dl rs') := by
  match rs with
  | [] =>
    cases h
    exact .error _
  | r :: rest =>
    obtain ⟨r', left, rfl, hlo, hrs, hes⟩ := h.cons_left
    have hr := char_eq_iff_of_lower hlo hd
    have hbac := @char_eq_iff_of_lower _ _ hlo '\\' (by decide)
    rw [scanDelimitedFrom.eq_def, scanDelimitedFrom.eq_def _ _ (r' :: left)]
    simp only [← hr, ← hbac]
    by_cases h₁ : r.char = dl
    · rw [if_pos h₁, if_pos h₁]
      refine .ok ⟨Iff.rfl, [r], rest, [r'], left, rfl, rfl, by simp, by simp, ?_, fun _ => rfl⟩
      rw [map_singleton, map_singleton, hlo]
    rw [if_neg h₁, if_neg h₁]
    by_cases h₂ : r.char = '\\'
    · rw [if_pos h₂, if_pos h₂]
      have hhd := hes h₂
      cases rest with
      | nil =>
        cases hrs
        exact .error _
      | cons esc rest =>
        obtain ⟨esc', left, rfl, -, hrs', -⟩ := hrs.cons_left
        obtain rfl : esc = esc' := Option.some.inj hhd
        simp only
        cases unescape str dl esc.char with
        | error e => exact .error e
        | ok cs =>
          have hin := @scanDelimitedFrom_alike str _ hd _ _ hrs'
          have hesc := hin.cons (r := esc) rfl (f := fun v => cs ++ v) (fun _ => rfl)
            fun v v' hv => by simp [hv]
          have hout := hesc.cons hlo (f := id) (fun _ => rfl) fun _ _ hv => hv
          have hmap : ∀ (x : Except String Scan) (f g : Scan → Scan),
              (x.map f).map g = x.map fun scan => g (f scan) := by
            intro x f g
            cases x <;> rfl
          simpa only [hmap, Nat.add_assoc, id] using hout
    · rw [if_neg h₂, if_neg h₂]
      have hin := @scanDelimitedFrom_alike str _ hd _ _ hrs
      exact hin.cons hlo (fun he => by rw [he]) fun _ _ _ => by simp
termination_by rs.length

theorem scanDelimited_alike {str : Bool} {dl : Char} (hd : dl.isAlpha = false)
    {rs rs' : List Rune} (h : Alike rs rs') :
    Delimits rs rs' (scanDelimited str dl rs) (scanDelimited str dl rs') := by
  cases rs with
  | nil =>
    cases h
    exact .error _
  | cons r rest =>
    obtain ⟨r', left, rfl, hlo, hrs, -⟩ := h.cons_left
    have hch := char_eq_iff_of_lower hlo hd
    rw [scanDelimited, scanDelimited, scanDelimitedOrPanic, scanDelimitedOrPanic]
    by_cases hr : r.char = dl
    · rw [if_neg (not_not.mpr hr), if_neg (not_not.mpr (hch.mp hr))]
      exact (scanDelimitedFrom_alike hd hrs).cons hlo (f := id) (fun _ => rfl) fun _ _ hv => hv
    · rw [if_pos hr, if_pos (mt hch.mpr hr)]
      exact .error _

theorem scanPredicate_lower (hrs : rs.map lower = rs'.map lower)
    (h : scanPredicate fd rs = some scan) (h' : scanPredicate fd' rs' = some scan') :
    lowerScan scan = lowerScan scan' := by
  obtain ⟨-, name, r, rest, prs, -, hn, -, hd, -, hp, rfl⟩ := scanPredicate_eq_some h
  obtain ⟨-, name', r', rest', prs', -, hn', -, hd', -, hp', rfl⟩ := scanPredicate_eq_some h'
  have hnm : lowerScan name = lowerScan name' := by
    have := scanPredicateLetters_lower rs
    rw [hrs, scanPredicateLetters_lower, hn, hn'] at this
    exact (Option.some.inj this).symm
  have hlen : name.value.length = name'.value.length := by
    have := congrArg (fun scan => scan.value.length) hnm
    simpa [lowerScan] using this
  have hdr : (r :: rest).map lower = (r' :: rest').map lower := by
    rw [← hd, ← hd', map_drop, map_drop, hrs, hlen]
  obtain ⟨hr, hre⟩ := cons.inj hdr
  have hpms : lowerScan prs = lowerScan prs' := by
    have := scanParensFrom_lower 1 rest
    rw [hre, scanParensFrom_lower, hp, hp'] at this
    exact (Option.some.inj this).symm
  simp only [lowerScan, Scan.mk.injEq] at hnm hpms ⊢
  have hwd : r.width = r'.width := by
    have := congrArg Rune.width hr
    exact this
  simp [hnm.1, hnm.2, hpms.1, hpms.2, char_of_lower hr, hwd]

theorem scanPredicateLetters_of_fieldName (h : (scanFieldName rs).isSome = true)
    (hn : scanPredicateLetters rs = some name) :
    ∃ r rest, rs.drop name.value.length = r :: rest ∧ r.char = ':' := by
  induction rs generalizing name with
  | nil => cases h
  | cons r rest ih =>
    rw [scanFieldName] at h
    rw [scanPredicateLetters] at hn
    split at h
    · rename_i hr
      have hlt : isLetter r.char = true := by simp [isLetter, hr]
      split at hn
      · cases hn
      simp only [hlt, Bool.true_or, if_true] at hn
      obtain ⟨inn, hi, rfl⟩ := Option.map_eq_some_iff.mp hn
      simpa [Scan.push] using ih (by simpa using h) hi
    · split at h
      · rename_i hr
        have hco : isLetter ':' = false := by decide
        have herr : (':' : Char) ≠ runeError := by decide
        simp only [hr, herr, hco, if_false, Bool.false_or] at hn
        cases hn
        exact ⟨r, rest, rfl, hr⟩
      · cases h

/-- A predicate name that is followed by a parenthesis is the same in both texts. -/
theorem Alike.predicateLetters (h : Alike rs rs') (hn : scanPredicateLetters rs = some name)
    (hd : rs.drop name.value.length = r :: rest) (hr : r.char = '(') :
    scanPredicateLetters rs' = some name ∧
      ∃ rest', rs'.drop name.value.length = r :: rest' ∧ Alike rest rest' := by
  induction h generalizing name with
  | nil => cases hn
  | @same rs rs' s esc h ih =>
    rw [scanPredicateLetters] at hn ⊢
    split at hn
    · cases hn
    rename_i herr
    rw [if_neg herr]
    split at hn
    · rename_i hlt
      rw [if_pos hlt]
      obtain ⟨inn, hi, rfl⟩ := Option.map_eq_some_iff.mp hn
      obtain ⟨hn', hrs⟩ := ih hi (by simpa [Scan.push] using hd)
      exact ⟨by rw [hn', Option.map_some], by simpa [Scan.push] using hrs⟩
    rename_i hlt
    rw [if_neg hlt]
    cases hn
    obtain ⟨rfl, rfl⟩ := cons.inj hd
    exact ⟨rfl, rs', rfl, h⟩
  | @recased s s' rs rs' lett hlo hnm h ih =>
    have hlt : isLetter s.char = true := by simp [isLetter, lett]
    rw [scanPredicateLetters] at hn
    split at hn
    · cases hn
    simp only [hlt, Bool.true_or, if_true] at hn
    obtain ⟨inn, hi, rfl⟩ := Option.map_eq_some_iff.mp hn
    obtain ⟨t, left, ht, hco⟩ := scanPredicateLetters_of_fieldName hnm hi
    have hd' : rs.drop inn.value.length = r :: rest := by simpa [Scan.push] using hd
    rw [ht] at hd'
    obtain ⟨rfl, rfl⟩ := cons.inj hd'
    rw [hco] at hr
    exact absurd hr (by decide)

theorem Alike.scanPredicate_isSome (h : Alike rs rs') (fd : String) :
    (scanPredicate fd rs).isSome = (scanPredicate fd rs').isSome := by
  have hfw : ∀ {rs rs' : List Rune}, Alike rs rs' → (scanPredicate fd rs).isSome = true →
      (scanPredicate fd rs').isSome = true := by
    intro rs rs' h hs
    obtain ⟨scan, hs⟩ := Option.isSome_iff_exists.mp hs
    obtain ⟨tb, name, r, rest, prs, ht, hn, hlk, hd, hr, hp, -⟩ := scanPredicate_eq_some hs
    obtain ⟨hn', rest', hd', hrs⟩ := h.predicateLetters hn hd hr
    have hpms : (scanParensFrom 1 rest').isSome = true := by
      rw [← isSome_of_lower (show (scanParensFrom 1 rest).map lowerScan = _ by
        rw [← scanParensFrom_lower, hrs.map_lower, scanParensFrom_lower]), hp]
      rfl
    simp [scanPredicate, scanPredicateName, ht, hn', hlk, hd', hr, scanBalancedParens,
      scanBalancedParensOrPanic, hpms]
  cases hs : (scanPredicate fd rs).isSome with
  | true => exact (hfw h hs).symm
  | false =>
    by_contra hne
    rw [hfw h.symm (eq_true_of_ne_false (Ne.symm hne))] at hs
    cases hs

structure Recased (buf : Bytes) (i : ℕ) (b b' : UInt8) : Prop where
  ascii : b.toNat < 0x80 ∧ b'.toNat < 0x80
  lower : (Char.ofNat b.toNat).toLower = (Char.ofNat b'.toNat).toLower
  name : (scanFieldName (runes (buf.drop (i + 1)))).isSome = true
  escape : ∀ j, i = j + 1 → buf[j]? ≠ some 92

structure BytesAlike (buf buf' : Bytes) : Prop where
  length : buf'.length = buf.length
  recased : ∀ i b b', buf[i]? = some b → buf'[i]? = some b' → b ≠ b' → Recased buf i b b'

variable {buf buf' : Bytes}

theorem BytesAlike.forall₂_drop (h : BytesAlike buf buf') (i : ℕ) :
    Forall₂ ByteAlike (buf.drop i) (buf'.drop i) := by
  refine forall₂_iff_get.mpr ⟨by simp [h.length], fun k hk hk' => ?_⟩
  by_cases heq : (buf.drop i).get ⟨k, hk⟩ = (buf'.drop i).get ⟨k, hk'⟩
  · exact .inl heq
  refine .inr (h.recased (i + k) _ _ ?_ ?_ heq).ascii
  · rw [← getElem?_drop]
    exact getElem?_eq_getElem hk
  · rw [← getElem?_drop]
    exact getElem?_eq_getElem hk'

variable {i : ℕ}

theorem drop_of_byte (h : buf[i]? = some b) : buf.drop i = b :: buf.drop (i + 1) := by
  obtain ⟨hi, rfl⟩ := List.getElem?_eq_some_iff.mp h
  exact drop_eq_getElem_cons hi

theorem BytesAlike.byte (h : BytesAlike buf buf') (hb : buf[i]? = some b) :
    ∃ b', buf'[i]? = some b' ∧ (b = b' ∨ Recased buf i b b') := by
  obtain ⟨hi, -⟩ := List.getElem?_eq_some_iff.mp hb
  have hb' : buf'[i]? = some (buf'.get ⟨i, by rw [h.length]; exact hi⟩) :=
    getElem?_eq_getElem _
  refine ⟨_, hb', ?_⟩
  by_cases heq : b = buf'.get ⟨i, by rw [h.length]; exact hi⟩
  · exact .inl heq
  · exact .inr (h.recased i _ _ hb hb' heq)

theorem BytesAlike.byte_none (h : BytesAlike buf buf') (hb : buf[i]? = none) : buf'[i]? = none := by
  rw [getElem?_eq_none_iff, h.length]
  exact getElem?_eq_none_iff.mp hb

theorem BytesAlike.byte_eq_of_escape (h : BytesAlike buf buf') (hi : buf[i]? = some 92) :
    buf[i + 1]? = buf'[i + 1]? := by
  cases hb : buf[i + 1]? with
  | none => rw [h.byte_none hb]
  | some b =>
    obtain ⟨b', hb', rfl | hr⟩ := h.byte hb
    · rw [hb']
    · exact absurd hi (hr.escape i rfl)

theorem BytesAlike.head_eq (h : BytesAlike buf buf') (hi : buf[i]? = buf'[i]?) :
    (runes (buf.drop i)).head? = (runes (buf'.drop i)).head? := by
  cases hb : buf[i]? with
  | none =>
    rw [drop_eq_nil_of_le (getElem?_eq_none_iff.mp hb),
      drop_eq_nil_of_le (getElem?_eq_none_iff.mp (h.byte_none hb))]
  | some b =>
    rw [hb] at hi
    rw [drop_of_byte hb, drop_of_byte hi.symm, runes_cons, decodeRune_alike b (h.forall₂_drop (i + 1))]
    rfl

theorem Recased.letter (h : Recased buf i b b') (hne : b ≠ b') :
    (Char.ofNat b.toNat).isAlpha = true := by
  by_contra hb
  rw [Bool.not_eq_true] at hb
  have hlo := h.lower
  rw [toLower_of_not_alpha hb, eq_comm, toLower_eq_iff hb] at hlo
  have := congrArg Char.toNat hlo
  rw [ofNat_toNat (by have := h.ascii; omega), ofNat_toNat (by have := h.ascii; omega)] at this
  exact hne (UInt8.toNat_inj.mp this.symm)

theorem BytesAlike.runes_drop (h : BytesAlike buf buf') (i : ℕ) :
    Alike (runes (buf.drop i)) (runes (buf'.drop i)) := by
  generalize hn : buf.length - i = n
  induction n using Nat.strongRecOn generalizing i with
  | ind n ih =>
    cases hb : buf[i]? with
    | none =>
      rw [drop_eq_nil_of_le (getElem?_eq_none_iff.mp hb),
        drop_eq_nil_of_le (getElem?_eq_none_iff.mp (h.byte_none hb))]
      exact .nil
    | some b =>
      obtain ⟨b', hb', hca⟩ := h.byte hb
      have hi := (List.getElem?_eq_some_iff.mp hb).1
      by_cases heq : b = b'
      · subst heq
        have hdec := decodeRune_alike b (h.forall₂_drop (i + 1))
        have hwd := (decodeRune_width b (buf.drop (i + 1))).1
        rw [drop_of_byte hb, drop_of_byte hb', runes_cons, runes_cons, ← hdec,
          ← drop_of_byte hb, ← drop_of_byte hb', drop_drop, drop_drop]
        refine .same _ (fun hes => ?_) (ih _ ?_ _ rfl)
        · simp only [drop_of_byte hb] at hes ⊢
          have hasc : b.toNat < 0x80 := by
            apply @decodeRune_lt b (buf.drop (i + 1))
            rw [hes]
            decide
          rw [decodeRune_ascii hasc] at hes ⊢
          have hbac : b = 92 := by
            have := congrArg Char.toNat hes
            rw [ofNat_toNat (by omega)] at this
            exact UInt8.toNat_inj.mp this
          exact h.head_eq (h.byte_eq_of_escape (hbac ▸ hb))
        · rw [← drop_of_byte hb] at hwd
          omega
      · have hr := hca.resolve_left heq
        rw [drop_of_byte hb, drop_of_byte hb', runes_cons, runes_cons,
          decodeRune_ascii hr.ascii.1, decodeRune_ascii hr.ascii.2]
        refine .recased (hr.letter heq) ?_ hr.name (ih _ (by omega) _ rfl)
        simp [lower, hr.lower]

theorem isAlpha_lt (h : c.isAlpha = true) : c.toNat < 0x80 := by
  by_contra hc
  rw [isAlpha_of_ge (by omega)] at h
  cases h

theorem rune_eq_of_byte (h : runes buf = r :: rs) (h' : runes buf' = r' :: rs')
    (hlo : lower r = lower r') (hby : buf[0]? = buf'[0]?) : r = r' := by
  have hwd : r.width = r'.width := by
    have := congrArg Rune.width hlo
    exact this
  have hch : r.char = r'.char := by
    by_cases ha : r.char.isAlpha = true
    · have ha' := ha
      rw [isAlpha_of_lower hlo] at ha'
      obtain ⟨b, rest, rfl, hb, -⟩ := runes_ascii h (isAlpha_lt ha)
      obtain ⟨b', rest', rfl, hb', -⟩ := runes_ascii h' (isAlpha_lt ha')
      have hbb : b = b' := by simpa using hby
      exact Char.toNat_inj.mp (by rw [← hb, ← hb', hbb])
    rw [Bool.not_eq_true] at ha
    have := (char_eq_iff_of_lower hlo ha).mp rfl
    exact this.symm
  cases r
  simp_all

theorem taken_eq (h : runes (buf.drop i) = tk ++ left)
    (h' : runes (buf'.drop i) = tk' ++ left') (hlo : tk.map lower = tk'.map lower)
    (hsm : ∀ j, i ≤ j → j < i + width tk → buf[j]? = buf'[j]?) : tk = tk' := by
  induction tk generalizing i tk' with
  | nil => exact (map_eq_nil_iff.mp hlo.symm).symm
  | cons r tk ih =>
    cases tk' with
    | nil => cases hlo
    | cons r' tk' =>
      obtain ⟨hr, hta⟩ := cons.inj hlo
      have hpos := rune_width_pos h
      simp only [width_cons] at hsm
      have hby : (buf.drop i)[0]? = (buf'.drop i)[0]? := by
        rw [getElem?_drop, getElem?_drop]
        exact hsm i (Nat.le_refl i) (by omega)
      obtain rfl := rune_eq_of_byte h h' hr hby
      obtain ⟨-, -, -, -, hrs⟩ := runes_head h
      obtain ⟨-, -, -, -, hrs'⟩ := runes_head h'
      rw [drop_drop] at hrs hrs'
      rw [ih hrs.symm hrs'.symm hta fun j hj hj' => hsm j (by omega) (by omega)]

theorem Together.value_eq (h : Together (runes (buf.drop i)) (runes (buf'.drop i)) scan scan')
    (hsm : ∀ j, i ≤ j → j < i + scan.count → buf[j]? = buf'[j]?) : scan.value = scan'.value := by
  obtain ⟨-, tk, left, tk', left', hrs, hrs', hcn, -, hlo, hv⟩ := h
  rw [hcn] at hsm
  exact hv (taken_eq hrs hrs' hlo hsm)

end QueryLetterCase
