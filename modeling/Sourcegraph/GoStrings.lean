import Mathlib

/-! # Byte strings, runes and numerals of the Go standard library

A Go string is a list of bytes that need not be valid UTF-8. Decoding follows
`utf8.DecodeRune`: an invalid or truncated sequence yields the replacement rune and
advances by one byte, the empty string yields it and advances by none. -/
namespace GoStrings

open List

abbrev Bytes := List UInt8

instance instLawfulBEqBytes : LawfulBEq Bytes := inferInstance

def bytes (s : String) : Bytes := s.toUTF8.data.toList

def runeError : Char := Char.ofNat 0xFFFD

def inRange (low high : ℕ) (b : UInt8) : Bool := low ≤ b.toNat && b.toNat ≤ high

def continuation (b : UInt8) : ℕ := b.toNat - 0x80

def twoByteRune (b₀ : UInt8) : Bytes → Option Char
  | b₁ :: _ =>
    if inRange 0xC2 0xDF b₀ && inRange 0x80 0xBF b₁ then
      some (Char.ofNat ((b₀.toNat - 0xC0) * 64 + continuation b₁))
    else none
  | _ => none

def threeByteRune (b₀ : UInt8) : Bytes → Option Char
  | b₁ :: b₂ :: _ =>
    if inRange 0xE0 0xEF b₀ &&
        inRange (if b₀ = 0xE0 then 0xA0 else 0x80) (if b₀ = 0xED then 0x9F else 0xBF) b₁ &&
        inRange 0x80 0xBF b₂ then
      some (Char.ofNat ((b₀.toNat - 0xE0) * 4096 + continuation b₁ * 64 + continuation b₂))
    else none
  | _ => none

def fourByteRune (b₀ : UInt8) : Bytes → Option Char
  | b₁ :: b₂ :: b₃ :: _ =>
    if inRange 0xF0 0xF4 b₀ &&
        inRange (if b₀ = 0xF0 then 0x90 else 0x80) (if b₀ = 0xF4 then 0x8F else 0xBF) b₁ &&
        inRange 0x80 0xBF b₂ && inRange 0x80 0xBF b₃ then
      some (Char.ofNat ((b₀.toNat - 0xF0) * 262144 + continuation b₁ * 4096 +
        continuation b₂ * 64 + continuation b₃))
    else none
  | _ => none

def multiByteRune (b₀ : UInt8) (rest : Bytes) : Char × ℕ :=
  match twoByteRune b₀ rest, threeByteRune b₀ rest, fourByteRune b₀ rest with
  | some r, _, _ => (r, 2)
  | none, some r, _ => (r, 3)
  | none, none, some r => (r, 4)
  | none, none, none => (runeError, 1)

def decodeRune : Bytes → Char × ℕ
  | [] => (runeError, 0)
  | b₀ :: rest =>
    if b₀.toNat < 0x80 then (Char.ofNat b₀.toNat, 1) else multiByteRune b₀ rest

def runeCountFrom : ℕ → Bytes → ℕ
  | 0, _ => 0
  | _, [] => 0
  | fuel + 1, buf => runeCountFrom fuel (buf.drop (decodeRune buf).2) + 1

/-- `utf8.RuneCount`; every rune has at least one byte, so the length is enough fuel. -/
def runeCount (buf : Bytes) : ℕ := runeCountFrom buf.length buf

inductive Fault where
  | error (message : String)
  | panic (message : String)
  deriving DecidableEq

/-- The two errors of `strconv`. -/
inductive NumError where
  | invalid
  | range
  deriving DecidableEq

/-- The loop of `strconv.ParseUint` in base 10: it ends at the first character that is not a
digit or that takes the number past the maximum. -/
def parseDigits (max : ℕ) : ℕ → List Char → Except NumError ℕ
  | n, [] => .ok n
  | n, c :: cs =>
    if !c.isDigit then .error .invalid
    else if max < n * 10 + (c.toNat - '0'.toNat) then .error .range
    else parseDigits max (n * 10 + (c.toNat - '0'.toNat)) cs

/-- `strconv.ParseInt` in base 10: an optional sign, at least one digit and nothing else,
in the range of a signed integer of the given size. -/
def parseInt (bitSize : ℕ) (s : List Char) : Except NumError ℤ :=
  let (negative, rest) := match s with
    | '-' :: rest => (true, rest)
    | '+' :: rest => (false, rest)
    | rest => (false, rest)
  match rest with
  | [] => .error .invalid
  | _ => match parseDigits (2 ^ bitSize - 1) 0 rest with
    | .error e => .error e
    | .ok n =>
      if negative then if n ≤ 2 ^ (bitSize - 1) then .ok (-n) else .error .range
      else if n < 2 ^ (bitSize - 1) then .ok n else .error .range

/-- `strconv.Atoi` on a 64-bit platform. -/
def atoi (s : List Char) : Except NumError ℤ := parseInt 64 s

def asciiChars (buf : Bytes) : List Char := buf.map fun b => Char.ofNat b.toNat

/-- `unicode.IsSpace`. -/
def isSpace (r : Char) : Bool :=
  r.toNat ∈ [0x09, 0x0A, 0x0B, 0x0C, 0x0D, 0x20, 0x85, 0xA0, 0x1680, 0x2028, 0x2029, 0x202F,
    0x205F, 0x3000] || (0x2000 ≤ r.toNat && r.toNat ≤ 0x200A)

/-- The representative of a rune under `unicode.SimpleFold`, for comparisons with ASCII text:
besides the two cases of a letter only the long s and the Kelvin sign fold to an ASCII letter. -/
def foldRune (r : Char) : Char :=
  if r.toNat = 0x17F then 's' else if r.toNat = 0x212A then 'k' else r.toLower

/-- `strings.EqualFold`, of which the second string is ASCII. -/
def equalFold (s t : List Char) : Bool := s.map foldRune == t.map foldRune

theorem bind_eq_ok {x : Except ε α} (h : (x >>= f) = .ok b) : ∃ a, x = .ok a ∧ f a = .ok b := by
  cases x with
  | error e => cases h
  | ok a => exact ⟨a, rfl, h⟩

theorem map_eq_ok {x : Except ε α} (h : x.map f = .ok b) : ∃ a, x = .ok a ∧ f a = b := by
  cases x with
  | error e => cases h
  | ok a => exact ⟨a, rfl, Except.ok.inj h⟩

theorem ofNat_toNat (h : n < 0xD800 ∨ 0xDFFF < n ∧ n < 0x110000) : (Char.ofNat n).toNat = n := by
  rw [Char.toNat_ofNat, if_pos h]

theorem inRange_iff : inRange low high b = true ↔ low ≤ b.toNat ∧ b.toNat ≤ high := by
  simp [inRange]

theorem inRange_second {low high : ℕ} (hlow : 0x80 ≤ low) (hhi : high ≤ 0xBF) {k l b : UInt8} :
    inRange (if b₀ = k then low else 0x80) (if b₀ = l then high else 0xBF) b = true ↔
      (0x80 ≤ b.toNat ∧ b.toNat ≤ 0xBF) ∧ (b₀.toNat = k.toNat → low ≤ b.toNat) ∧
        (b₀.toNat = l.toNat → b.toNat ≤ high) := by
  rw [inRange_iff]
  simp only [← UInt8.toNat_inj]
  split <;> split <;> omega

/-- What a rune of more than one byte is read from. -/
inductive MultiByte (b₀ : UInt8) : Bytes → Char × ℕ → Prop
  | two {b₁ : UInt8} {rest : Bytes} {r : Char} (h₀ : 0xC2 ≤ b₀.toNat ∧ b₀.toNat ≤ 0xDF)
    (h₁ : 0x80 ≤ b₁.toNat ∧ b₁.toNat ≤ 0xBF)
    (hr : r.toNat = (b₀.toNat - 0xC0) * 64 + (b₁.toNat - 0x80)) : MultiByte b₀ (b₁ :: rest) (r, 2)
  | three {b₁ b₂ : UInt8} {rest : Bytes} {r : Char} (h₀ : 0xE0 ≤ b₀.toNat ∧ b₀.toNat ≤ 0xEF)
    (h₁ : 0x80 ≤ b₁.toNat ∧ b₁.toNat ≤ 0xBF) (hlow : b₀.toNat = 0xE0 → 0xA0 ≤ b₁.toNat)
    (hhigh : b₀.toNat = 0xED → b₁.toNat ≤ 0x9F) (h₂ : 0x80 ≤ b₂.toNat ∧ b₂.toNat ≤ 0xBF)
    (hr : r.toNat = (b₀.toNat - 0xE0) * 4096 + (b₁.toNat - 0x80) * 64 + (b₂.toNat - 0x80)) :
    MultiByte b₀ (b₁ :: b₂ :: rest) (r, 3)
  | four {b₁ b₂ b₃ : UInt8} {rest : Bytes} {r : Char} (h₀ : 0xF0 ≤ b₀.toNat ∧ b₀.toNat ≤ 0xF4)
    (h₁ : 0x80 ≤ b₁.toNat ∧ b₁.toNat ≤ 0xBF) (hlow : b₀.toNat = 0xF0 → 0x90 ≤ b₁.toNat)
    (hhigh : b₀.toNat = 0xF4 → b₁.toNat ≤ 0x8F) (h₂ : 0x80 ≤ b₂.toNat ∧ b₂.toNat ≤ 0xBF)
    (h₃ : 0x80 ≤ b₃.toNat ∧ b₃.toNat ≤ 0xBF)
    (hr : r.toNat = (b₀.toNat - 0xF0) * 262144 + (b₁.toNat - 0x80) * 4096 +
      (b₂.toNat - 0x80) * 64 + (b₃.toNat - 0x80)) : MultiByte b₀ (b₁ :: b₂ :: b₃ :: rest) (r, 4)
  | invalid {rest : Bytes} : MultiByte b₀ rest (runeError, 1)

theorem twoByteRune_spec (h : twoByteRune b₀ rest = some r) : MultiByte b₀ rest (r, 2) := by
  rcases rest with _ | ⟨b₁, rest⟩
  · cases h
  obtain ⟨hb, hr⟩ := Option.ite_none_right_eq_some.mp h
  rw [Bool.and_eq_true, inRange_iff, inRange_iff] at hb
  refine .two hb.1 hb.2 ?_
  rw [← Option.some.inj hr, ofNat_toNat (by unfold continuation; omega)]
  rfl

theorem threeByteRune_spec (h : threeByteRune b₀ rest = some r) : MultiByte b₀ rest (r, 3) := by
  rcases rest with _ | ⟨b₁, _ | ⟨b₂, rest⟩⟩
  · cases h
  · cases h
  · obtain ⟨hb, hr⟩ := Option.ite_none_right_eq_some.mp h
    rw [Bool.and_eq_true, Bool.and_eq_true, @inRange_second b₀ 0xA0 0x9F (by omega) (by omega),
      inRange_iff, inRange_iff] at hb
    obtain ⟨⟨h₀, h₁, hlow, hhi⟩, h₂⟩ := hb
    simp only [UInt8.reduceToNat] at hlow hhi
    refine .three h₀ h₁ hlow hhi h₂ ?_
    rw [← Option.some.inj hr, ofNat_toNat (by unfold continuation; omega)]
    rfl

theorem fourByteRune_spec (h : fourByteRune b₀ rest = some r) : MultiByte b₀ rest (r, 4) := by
  rcases rest with _ | ⟨b₁, _ | ⟨b₂, _ | ⟨b₃, rest⟩⟩⟩
  · cases h
  · cases h
  · cases h
  · obtain ⟨hb, hr⟩ := Option.ite_none_right_eq_some.mp h
    rw [Bool.and_eq_true, Bool.and_eq_true, Bool.and_eq_true,
      @inRange_second b₀ 0x90 0x8F (by omega) (by omega), inRange_iff, inRange_iff,
      inRange_iff] at hb
    obtain ⟨⟨⟨h₀, h₁, hlow, hhi⟩, h₂⟩, h₃⟩ := hb
    simp only [UInt8.reduceToNat] at hlow hhi
    refine .four h₀ h₁ hlow hhi h₂ h₃ ?_
    rw [← Option.some.inj hr, ofNat_toNat (by unfold continuation; omega)]
    rfl

theorem multiByteRune_spec (b₀ : UInt8) (rest : Bytes) :
    MultiByte b₀ rest (multiByteRune b₀ rest) := by
  unfold multiByteRune
  split
  · rename_i h
    exact twoByteRune_spec h
  · rename_i h
    exact threeByteRune_spec h
  · rename_i h
    exact fourByteRune_spec h
  · exact .invalid

theorem MultiByte.width (h : MultiByte b₀ rest m) : 1 ≤ m.2 ∧ m.2 ≤ rest.length + 1 := by
  cases h <;> simp

theorem MultiByte.ge (h : MultiByte b₀ rest m) : 0x80 ≤ m.1.toNat := by
  cases h with
  | invalid => decide
  | _ => simp only; omega

theorem MultiByte.bytes (h : MultiByte b₀ rest m) (hk : k + 1 < m.2) (hb : rest[k]? = some b) :
    0x80 ≤ b.toNat := by
  cases h with
  | two =>
    obtain rfl : k = 0 := by omega
    cases hb
    omega
  | three =>
    have : k = 0 ∨ k = 1 := by omega
    rcases this with rfl | rfl <;> cases hb <;> omega
  | four =>
    have : k = 0 ∨ k = 1 ∨ k = 2 := by omega
    rcases this with rfl | rfl | rfl <;> cases hb <;> omega
  | invalid => omega

theorem decodeRune_width (b₀ : UInt8) (rest : Bytes) :
    1 ≤ (decodeRune (b₀ :: rest)).2 ∧ (decodeRune (b₀ :: rest)).2 ≤ rest.length + 1 := by
  rw [decodeRune]
  split
  · simp
  · exact (multiByteRune_spec b₀ rest).width

theorem decodeRune_ascii (h : b.toNat < 0x80) (rest : Bytes) :
    decodeRune (b :: rest) = (Char.ofNat b.toNat, 1) := by
  simp [decodeRune, h]

theorem decodeRune_lt {b : UInt8} {rest : Bytes} (h : (decodeRune (b :: rest)).1.toNat < 0x80) :
    b.toNat < 0x80 := by
  by_contra hb
  rw [decodeRune, if_neg hb] at h
  have := (multiByteRune_spec b rest).ge
  omega

theorem decodeRune_bytes (hk : k < (decodeRune buf).2) (hb : buf[k]? = some b)
    (hlt : b.toNat < 0x80) : (decodeRune buf).1.toNat = b.toNat := by
  cases buf with
  | nil => cases hb
  | cons b₀ rest =>
    by_cases h₀ : b₀.toNat < 0x80
    · rw [decodeRune_ascii h₀] at hk ⊢
      obtain rfl : k = 0 := by omega
      cases hb
      exact ofNat_toNat (by omega)
    cases k with
    | zero =>
      cases hb
      exact absurd hlt h₀
    | succ k =>
      rw [decodeRune, if_neg h₀] at hk
      have := (multiByteRune_spec b₀ rest).bytes hk (by simpa using hb)
      omega

structure Rune where
  char : Char
  width : ℕ
  deriving DecidableEq

def width (rs : List Rune) : ℕ := (rs.map Rune.width).sum

def runesFrom : ℕ → Bytes → List Rune
  | 0, _ => []
  | _, [] => []
  | fuel + 1, b :: rest =>
    let decoded := decodeRune (b :: rest)
    ⟨decoded.1, decoded.2⟩ :: runesFrom fuel ((b :: rest).drop decoded.2)

/-- The runes a loop of `utf8.DecodeRune` reads from a buffer. -/
def runes (buf : Bytes) : List Rune := runesFrom buf.length buf

theorem runesFrom_fuel (h : buf.length ≤ fuel) (h' : buf.length ≤ fuel') :
    runesFrom fuel buf = runesFrom fuel' buf := by
  induction fuel generalizing fuel' buf with
  | zero =>
    obtain rfl : buf = [] := length_eq_zero_iff.mp (by omega)
    cases fuel' <;> rfl
  | succ fuel ih =>
    cases buf with
    | nil => cases fuel' <;> rfl
    | cons b rest =>
      cases fuel' with
      | zero => simp at h'
      | succ fuel' =>
        have hw := (decodeRune_width b rest).1
        simp only [length_cons] at h h'
        simp only [runesFrom]
        rw [@ih fuel' _ (by simp only [length_drop, length_cons]; omega)
          (by simp only [length_drop, length_cons]; omega)]

@[simp] theorem runes_nil : runes [] = [] := rfl

theorem runes_cons (b : UInt8) (rest : Bytes) :
    runes (b :: rest) = ⟨(decodeRune (b :: rest)).1, (decodeRune (b :: rest)).2⟩ ::
      runes ((b :: rest).drop (decodeRune (b :: rest)).2) := by
  have hw := (decodeRune_width b rest).1
  have hta := runesFrom_fuel (show ((b :: rest).drop (decodeRune (b :: rest)).2).length ≤
    rest.length by simp only [length_drop, length_cons]; omega) (Nat.le_refl _)
  rw [runes, length_cons, runesFrom, hta]
  rfl

@[simp] theorem width_nil : width [] = 0 := rfl

@[simp] theorem width_cons : width (r :: rs) = r.width + width rs := by
  simp [width]

@[simp] theorem width_append (rs rs' : List Rune) : width (rs ++ rs') = width rs + width rs' := by
  simp [width]

theorem runes_eq_nil : runes buf = [] ↔ buf = [] := by
  cases buf with
  | nil => simp
  | cons b rest => simp [runes_cons]

theorem runes_head (h : runes buf = r :: rs) :
    ∃ b rest, buf = b :: rest ∧ r = ⟨(decodeRune buf).1, (decodeRune buf).2⟩ ∧
      rs = runes (buf.drop r.width) := by
  cases buf with
  | nil => cases h
  | cons b rest =>
    rw [runes_cons] at h
    obtain ⟨rfl, rfl⟩ := cons.inj h
    exact ⟨b, rest, rfl, rfl, rfl⟩

theorem runes_drop (h : runes buf = pre ++ post) : runes (buf.drop (width pre)) = post := by
  induction pre generalizing buf with
  | nil => simpa using h
  | cons r pre ih =>
    obtain ⟨b, rest, rfl, -, hrs⟩ := runes_head h
    rw [width_cons, ← drop_drop]
    exact ih hrs.symm

theorem width_runes (buf : Bytes) : width (runes buf) = buf.length := by
  generalize hn : buf.length = n
  induction n using Nat.strongRecOn generalizing buf with
  | ind n ih =>
    cases buf with
    | nil => simpa using hn
    | cons b rest =>
      have hw := decodeRune_width b rest
      rw [runes_cons, width_cons,
        ih _ (by simp only [length_drop] at *; simp only [length_cons] at *; omega) _ rfl]
      simp only [length_drop, length_cons] at *
      omega

theorem width_le_of_prefix (h : runes buf = pre ++ post) : width pre ≤ buf.length := by
  rw [← width_runes buf, h, width_append]
  omega

theorem rune_width_pos (h : runes buf = r :: rs) : 0 < r.width := by
  obtain ⟨b, rest, rfl, rfl, -⟩ := runes_head h
  exact (decodeRune_width b rest).1

theorem runes_ascii (h : runes buf = r :: rs) (hr : r.char.toNat < 0x80) :
    ∃ b rest, buf = b :: rest ∧ b.toNat = r.char.toNat ∧ r.width = 1 ∧ rs = runes rest := by
  obtain ⟨b, rest, rfl, rfl, hrs⟩ := runes_head h
  have hb := decodeRune_lt hr
  rw [decodeRune_ascii hb] at hrs ⊢
  exact ⟨b, rest, rfl, (ofNat_toNat (by omega)).symm, rfl, hrs⟩

theorem width_ascii (h : runes buf = tk ++ left) (ha : ∀ r ∈ tk, r.char.toNat < 0x80) :
    width tk = tk.length := by
  induction tk generalizing buf with
  | nil => rfl
  | cons r tk ih =>
    obtain ⟨b, rest, rfl, -, hw, hrs⟩ := runes_ascii h (ha r (by simp))
    rw [width_cons, hw, ih hrs.symm (forall_mem_cons.mp ha).2, length_cons, Nat.add_comm]

theorem byte_ascii (h : runes buf = tk ++ left) (ha : ∀ r ∈ tk, r.char.toNat < 0x80) {k : ℕ}
    (hr : tk[k]? = some r) : ∃ b, buf[k]? = some b ∧ b.toNat = r.char.toNat := by
  induction tk generalizing buf k with
  | nil => cases hr
  | cons s tk ih =>
    obtain ⟨b, rest, rfl, hb, -, hrs⟩ := runes_ascii h (ha s (by simp))
    cases k with
    | zero =>
      cases hr
      exact ⟨b, rfl, hb⟩
    | succ k => exact ih hrs.symm (forall_mem_cons.mp ha).2 hr

theorem runes_byte (h : runes buf = tk ++ left) (hk : k < width tk) (hb : buf[k]? = some b)
    (hlt : b.toNat < 0x80) : ∃ r ∈ tk, r.char.toNat = b.toNat := by
  induction tk generalizing buf k with
  | nil => cases hk
  | cons r tk ih =>
    obtain ⟨b₀, rest, rfl, hr, hrs⟩ := runes_head h
    by_cases hkr : k < r.width
    · refine ⟨r, by simp, ?_⟩
      rw [hr] at hkr ⊢
      exact decodeRune_bytes hkr hb hlt
    rw [width_cons] at hk
    obtain ⟨r', hr', he⟩ := ih hrs.symm (show k - r.width < width tk by omega) (by
      rw [getElem?_drop, show r.width + (k - r.width) = k by omega]
      exact hb)
    exact ⟨r', by simp [hr'], he⟩

end GoStrings
