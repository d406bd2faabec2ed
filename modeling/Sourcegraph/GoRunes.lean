import Sourcegraph.GoStrings

/-! # UTF-8 encoding of runes

Code points are natural numbers, so that the surrogates, which no text decodes to but a pattern
may name, are among them. -/
namespace GoRunes

open GoStrings List

def maxRune : ℕ := 0x10FFFF

def Scalar (r : ℕ) : Prop := r < 0xD800 ∨ 0xDFFF < r ∧ r < 0x110000

instance (r : ℕ) : Decidable (Scalar r) := inferInstanceAs (Decidable (_ ∨ _))

/-- `utf8.EncodeRune`: what is not a scalar value is encoded as the replacement rune. -/
def encodeRune (r : ℕ) : Bytes :=
  if r < 0x80 then [UInt8.ofNat r]
  else if r < 0x800 then [UInt8.ofNat (0xC0 + r / 64), UInt8.ofNat (0x80 + r % 64)]
  else if ¬ Scalar r then [0xEF, 0xBF, 0xBD]
  else if r < 0x10000 then
    [UInt8.ofNat (0xE0 + r / 4096), UInt8.ofNat (0x80 + r / 64 % 64), UInt8.ofNat (0x80 + r % 64)]
  else
    [UInt8.ofNat (0xF0 + r / 262144), UInt8.ofNat (0x80 + r / 4096 % 64),
      UInt8.ofNat (0x80 + r / 64 % 64), UInt8.ofNat (0x80 + r % 64)]

/-- `string(runes)`. -/
def encode (rs : List ℕ) : Bytes := rs.flatMap encodeRune

def codes (buf : Bytes) : List ℕ := (runes buf).map fun r => r.char.toNat

theorem toNat_ofNat (h : n < 256) : (UInt8.ofNat n).toNat = n := by
  exact Nat.mod_eq_of_lt h

theorem scalar_toNat (c : Char) : Scalar c.toNat := c.valid

theorem inRange_ofNat {low high n : ℕ} (h : n < 256) :
    inRange low high (UInt8.ofNat n) = true ↔ low ≤ n ∧ n ≤ high := by
  rw [inRange_iff, toNat_ofNat h]

theorem continuation_ofNat : continuation (UInt8.ofNat (0x80 + n % 64)) = n % 64 := by
  have := toNat_ofNat (show 0x80 + n % 64 < 256 by omega)
  unfold continuation
  omega

theorem twoByteRune_encode (h : 0x80 ≤ r) (h' : r < 0x800) (rest : Bytes) :
    twoByteRune (UInt8.ofNat (0xC0 + r / 64)) (UInt8.ofNat (0x80 + r % 64) :: rest) =
      some (Char.ofNat r) := by
  have hb : (inRange 0xC2 0xDF (UInt8.ofNat (0xC0 + r / 64)) &&
      inRange 0x80 0xBF (UInt8.ofNat (0x80 + r % 64))) = true := by
    rw [Bool.and_eq_true, inRange_ofNat (by omega), inRange_ofNat (by omega)]
    omega
  rw [twoByteRune, if_pos hb, toNat_ofNat (by omega), continuation_ofNat,
    Nat.add_sub_cancel_left, show r / 64 * 64 + r % 64 = r by omega]

theorem threeByteRune_encode (h : 0x800 ≤ r) (h' : r < 0x10000) (hs : Scalar r) (rest : Bytes) :
    threeByteRune (UInt8.ofNat (0xE0 + r / 4096))
      (UInt8.ofNat (0x80 + r / 64 % 64) :: UInt8.ofNat (0x80 + r % 64) :: rest) =
      some (Char.ofNat r) := by
  unfold Scalar at hs
  rw [threeByteRune, if_pos, toNat_ofNat (by omega), continuation_ofNat, continuation_ofNat,
    Nat.add_sub_cancel_left, show r / 4096 * 4096 + r / 64 % 64 * 64 + r % 64 = r by omega]
  rw [Bool.and_eq_true, Bool.and_eq_true, @inRange_second _ 0xA0 0x9F (by omega) (by omega),
    inRange_ofNat (by omega), inRange_ofNat (by omega), toNat_ofNat (by omega),
    toNat_ofNat (by omega)]
  simp only [UInt8.reduceToNat]
  omega

theorem fourByteRune_encode (h : 0x10000 ≤ r) (h' : r < 0x110000) (rest : Bytes) :
    fourByteRune (UInt8.ofNat (0xF0 + r / 262144))
      (UInt8.ofNat (0x80 + r / 4096 % 64) :: UInt8.ofNat (0x80 + r / 64 % 64) ::
        UInt8.ofNat (0x80 + r % 64) :: rest) = some (Char.ofNat r) := by
  rw [fourByteRune, if_pos, toNat_ofNat (by omega), continuation_ofNat, continuation_ofNat,
    continuation_ofNat, Nat.add_sub_cancel_left,
    show r / 262144 * 262144 + r / 4096 % 64 * 4096 + r / 64 % 64 * 64 + r % 64 = r by omega]
  rw [Bool.and_eq_true, Bool.and_eq_true, Bool.and_eq_true,
    @inRange_second _ 0x90 0x8F (by omega) (by omega), inRange_ofNat (by omega),
    inRange_ofNat (by omega), inRange_ofNat (by omega), toNat_ofNat (by omega),
    toNat_ofNat (by omega)]
  simp only [UInt8.reduceToNat]
  omega

theorem twoByteRune_none (h : 0xDF < n) (h' : n < 256) (rest : Bytes) :
    twoByteRune (UInt8.ofNat n) rest = none := by
  have hb : inRange 0xC2 0xDF (UInt8.ofNat n) = false := by
    rw [Bool.eq_false_iff, ne_eq, inRange_ofNat h']
    omega
  cases rest with
  | nil => rfl
  | cons b₁ rest => simp [twoByteRune, hb]

theorem threeByteRune_none (h : 0xEF < n) (h' : n < 256) (rest : Bytes) :
    threeByteRune (UInt8.ofNat n) rest = none := by
  have hb : inRange 0xE0 0xEF (UInt8.ofNat n) = false := by
    rw [Bool.eq_false_iff, ne_eq, inRange_ofNat h']
    omega
  rcases rest with _ | ⟨b₁, _ | ⟨b₂, rest⟩⟩
  · rfl
  · rfl
  · simp [threeByteRune, hb]

theorem decodeRune_encodeRune (h : Scalar r) (rest : Bytes) :
    decodeRune (encodeRune r ++ rest) = (Char.ofNat r, (encodeRune r).length) := by
  have hs := h
  unfold Scalar at hs
  fun_cases encodeRune r with
  | case1 h₁ =>
    rw [singleton_append, decodeRune_ascii (by rwa [toNat_ofNat (by omega)]),
      toNat_ofNat (by omega)]
    rfl
  | case2 h₁ h₂ =>
    rw [cons_append, singleton_append, decodeRune,
      if_neg (by rw [toNat_ofNat (by omega)]; omega), multiByteRune,
      twoByteRune_encode (by omega) h₂]
    rfl
  | case3 _ _ hns => exact absurd h hns
  | case4 _ _ _ h₃ =>
    rw [cons_append, cons_append, singleton_append, decodeRune,
      if_neg (by rw [toNat_ofNat (by omega)]; omega), multiByteRune,
      twoByteRune_none (by omega) (by omega), threeByteRune_encode (by omega) h₃ h]
    rfl
  | case5 =>
    rw [cons_append, cons_append, cons_append, singleton_append, decodeRune,
      if_neg (by rw [toNat_ofNat (by omega)]; omega), multiByteRune,
      twoByteRune_none (by omega) (by omega), threeByteRune_none (by omega) (by omega),
      fourByteRune_encode (by omega) (by omega)]
    rfl

theorem encodeRune_two (h : 0x80 ≤ r) (h' : r < 0x800) :
    encodeRune r = [UInt8.ofNat (0xC0 + r / 64), UInt8.ofNat (0x80 + r % 64)] := by
  rw [encodeRune, if_neg (by omega), if_pos h']

theorem encodeRune_three (h : 0x800 ≤ r) (h' : r < 0x10000) (hs : Scalar r) :
    encodeRune r = [UInt8.ofNat (0xE0 + r / 4096), UInt8.ofNat (0x80 + r / 64 % 64),
      UInt8.ofNat (0x80 + r % 64)] := by
  rw [encodeRune, if_neg (by omega), if_neg (by omega), if_neg (not_not.mpr hs), if_pos h']

theorem encodeRune_four (h : 0x10000 ≤ r) (h' : r < 0x110000) :
    encodeRune r = [UInt8.ofNat (0xF0 + r / 262144), UInt8.ofNat (0x80 + r / 4096 % 64),
      UInt8.ofNat (0x80 + r / 64 % 64), UInt8.ofNat (0x80 + r % 64)] := by
  have hs : Scalar r := .inr ⟨by omega, h'⟩
  rw [encodeRune, if_neg (by omega), if_neg (by omega), if_neg (not_not.mpr hs), if_neg (by omega)]

theorem ofNat_byte (h : n = b.toNat) : UInt8.ofNat n = b := by
  rw [h, UInt8.ofNat_toNat]

theorem encodeRune_multiByte (h : MultiByte b₀ rest m) (hm : m.1 ≠ runeError) :
    encodeRune m.1.toNat = (b₀ :: rest).take m.2 := by
  cases h with
  | @two b₁ _ r h₀ h₁ hr =>
    show encodeRune r.toNat = _
    rw [encodeRune_two (by omega) (by omega), ofNat_byte (b := b₀) (by omega),
      ofNat_byte (b := b₁) (by omega)]
    rfl
  | @three b₁ b₂ _ r h₀ h₁ hlow hhi h₂ hr =>
    rw [encodeRune_three (by omega) (by omega) (scalar_toNat r), ofNat_byte (b := b₀) (by omega),
      ofNat_byte (b := b₁) (by omega), ofNat_byte (b := b₂) (by omega)]
    rfl
  | @four b₁ b₂ b₃ _ r h₀ h₁ hlow hhi h₂ h₃ hr =>
    show encodeRune r.toNat = _
    rw [encodeRune_four (by omega) (by omega), ofNat_byte (b := b₀) (by omega),
      ofNat_byte (b := b₁) (by omega), ofNat_byte (b := b₂) (by omega),
      ofNat_byte (b := b₃) (by omega)]
    rfl
  | invalid => exact absurd rfl hm

/-- Unless it is the replacement rune, a decoded rune is encoded as the bytes it was read from. -/
theorem encodeRune_decodeRune (h : (decodeRune buf).1 ≠ runeError) :
    encodeRune (decodeRune buf).1.toNat = buf.take (decodeRune buf).2 := by
  cases buf with
  | nil => exact absurd rfl h
  | cons b₀ rest =>
    by_cases h₀ : b₀.toNat < 0x80
    · rw [decodeRune_ascii h₀, ofNat_toNat (by omega), encodeRune, if_pos h₀, UInt8.ofNat_toNat]
      rfl
    rw [decodeRune, if_neg h₀] at h ⊢
    exact encodeRune_multiByte (multiByteRune_spec b₀ rest) h

theorem encodeRune_ne_nil : encodeRune r ≠ [] := by
  unfold encodeRune
  repeat' split
  all_goals simp

theorem runes_encodeRune (h : Scalar r) (rest : Bytes) :
    runes (encodeRune r ++ rest) = ⟨Char.ofNat r, (encodeRune r).length⟩ :: runes rest := by
  have hd := decodeRune_encodeRune h rest
  obtain ⟨b, bs, hb⟩ := exists_cons_of_ne_nil encodeRune_ne_nil
  rw [hb, cons_append] at hd ⊢
  rw [runes_cons, hd, ← cons_append, drop_left]

theorem codes_encode (h : ∀ r ∈ rs, Scalar r) (rest : Bytes) :
    codes (encode rs ++ rest) = rs ++ codes rest := by
  induction rs with
  | nil => rfl
  | cons r rs ih =>
    have hr := h r (by simp)
    rw [encode, flatMap_cons, append_assoc, codes, runes_encodeRune hr, map_cons,
      ofNat_toNat hr]
    congr 1
    exact ih (forall_mem_cons.mp h).2

theorem encode_runes (h : runes buf = tk ++ left) (hr : ∀ r ∈ tk, r.char ≠ runeError) :
    encode (tk.map fun r => r.char.toNat) = buf.take (width tk) := by
  induction tk generalizing buf with
  | nil => rfl
  | cons r tk ih =>
    obtain ⟨b, rest, rfl, hdec, hrs⟩ := runes_head h
    have hch := hr r (by simp)
    rw [hdec] at hch
    have hhd := encodeRune_decodeRune hch
    have hta := ih hrs.symm (forall_mem_cons.mp hr).2
    rw [map_cons, encode, flatMap_cons, width_cons, take_add, ← hta, hdec, hhd]
    rfl

theorem encodeRune_ge (h : 0x80 ≤ r) (hb : b ∈ encodeRune r) : 0x80 ≤ b.toNat := by
  have hby : ∀ n, 0x80 ≤ n → n < 256 → 0x80 ≤ (UInt8.ofNat n).toNat := fun n hn hlt => by
    rw [toNat_ofNat hlt]
    exact hn
  revert b
  fun_cases encodeRune r with
  | case1 => omega
  | case3 =>
    simp only [mem_cons, not_mem_nil, or_false, forall_eq_or_imp, forall_eq]
    decide
  | case2 =>
    simp only [mem_cons, not_mem_nil, or_false, forall_eq_or_imp, forall_eq]
    and_intros <;> exact hby _ (by omega) (by omega)
  | case4 _ _ hs | case5 _ _ hs =>
    rw [not_not, Scalar] at hs
    simp only [mem_cons, not_mem_nil, or_false, forall_eq_or_imp, forall_eq]
    and_intros <;> exact hby _ (by omega) (by omega)

/-- What is read as given runes is their encoding, unless the replacement rune is among them. -/
theorem encode_infix (h : rs <:+: codes buf) (hr : runeError.toNat ∉ rs) : encode rs <:+: buf := by
  obtain ⟨l, r, hbuf⟩ := h
  obtain ⟨lm, right, hrun, hlm, -⟩ := map_eq_append_iff.mp hbuf.symm
  obtain ⟨left, mid, rfl, -, rfl⟩ := map_eq_append_iff.mp hlm
  rw [append_assoc] at hrun
  rw [encode_runes (runes_drop hrun) fun x hx hx' => hr (mem_map.mpr ⟨x, hx, by rw [hx']⟩)]
  exact (List.take_prefix _ _).isInfix.trans (drop_suffix _ _).isInfix

def StartsRune (buf : Bytes) : Prop := ∀ b ∈ buf.head?, inRange 0x80 0xBF b = false

theorem startsRune_inRange (hlow : 0x80 ≤ low) (hhi : high ≤ 0xBF) (h : StartsRune (b :: buf)) :
    inRange low high b = false := by
  have := h b rfl
  rw [Bool.eq_false_iff, ne_eq, inRange_iff] at this ⊢
  omega

variable {next : Bytes}

theorem multiByteRune_append (rest : Bytes) (h : StartsRune next) :
    multiByteRune b₀ (rest ++ next) = multiByteRune b₀ rest := by
  rcases next with _ | ⟨b, next⟩
  · rw [append_nil]
  have hnx := startsRune_inRange (Nat.le_refl 0x80) (Nat.le_refl 0xBF) h
  have h₂ : twoByteRune b₀ (rest ++ b :: next) = twoByteRune b₀ rest := by
    rcases rest with _ | ⟨b₁, rest⟩
    · simp [twoByteRune, hnx]
    · rfl
  have h₃ : threeByteRune b₀ (rest ++ b :: next) = threeByteRune b₀ rest := by
    have hf : inRange (if b₀ = 0xE0 then 0xA0 else 0x80) (if b₀ = 0xED then 0x9F else 0xBF) b =
        false := startsRune_inRange (by split <;> omega) (by split <;> omega) h
    rcases rest with _ | ⟨b₁, _ | ⟨b₂, rest⟩⟩
    · cases next <;> simp [threeByteRune, hf]
    · simp [threeByteRune, hnx]
    · rfl
  have h₄ : fourByteRune b₀ (rest ++ b :: next) = fourByteRune b₀ rest := by
    have hf : inRange (if b₀ = 0xF0 then 0x90 else 0x80) (if b₀ = 0xF4 then 0x8F else 0xBF) b =
        false := startsRune_inRange (by split <;> omega) (by split <;> omega) h
    rcases rest with _ | ⟨b₁, _ | ⟨b₂, _ | ⟨b₃, rest⟩⟩⟩
    · rcases next with _ | ⟨b', _ | ⟨b'', next⟩⟩ <;> simp [fourByteRune, hf]
    · cases next <;> simp [fourByteRune, hnx]
    · simp [fourByteRune, hnx]
    · rfl
  unfold multiByteRune
  rw [h₂, h₃, h₄]

theorem decodeRune_append (b₀ : UInt8) (rest : Bytes) (h : StartsRune next) :
    decodeRune (b₀ :: (rest ++ next)) = decodeRune (b₀ :: rest) := by
  rw [decodeRune, decodeRune, multiByteRune_append rest h]

/-- Texts are decoded one after the other if the second one starts a rune. -/
theorem runes_append (buf : Bytes) (h : StartsRune next) :
    runes (buf ++ next) = runes buf ++ runes next := by
  generalize hn : buf.length = n
  induction n using Nat.strongRecOn generalizing buf with
  | ind n ih =>
    cases buf with
    | nil => rfl
    | cons b₀ rest =>
      have hw := decodeRune_width b₀ rest
      have hle : (decodeRune (b₀ :: rest)).2 ≤ (b₀ :: rest).length := by
        simp only [length_cons]
        omega
      rw [cons_append, runes_cons, runes_cons, decodeRune_append b₀ rest h, ← cons_append,
        drop_append_of_le_length hle]
      congr 1
      apply ih _ _ _ rfl
      simp only [length_drop, length_cons] at *
      omega

theorem startsRune_encodeRune (h : Scalar r) (rest : Bytes) :
    StartsRune (encodeRune r ++ rest) := by
  intro b
  rw [Bool.eq_false_iff, ne_eq, inRange_iff]
  unfold Scalar at h
  fun_cases encodeRune r with
  | case3 =>
    rintro ⟨⟩
    decide
  | _ =>
    rintro ⟨⟩
    rw [toNat_ofNat (by omega)]
    omega

/-- Bytes that play the same role in the encoding of a rune. -/
def ByteAlike (b b' : UInt8) : Prop := b = b' ∨ b.toNat < 0x80 ∧ b'.toNat < 0x80

theorem inRange_ascii {low : ℕ} (hlow : 0x80 ≤ low) (high : ℕ) {b : UInt8} (h : b.toNat < 0x80) :
    inRange low high b = false := by
  rw [Bool.eq_false_iff, ne_eq, inRange_iff]
  omega

theorem multiByteRune_alike (h : Forall₂ ByteAlike rest rest') :
    multiByteRune b₀ rest = multiByteRune b₀ rest' := by
  have hnx := @inRange_ascii 0x80 (Nat.le_refl _) 0xBF
  have h₂ : twoByteRune b₀ rest = twoByteRune b₀ rest' := by
    rcases h with _ | ⟨rfl | ⟨h, h'⟩, _⟩
    · rfl
    · rfl
    · simp [twoByteRune, hnx h, hnx h']
  have h₃ : threeByteRune b₀ rest = threeByteRune b₀ rest' := by
    have hf := @inRange_ascii (if b₀ = 0xE0 then 0xA0 else 0x80) (by split <;> omega)
    rcases h with _ | ⟨rfl | ⟨h, h'⟩, _ | ⟨rfl | ⟨g, g'⟩, _⟩⟩
    · rfl
    · rfl
    · rfl
    · simp [threeByteRune, hnx g, hnx g']
    · rfl
    · simp [threeByteRune, hf _ h, hf _ h']
    · simp [threeByteRune, hnx g, hnx g']
  have h₄ : fourByteRune b₀ rest = fourByteRune b₀ rest' := by
    have hf := @inRange_ascii (if b₀ = 0xF0 then 0x90 else 0x80) (by split <;> omega)
    rcases h with _ | ⟨rfl | ⟨h, h'⟩, _ | ⟨rfl | ⟨g, g'⟩, _ | ⟨rfl | ⟨f, f'⟩, _⟩⟩⟩
    · rfl
    · rfl
    · rfl
    · rfl
    · simp [fourByteRune, hnx f, hnx f']
    · rfl
    · simp [fourByteRune, hnx g, hnx g']
    · simp [fourByteRune, hnx g, hnx g']
    · rfl
    · rfl
    · simp [fourByteRune, hf _ h, hf _ h']
    · simp [fourByteRune, hf _ h, hf _ h']
    · rfl
    · simp [fourByteRune, hf _ h, hf _ h']
    · simp [fourByteRune, hf _ h, hf _ h']
  unfold multiByteRune
  rw [h₂, h₃, h₄]

theorem decodeRune_alike (b₀ : UInt8) (h : Forall₂ ByteAlike rest rest') :
    decodeRune (b₀ :: rest) = decodeRune (b₀ :: rest') := by
  rw [decodeRune, decodeRune, multiByteRune_alike h]

end GoRunes
