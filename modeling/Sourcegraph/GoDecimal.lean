import Sourcegraph.GoStrings

/-! # Decimal numbers in byte strings

What `%d` prints, and that `strconv.Atoi` reads it back. -/
namespace GoDecimal

open GoStrings List

def isDigit (b : UInt8) : Bool := 48 ≤ b.toNat && b.toNat ≤ 57

def digits (n : ℕ) : Bytes := (Nat.toDigits 10 n).map fun c => UInt8.ofNat c.toNat

def formatInt (n : ℤ) : Bytes := if n < 0 then 45 :: digits n.natAbs else digits n.natAbs

theorem digit_range (h : c ∈ Nat.toDigits 10 n) : 48 ≤ c.toNat ∧ c.toNat ≤ 57 := by
  have hdig := Nat.isDigit_of_mem_toDigits (by omega) (by omega) h
  simp only [Char.isDigit, Bool.and_eq_true, decide_eq_true_eq, ge_iff_le] at hdig
  exact ⟨hdig.1, hdig.2⟩

theorem toNat_digit (h : c ∈ Nat.toDigits 10 n) : (UInt8.ofNat c.toNat).toNat = c.toNat := by
  have := digit_range h
  rw [UInt8.toNat_ofNat']
  omega

theorem digits_isDigit : ∀ b ∈ digits n, isDigit b = true := by
  refine forall_mem_map.mpr fun c hc => ?_
  simp only [isDigit, toNat_digit hc, Bool.and_eq_true, decide_eq_true_eq]
  exact digit_range hc

theorem digits_ne_nil : digits n ≠ [] := by
  unfold digits
  rw [Nat.toDigits_eq_if (by omega)]
  split <;> simp

theorem asciiChars_digits : asciiChars (digits n) = Nat.toDigits 10 n := by
  unfold asciiChars digits
  rw [map_map]
  conv_rhs => rw [← map_id (Nat.toDigits 10 n)]
  apply map_congr_left
  intro c hc
  simp [toNat_digit hc, Char.ofNat_toNat]

theorem digitChar_value (h : d < 10) :
    (Nat.digitChar d).isDigit = true ∧ (Nat.digitChar d).toNat - '0'.toNat = d := by
  have hall : ∀ d < 10, (Nat.digitChar d).isDigit = true ∧
      (Nat.digitChar d).toNat - '0'.toNat = d := by decide
  exact hall d h

theorem parseDigits_append {max : ℕ} (h : parseDigits max n fr = .ok m) :
    parseDigits max n (fr ++ back) = parseDigits max m back := by
  revert h
  fun_induction parseDigits max n fr with
  | case1 =>
    rintro ⟨⟩
    rfl
  | case4 n c cs hc hmax ih =>
    rw [cons_append, parseDigits, if_neg hc, if_neg hmax]
    exact ih
  | _ => nofun

theorem parseDigits_toDigits {max n : ℕ} (h : n ≤ max) :
    parseDigits max 0 (Nat.toDigits 10 n) = .ok n := by
  induction n using Nat.strongRecOn with
  | ind n ih =>
    rw [Nat.toDigits_eq_if (by omega)]
    split
    · rename_i hlt
      obtain ⟨hdig, hv⟩ := digitChar_value hlt
      rw [parseDigits, hv, if_neg (by simp [hdig]), if_neg (by omega), parseDigits]
      simp
    obtain ⟨hdig, hv⟩ := digitChar_value (Nat.mod_lt n (by omega : 10 > 0))
    rw [parseDigits_append (ih (n / 10) (by omega) (by omega)), parseDigits, hv,
      if_neg (by simp [hdig]), if_neg (by omega), parseDigits, Nat.div_add_mod']

theorem atoi_digits (h : n < 2 ^ 63) : atoi (asciiChars (digits n)) = .ok n := by
  rw [asciiChars_digits]
  have hne : Nat.toDigits 10 n ≠ [] := by
    intro hnil
    exact digits_ne_nil (by rw [digits, hnil, map_nil])
  obtain ⟨c, cs, hcs⟩ := exists_cons_of_ne_nil hne
  have hc := digit_range (n := n) (c := c) (by rw [hcs]; exact mem_cons_self)
  have hsg : c ≠ '-' ∧ c ≠ '+' := by
    constructor <;>
    · rintro rfl
      simp at hc
  have hprs := @parseDigits_toDigits (2 ^ 64 - 1) n (by omega)
  rw [hcs] at hprs ⊢
  unfold atoi parseInt
  split
  rename_i nega rest hrs
  split at hrs
  · rename_i heq
    exact absurd (cons.inj heq).1 hsg.1
  · rename_i heq
    exact absurd (cons.inj heq).1 hsg.2
  · obtain ⟨rfl, rfl⟩ := Prod.mk.inj hrs
    simp only [hprs]
    rw [if_neg (by simp), if_pos (by simpa using h)]

theorem atoi_nonneg (hgrp : ∀ b ∈ grp, isDigit b = true) (h : atoi (asciiChars grp) = .ok n) :
    0 ≤ n := by
  unfold atoi parseInt at h
  split at h
  rename_i nega rest hrs
  split at hrs
  · rename_i tail heq
    obtain ⟨b, _, hgrp', hb, _⟩ := map_eq_cons_iff.mp heq
    have hdig := hgrp b (by rw [hgrp']; exact mem_cons_self)
    have hnat := congrArg Char.toNat hb
    rw [ofNat_toNat (by have := b.toNat_lt; omega)] at hnat
    simp only [isDigit, hnat] at hdig
    exact absurd hdig (by decide)
  all_goals
    obtain ⟨rfl, rfl⟩ := Prod.mk.inj hrs
    split at h
    · nomatch h
    split at h
    · nomatch h
    rw [if_neg (by simp)] at h
    split at h
    · rw [← Except.ok.inj h]
      omega
    · nomatch h

theorem mem_formatInt (h : b ∈ formatInt n) : b = 45 ∨ isDigit b = true := by
  unfold formatInt at h
  split at h
  · rcases mem_cons.mp h with hb | hb
    · exact .inl hb
    · exact .inr (digits_isDigit b hb)
  · exact .inr (digits_isDigit b h)

end GoDecimal
