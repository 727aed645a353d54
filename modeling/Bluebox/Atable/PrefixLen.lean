/-
  Bluebox.Atable.PrefixLen

  The prefix lengths of address masks: what `parse_netmask` makes of the text behind a
  slash, and what `add_conf_by_address`, `hash_ipv4`, `hash_ipv6` and `comp_with_mask`
  shift and read by it.

  The length is cut to the longest one, but `atoi` also gives negative numbers.
-/
import Bluebox.Bandb.Masks
import Bluebox.Inet

namespace Bluebox

open Bluebox.Lib

-- ============================================================================
-- Shifts
-- ============================================================================

/-- The counts that `hash_ipv4` shifts a 1 by. -/
def hashIpv4Shifts (bits : Int) : List Int := if bits ≠ 0 then [32 - bits] else []

/-- The counts that the loop of `hash_ipv6` shifts a 1 by, with some turns left. -/
def hashIpv6Shifts : Nat → Int → List Int
  | 0, _ => []
  | n + 1, bits => if bits ≥ 8 then hashIpv6Shifts n (bits - 8) else if bits ≠ 0 then [8 - bits] else []

/-- The number of bits of an address of the family of a mask. -/
def Netmask.width (mask : Netmask) : Int := if mask.v6 then 128 else 32

/-- The counts when `add_conf_by_address` hashes a mask. -/
def Netmask.addShifts (mask : Netmask) : List Int :=
  if mask.v6 then hashIpv6Shifts 16 (mask.bits - mask.bits.tmod 16) else hashIpv4Shifts (mask.bits - mask.bits.tmod 8)

/-- The counts when a lookup hashes an address of the family of a mask. -/
def Netmask.findShifts (mask : Netmask) : List Int :=
  if mask.v6 then [128, 112, 96, 80, 64, 48, 32, 16, 0].flatMap (hashIpv6Shifts 16)
  else [32, 24, 16, 8, 0].flatMap hashIpv4Shifts

/-- The length as the `unsigned int` of `comp_with_mask`. -/
def Netmask.unsignedBits (mask : Netmask) : Int := mask.bits % 2 ^ 32

/-- The count that `comp_with_mask` shifts a -1 by. -/
def Netmask.compShift (mask : Netmask) : Int := 8 - mask.unsignedBits % 8

/-- How many bytes of both addresses `comp_with_mask` may look at. -/
def Netmask.compBytes (mask : Netmask) : Int := (mask.unsignedBits + 7) / 8

/-- A count for an `int`. -/
def IsShift (n : Int) : Prop := 0 ≤ n ∧ n < 32

/-- Every shift is within an `int`, and the comparison within the addresses. -/
def Netmask.InWidth (mask : Netmask) : Prop :=
  (∀ n ∈ mask.addShifts, IsShift n) ∧ (∀ n ∈ mask.findShifts, IsShift n) ∧ IsShift mask.compShift ∧
    8 * mask.compBytes ≤ mask.width

/-- The length of a mask is in range, and so is all that is computed of a host that
    `valid_user_host` accepts. -/
def PrefixOk (text : Bytes) : Prop :=
  ∀ mask, parseNetmask rbInetPtonSock text = some mask →
    (0 ≤ mask.bits ∧ mask.bits ≤ mask.width) ∧
      ∀ luser, Bandb.validUserHost luser text = true → mask.InWidth

-- ============================================================================
-- The text of a length
-- ============================================================================

/-- A text behind a slash that `atoi` does not make negative, by its sign and its digits. -/
def LengthText (len : Bytes) : Prop :=
  match len.dropWhile isSpace with
  | 45 :: r => min (digitsVal r) (2 ^ 63) % 2 ^ 32 = 0 ∨ 2 ^ 31 < min (digitsVal r) (2 ^ 63) % 2 ^ 32
  | 43 :: r => min (digitsVal r) (2 ^ 63 - 1) % 2 ^ 32 < 2 ^ 31
  | r => min (digitsVal r) (2 ^ 63 - 1) % 2 ^ 32 < 2 ^ 31

/-- A mask without a slash, or with such a text behind the first one. -/
def PrefixText (text : Bytes) : Prop := ∀ ip len, strchr 47 text = some (ip, len) → LengthText len

variable {text len : Bytes} {mask : Netmask} {n : Int}

theorem toInt32_nonneg_iff : 0 ≤ toInt32 n ↔ n % 2 ^ 32 < 2 ^ 31 := by
  unfold toInt32
  rw [Int.bmod_def]
  split <;> omega

/-- A text without a sign. -/
theorem lengthText_unsigned {s : Bytes} (hs : len.dropWhile isSpace = s) (hminus : ∀ r, s ≠ 45 :: r)
    (hplus : ∀ r, s ≠ 43 :: r) : LengthText len ↔ min (digitsVal s) (2 ^ 63 - 1) % 2 ^ 32 < 2 ^ 31 := by
  unfold LengthText
  rw [hs]
  split
  · exact absurd rfl (hminus _)
  · exact absurd rfl (hplus _)
  · rfl

theorem atol_unsigned {s : Bytes} (hs : len.dropWhile isSpace = s) (hminus : ∀ r, s ≠ 45 :: r)
    (hplus : ∀ r, s ≠ 43 :: r) : atol len = min (2 ^ 63 - 1) (digitsVal s : Int) := by
  unfold atol
  rw [hs]
  split
  · exact absurd rfl (hminus _)
  · exact absurd rfl (hplus _)
  · rfl

theorem lengthText_iff : LengthText len ↔ 0 ≤ atoi len := by
  rw [atoi, toInt32_nonneg_iff]
  obtain ⟨s, hs⟩ : ∃ s, len.dropWhile isSpace = s := ⟨_, rfl⟩
  by_cases hminus : ∃ r, s = 45 :: r
  · obtain ⟨r, rfl⟩ := hminus
    unfold LengthText atol longMax
    rw [hs]
    show min (digitsVal r) (2 ^ 63) % 2 ^ 32 = 0 ∨ 2 ^ 31 < min (digitsVal r) (2 ^ 63) % 2 ^ 32 ↔
      max (-(2 ^ 63 - 1) - 1) (-(digitsVal r : Int)) % 2 ^ 32 < 2 ^ 31
    omega
  by_cases hplus : ∃ r, s = 43 :: r
  · obtain ⟨r, rfl⟩ := hplus
    unfold LengthText atol longMax
    rw [hs]
    show min (digitsVal r) (2 ^ 63 - 1) % 2 ^ 32 < 2 ^ 31 ↔ min (2 ^ 63 - 1) (digitsVal r : Int) % 2 ^ 32 < 2 ^ 31
    omega
  · rw [not_exists] at hminus hplus
    rw [lengthText_unsigned hs hminus hplus, atol_unsigned hs hminus hplus]
    omega

theorem prefixText_iff (most : Int) (hmost : 0 ≤ most) : PrefixText text ↔ 0 ≤ (splitBits most text).2 := by
  unfold PrefixText splitBits
  cases hslash : strchr 47 text with
  | none => exact iff_of_true (fun _ _ h => by cases h) hmost
  | some parts =>
    obtain ⟨ip, len⟩ := parts
    show _ ↔ 0 ≤ min (atoi len) most
    rw [le_min_iff]
    constructor
    · exact fun h => ⟨lengthText_iff.mp (h ip len rfl), hmost⟩
    · rintro ⟨hlen, -⟩ ip' len' h
      obtain ⟨rfl, rfl⟩ := Prod.mk.inj (Option.some.inj h)
      exact lengthText_iff.mpr hlen

/-- The length of a mask is the text behind its slash, cut to its family. -/
theorem parseNetmask_bits {pton : Bytes → Option IpAddr} (h : parseNetmask pton text = some mask) :
    mask.bits = (splitBits mask.width text).2 := by
  unfold parseNetmask at h
  by_cases hwild : text.any (fun b => b == 42 || b == 63) = true
  · rw [if_pos hwild] at h
    cases h
  · rw [if_neg hwild] at h
    by_cases hcolon : text.contains 58 = true
    · rw [if_pos hcolon] at h
      obtain ⟨addr, -, rfl⟩ := Option.map_eq_some_iff.mp h
      rfl
    · rw [if_neg hcolon] at h
      by_cases hdot : text.contains 46 = true
      · rw [if_pos hdot] at h
        obtain ⟨addr, -, rfl⟩ := Option.map_eq_some_iff.mp h
        rfl
      · rw [if_neg hdot] at h
        cases h

theorem Netmask.width_nonneg : 0 ≤ mask.width := by
  unfold Netmask.width
  split <;> decide

-- ============================================================================
-- Lengths in range
-- ============================================================================

/-- Whole bytes need no shift. -/
theorem hashIpv6Shifts_bytes {bits : Int} (hbits : 0 ≤ bits) (hdvd : bits % 8 = 0) (n : Nat) :
    hashIpv6Shifts n bits = [] := by
  induction n generalizing bits with
  | zero => rfl
  | succ n ih =>
    unfold hashIpv6Shifts
    by_cases hlong : bits ≥ 8
    · rw [if_pos hlong]
      exact ih (by omega) (by omega)
    · rw [if_neg hlong, if_neg (by omega)]

theorem hashIpv4Shifts_isShift {bits : Int} (hbits : 0 ≤ bits) (hle : bits ≤ 32) (hdvd : bits % 8 = 0) :
    ∀ n ∈ hashIpv4Shifts bits, IsShift n := by
  unfold hashIpv4Shifts IsShift
  intro n hn
  split at hn
  · rw [List.mem_singleton] at hn
    omega
  · cases hn

/-- With a length in range all is within the operands. -/
theorem Netmask.inWidth (hbits : 0 ≤ mask.bits) (hle : mask.bits ≤ mask.width) : mask.InWidth := by
  have hunsigned : mask.unsignedBits = mask.bits := by
    have hmost := mask.bits_le
    unfold Netmask.unsignedBits
    omega
  have hcomp : IsShift mask.compShift := by
    unfold IsShift Netmask.compShift
    omega
  unfold Netmask.width at hle
  cases hfamily : mask.v6 with
  | true =>
    rw [hfamily, if_pos rfl] at hle
    refine ⟨?_, ?_, hcomp, ?_⟩
    · unfold Netmask.addShifts
      rw [hfamily, if_pos rfl, Int.tmod_eq_emod_of_nonneg hbits, hashIpv6Shifts_bytes (by omega) (by omega)]
      exact fun n hn => by cases hn
    · unfold Netmask.findShifts
      rw [hfamily, if_pos rfl]
      exact fun n hn => by cases hn
    · unfold Netmask.compBytes Netmask.width
      rw [hunsigned, hfamily, if_pos rfl]
      omega
  | false =>
    rw [hfamily, if_neg Bool.false_ne_true] at hle
    refine ⟨?_, ?_, hcomp, ?_⟩
    · unfold Netmask.addShifts
      rw [hfamily, if_neg Bool.false_ne_true, Int.tmod_eq_emod_of_nonneg hbits]
      exact hashIpv4Shifts_isShift (by omega) (by omega) (by omega)
    · unfold Netmask.findShifts IsShift
      rw [hfamily, if_neg Bool.false_ne_true]
      decide
    · unfold Netmask.compBytes Netmask.width
      rw [hunsigned, hfamily, if_neg Bool.false_ne_true]
      omega

/-- The lengths of masks are in range exactly for the texts that do not make them negative. -/
theorem prefixOk_iff (text : Bytes) (h : (parseNetmask rbInetPtonSock text).isSome = true) :
    PrefixOk text ↔ PrefixText text := by
  obtain ⟨mask, hmask⟩ := Option.isSome_iff_exists.mp h
  have hbits := parseNetmask_bits hmask
  rw [prefixText_iff mask.width Netmask.width_nonneg, ← hbits]
  constructor
  · exact fun hok => (hok mask hmask).1.1
  · intro hnonneg mask' hmask'
    obtain rfl := Option.some.inj (hmask.symm.trans hmask')
    have hle : mask.bits ≤ mask.width := by
      rw [hbits]
      exact splitBits_le mask.width text
    exact ⟨⟨hnonneg, hle⟩, fun _ _ => Netmask.inWidth hnonneg hle⟩

/-- `10.0.0.0/8`. -/
theorem prefixOk_iff_eight :
    (parseNetmask rbInetPtonSock [49, 48, 46, 48, 46, 48, 46, 48, 47, 56]).isSome = true ∧
      (PrefixOk [49, 48, 46, 48, 46, 48, 46, 48, 47, 56] ↔ PrefixText [49, 48, 46, 48, 46, 48, 46, 48, 47, 56]) :=
  ⟨by rfl, prefixOk_iff _ (by rfl)⟩

/-- A length of -9. -/
theorem not_prefixOk : ¬ ∀ text : Bytes, (parseNetmask rbInetPtonSock text).isSome = true → PrefixOk text := by
  intro h
  have hbits : (parseNetmask rbInetPtonSock [49, 46, 50, 46, 51, 46, 52, 47, 45, 57]).map Netmask.bits = some (-9) := by
    rfl
  obtain ⟨mask, hmask, hnine⟩ := Option.map_eq_some_iff.mp hbits
  have hnonneg := (h [49, 46, 50, 46, 51, 46, 52, 47, 45, 57] (by rfl) mask hmask).1.1
  rw [hnine] at hnonneg
  exact absurd hnonneg (by decide)

end Bluebox
