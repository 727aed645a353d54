/-
  Bluebox.Kline.TempTime

  The times of temporary bans (`valid_temp_time` in `libratboxcore/s_newconf.c`), which
  `KLINE`, `DLINE`, `XLINE` and `RESV` read in front of a mask.

  The digits are added up in a `time_t`, and the result is compared with the maximum only
  when all of them are read.  So the value counts modulo `2 ^ 64` up to there.
-/
import Bluebox.Lib.CString

namespace Bluebox.Kline

open Bluebox.Lib

-- ============================================================================
-- valid_temp_time
-- ============================================================================

/-- The loop of `valid_temp_time`: nothing where it returns -1. -/
def validTempTimeLoop : Int64 → Bytes → Option Int64
  | result, [] => some result
  | result, c :: p =>
    if isDigit c then validTempTimeLoop (result * 10 + Int64.ofNat (c &&& 0xF).toNat) p else none

/-- The longest time, in minutes: `60 * 24 * 7 * 52`. -/
def maxTempTime : Nat := 60 * 24 * 7 * 52

/-- `valid_temp_time`. -/
def validTempTime (p : Bytes) : Int64 :=
  match validTempTimeLoop 0 p with
  | none => -1
  | some result => (if result > Int64.ofNat maxTempTime then Int64.ofNat maxTempTime else result) * 60

-- ============================================================================
-- The loop
-- ============================================================================

theorem and_of_isDigit {c : UInt8} (h : isDigit c = true) : (c &&& 0xF).toNat = c.toNat - 48 := by
  have hall : ∀ x : Fin 256, isDigit (UInt8.ofFin x) = true →
      (UInt8.ofFin x &&& 0xF).toNat = (UInt8.ofFin x).toNat - 48 := by decide +kernel
  exact hall c.toFin h

/-- The loop adds up the decimal value, as far as a `time_t` holds it. -/
theorem validTempTimeLoop_digits {p : Bytes} (h : p.all isDigit = true) (n : Nat) :
    validTempTimeLoop (Int64.ofNat n) p =
      some (Int64.ofNat (p.foldl (fun n b => 10 * n + (b.toNat - 48)) n)) := by
  induction p generalizing n with
  | nil => rfl
  | cons c p ih =>
    rw [List.all_cons, Bool.and_eq_true] at h
    unfold validTempTimeLoop
    rw [if_pos h.1, and_of_isDigit h.1, List.foldl_cons, ← ih h.2, Int64.ofNat_add, Int64.ofNat_mul,
      Int64.mul_comm]
    rfl

theorem validTempTimeLoop_none {p : Bytes} (h : ¬ p.all isDigit = true) (result : Int64) :
    validTempTimeLoop result p = none := by
  induction p generalizing result with
  | nil => exact absurd rfl h
  | cons c p ih =>
    unfold validTempTimeLoop
    by_cases hc : isDigit c = true
    · rw [if_pos hc]
      refine ih (fun hp => h ?_) _
      rw [List.all_cons, hc, hp]
      rfl
    · rw [if_neg hc]

-- ============================================================================
-- The result
-- ============================================================================

/-- What a caller relies on: -1 says that it is no number, and any number is the time in
    seconds, cut to the longest one. -/
def TempTimeExact (p : Bytes) : Prop :=
  (validTempTime p = -1 ↔ ¬ p.all isDigit = true) ∧
    (p.all isDigit = true → (validTempTime p).toInt = 60 * min (digitsVal p) maxTempTime)

/-- The remainder of a value by `2 ^ 64` does not make it look too small, or comes to the
    same time: `60` is a multiple of `4`, so `2 ^ 62` minutes are no time. -/
def Fits (v : Nat) : Prop :=
  v ≤ maxTempTime ∨ (maxTempTime ≤ v % 2 ^ 64 ∧ v % 2 ^ 64 < 2 ^ 63) ∨ v % 2 ^ 62 = maxTempTime

instance (v : Nat) : Decidable (Fits v) := by
  unfold Fits
  infer_instance

theorem validTempTime_digits {p : Bytes} (h : p.all isDigit = true) :
    (validTempTime p).toInt =
      if (maxTempTime : Int) < (digitsVal p : Int).bmod (2 ^ 64) then 60 * (maxTempTime : Int)
      else (60 * (digitsVal p : Int)).bmod (2 ^ 64) := by
  have hloop : validTempTimeLoop 0 p = some (Int64.ofNat (digitsVal p)) := by
    rw [digitsVal_of_digits (List.all_eq_true.mp h)]
    exact validTempTimeLoop_digits h 0
  have hval : (Int64.ofNat (digitsVal p)).toInt = (digitsVal p : Int).bmod (2 ^ 64) := Int64.toInt_ofNat'
  have hmax : (Int64.ofNat maxTempTime).toInt = maxTempTime := Int64.toInt_ofNat_of_lt (by decide)
  have hgt : Int64.ofNat (digitsVal p) > Int64.ofNat maxTempTime ↔
      (maxTempTime : Int) < (digitsVal p : Int).bmod (2 ^ 64) := by
    rw [gt_iff_lt, Int64.lt_iff_toInt_lt, hval, hmax]
  unfold validTempTime
  rw [hloop]
  dsimp only
  by_cases hcut : (maxTempTime : Int) < (digitsVal p : Int).bmod (2 ^ 64)
  · rw [if_pos (hgt.mpr hcut), if_pos hcut]
    decide
  · rw [if_neg (mt hgt.mp hcut), if_neg hcut, Int64.toInt_mul, hval, Int.mul_comm 60]
    exact Int.bmod_mul_bmod

theorem validTempTime_ne {p : Bytes} (h : p.all isDigit = true) : validTempTime p ≠ -1 := by
  intro heq
  have hval := congrArg Int64.toInt heq
  have hneg : (-1 : Int64).toInt = -1 := by decide
  rw [validTempTime_digits h, hneg] at hval
  split at hval
  · omega
  · -- a multiple of 60 stays even modulo `2 ^ 64`
    rw [Int.bmod_def] at hval
    split at hval <;> omega

theorem validTempTime_none {p : Bytes} (h : ¬ p.all isDigit = true) : validTempTime p = -1 := by
  unfold validTempTime
  rw [validTempTimeLoop_none h]

/-- Times 60, a value comes out as the longest time modulo `2 ^ 64` only if it is that many
    minutes modulo `2 ^ 62`. -/
theorem bmod_mul_eq_iff (v : Nat) :
    (60 * (v : Int)).bmod (2 ^ 64) = 60 * (maxTempTime : Int) ↔ v % 2 ^ 62 = maxTempTime := by
  have hfactor : (60 * (maxTempTime : Int) - 60 * (v : Int)) = 4 * (15 * ((maxTempTime : Int) - v)) := by omega
  have hsplit : ((2 ^ 64 : Nat) : Int) = 4 * 2 ^ 62 := rfl
  have hgcd : Int.gcd (2 ^ 62) 15 = 1 := by decide
  rw [Int.bmod_eq_iff (by decide), and_iff_right (by decide), and_iff_right (by decide), hfactor, hsplit,
    Int.mul_dvd_mul_iff_left (by decide)]
  have hdvd : (2 ^ 62 : Int) ∣ 15 * ((maxTempTime : Int) - v) ↔ (2 ^ 62 : Int) ∣ (maxTempTime : Int) - v :=
    ⟨fun h => Int.dvd_of_dvd_mul_right_of_gcd_one h hgcd, fun h => Int.dvd_mul_of_dvd_right h⟩
  have hmax : maxTempTime = 524160 := rfl
  rw [hdvd, hmax]
  omega

/-- The cut value, in seconds, is the time exactly if the value fits. -/
theorem fits_iff (v : Nat) :
    (if (maxTempTime : Int) < (v : Int).bmod (2 ^ 64) then 60 * (maxTempTime : Int)
      else (60 * (v : Int)).bmod (2 ^ 64)) = 60 * (min v maxTempTime : Nat) ↔ Fits v := by
  have hmax : maxTempTime = 524160 := rfl
  unfold Fits
  by_cases hneg : 2 ^ 63 ≤ v % 2 ^ 64
  · -- it counts as negative
    have hcut : ¬ (maxTempTime : Int) < (v : Int).bmod (2 ^ 64) := by
      rw [hmax, Int.bmod_def]
      split <;> omega
    rw [if_neg hcut, Nat.min_eq_right (by omega), bmod_mul_eq_iff]
    omega
  · have hbmod : (v : Int).bmod (2 ^ 64) = (v % 2 ^ 64 : Nat) := by
      rw [Int.bmod_def]
      split <;> omega
    rw [hbmod]
    by_cases hcut : maxTempTime < v % 2 ^ 64
    · rw [if_pos (by omega), Nat.min_eq_right (by omega)]
      exact iff_of_true rfl (by omega)
    · have hsmall : (60 * (v : Int)).bmod (2 ^ 64) = 60 * (v % 2 ^ 64 : Nat) := by
        rw [Int.bmod_def]
        split <;> omega
      rw [if_neg (by omega), hsmall]
      by_cases hv : v ≤ maxTempTime
      · rw [Nat.min_eq_left hv]
        omega
      · rw [Nat.min_eq_right (by omega)]
        omega

/-- The time is exact for everything that is no number, and for the numbers that fit. -/
theorem tempTimeExact_iff (p : Bytes) : TempTimeExact p ↔ (p.all isDigit = true → Fits (digitsVal p)) := by
  unfold TempTimeExact
  by_cases h : p.all isDigit = true
  · have hone : validTempTime p = -1 ↔ ¬ p.all isDigit = true :=
      ⟨fun heq => absurd heq (validTempTime_ne h), fun hnot => absurd h hnot⟩
    rw [and_iff_right hone, validTempTime_digits h, imp_iff_right h, imp_iff_right h]
    exact fits_iff (digitsVal p)
  · exact ⟨fun _ hall => absurd hall h, fun _ => ⟨⟨fun _ => h, fun _ => validTempTime_none h⟩,
      fun hall => absurd hall h⟩⟩

/-- `2 ^ 64` minutes are none. -/
theorem not_tempTimeExact : ¬ ∀ p : Bytes, TempTimeExact p := by
  intro h
  have hlong := (h [49, 56, 52, 52, 54, 55, 52, 52, 48, 55, 51, 55, 48, 57, 53, 53, 49, 54, 49, 54]).2 (by decide)
  exact absurd hlong (by decide)

end Bluebox.Kline
