/-
  Bluebox.Lib.CString

  C strings as byte lists without their terminating NUL, with the functions of
  the C library that programs use on them: bounded copy, `strchr`, `strcmp`,
  decimal conversion both ways.

  A list with a NUL byte in it is no string; `NoNul` is stated where that
  matters.
-/
import Mathlib.Data.List.Basic
import Mathlib.Data.List.Lex
import Mathlib.Data.List.TakeWhile
import Mathlib.Order.Lattice
import Mathlib.Algebra.Order.Ring.Int

namespace Bluebox

/-- A byte string. -/
abbrev Bytes := List UInt8

namespace Lib

/-- The list is a C string. -/
def NoNul (s : Bytes) : Prop := (0 : UInt8) ∉ s

instance (s : Bytes) : Decidable (NoNul s) := inferInstanceAs (Decidable ((0 : UInt8) ∉ s))

/-- A C string with its proof. -/
structure CStr where
  bytes : Bytes
  noNul : NoNul bytes
deriving DecidableEq

theorem NoNul.take {s : Bytes} (h : NoNul s) (n : Nat) : NoNul (s.take n) :=
  fun hmem => h (List.mem_of_mem_take hmem)

/-- `strlcpy` into a buffer of `size` bytes. -/
def strlcpy (s : Bytes) (size : Nat) : Bytes := s.take (size - 1)

theorem strlcpy_of_lt {s : Bytes} {size : Nat} (h : s.length < size) : strlcpy s size = s :=
  List.take_of_length_le (by omega)

theorem strlcpy_length_lt (s : Bytes) {size : Nat} (h : 0 < size) :
    (strlcpy s size).length < size := by
  rw [strlcpy, List.length_take]
  omega

-- ============================================================================
-- strchr
-- ============================================================================

/-- `strchr`: the text before and after the first `c`. -/
def strchr (c : UInt8) (s : Bytes) : Option (Bytes × Bytes) :=
  match s.dropWhile (· != c) with
  | [] => none
  | _ :: l => some (s.takeWhile (· != c), l)

theorem strchr_eq_none_iff {c : UInt8} {s : Bytes} : strchr c s = none ↔ c ∉ s := by
  unfold strchr
  constructor
  · intro h hmem
    split at h
    · rename_i hdrop
      have := List.dropWhile_eq_nil_iff.mp hdrop c hmem
      simp at this
    · cases h
  · intro h
    have hdrop : s.dropWhile (· != c) = [] :=
      List.dropWhile_eq_nil_iff.mpr fun b hb => bne_iff_ne.mpr fun hbc => h (hbc ▸ hb)
    rw [hdrop]

theorem strchr_append {c : UInt8} {w : Bytes} (h : c ∉ w) (s : Bytes) :
    strchr c (w ++ c :: s) = some (w, s) := by
  have hw : ∀ b ∈ w, (b != c) = true := fun b hb => bne_iff_ne.mpr fun hbc => h (hbc ▸ hb)
  unfold strchr
  rw [List.dropWhile_append_of_pos hw, List.takeWhile_append_of_pos hw,
    List.dropWhile_cons_of_neg (by simp), List.takeWhile_cons_of_neg (by simp), List.append_nil]

theorem strchr_eq_some {c : UInt8} {s w p : Bytes} (h : strchr c s = some (w, p)) :
    s = w ++ c :: p ∧ c ∉ w := by
  unfold strchr at h
  split at h
  · cases h
  · rename_i b l hdrop
    obtain ⟨rfl, rfl⟩ := Prod.mk.inj (Option.some.inj h)
    have hb : b = c := by
      have hhead := List.head_dropWhile_not (· != c) (l := s) (by rw [hdrop]; exact List.cons_ne_nil _ _)
      simpa only [hdrop, List.head_cons, bne_eq_false_iff_eq] using hhead
    refine ⟨?_, fun hmem => ?_⟩
    · subst hb
      rw [← hdrop, List.takeWhile_append_dropWhile]
    · have := List.mem_takeWhile_imp hmem
      simp at this

theorem strchr_subset {c : UInt8} {s w p : Bytes} (h : strchr c s = some (w, p)) : w ⊆ s ∧ p ⊆ s := by
  obtain ⟨rfl, -⟩ := strchr_eq_some h
  exact ⟨List.subset_append_left _ _, List.subset_append_of_subset_right _ (List.subset_cons_self _ _)⟩

theorem length_of_strchr {c : UInt8} {s w p : Bytes} (h : strchr c s = some (w, p)) :
    s.length = w.length + 1 + p.length := by
  rw [(strchr_eq_some h).1, List.length_append, List.length_cons]
  omega

-- ============================================================================
-- strcmp
-- ============================================================================

/-- `strcmp(a, b) < 0`: the order of the unsigned bytes. -/
def strLt (a b : Bytes) : Prop := a.map UInt8.toNat < b.map UInt8.toNat

instance (a b : Bytes) : Decidable (strLt a b) :=
  inferInstanceAs (Decidable (a.map UInt8.toNat < b.map UInt8.toNat))

/-- The greater of two strings. -/
def strMax (a b : Bytes) : Bytes := if strLt a b then b else a

theorem map_toNat_injective : Function.Injective (List.map UInt8.toNat) :=
  List.map_injective_iff.mpr fun _ _ h => UInt8.toNat_inj.mp h

theorem map_strMax (a b : Bytes) :
    (strMax a b).map UInt8.toNat = max (a.map UInt8.toNat) (b.map UInt8.toNat) := by
  by_cases h : strLt a b
  · rw [strMax, if_pos h]
    exact (max_eq_right (le_of_lt h)).symm
  · rw [strMax, if_neg h]
    exact (max_eq_left (not_lt.mp h)).symm

theorem strMax_comm (a b : Bytes) : strMax a b = strMax b a := by
  apply map_toNat_injective
  rw [map_strMax, map_strMax, max_comm]

theorem strMax_assoc (a b c : Bytes) : strMax (strMax a b) c = strMax a (strMax b c) := by
  apply map_toNat_injective
  simp only [map_strMax]
  rw [max_assoc]

theorem strMax_nil (a : Bytes) : strMax a [] = a := by
  have h : ¬ strLt a [] := by simp [strLt]
  rw [strMax, if_neg h]

-- ============================================================================
-- Numbers
-- ============================================================================

/-- `isspace` in the C locale. -/
def isSpace (b : UInt8) : Bool := b == 32 || (9 ≤ b && b ≤ 13)

/-- `isdigit`. -/
def isDigit (b : UInt8) : Bool := 48 ≤ b && b ≤ 57

/-- The value of the digits at the front. -/
def digitsVal (s : Bytes) : Nat := (s.takeWhile isDigit).foldl (fun n b => 10 * n + (b.toNat - 48)) 0

theorem digitsVal_of_digits {s : Bytes} (h : ∀ b ∈ s, isDigit b = true) :
    digitsVal s = s.foldl (fun n b => 10 * n + (b.toNat - 48)) 0 := by
  unfold digitsVal
  rw [List.takeWhile_eq_self_iff.mpr h]

/-- The largest value of a `long`. -/
def longMax : Int := 2 ^ 63 - 1

/-- `atol`: blanks, a sign and digits, with the clamping of `strtol`. -/
def atol (s : Bytes) : Int :=
  match s.dropWhile isSpace with
  | 45 :: r => max (-longMax - 1) (-(digitsVal r : Int))
  | 43 :: r => min longMax (digitsVal r)
  | r => min longMax (digitsVal r)

/-- The conversion of a `long` to an `int`. -/
def toInt32 (n : Int) : Int := Int.bmod n (2 ^ 32)

/-- `atoi`. -/
def atoi (s : Bytes) : Int := toInt32 (atol s)

/-- The values of an `int`. -/
def IsInt32 (n : Int) : Prop := -(2 ^ 31) ≤ n ∧ n < 2 ^ 31

instance (n : Int) : Decidable (IsInt32 n) :=
  inferInstanceAs (Decidable (-(2 ^ 31) ≤ n ∧ n < 2 ^ 31))

theorem toInt32_isInt32 (n : Int) : IsInt32 (toInt32 n) := by
  unfold toInt32 IsInt32
  have hlt := Int.bmod_lt (x := n) (m := 2 ^ 32) (by decide)
  have hle := Int.le_bmod (x := n) (m := 2 ^ 32) (by decide)
  constructor <;> omega

theorem toInt32_of_isInt32 {n : Int} (h : IsInt32 n) : toInt32 n = n := by
  unfold toInt32 IsInt32 at *
  rw [Int.bmod_def]
  split <;> omega

/-- The decimal digits of a number, most significant first; the number of
    digits is bounded by the fuel. -/
def decDigits : Nat → Nat → Bytes
  | 0, _ => []
  | fuel + 1, n =>
    if n < 10 then [UInt8.ofNat (48 + n)]
    else decDigits fuel (n / 10) ++ [UInt8.ofNat (48 + n % 10)]

/-- `%d`. -/
def fmtInt (n : Int) : Bytes :=
  if n < 0 then 45 :: decDigits (n.natAbs + 1) n.natAbs else decDigits (n.natAbs + 1) n.natAbs

theorem toNat_digit {d : Nat} (h : d < 10) : (UInt8.ofNat (48 + d)).toNat = 48 + d := by
  rw [UInt8.toNat_ofNat']
  omega

theorem isDigit_digit {d : Nat} (h : d < 10) : isDigit (UInt8.ofNat (48 + d)) = true := by
  unfold isDigit
  rw [Bool.and_eq_true, decide_eq_true_iff, decide_eq_true_iff, UInt8.le_iff_toNat_le,
    UInt8.le_iff_toNat_le, toNat_digit h]
  constructor
  · show 48 ≤ 48 + d
    omega
  · show 48 + d ≤ 57
    omega

theorem decDigits_isDigit (fuel : Nat) : ∀ n, ∀ b ∈ decDigits fuel n, isDigit b = true := by
  induction fuel with
  | zero => intro n b hb; exact absurd hb List.not_mem_nil
  | succ fuel ih =>
    intro n b hb
    rw [decDigits] at hb
    split at hb
    · rw [List.mem_singleton.mp hb]
      exact isDigit_digit (by omega)
    · rcases List.mem_append.mp hb with hb | hb
      · exact ih _ b hb
      · rw [List.mem_singleton.mp hb]
        exact isDigit_digit (Nat.mod_lt _ (by decide))

theorem decDigits_val (fuel : Nat) : ∀ n, n < fuel →
    (decDigits fuel n).foldl (fun n b => 10 * n + (b.toNat - 48)) 0 = n := by
  induction fuel with
  | zero => intro n h; exact absurd h (Nat.not_lt_zero _)
  | succ fuel ih =>
    intro n h
    rw [decDigits]
    split
    · rename_i hlt
      simp only [List.foldl_cons, List.foldl_nil, toNat_digit hlt]
      omega
    · rw [List.foldl_append, ih (n / 10) (by omega), List.foldl_cons, List.foldl_nil,
        toNat_digit (Nat.mod_lt _ (by decide))]
      omega

theorem decDigits_ne_nil (fuel n : Nat) : decDigits (fuel + 1) n ≠ [] := by
  rw [decDigits]
  split
  · exact List.cons_ne_nil _ _
  · exact List.append_ne_nil_of_right_ne_nil _ (List.cons_ne_nil _ _)

theorem digitsVal_decDigits (n : Nat) : digitsVal (decDigits (n + 1) n) = n := by
  rw [digitsVal_of_digits (decDigits_isDigit (n + 1) n), decDigits_val (n + 1) n (Nat.lt_succ_self n)]

theorem isSpace_of_isDigit {b : UInt8} (h : isDigit b = true) : isSpace b = false := by
  unfold isDigit at h
  unfold isSpace
  simp only [Bool.and_eq_true, decide_eq_true_iff, UInt8.le_iff_toNat_le] at h
  simp only [Bool.or_eq_false_iff, beq_eq_false_iff_ne, Bool.and_eq_false_iff,
    decide_eq_false_iff_not, UInt8.le_iff_toNat_le, ne_eq, ← UInt8.toNat_inj]
  have h32 : (32 : UInt8).toNat = 32 := rfl
  have h13 : (13 : UInt8).toNat = 13 := rfl
  have h48 : (48 : UInt8).toNat = 48 := rfl
  omega

/-- `atol` reads back what `%ld` wrote. -/
theorem atol_fmtInt {n : Int} (h : -(2 ^ 63) ≤ n ∧ n < 2 ^ 63) : atol (fmtInt n) = n := by
  have hval := digitsVal_decDigits n.natAbs
  unfold fmtInt
  by_cases hneg : n < 0
  · rw [if_pos hneg, atol, List.dropWhile_cons_of_neg (by decide)]
    simp only [hval, longMax]
    omega
  · rw [if_neg hneg]
    obtain ⟨b, rest, hcons⟩ := List.exists_cons_of_ne_nil (decDigits_ne_nil n.natAbs n.natAbs)
    have hb : isDigit b = true :=
      decDigits_isDigit (n.natAbs + 1) n.natAbs b (by rw [hcons]; exact List.mem_cons_self)
    have hdrop : (decDigits (n.natAbs + 1) n.natAbs).dropWhile isSpace
        = decDigits (n.natAbs + 1) n.natAbs := by
      rw [hcons, List.dropWhile_cons_of_neg (by rw [isSpace_of_isDigit hb]; exact Bool.false_ne_true)]
    unfold atol
    rw [hdrop]
    have h45 : b ≠ 45 := by rintro rfl; cases hb
    have h43 : b ≠ 43 := by rintro rfl; cases hb
    rw [hcons] at hval ⊢
    split
    · rename_i heq
      exact absurd (List.cons.inj heq).1 h45
    · rename_i heq
      exact absurd (List.cons.inj heq).1 h43
    · rw [hval, longMax]
      omega

/-- `atoi` reads back what `%d` wrote. -/
theorem atoi_fmtInt {n : Int} (h : IsInt32 n) : atoi (fmtInt n) = n := by
  have hlong : -(2 ^ 63) ≤ n ∧ n < 2 ^ 63 := by
    unfold IsInt32 at h
    omega
  rw [atoi, atol_fmtInt hlong]
  exact toInt32_of_isInt32 h

end Lib
end Bluebox
