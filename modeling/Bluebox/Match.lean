/-
  Bluebox.Match

  Comparing and matching strings (`libratboxcore/match.c`): `irccmp` folds
  case, `match` compares a name with a mask that has wildcards.

  The case tables of the source are those of ASCII.  `match` walks mask and
  name with one backtracking point and gives up after 512 rounds; its model
  keeps both.
-/
import Mathlib.Data.List.DropRight
import Bluebox.Lib.CString

namespace Bluebox

open Bluebox.Lib

-- ============================================================================
-- Characters
-- ============================================================================

/-- `IsNickChar`. -/
def isNickChar (b : UInt8) : Bool := b == 45 || (48 ≤ b && b ≤ 57) || (65 ≤ b && b ≤ 125)

/-- `IsIdChar`: digits and letters. -/
def isIdChar (b : UInt8) : Bool :=
  (48 ≤ b && b ≤ 57) || (65 ≤ b && b ≤ 90) || (97 ≤ b && b ≤ 122)

/-- `IsUserChar`. -/
def isUserChar (b : UInt8) : Bool :=
  b == 36 || b == 45 || b == 46 || (48 ≤ b && b ≤ 57) || (65 ≤ b && b ≤ 126)

/-- `IsHostChar`. -/
def isHostChar (b : UInt8) : Bool := b == 45 || b == 46 || b == 58 || isIdChar b

-- ============================================================================
-- Case
-- ============================================================================

/-- `ToUpper`. -/
def toUpper (b : UInt8) : UInt8 := if 97 ≤ b ∧ b ≤ 122 then b - 32 else b

/-- `ToLower`. -/
def toLower (b : UInt8) : UInt8 := if 65 ≤ b ∧ b ≤ 90 then b + 32 else b

theorem toLower_toUpper (b : UInt8) : toLower (toUpper b) = toLower b := by
  have hall : ∀ x : Fin 256, toLower (toUpper (UInt8.ofFin x)) = toLower (UInt8.ofFin x) := by
    decide +kernel
  exact hall b.toFin

theorem toUpper_eq_zero_iff (b : UInt8) : toUpper b = 0 ↔ b = 0 := by
  have hall : ∀ x : Fin 256, toUpper (UInt8.ofFin x) = 0 ↔ UInt8.ofFin x = 0 := by decide +kernel
  exact hall b.toFin

/-- `irccmp`: the difference of the first bytes that differ in more than case,
    where a string that ends has a NUL. -/
def irccmp : Bytes → Bytes → Int
  | [], [] => 0
  | [], b :: _ => -(toUpper b).toNat
  | a :: _, [] => (toUpper a).toNat
  | a :: s, b :: t =>
    if toUpper a = toUpper b then irccmp s t else (toUpper a).toNat - (toUpper b).toNat

theorem irccmp_self (s : Bytes) : irccmp s s = 0 := by
  induction s with
  | nil => rfl
  | cons a s ih => rw [irccmp, if_pos rfl, ih]

theorem irccmp_neg (s : Bytes) : ∀ t, irccmp t s = -irccmp s t := by
  induction s with
  | nil =>
    intro t
    cases t with
    | nil => rfl
    | cons b t => simp [irccmp]
  | cons a s ih =>
    intro t
    cases t with
    | nil => rfl
    | cons b t =>
      rw [irccmp, irccmp]
      by_cases h : toUpper a = toUpper b
      · rw [if_pos h, if_pos h.symm, ih t]
      · rw [if_neg h, if_neg (Ne.symm h)]
        omega

/-- `irccmp` treats its arguments alike. -/
theorem irccmp_eq_zero_comm (s t : Bytes) : irccmp s t = 0 ↔ irccmp t s = 0 := by
  rw [irccmp_neg s t]
  omega

/-- Strings compare equal when they differ in case only. -/
theorem irccmp_eq_zero_iff {s : Bytes} : ∀ {t : Bytes}, NoNul s → NoNul t →
    (irccmp s t = 0 ↔ s.map toUpper = t.map toUpper) := by
  induction s with
  | nil =>
    intro t _ ht
    cases t with
    | nil => simp [irccmp]
    | cons b t =>
      have hb : toUpper b ≠ 0 := fun h =>
        ht (by rw [(toUpper_eq_zero_iff b).mp h]; exact List.mem_cons_self)
      have hpos : (toUpper b).toNat ≠ 0 := fun h => hb (UInt8.toNat_inj.mp h)
      simp only [irccmp, List.map_nil, List.map_cons]
      constructor
      · intro h; omega
      · intro h; cases h
  | cons a s ih =>
    intro t hs ht
    cases t with
    | nil =>
      have ha : toUpper a ≠ 0 := fun h =>
        hs (by rw [(toUpper_eq_zero_iff a).mp h]; exact List.mem_cons_self)
      have hpos : (toUpper a).toNat ≠ 0 := fun h => ha (UInt8.toNat_inj.mp h)
      simp only [irccmp, List.map_nil, List.map_cons]
      constructor
      · intro h; omega
      · intro h; cases h
    | cons b t =>
      have hs' : NoNul s := fun h => hs (List.mem_cons_of_mem _ h)
      have ht' : NoNul t := fun h => ht (List.mem_cons_of_mem _ h)
      rw [irccmp, List.map_cons, List.map_cons, List.cons.injEq]
      by_cases h : toUpper a = toUpper b
      · rw [if_pos h, ih hs' ht']
        exact ⟨fun he => ⟨h, he⟩, fun he => he.2⟩
      · rw [if_neg h]
        have hne : (toUpper a).toNat ≠ (toUpper b).toNat := fun he => h (UInt8.toNat_inj.mp he)
        constructor
        · intro he; omega
        · intro he; exact absurd he.1 h

theorem irccmp_eq_zero_trans {s t u : Bytes} (hs : NoNul s) (ht : NoNul t) (hu : NoNul u)
    (hst : irccmp s t = 0) (htu : irccmp t u = 0) : irccmp s u = 0 := by
  rw [irccmp_eq_zero_iff hs ht] at hst
  rw [irccmp_eq_zero_iff ht hu] at htu
  rw [irccmp_eq_zero_iff hs hu, hst, htu]

-- ============================================================================
-- Masks
-- ============================================================================

/-- The wildcard for any string. -/
def star : UInt8 := 42

/-- The wildcard for any byte. -/
def quest : UInt8 := 63

/-- `collapse`: a run of stars becomes one. -/
def collapse : Bytes → Bytes
  | [] => []
  | [b] => [b]
  | b :: c :: s => if b = star ∧ c = star then collapse (c :: s) else b :: collapse (c :: s)

theorem collapse_sublist (s : Bytes) : (collapse s).Sublist s ∧ (collapse s).head? = s.head? := by
  induction s using collapse.induct with
  | case1 => exact ⟨List.Sublist.refl _, rfl⟩
  | case2 b => exact ⟨List.Sublist.refl _, rfl⟩
  | case3 b c s hstar ih =>
    rw [collapse, if_pos hstar]
    refine ⟨ih.1.cons b, ih.2.trans ?_⟩
    rw [hstar.1, hstar.2]
    rfl
  | case4 b c s hstar ih =>
    rw [collapse, if_neg hstar]
    exact ⟨ih.1.cons_cons b, rfl⟩

/-- The test at the end of the mask: after its trailing question marks it has a
    star that is not its first byte. -/
def endsInStar (mask : Bytes) : Bool :=
  let r := mask.rdropWhile (· == quest)
  r.getLast? == some star && r.length > 1

/-- The pointers of `match`: where mask and name are, and where both were after
    the last star. -/
structure Cursor where
  m : Bytes
  n : Bytes
  ma : Bytes
  na : Bytes
  wild : Bool

/-- The comparison at the end of a round: step on, or back to the star.  None
    stands for `return 0`. -/
def Cursor.advance (c : Cursor) : Option Cursor :=
  let a := c.m.headD 0
  let b := c.n.headD 0
  if toLower a ≠ toLower b ∧ a ≠ quest then
    if c.wild then some { c with m := c.ma, n := c.na.tail, na := c.na.tail } else none
  else some { c with m := c.m.tail, n := c.n.tail }

/-- Skip stars and remember the place behind them. -/
def Cursor.skipStars (c : Cursor) : Cursor :=
  if c.m.head? = some star then
    let m := c.m.dropWhile (· == star)
    { c with m := m, ma := m, na := c.n, wild := true }
  else c

/-- One round: a verdict, or the next cursor. -/
def Cursor.round (mask : Bytes) (c : Cursor) : Bool ⊕ Cursor :=
  let c := c.skipStars
  if c.m = [] then
    if c.n = [] then .inl true
    else if endsInStar mask then .inl true
    else if !c.wild then .inl false
    else
      match ({ c with m := c.ma, n := c.na.tail, na := c.na.tail } : Cursor).advance with
      | some c' => .inr c'
      | none => .inl false
  else if c.n = [] then .inl (c.m.dropWhile (· == star)).isEmpty
  else
    match c.advance with
    | some c' => .inr c'
    | none => .inl false

/-- The rounds that are left. -/
def matchLoop (mask : Bytes) : Nat → Cursor → Bool
  | 0, _ => false
  | calls + 1, c =>
    match c.round mask with
    | .inl verdict => verdict
    | .inr c' => matchLoop mask calls c'

/-- `MATCH_MAX_CALLS`. -/
def matchMaxCalls : Nat := 512

/-- `match`. -/
def matchMask (mask name : Bytes) : Bool :=
  if mask = [star] then true
  else matchLoop mask matchMaxCalls ⟨mask, name, mask, name, false⟩

-- ============================================================================
-- Masks and case
-- ============================================================================

/-- A string in lower case. -/
def lower (s : Bytes) : Bytes := s.map toLower

/-- Lower case keeps the wildcards and makes no new ones. -/
theorem toLower_facts (b : UInt8) : toLower (toLower b) = toLower b ∧
    (toLower b = star ↔ b = star) ∧ (toLower b = quest ↔ b = quest) := by
  have hall : ∀ x : Fin 256, toLower (toLower (UInt8.ofFin x)) = toLower (UInt8.ofFin x) ∧
      (toLower (UInt8.ofFin x) = star ↔ UInt8.ofFin x = star) ∧
      (toLower (UInt8.ofFin x) = quest ↔ UInt8.ofFin x = quest) := by
    decide +kernel
  exact hall b.toFin

theorem lower_dropWhile_star (s : Bytes) :
    (lower s).dropWhile (· == star) = lower (s.dropWhile (· == star)) := by
  unfold lower
  rw [List.dropWhile_map]
  congr 2
  funext b
  simp [(toLower_facts b).2.1]

theorem lower_rdropWhile_quest (s : Bytes) :
    (lower s).rdropWhile (· == quest) = lower (s.rdropWhile (· == quest)) := by
  unfold lower List.rdropWhile
  rw [← List.map_reverse, List.dropWhile_map, List.map_reverse]
  congr 3
  funext b
  simp [(toLower_facts b).2.2]

theorem lower_tail (s : Bytes) : (lower s).tail = lower s.tail := by
  cases s <;> rfl

theorem lower_eq_nil_iff (s : Bytes) : lower s = [] ↔ s = [] := List.map_eq_nil_iff

theorem lower_headD (s : Bytes) : (lower s).headD 0 = toLower (s.headD 0) := by
  cases s <;> rfl

theorem lower_head_star (s : Bytes) : (lower s).head? = some star ↔ s.head? = some star := by
  cases s with
  | nil => rfl
  | cons b s => simp [lower, (toLower_facts b).2.1]

theorem endsInStar_lower (mask : Bytes) : endsInStar (lower mask) = endsInStar mask := by
  unfold endsInStar
  rw [lower_rdropWhile_quest]
  generalize mask.rdropWhile (· == quest) = r
  have hlast : ((lower r).getLast? == some star) = (r.getLast? == some star) := by
    unfold lower
    rw [List.getLast?_map]
    cases r.getLast? with
    | none => rfl
    | some b => simp [(toLower_facts b).2.1]
  dsimp only
  rw [hlast, lower, List.length_map]

/-- The cursor over strings in lower case. -/
def Cursor.lower (c : Cursor) : Cursor :=
  ⟨Bluebox.lower c.m, Bluebox.lower c.n, Bluebox.lower c.ma, Bluebox.lower c.na, c.wild⟩

theorem Cursor.advance_lower (c : Cursor) : c.lower.advance = c.advance.map Cursor.lower := by
  have hquest : toLower (c.m.headD 0) = quest ↔ c.m.headD 0 = quest := (toLower_facts _).2.2
  unfold Cursor.advance Cursor.lower
  simp only [lower_headD, (toLower_facts _).1, ne_eq, hquest, lower_tail]
  split
  · split <;> rfl
  · rfl

theorem Cursor.skipStars_lower (c : Cursor) : c.lower.skipStars = c.skipStars.lower := by
  unfold Cursor.skipStars Cursor.lower
  simp only [lower_head_star, lower_dropWhile_star]
  split <;> rfl

theorem Cursor.round_lower (mask : Bytes) (c : Cursor) :
    c.lower.round (Bluebox.lower mask) = (c.round mask).map id Cursor.lower := by
  unfold Cursor.round
  rw [Cursor.skipStars_lower, endsInStar_lower]
  generalize c.skipStars = d
  have hback : ({ d.lower with m := d.lower.ma, n := d.lower.na.tail, na := d.lower.na.tail } : Cursor)
      = ({ d with m := d.ma, n := d.na.tail, na := d.na.tail } : Cursor).lower := by
    simp only [Cursor.lower, lower_tail]
  have hm : d.lower.m = [] ↔ d.m = [] := lower_eq_nil_iff d.m
  have hn : d.lower.n = [] ↔ d.n = [] := lower_eq_nil_iff d.n
  have hwild : d.lower.wild = d.wild := rfl
  have hrest : (d.lower.m.dropWhile (· == star)).isEmpty = (d.m.dropWhile (· == star)).isEmpty := by
    show ((Bluebox.lower d.m).dropWhile (· == star)).isEmpty = _
    rw [lower_dropWhile_star, Bluebox.lower, List.isEmpty_map]
  dsimp only
  rw [hback, Cursor.advance_lower, Cursor.advance_lower, hrest, hwild]
  simp only [hm, hn]
  split
  · split
    · rfl
    · split
      · rfl
      · split
        · rfl
        · cases ({ d with m := d.ma, n := d.na.tail, na := d.na.tail } : Cursor).advance <;> rfl
  · split
    · rfl
    · cases d.advance <;> rfl

theorem matchLoop_lower (mask : Bytes) (calls : Nat) : ∀ c : Cursor,
    matchLoop (lower mask) calls c.lower = matchLoop mask calls c := by
  induction calls with
  | zero => exact fun _ => rfl
  | succ calls ih =>
    intro c
    rw [matchLoop, matchLoop, Cursor.round_lower]
    cases c.round mask with
    | inl verdict => rfl
    | inr c' => exact ih c'

/-- `match` does not see case. -/
theorem matchMask_lower (mask name : Bytes) :
    matchMask (lower mask) (lower name) = matchMask mask name := by
  have hstar : lower mask = [star] ↔ mask = [star] := by
    cases mask with
    | nil => rfl
    | cons b s => simp [lower, (toLower_facts b).2.1]
  unfold matchMask
  simp only [hstar]
  split
  · rfl
  · exact matchLoop_lower mask matchMaxCalls ⟨mask, name, mask, name, false⟩

theorem lower_eq_of_irccmp {s t : Bytes} (hs : NoNul s) (ht : NoNul t) (h : irccmp s t = 0) :
    lower s = lower t := by
  have hmap := congrArg (List.map toLower) ((irccmp_eq_zero_iff hs ht).mp h)
  rw [List.map_map, List.map_map] at hmap
  have hfold : toLower ∘ toUpper = toLower := funext toLower_toUpper
  rwa [hfold] at hmap

/-- `match` treats names and masks that compare equal alike. -/
theorem matchMask_congr {mask mask' name name' : Bytes} (hm : lower mask = lower mask')
    (hn : lower name = lower name') : matchMask mask name = matchMask mask' name' := by
  rw [← matchMask_lower mask, ← matchMask_lower mask', hm, hn]

end Bluebox
