/-
  Bluebox.Bandb.WildSimple

  The loop of `valid_wild_card_simple` (`libratboxcore/s_newconf.c`), which counts the
  characters of a gecos or of a reserved nick that are no wildcards.

  Behind a backslash the next byte is stepped over, whatever it is.  When it is the NUL at
  the end of the string, the loop goes on in what lies behind the string.
-/
import Bluebox.Bandb.Masks
import Bluebox.Glob.MatchEsc

namespace Bluebox.Bandb

open Bluebox.Lib
open Bluebox.Glob (openEnd)

/-- The loop of `valid_wild_card_simple`, over what is left of the string with its NUL;
    `skip` is the `p++` behind a backslash.  No result where it reads behind the NUL. -/
def wildLoop (minNonwildcardSimple : Int) : Bytes → Bool → Int → Option Bool
  | [], _, _ => none
  | _ :: p, true, nonwild => wildLoop minNonwildcardSimple p false nonwild
  | tmpch :: p, false, nonwild =>
    if tmpch = 0 then some false
    else if tmpch = 92 then
      if nonwild + 1 ≥ minNonwildcardSimple then some true
      else wildLoop minNonwildcardSimple p true (nonwild + 1)
    else if !isMWildChar tmpch then
      if nonwild + 1 ≥ minNonwildcardSimple then some true
      else wildLoop minNonwildcardSimple p false (nonwild + 1)
    else wildLoop minNonwildcardSimple p false nonwild

/-- `valid_wild_card_simple`, with its reads. -/
def validWildCardSimpleAt (minNonwildcardSimple : Int) (data : CStr) : Option Bool :=
  wildLoop minNonwildcardSimple (data.bytes ++ [0]) false 0

/-- The units of a string that are no wildcards; behind a backslash (`esc`) a byte belongs to
    the unit before it. -/
def units : Bool → Bytes → Nat
  | _, [] => 0
  | true, _ :: s => units false s
  | false, c :: s =>
    if c = 92 then units true s + 1
    else if isMWildChar c then units false s
    else units false s + 1

/-- The units are what the model of the checks counts. -/
theorem units_eq_simpleNonwild (s : Bytes) : units false s = simpleNonwild s := by
  induction s using simpleNonwild.induct with
  | case1 => rfl
  | case2 c hwild =>
    have hne : c ≠ 92 := by
      rintro rfl
      exact absurd hwild (by decide)
    rw [units, if_neg hne, if_pos hwild, simpleNonwild, if_pos hwild]
    rfl
  | case3 c hwild =>
    rw [simpleNonwild, if_neg hwild, units, if_neg hwild]
    split
    · rfl
    · rfl
  | case4 d data ih =>
    rw [simpleNonwild, if_pos rfl, units, if_pos rfl, units, ih]
  | case5 c d data hne hwild ih =>
    rw [simpleNonwild, if_neg hne, if_pos hwild, units, if_neg hne, if_pos hwild, ih]
  | case6 c d data hne hwild ih =>
    rw [simpleNonwild, if_neg hne, if_neg hwild, units, if_neg hne, if_neg hwild, ih]

-- ============================================================================
-- What the loop returns
-- ============================================================================

section Loop

variable {minNonwildcardSimple : Int}

/-- As long as there are not enough units, the loop stops at the end of the string, or steps
    over it when a backslash is open there. -/
theorem wildLoop_eq (s : Bytes) (hnul : NoNul s) : ∀ (skip : Bool) (nonwild : Int), nonwild < minNonwildcardSimple →
    wildLoop minNonwildcardSimple (s ++ [0]) skip nonwild =
      if minNonwildcardSimple ≤ nonwild + units skip s then some true
      else if openEnd skip s then none
      else some false := by
  induction s with
  | nil =>
    intro skip nonwild hlt
    have hfew : ¬ minNonwildcardSimple ≤ nonwild + units skip [] := by
      cases skip <;> simp only [units] <;> omega
    rw [if_neg hfew]
    cases skip with
    | true => rfl
    | false => rfl
  | cons c s ih =>
    have hc : c ≠ 0 := fun heq => hnul (heq ▸ List.mem_cons_self)
    have hs := ih fun h => hnul (List.mem_cons_of_mem c h)
    intro skip nonwild hlt
    cases skip with
    | true => exact hs false nonwild hlt
    | false =>
      rw [List.cons_append, wildLoop, if_neg hc]
      -- a unit is counted, and there are enough or not
      have hunit : ∀ {skip : Bool} {n : Nat}, n = units skip s + 1 → openEnd false (c :: s) = openEnd skip s →
          (if nonwild + 1 ≥ minNonwildcardSimple then some true
            else wildLoop minNonwildcardSimple (s ++ [0]) skip (nonwild + 1)) =
          if minNonwildcardSimple ≤ nonwild + n then some true
          else if openEnd false (c :: s) then none else some false := by
        intro skip n hn hopen
        by_cases henough : nonwild + 1 ≥ minNonwildcardSimple
        · rw [if_pos henough, if_pos (by omega)]
        · rw [if_neg henough, hs skip (nonwild + 1) (by omega), hopen, hn]
          have hsum : nonwild + 1 + (units skip s : Int) = nonwild + ((units skip s + 1 : Nat) : Int) := by omega
          rw [hsum]
      by_cases hback : c = 92
      · subst hback
        rw [if_pos rfl]
        refine hunit ?_ rfl
        rw [units, if_pos rfl]
      · have hopen : openEnd false (c :: s) = openEnd false s := by
          have hbeq : (c == Glob.backslash) = false := beq_eq_false_iff_ne.mpr hback
          rw [openEnd, Bool.not_false, Bool.true_and, hbeq]
        rw [if_neg hback]
        cases hwild : isMWildChar c with
        | true =>
          rw [if_neg (by decide), hs false nonwild hlt, hopen, units, if_neg hback, if_pos hwild]
        | false =>
          rw [if_pos (by decide)]
          refine hunit ?_ hopen
          rw [units, if_neg hback, if_neg (by rw [hwild]; exact Bool.false_ne_true)]

end Loop

/-- The result is there, without a read behind the NUL, and says whether there are enough
    units. -/
def WildExact (minNonwildcardSimple : Int) (data : CStr) : Prop :=
  validWildCardSimpleAt minNonwildcardSimple data =
    some (decide (minNonwildcardSimple ≤ units false data.bytes))

/-- The result is exact unless the string has too few units and a backslash is open at its
    end. -/
theorem wildExact_iff {minNonwildcardSimple : Int} (hmin : 1 ≤ minNonwildcardSimple) (data : CStr) :
    WildExact minNonwildcardSimple data ↔
      ¬ (openEnd false data.bytes = true ∧ units false data.bytes < minNonwildcardSimple) := by
  unfold WildExact validWildCardSimpleAt
  rw [wildLoop_eq data.bytes data.noNul false 0 (by omega), Int.zero_add]
  by_cases henough : minNonwildcardSimple ≤ units false data.bytes
  · rw [if_pos henough, decide_eq_true henough]
    exact ⟨fun _ h => absurd h.2 (by omega), fun _ => rfl⟩
  · rw [if_neg henough, decide_eq_false henough]
    by_cases hopen : openEnd false data.bytes = true
    · rw [if_pos hopen]
      exact ⟨fun h => (Option.some_ne_none _ h.symm).elim, fun h => absurd ⟨hopen, by omega⟩ h⟩
    · rw [if_neg hopen]
      exact ⟨fun _ h => hopen h.1, fun _ => rfl⟩

/-- Where it is exact, it is the check that the commands are modelled with. -/
theorem validWildCardSimple_of_exact {n : Nat} (hn : 1 ≤ n) {data : CStr} (h : WildExact n data) :
    validWildCardSimpleAt n data = some (validWildCardSimple n data.bytes) := by
  rw [h, validWildCardSimple, units_eq_simpleNonwild, Nat.max_eq_right hn]
  simp only [Nat.cast_le]

/-- Three units, one of them an escaped star: `a\*b?`. -/
theorem wildExact_escaped : WildExact 3 ⟨[97, 92, 42, 98, 63], by decide⟩ :=
  (wildExact_iff (by decide) ⟨[97, 92, 42, 98, 63], by decide⟩).mpr (by decide)

/-- The backslash at the end of `a\` takes the NUL with it. -/
theorem not_wildExact :
    ¬ ∀ (minNonwildcardSimple : Int) (data : CStr), 1 ≤ minNonwildcardSimple →
      WildExact minNonwildcardSimple data := by
  intro h
  have hread := h 3 ⟨[97, 92], by decide⟩ (by decide)
  exact absurd hread (by unfold WildExact; decide)

end Bluebox.Bandb
