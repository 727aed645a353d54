/-
  Bluebox.Parse

  The parameters of a message (`string_to_array` in `libratboxcore/parse.c`).

  A parameter ends at a space, further spaces are skipped, and a colon begins the last
  parameter, which may have spaces.  After fourteen parameters the rest of the string is
  the last one, with a colon or without; it is taken from right behind the space that
  ends the fourteenth.
-/
import Bluebox.Lib.CString
import Bluebox.Sizes

namespace Bluebox.Parse

open Bluebox.Lib

-- ============================================================================
-- string_to_array
-- ============================================================================

/-- `while (*buf == ' ') buf++`. -/
def skipSpaces (s : Bytes) : Bytes := s.dropWhile (· == 32)

/-- `if (*p == ':') p++`. -/
def skipColon : Bytes → Bytes
  | 58 :: s => s
  | s => s

/-- The loop with `x = MAXPARA - n`, and what follows it: the parameters from `p` on, where
    `p` stands right behind the space that ended the one before. -/
def paramsFrom : Nat → Bytes → List Bytes
  | 0, p => if skipSpaces p = [] then [] else [skipColon p]
  | n + 1, p =>
    match skipSpaces p with
    | [] => []
    | b :: s =>
      if b = 58 then [s]
      else (b :: s).takeWhile (· != 32) ::
        match (b :: s).dropWhile (· != 32) with
        | [] => []
        | _ :: p => paramsFrom n p

/-- `string_to_array`: `parv[1]` and what follows it. -/
def stringToArray (string : Bytes) : List Bytes := paramsFrom (maxPara - 1) string

-- ============================================================================
-- Words and spaces
-- ============================================================================

/-- A run of spaces. -/
def spaces (n : Nat) : Bytes := List.replicate n 32

/-- A parameter that is not the trailing one. -/
structure IsWord (w : Bytes) : Prop where
  ne_nil : w ≠ []
  noSpace : (32 : UInt8) ∉ w
  noColon : w.head? ≠ some 58

/-- A text of so many such parameters, with spaces before and between them. -/
inductive Words : Nat → Bytes → Prop
  | one {w : Bytes} (lead : Nat) : IsWord w → Words 1 (spaces lead ++ w)
  | more {k : Nat} {u w : Bytes} (n : Nat) : Words k u → IsWord w →
      Words (k + 1) (u ++ spaces (n + 1) ++ w)

/-- A text that begins a parameter. -/
def Begins (v : Bytes) : Prop := v ≠ [] ∧ v.head? ≠ some 32

theorem begins_colon (t : Bytes) : Begins (58 :: t) :=
  ⟨List.cons_ne_nil _ _, fun h => absurd (Option.some.inj h) (by decide)⟩

theorem skipSpaces_spaces (n : Nat) {v : Bytes} (h : v.head? ≠ some 32) :
    skipSpaces (spaces n ++ v) = v := by
  induction n with
  | zero =>
    cases v with
    | nil => rfl
    | cons b v =>
      have hb : ¬ (b == 32) = true := fun heq => h (by rw [beq_iff_eq.mp heq]; rfl)
      exact List.dropWhile_cons_of_neg hb
  | succ n ih => exact ih

theorem IsWord.begins {w : Bytes} (h : IsWord w) (r : Bytes) : Begins (w ++ r) := by
  cases w with
  | nil => exact absurd rfl h.ne_nil
  | cons b w =>
    refine ⟨List.cons_ne_nil _ _, fun hb => h.noSpace ?_⟩
    rw [← Option.some.inj hb]
    exact List.mem_cons_self

/-- A word up to the space behind it. -/
theorem IsWord.split {w : Bytes} (h : IsWord w) (p : Bytes) :
    (w ++ 32 :: p).takeWhile (· != 32) = w ∧ (w ++ 32 :: p).dropWhile (· != 32) = 32 :: p := by
  have hall : ∀ b ∈ w, (b != 32) = true := fun b hb => bne_iff_ne.mpr fun heq => h.noSpace (heq ▸ hb)
  rw [List.takeWhile_append_of_pos hall, List.dropWhile_append_of_pos hall]
  exact ⟨List.append_nil w, rfl⟩

/-- The loop reads a word, however many spaces are before it. -/
theorem paramsFrom_word (n lead : Nat) {w : Bytes} (h : IsWord w) (p : Bytes) :
    paramsFrom (n + 1) (spaces lead ++ (w ++ 32 :: p)) = w :: paramsFrom n p := by
  obtain ⟨htake, hdrop⟩ := h.split p
  obtain ⟨b, s, hw⟩ := List.exists_cons_of_ne_nil h.ne_nil
  have hb : b ≠ 58 := fun heq => h.noColon (by rw [hw, heq]; rfl)
  rw [paramsFrom, skipSpaces_spaces lead (h.begins _).2]
  rw [hw, List.cons_append] at htake hdrop ⊢
  dsimp only
  rw [if_neg hb, htake, hdrop]

/-- The loop reads words. -/
theorem paramsFrom_words {k : Nat} {u : Bytes} (h : Words k u) : ∃ ws : List Bytes, ws.length = k ∧
    (∀ w ∈ ws, (32 : UInt8) ∉ w) ∧
    ∀ n p, paramsFrom (k + n) (u ++ 32 :: p) = ws ++ paramsFrom n p := by
  induction h with
  | @one w lead hw =>
    refine ⟨[w], rfl, fun x hx => List.mem_singleton.mp hx ▸ hw.noSpace, fun n p => ?_⟩
    rw [Nat.add_comm 1 n, List.append_assoc, paramsFrom_word n lead hw]
    rfl
  | @more k u w j _ hw ih =>
    obtain ⟨ws, hlen, hspace, hws⟩ := ih
    refine ⟨ws ++ [w], by rw [List.length_append, hlen, List.length_singleton], fun x hx => ?_,
      fun n p => ?_⟩
    · rcases List.mem_append.mp hx with hx | hx
      · exact hspace x hx
      · exact List.mem_singleton.mp hx ▸ hw.noSpace
    · have hmove : u ++ spaces (j + 1) ++ w ++ 32 :: p = u ++ 32 :: (spaces j ++ (w ++ 32 :: p)) := by
        simp [spaces, List.replicate_succ]
      rw [hmove, Nat.add_assoc, Nat.add_comm 1 n, hws, paramsFrom_word n j hw, List.append_assoc]
      rfl

-- ============================================================================
-- Any string
-- ============================================================================

/-- The parameters are at most fifteen, and only the last of them can have a space. -/
theorem paramsFrom_bounds (n : Nat) : ∀ p : Bytes, (paramsFrom n p).length ≤ n + 1 ∧
    ∀ w ∈ (paramsFrom n p).dropLast, (32 : UInt8) ∉ w := by
  induction n with
  | zero =>
    intro p
    rw [paramsFrom]
    split
    · exact ⟨Nat.zero_le 1, fun w hw => absurd hw List.not_mem_nil⟩
    · exact ⟨Nat.le_refl 1, fun w hw => absurd hw List.not_mem_nil⟩
  | succ n ih =>
    intro p
    rw [paramsFrom]
    split
    · exact ⟨Nat.zero_le _, fun w hw => absurd hw List.not_mem_nil⟩
    · next b s _ =>
      split
      · exact ⟨by rw [List.length_singleton]; omega, fun w hw => absurd hw List.not_mem_nil⟩
      · have hword : (32 : UInt8) ∉ (b :: s).takeWhile (· != 32) := fun hmem =>
          absurd rfl (bne_iff_ne.mp (List.mem_takeWhile_imp (p := (· != 32)) hmem))
        split
        · exact ⟨by rw [List.length_singleton]; omega, fun w hw => absurd hw List.not_mem_nil⟩
        · next p' _ =>
          obtain ⟨hlen, hspace⟩ := ih p'
          refine ⟨by rw [List.length_cons]; omega, fun w hw => ?_⟩
          by_cases hnil : paramsFrom n p' = []
          · rw [hnil] at hw
            exact absurd hw List.not_mem_nil
          · rw [List.dropLast_cons_of_ne_nil hnil] at hw
            rcases List.mem_cons.mp hw with rfl | hw
            · exact hword
            · exact hspace w hw

-- ============================================================================
-- Runs of spaces
-- ============================================================================

/-- The string reads the same with one space in place of the run behind each of its
    parameters before the trailing one. -/
def SpacesIgnored (s : Bytes) : Prop :=
  ∀ k u n v, Words k u → k < maxPara → Begins v → s = u ++ spaces (n + 1) ++ v →
    stringToArray (u ++ 32 :: v) = stringToArray s

/-- A colon before the trailing parameter does not become part of it. -/
def ColonRemoved (s : Bytes) : Prop :=
  (∀ lead t, s = spaces lead ++ 58 :: t → stringToArray s = [t]) ∧
  ∀ k u n t, Words k u → k < maxPara → s = u ++ spaces (n + 1) ++ 58 :: t →
    (stringToArray s).getLast? = some t

/-- What is promised of a string. -/
structure Splits (s : Bytes) : Prop where
  spacesIgnored : SpacesIgnored s
  atMost : (stringToArray s).length ≤ maxPara
  noSpace : ∀ w ∈ (stringToArray s).dropLast, (32 : UInt8) ∉ w
  colonRemoved : ColonRemoved s

/-- The fourteenth parameter is followed by two or more spaces and then by something. -/
def WideAtLimit (s : Bytes) : Prop :=
  ∃ u n v, Words (maxPara - 1) u ∧ Begins v ∧ s = u ++ spaces (n + 2) ++ v

/-- What is read behind words, from the next parameter on. -/
theorem stringToArray_words {k : Nat} {u : Bytes} (h : Words k u) (hk : k < maxPara) :
    ∃ ws : List Bytes, ∀ n v, Begins v → stringToArray (u ++ spaces (n + 1) ++ v) =
      ws ++ if k = maxPara - 1 then [skipColon (spaces n ++ v)] else paramsFrom (maxPara - 1 - k) v := by
  obtain ⟨ws, -, -, hws⟩ := paramsFrom_words h
  refine ⟨ws, fun n v hv => ?_⟩
  have hmove : u ++ spaces (n + 1) ++ v = u ++ 32 :: (spaces n ++ v) := by
    simp [spaces, List.replicate_succ]
  have hsplit : maxPara - 1 = k + (maxPara - 1 - k) := by
    unfold maxPara at hk ⊢
    omega
  unfold stringToArray
  rw [hmove, hsplit, hws, ← hsplit]
  congr 1
  by_cases hlast : k = maxPara - 1
  · rw [if_pos hlast, hlast, Nat.sub_self, paramsFrom, skipSpaces_spaces n hv.2, if_neg hv.1]
  · rw [if_neg hlast]
    obtain ⟨m, hm⟩ : ∃ m, maxPara - 1 - k = m + 1 := ⟨maxPara - 1 - k - 1, by
      unfold maxPara at hk hlast ⊢
      omega⟩
    have hskip : skipSpaces (spaces n ++ v) = skipSpaces v :=
      (skipSpaces_spaces n hv.2).trans (skipSpaces_spaces 0 hv.2).symm
    rw [hm, paramsFrom, paramsFrom, hskip]

theorem length_skipColon_le (s : Bytes) : (skipColon s).length ≤ s.length := by
  unfold skipColon
  split
  · exact Nat.le_succ _
  · exact Nat.le_refl _

/-- `string_to_array` splits a string as promised exactly if the fourteenth parameter is not
    followed by more than one space and something else. -/
theorem stringToArray_splits_iff (s : Bytes) : Splits s ↔ ¬ WideAtLimit s := by
  constructor
  · rintro h ⟨u, n, v, hu, hv, rfl⟩
    -- the second space stays in front of the fifteenth parameter
    obtain ⟨ws, hws⟩ := stringToArray_words hu (by decide)
    have hsame := h.spacesIgnored _ u (n + 1) v hu (by decide) hv rfl
    have hone : u ++ 32 :: v = u ++ spaces (0 + 1) ++ v := by simp [spaces]
    rw [hone, hws 0 v hv, hws (n + 1) v hv, if_pos rfl, if_pos rfl] at hsame
    have hlast := (List.cons.inj (List.append_cancel_left hsame)).1
    have hlen := congrArg List.length hlast
    have hstay : skipColon (spaces (n + 1) ++ v) = spaces (n + 1) ++ v := rfl
    have hle := length_skipColon_le (spaces 0 ++ v)
    rw [hstay] at hlen
    simp only [spaces, List.length_append, List.length_replicate] at hlen hle
    omega
  · intro hnarrow
    have hbounds := paramsFrom_bounds (maxPara - 1) s
    refine ⟨fun k u n v hu hk hv hs => ?_, hbounds.1, hbounds.2, fun lead t hs => ?_,
      fun k u n t hu hk hs => ?_⟩
    · obtain ⟨ws, hws⟩ := stringToArray_words hu hk
      have hone : u ++ 32 :: v = u ++ spaces (0 + 1) ++ v := by simp [spaces]
      rw [hs, hone, hws 0 v hv, hws n v hv]
      by_cases hlast : k = maxPara - 1
      · cases n with
        | zero => rfl
        | succ n => exact absurd ⟨u, n, v, hlast ▸ hu, hv, hs⟩ hnarrow
      · rw [if_neg hlast, if_neg hlast]
    · rw [hs]
      unfold stringToArray maxPara
      rw [paramsFrom, skipSpaces_spaces lead (begins_colon t).2]
      rfl
    · have hv : Begins (58 :: t) := begins_colon t
      obtain ⟨ws, hws⟩ := stringToArray_words hu hk
      rw [hs, hws n _ hv]
      by_cases hlast : k = maxPara - 1
      · cases n with
        | zero =>
          rw [if_pos hlast]
          exact List.getLast?_concat
        | succ n => exact absurd ⟨u, n, _, hlast ▸ hu, hv, hs⟩ hnarrow
      · rw [if_neg hlast]
        obtain ⟨m, hm⟩ : ∃ m, maxPara - 1 - k = m + 1 := ⟨maxPara - 1 - k - 1, by
          unfold maxPara at hk hlast ⊢
          omega⟩
        have hread : paramsFrom (m + 1) (58 :: t) = [t] := rfl
        rw [hm, hread]
        exact List.getLast?_concat

/-- Words of one letter, `a`, with one space between them. -/
def letters : Nat → Bytes
  | 0 => [97]
  | n + 1 => letters n ++ [32, 97]

theorem isWord_letter : IsWord [97] := ⟨by decide, by decide, by decide⟩

theorem words_letters (n : Nat) : Words (n + 1) (letters n) := by
  induction n with
  | zero => exact Words.one 0 isWord_letter
  | succ n ih =>
    have h := Words.more 0 ih isWord_letter
    rwa [List.append_assoc] at h

/-- `a b`: one parameter is followed by one space. -/
theorem stringToArray_splits_short : Splits [97, 32, 98] := by
  refine (stringToArray_splits_iff [97, 32, 98]).mpr ?_
  rintro ⟨u, n, v, hu, hv, hs⟩
  have hlong : ∀ {k : Nat} {u : Bytes}, Words k u → k ≤ u.length := fun h => by
    induction h with
    | one lead hw =>
      have hpos := List.length_pos_of_ne_nil hw.ne_nil
      rw [List.length_append]
      omega
    | more n _ hw ih =>
      have hpos := List.length_pos_of_ne_nil hw.ne_nil
      rw [List.length_append, List.length_append]
      omega
  have hlen := congrArg List.length hs
  have hu' := hlong hu
  rw [List.length_append, List.length_append] at hlen
  have hthree : ([97, 32, 98] : Bytes).length = 3 := rfl
  unfold maxPara at hu'
  omega

/-- Fourteen parameters, two spaces and `:b`: the last one is ` :b`. -/
def wide : Bytes := letters 13 ++ [32, 32, 58, 98]

/-- It reads otherwise with one space, and the colon stays. -/
theorem not_stringToArray_splits :
    (stringToArray wide).getLast? = some [32, 58, 98] ∧ ¬ SpacesIgnored wide ∧
      ¬ ColonRemoved wide := by
  refine ⟨by decide, fun h => ?_, fun h => ?_⟩
  · have hone := h 14 (letters 13) 1 [58, 98] (words_letters 13) (by decide) (begins_colon [98]) rfl
    exact absurd hone (by decide)
  · have hlast := h.2 14 (letters 13) 1 [98] (words_letters 13) (by decide) rfl
    exact absurd hlast (by decide)

end Bluebox.Parse
