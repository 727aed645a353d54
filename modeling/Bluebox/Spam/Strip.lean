/-
  Bluebox.Spam.Strip

  The text that the spam filter looks at: the loop of `check_for_spam` that strips control
  codes.  After a colour code the loop goes on to the copy of the next byte without another
  look at it, so that a code at the end of the text takes it past the end, and of two codes
  side by side the second one is copied.
-/
import Bluebox.Spam.Basic

namespace Bluebox.Spam

open Bluebox.Lib

-- ============================================================================
-- Texts without codes
-- ============================================================================

/-- Up to two digits. -/
def IsDigits (a : Bytes) : Prop := a.length ≤ 2 ∧ ∀ b ∈ a, isDigit b = true

/-- A colour code: byte 3, up to two digits, and maybe a comma and up to two digits. -/
def IsColour (code : Bytes) : Prop :=
  ∃ a b, code = 3 :: (a ++ b) ∧ IsDigits a ∧ (b = [] ∨ ∃ d, b = 44 :: d ∧ IsDigits d)

/-- The longest colour code at the front. -/
def IsLongest (code text : Bytes) : Prop :=
  IsColour code ∧ code <+: text ∧ ∀ code', IsColour code' → code' <+: text → code'.length ≤ code.length

/-- Bold, beep, reset, reverse and underline. -/
def isControl (b : UInt8) : Bool := b = 2 ∨ b = 7 ∨ b = 15 ∨ b = 22 ∨ b = 31

/-- The text with every code removed. -/
inductive Stripped : Bytes → Bytes → Prop
  | nil : Stripped [] []
  | colour {code rest line : Bytes} : IsLongest code (code ++ rest) → Stripped rest line → Stripped (code ++ rest) line
  | control {b : UInt8} {s line : Bytes} : isControl b = true → Stripped s line → Stripped (b :: s) line
  | text {b : UInt8} {s line : Bytes} : b ≠ 3 → isControl b = false → Stripped s line → Stripped (b :: s) (b :: line)

/-- The loop reads no byte after the NUL, fits the line with its NUL into the buffer and
    into what the text itself takes, and leaves exactly the stripped text. -/
def StripExact (text : Bytes) : Prop :=
  ∃ line, stripCodes (text.length + 1) text = some line ∧ line.length ≤ text.length ∧ line.length + 1 ≤ 512 ∧
    Stripped text line

/-- No colour code is followed by the end of the text or by another one. -/
def Apart (text : Bytes) : Prop :=
  ∀ code rest, (code ++ rest) <:+ text → IsLongest code (code ++ rest) → ∃ d t, rest = d :: t ∧ d ≠ 3

-- ============================================================================
-- The scanner of a colour code
-- ============================================================================

variable {s a code rest text line : Bytes} {b d : UInt8}

theorem IsDigits.nil : IsDigits [] := ⟨Nat.zero_le _, fun _ h => by cases h⟩

theorem IsDigits.cons_digit (h : IsDigits (b :: a)) : isDigit b = true := h.2 b List.mem_cons_self

/-- Digits in front of something that is no digit are none. -/
theorem IsDigits.eq_nil (h : IsDigits a) (hb : isDigit b = false) (hpre : a <+: b :: s) : a = [] := by
  cases a with
  | nil => rfl
  | cons b' a =>
    obtain ⟨rfl, -⟩ := List.cons_prefix_cons.mp hpre
    rw [h.cons_digit] at hb
    cases hb

theorem skipDigits_of_not (h : isDigit b = false) : skipDigits (b :: s) = b :: s := by
  cases s with
  | nil => exact if_neg (by rw [h]; exact Bool.false_ne_true)
  | cons c s => exact if_neg (by rw [h]; exact Bool.false_ne_true)

theorem skipDigits_single (h : isDigit b = true) : skipDigits [b] = [] := if_pos h

theorem skipDigits_pair {c : UInt8} (h : isDigit b = true) :
    skipDigits (b :: c :: s) = if isDigit c then s else c :: s := if_pos h

/-- The digits that are skipped are the most there are. -/
theorem skipDigits_spec (s : Bytes) :
    ∃ a, s = a ++ skipDigits s ∧ IsDigits a ∧ ∀ a', IsDigits a' → a' <+: s → a'.length ≤ a.length := by
  cases s with
  | nil => exact ⟨[], rfl, IsDigits.nil, fun a' _ hpre => by rw [List.prefix_nil.mp hpre]⟩
  | cons b s =>
    cases hb : isDigit b with
    | false =>
      rw [skipDigits_of_not hb]
      exact ⟨[], rfl, IsDigits.nil, fun a' ha' hpre => by rw [ha'.eq_nil hb hpre]⟩
    | true =>
      have hsingle : IsDigits [b] :=
        ⟨Nat.le_succ 1, fun x hx => by rw [List.mem_singleton.mp hx, hb]⟩
      cases s with
      | nil =>
        rw [skipDigits_single hb]
        exact ⟨[b], rfl, hsingle, fun a' _ hpre => hpre.length_le⟩
      | cons c s =>
        rw [skipDigits_pair hb]
        cases hc : isDigit c with
        | false =>
          refine ⟨[b], rfl, hsingle, fun a' ha' hpre => ?_⟩
          cases a' with
          | nil => exact Nat.zero_le _
          | cons x a' =>
            obtain ⟨-, hpre'⟩ := List.cons_prefix_cons.mp hpre
            have hrest : IsDigits a' :=
              ⟨(Nat.le_succ _).trans ha'.1, fun y hy => ha'.2 y (List.mem_cons_of_mem x hy)⟩
            rw [hrest.eq_nil hc hpre']
            exact le_refl _
        | true =>
          refine ⟨[b, c], rfl, ⟨le_refl 2, fun x hx => ?_⟩, fun a' ha' _ => ha'.1⟩
          obtain rfl | hx := List.mem_cons.mp hx
          · exact hb
          · rw [List.mem_singleton.mp hx, hc]

theorem isDigit_comma : isDigit 44 = false := by decide

/-- What is skipped is the longest colour code. -/
theorem skipColour_spec (s : Bytes) : ∃ code, 3 :: s = code ++ skipColour s ∧ IsLongest code (3 :: s) := by
  obtain ⟨a, hs, ha, hmost⟩ := skipDigits_spec s
  -- in front of a comma there are exactly these digits
  have hcomma : ∀ a' t, IsDigits a' → s = a' ++ 44 :: t → a' = a ∧ skipDigits s = 44 :: t := by
    intro a' t ha' hs'
    have hpre : a' <+: a := List.prefix_of_prefix_length_le ⟨_, hs'.symm⟩ ⟨_, hs.symm⟩ (hmost a' ha' ⟨_, hs'.symm⟩)
    obtain ⟨e, rfl⟩ := hpre
    have hrest : e ++ skipDigits s = 44 :: t := by
      have hboth := hs.symm.trans hs'
      rwa [List.append_assoc, List.append_cancel_left_eq] at hboth
    cases e with
    | nil => exact ⟨(List.append_nil _).symm, hrest⟩
    | cons x e =>
      obtain ⟨rfl, -⟩ := List.cons.inj hrest
      have hdigit := ha.2 44 (List.mem_append_right _ List.mem_cons_self)
      rw [isDigit_comma] at hdigit
      cases hdigit
  by_cases hnext : ∃ t, skipDigits s = 44 :: t
  · obtain ⟨t, ht⟩ := hnext
    obtain ⟨d, ht', hd, hmost'⟩ := skipDigits_spec t
    have hskip : skipColour s = skipDigits t := by
      unfold skipColour
      rw [ht]
      rfl
    have hcode : 3 :: s = (3 :: (a ++ 44 :: d)) ++ skipColour s := by
      rw [hskip, List.cons_append, List.append_assoc, List.cons_append, ← ht', ← ht, ← hs]
    refine ⟨_, hcode, ⟨a, 44 :: d, rfl, ha, Or.inr ⟨d, rfl, hd⟩⟩, ⟨_, hcode.symm⟩, ?_⟩
    rintro _ ⟨a', b', rfl, ha', hb'⟩ ⟨u, hu⟩
    rw [List.cons_append, List.append_assoc] at hu
    have hs' := (List.cons.inj hu).2.symm
    rw [List.length_cons, List.length_append, List.length_cons, List.length_append, List.length_cons]
    obtain rfl | ⟨d', rfl, hd'⟩ := hb'
    · have hle := hmost a' ha' ⟨_, hs'.symm⟩
      rw [List.length_nil]
      omega
    · obtain ⟨rfl, hnext⟩ := hcomma a' _ ha' hs'
      have ht'' : t = d' ++ u := (List.cons.inj (ht.symm.trans hnext)).2
      have hle := hmost' d' hd' ⟨u, ht''.symm⟩
      rw [List.length_cons]
      omega
  · have hskip : skipColour s = skipDigits s := by
      unfold skipColour
      split
      · rename_i t ht
        exact absurd ⟨t, ht⟩ hnext
      · rfl
    have hcode : 3 :: s = (3 :: (a ++ [])) ++ skipColour s := by
      rw [hskip, List.append_nil, List.cons_append, ← hs]
    refine ⟨_, hcode, ⟨a, [], rfl, ha, Or.inl rfl⟩, ⟨_, hcode.symm⟩, ?_⟩
    rintro _ ⟨a', b', rfl, ha', hb'⟩ ⟨u, hu⟩
    rw [List.cons_append, List.append_assoc] at hu
    have hs' := (List.cons.inj hu).2.symm
    obtain rfl | ⟨d', rfl, -⟩ := hb'
    · have hle := hmost a' ha' ⟨_, hs'.symm⟩
      rw [List.append_nil, List.append_nil, List.length_cons, List.length_cons]
      omega
    · exact absurd ⟨_, (hcomma a' _ ha' hs').2⟩ hnext

/-- The longest code is the one that is skipped. -/
theorem eq_skipColour (h : IsLongest code (code ++ rest)) (hs : code ++ rest = 3 :: s) : rest = skipColour s := by
  obtain ⟨code', hcode', hlongest⟩ := skipColour_spec s
  rw [hs] at h
  have hlen : code.length = code'.length :=
    le_antisymm (hlongest.2.2 code h.1 h.2.1) (h.2.2 code' hlongest.1 hlongest.2.1)
  exact (List.append_inj (hs.trans hcode') hlen).2

/-- A colour code has only one byte 3. -/
theorem IsColour.eq_cons (h : IsColour code) : ∃ c, code = 3 :: c ∧ (3 : UInt8) ∉ c := by
  obtain ⟨a, b, rfl, ha, hb⟩ := h
  have hdigits : ∀ {a : Bytes}, IsDigits a → (3 : UInt8) ∉ a := fun ha hmem => by
    have hdigit := ha.2 3 hmem
    cases hdigit
  refine ⟨a ++ b, rfl, fun hmem => ?_⟩
  obtain hmem | hmem := List.mem_append.mp hmem
  · exact hdigits ha hmem
  · obtain rfl | ⟨d, rfl, hd⟩ := hb
    · cases hmem
    · obtain hmem | hmem := List.mem_cons.mp hmem
      · cases hmem
      · exact hdigits hd hmem

-- ============================================================================
-- The loop
-- ============================================================================

/-- What the loop does with the byte it copies or drops. -/
def emit (d : UInt8) (line : Bytes) : Bytes := if isControl d = true then line else d :: line

theorem stripCodes_emit {fuel : Nat} {c : UInt8} (h : (if c = 3 then skipColour s else c :: s) = d :: rest) :
    stripCodes (fuel + 1) (c :: s) = (stripCodes fuel rest).map (emit d) := by
  unfold emit
  rw [stripCodes, h]
  by_cases hcontrol : d = 2 ∨ d = 7 ∨ d = 15 ∨ d = 22 ∨ d = 31
  · have hd : isControl d = true := decide_eq_true hcontrol
    rw [hd]
    exact (if_pos hcontrol).trans Option.map_id_apply.symm
  · have hd : isControl d = false := decide_eq_false hcontrol
    rw [hd]
    exact if_neg hcontrol

theorem stripCodes_end {fuel : Nat} (h : skipColour s = []) : stripCodes (fuel + 1) (3 :: s) = none := by
  rw [stripCodes, if_pos rfl, h]

theorem three_notMem (h : Stripped text line) : (3 : UInt8) ∉ line := by
  induction h with
  | nil => exact List.not_mem_nil
  | colour _ _ ih => exact ih
  | control _ _ ih => exact ih
  | text hne _ _ ih => exact fun hmem => (List.mem_cons.mp hmem).elim (fun h => hne h.symm) ih

theorem isLongest_three (h : IsLongest code text) : ∃ c, code = 3 :: c ∧ (3 : UInt8) ∉ c := h.1.eq_cons

theorem stripped_emit (hd : d ≠ 3) : Stripped (d :: s) text ↔ ∃ line, Stripped s line ∧ text = emit d line := by
  unfold emit
  constructor
  · intro h
    generalize hs : d :: s = whole at h
    cases h with
    | nil => cases hs
    | @colour code rest line hlongest _ =>
      obtain ⟨c, rfl, -⟩ := isLongest_three hlongest
      exact absurd (List.cons.inj hs).1 hd
    | @control b s' line hcontrol hrest =>
      obtain ⟨rfl, rfl⟩ := List.cons.inj hs
      exact ⟨_, hrest, (if_pos hcontrol).symm⟩
    | @text b s' line hne hcontrol hrest =>
      obtain ⟨rfl, rfl⟩ := List.cons.inj hs
      exact ⟨_, hrest, (if_neg (by rw [hcontrol]; exact Bool.false_ne_true)).symm⟩
  · rintro ⟨line, hline, rfl⟩
    cases hcontrol : isControl d with
    | true => exact Stripped.control hcontrol hline
    | false => exact Stripped.text hd hcontrol hline

theorem stripped_three : Stripped (3 :: s) line ↔ Stripped (skipColour s) line := by
  constructor
  · intro h
    generalize hs : 3 :: s = whole at h
    cases h with
    | nil => cases hs
    | colour hlongest hrest => exact eq_skipColour hlongest hs.symm ▸ hrest
    | control hcontrol _ =>
      obtain ⟨rfl, -⟩ := List.cons.inj hs
      cases hcontrol
    | text hne _ _ => exact absurd (List.cons.inj hs).1.symm hne
  · intro h
    obtain ⟨code, hcode, hlongest⟩ := skipColour_spec s
    rw [hcode] at hlongest ⊢
    exact Stripped.colour hlongest h

theorem Apart.of_suffix (h : Apart text) (hs : s <:+ text) : Apart s :=
  fun code rest hsuffix => h code rest (hsuffix.trans hs)

theorem apart_nil : Apart [] := by
  intro code rest hsuffix hlongest
  obtain ⟨c, rfl, -⟩ := isLongest_three hlongest
  cases List.suffix_nil.mp hsuffix

/-- Bytes other than 3 in front do not matter. -/
theorem apart_append (ha : (3 : UInt8) ∉ a) (h : Apart s) : Apart (a ++ s) := by
  induction a with
  | nil => exact h
  | cons b a ih =>
    rw [List.mem_cons, not_or] at ha
    intro code rest hsuffix hlongest
    obtain heq | hsuffix := List.suffix_cons_iff.mp hsuffix
    · obtain ⟨c, rfl, -⟩ := isLongest_three hlongest
      exact absurd (List.cons.inj heq).1 ha.1
    · exact ih ha.2 code rest hsuffix hlongest

theorem apart_cons (hd : d ≠ 3) : Apart (d :: s) ↔ Apart s := by
  refine ⟨fun h => h.of_suffix (List.suffix_cons d s), fun h => apart_append (a := [d]) ?_ h⟩
  rw [List.mem_singleton]
  exact hd.symm

theorem apart_three : Apart (3 :: s) ↔ ∃ d t, skipColour s = d :: t ∧ d ≠ 3 ∧ Apart t := by
  obtain ⟨code, hcode, hlongest⟩ := skipColour_spec s
  rw [hcode] at hlongest ⊢
  constructor
  · intro h
    obtain ⟨d, t, hnext, hd⟩ := h code _ List.suffix_rfl hlongest
    rw [hnext] at h
    exact ⟨d, t, hnext, hd, h.of_suffix ((List.suffix_cons d t).trans (List.suffix_append code (d :: t)))⟩
  · rintro ⟨d, t, hnext, hd, ht⟩ code' rest hsuffix hlongest'
    obtain ⟨c, rfl, hc⟩ := isLongest_three hlongest
    obtain heq | hsuffix := List.suffix_cons_iff.mp hsuffix
    · rw [eq_skipColour hlongest' (heq.trans hcode.symm), hnext]
      exact ⟨d, t, rfl, hd⟩
    · rw [hnext] at hsuffix
      exact apart_append hc ((apart_cons hd).mpr ht) code' rest hsuffix hlongest'

theorem skipColour_length_le (s : Bytes) : (skipColour s).length ≤ s.length := by
  obtain ⟨code, hcode, hlongest⟩ := skipColour_spec s
  obtain ⟨c, rfl, -⟩ := isLongest_three hlongest
  have hs := congrArg List.length (List.cons.inj hcode).2
  rw [List.append_eq, List.length_append] at hs
  omega

theorem emit_length_le : (emit d line).length ≤ line.length + 1 := by
  unfold emit
  split
  · exact Nat.le_succ _
  · exact le_refl _

theorem emit_injective {line' : Bytes} (h : emit d line = emit d line') : line = line' := by
  unfold emit at h
  split at h
  · exact h
  · exact (List.cons.inj h).2

/-- The byte that the loop copies or drops next, if the text has one. -/
theorem next_cases (c : UInt8) (s : Bytes) : (c = 3 ∧ skipColour s = []) ∨
    ∃ d rest, (if c = 3 then skipColour s else c :: s) = d :: rest ∧ rest.length ≤ s.length := by
  by_cases hc : c = 3
  · cases hskip : skipColour s with
    | nil => exact Or.inl ⟨hc, rfl⟩
    | cons d rest =>
      have hlen := skipColour_length_le s
      rw [hskip, List.length_cons] at hlen
      exact Or.inr ⟨d, rest, if_pos hc, by omega⟩
  · exact Or.inr ⟨c, s, if_neg hc, le_refl _⟩

theorem stripCodes_length {fuel : Nat} (h : stripCodes fuel text = some line) : line.length ≤ text.length := by
  induction fuel generalizing text line with
  | zero => cases h
  | succ fuel ih =>
    cases text with
    | nil =>
      obtain rfl := Option.some.inj h
      exact le_refl _
    | cons c s =>
      obtain ⟨rfl, hend⟩ | ⟨d, rest, hnext, hlen⟩ := next_cases c s
      · rw [stripCodes_end hend] at h
        cases h
      · rw [stripCodes_emit hnext] at h
        obtain ⟨line', hrun, rfl⟩ := Option.map_eq_some_iff.mp h
        have hrest := ih hrun
        have hemit : (emit d line').length ≤ line'.length + 1 := emit_length_le
        rw [List.length_cons]
        omega

/-- The loop comes to the stripped text exactly where every colour code is followed by
    something else; by induction on the text, with the byte that it copies or drops next. -/
theorem stripCodes_iff {fuel : Nat} (h : text.length < fuel) :
    (∃ line, stripCodes fuel text = some line ∧ Stripped text line) ↔ Apart text := by
  induction fuel generalizing text with
  | zero => exact absurd h (Nat.not_lt_zero _)
  | succ fuel ih =>
    cases text with
    | nil => exact iff_of_true ⟨[], rfl, Stripped.nil⟩ apart_nil
    | cons c s =>
      rw [List.length_cons] at h
      have hstep : ∀ d rest, (if c = 3 then skipColour s else c :: s) = d :: rest → d ≠ 3 → rest.length ≤ s.length →
          ((∃ line, stripCodes (fuel + 1) (c :: s) = some line ∧ Stripped (d :: rest) line) ↔ Apart rest) := by
        intro d rest hnext hd hlen
        rw [← ih (show rest.length < fuel by omega), stripCodes_emit hnext]
        constructor
        · rintro ⟨_, hrun, hline⟩
          obtain ⟨line, hline', rfl⟩ := (stripped_emit hd).mp hline
          obtain ⟨line', hrun', heq⟩ := Option.map_eq_some_iff.mp hrun
          obtain rfl := emit_injective heq
          exact ⟨line', hrun', hline'⟩
        · rintro ⟨line, hrun, hline⟩
          exact ⟨emit d line, by rw [hrun]; rfl, (stripped_emit hd).mpr ⟨line, hline, rfl⟩⟩
      by_cases hc : c = 3
      · subst hc
        rw [apart_three]
        constructor
        · rintro ⟨line, hrun, hline⟩
          rw [stripped_three] at hline
          obtain ⟨-, hend⟩ | ⟨d, rest, hnext, hlen⟩ := next_cases 3 s
          · rw [stripCodes_end hend] at hrun
            cases hrun
          · have hskip : skipColour s = d :: rest := by rwa [if_pos rfl] at hnext
            rw [hskip] at hline
            have hd : d ≠ 3 := by
              rintro rfl
              -- the byte 3 would be in the line
              rw [stripCodes_emit hnext] at hrun
              obtain ⟨line', -, rfl⟩ := Option.map_eq_some_iff.mp hrun
              exact three_notMem hline List.mem_cons_self
            exact ⟨d, rest, hskip, hd, (hstep d rest hnext hd hlen).mp ⟨line, hrun, hline⟩⟩
        · rintro ⟨d, rest, hskip, hd, hrest⟩
          have hlen := skipColour_length_le s
          rw [hskip, List.length_cons] at hlen
          obtain ⟨line, hrun, hline⟩ := (hstep d rest ((if_pos rfl).trans hskip) hd (by omega)).mpr hrest
          exact ⟨line, hrun, stripped_three.mpr (hskip ▸ hline)⟩
      · rw [apart_cons hc]
        exact hstep c s (if_neg hc) hc (le_refl _)

/-- The loop is exact and in bounds exactly for the texts whose colour codes are followed by
    something else. -/
theorem stripExact_iff_apart (text : CStr) (hlen : text.bytes.length ≤ 510) :
    StripExact text.bytes ↔ Apart text.bytes := by
  rw [← stripCodes_iff (Nat.lt_succ_self text.bytes.length)]
  constructor
  · rintro ⟨line, hrun, -, -, hline⟩
    exact ⟨line, hrun, hline⟩
  · rintro ⟨line, hrun, hline⟩
    have hle := stripCodes_length hrun
    exact ⟨line, hrun, hle, by omega, hline⟩

/-- A colour code with a letter after it. -/
theorem stripExact_iff_apart_red : ([3, 52, 97] : Bytes).length ≤ 510 ∧
    (StripExact [3, 52, 97] ↔ Apart [3, 52, 97]) :=
  ⟨by decide, stripExact_iff_apart ⟨[3, 52, 97], by decide⟩ (by decide)⟩

/-- A colour code alone. -/
theorem not_stripExact : ¬ ∀ text : CStr, text.bytes.length ≤ 510 → StripExact text.bytes := by
  intro h
  obtain ⟨line, hrun, -⟩ := h ⟨[3], by decide⟩ (by decide)
  cases hrun

end Bluebox.Spam
