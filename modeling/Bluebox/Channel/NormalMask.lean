/-
  Bluebox.Channel.NormalMask

  The normal form of `pretty_mask`: three parts between the first `!` and the first `@`,
  no two stars side by side, and nothing left to change.
-/
import Bluebox.Channel.MaskWord
import Bluebox.Glob.Escape

namespace Bluebox.NormalMask

open Bluebox.Lib
open Bluebox.Chan
open Bluebox.Glob (not_infix_cons collapseLoop_eq_collapse collapseLoop_noDouble)
open Bluebox.ModeLine (prettyText prettyMask_eq prettyText_length_le_max)

-- ============================================================================
-- Stars
-- ============================================================================

/-- No two stars stand side by side. -/
def NoDouble (s : Bytes) : Prop := ¬ [star, star] <:+: s

theorem noDouble_collapse (s : Bytes) : NoDouble (collapse s) := by
  rw [← collapseLoop_eq_collapse]
  exact (collapseLoop_noDouble s false).1

theorem noDouble_star : NoDouble [star] := fun h => by
  have hlen := h.length_le
  simp at hlen

theorem NoDouble.part {s t : Bytes} (h : NoDouble s) (ht : t <:+: s) : NoDouble t := fun hin =>
  h (hin.trans ht)

/-- Texts on both sides of another byte. -/
theorem NoDouble.append_cons {s t : Bytes} {c : UInt8} (hs : NoDouble s) (ht : NoDouble t) (hc : c ≠ star) :
    NoDouble (s ++ c :: t) := by
  induction s with
  | nil => exact not_infix_cons ht fun h => absurd h hc
  | cons b s ih =>
    refine not_infix_cons (ih (hs.part (List.suffix_cons b s).isInfix)) fun hb hhead => ?_
    cases s with
    | nil => exact hc (Option.some.inj hhead)
    | cons d s =>
      refine hs ⟨[], s, ?_⟩
      rw [hb, Option.some.inj hhead]
      rfl

/-- Where nothing is to collapse, nothing does. -/
theorem collapse_of_noDouble {s : Bytes} (h : NoDouble s) : collapse s = s := by
  induction s using collapse.induct with
  | case1 => rfl
  | case2 b => rfl
  | case3 b c s hstar ih => exact absurd ⟨[], s, by rw [hstar.1, hstar.2]; rfl⟩ h
  | case4 b c s hstar ih =>
    rw [collapse, if_neg hstar, ih (h.part (List.suffix_cons b _).isInfix)]

-- ============================================================================
-- The parts
-- ============================================================================

/-- A part of a mask: a piece of it, or a star, and never nothing. -/
structure IsPart (mask part : Bytes) : Prop where
  ne_nil : part ≠ []
  piece : part = [star] ∨ part <:+: mask

theorem isPart_star (mask : Bytes) : IsPart mask [star] := ⟨List.cons_ne_nil _ _, Or.inl rfl⟩

theorem isPart_orSplat {mask s : Bytes} (h : s <:+: mask) : IsPart mask (orSplat s) := by
  unfold orSplat
  split
  · exact isPart_star mask
  · exact ⟨‹_›, Or.inr h⟩

theorem not_mem_orSplat {c : UInt8} {s : Bytes} (hc : c ≠ star) (h : c ∉ s) : c ∉ orSplat s := by
  unfold orSplat
  split
  · exact fun hmem => hc (List.mem_singleton.mp hmem)
  · exact h

/-- The three parts, and the separators that they do not have. -/
structure Parted (mask nick user host : Bytes) : Prop where
  nickPart : IsPart mask nick
  userPart : IsPart mask user
  hostPart : IsPart mask host
  nickBang : (33 : UInt8) ∉ nick
  nickAt : (64 : UInt8) ∉ nick
  userAt : (64 : UInt8) ∉ user

theorem maskParts_parted (mask : Bytes) :
    Parted mask (maskParts mask).1 (maskParts mask).2.1 (maskParts mask).2.2 := by
  have hstarBang : (33 : UInt8) ∉ [star] := by decide
  have hstarAt : (64 : UInt8) ∉ [star] := by decide
  have hbang : (33 : UInt8) ≠ star := by decide
  have hat : (64 : UInt8) ≠ star := by decide
  unfold maskParts
  split
  · next left host hsplit =>
    obtain ⟨hmask, hleft⟩ := strchr_eq_some hsplit
    have hleftIn : left <:+: mask := by
      rw [hmask]
      exact (List.prefix_append left _).isInfix
    have hhostIn : host <:+: mask := by
      rw [hmask]
      exact ((List.suffix_cons 64 host).trans (List.suffix_append left _)).isInfix
    split
    · next nick user hsplit' =>
      obtain ⟨hleft', hnick⟩ := strchr_eq_some hsplit'
      rw [hleft', List.mem_append, List.mem_cons, not_or, not_or] at hleft
      have hnickIn : nick <:+: left := by
        rw [hleft']
        exact (List.prefix_append nick _).isInfix
      have huserIn : user <:+: left := by
        rw [hleft']
        exact ((List.suffix_cons 33 user).trans (List.suffix_append nick _)).isInfix
      exact ⟨isPart_orSplat (hnickIn.trans hleftIn), isPart_orSplat (huserIn.trans hleftIn),
        isPart_orSplat hhostIn, not_mem_orSplat hbang hnick, not_mem_orSplat hat hleft.1,
        not_mem_orSplat hat hleft.2.2⟩
    · exact ⟨isPart_star mask, isPart_orSplat hleftIn, isPart_orSplat hhostIn, hstarBang, hstarAt,
        not_mem_orSplat hat hleft⟩
  · next hsplit =>
    have hnoAt : (64 : UInt8) ∉ mask := strchr_eq_none_iff.mp hsplit
    split
    · next nick user hsplit' =>
      obtain ⟨hmask, hnick⟩ := strchr_eq_some hsplit'
      have hnoAt' := hnoAt
      rw [hmask, List.mem_append, List.mem_cons, not_or, not_or] at hnoAt'
      have hnickIn : nick <:+: mask := by
        rw [hmask]
        exact (List.prefix_append nick _).isInfix
      have huserIn : user <:+: mask := by
        rw [hmask]
        exact ((List.suffix_cons 33 user).trans (List.suffix_append nick _)).isInfix
      exact ⟨isPart_orSplat hnickIn, isPart_orSplat huserIn, isPart_star mask,
        not_mem_orSplat hbang hnick, not_mem_orSplat hat hnoAt'.1, not_mem_orSplat hat hnoAt'.2.2⟩
    · next hsplit' =>
      have hnoBang : (33 : UInt8) ∉ mask := strchr_eq_none_iff.mp hsplit'
      split
      · exact ⟨isPart_star mask, isPart_star mask, isPart_orSplat List.infix_rfl, hstarBang, hstarAt,
          hstarAt⟩
      · exact ⟨isPart_orSplat List.infix_rfl, isPart_star mask, isPart_star mask,
          not_mem_orSplat hbang hnoBang, not_mem_orSplat hat hnoAt, hstarAt⟩

/-- `check_string` ends the mask at its first blank. -/
theorem checkString_noBlank (s : Bytes) : ∀ b ∈ checkString s, isSpace b = false := by
  intro b hb
  unfold checkString at hb
  split at hb
  · rw [List.mem_singleton.mp hb]
    rfl
  · have hnot := List.mem_takeWhile_imp hb
    simpa using hnot

-- ============================================================================
-- The normal form
-- ============================================================================

/-- `nick!user@host` within the limits, where the first `!` and the first `@` are the
    separators. -/
structure IsNormal (r nick user host : Bytes) : Prop where
  eq : r = userHost nick user host
  nick_ne_nil : nick ≠ []
  user_ne_nil : user ≠ []
  host_ne_nil : host ≠ []
  nick_length : nick.length ≤ nickLen - 1
  user_length : user.length ≤ userLen
  host_length : host.length ≤ hostLen
  nickBang : (33 : UInt8) ∉ nick
  nickAt : (64 : UInt8) ∉ nick
  userAt : (64 : UInt8) ∉ user
  noDouble : NoDouble r
  noBlank : ∀ b ∈ r, isSpace b = false

theorem IsPart.take {mask part : Bytes} (h : IsPart mask part) (hmask : NoDouble mask)
    (hblank : ∀ b ∈ mask, isSpace b = false) {n : Nat} (hn : 0 < n) :
    part.take n ≠ [] ∧ NoDouble (part.take n) ∧ ∀ b ∈ part.take n, isSpace b = false := by
  have hne : part.take n ≠ [] := fun hnil => by
    have hlen := congrArg List.length hnil
    have hpos := List.length_pos_of_ne_nil h.ne_nil
    rw [List.length_take, List.length_nil] at hlen
    omega
  have htake : part.take n <:+: part := (List.take_prefix n part).isInfix
  rcases h.piece with rfl | hpiece
  · refine ⟨hne, noDouble_star.part htake, fun b hb => ?_⟩
    rw [List.mem_singleton.mp (List.mem_of_mem_take hb)]
    rfl
  · exact ⟨hne, hmask.part (htake.trans hpiece),
      fun b hb => hblank b (hpiece.subset (List.mem_of_mem_take hb))⟩

/-- What `pretty_mask` writes is in normal form. -/
theorem isNormal_prettyText (idmask : Bytes) : ∃ nick user host, IsNormal (prettyText idmask) nick user host := by
  have hmask := noDouble_collapse (checkString idmask)
  have hblank : ∀ b ∈ collapse (checkString idmask), isSpace b = false := fun b hb =>
    checkString_noBlank idmask b ((collapse_sublist _).1.subset hb)
  have hparted := maskParts_parted (collapse (checkString idmask))
  obtain ⟨hnick, hnickDouble, hnickBlank⟩ := hparted.nickPart.take hmask hblank (n := nickLen - 1) (by decide)
  obtain ⟨huser, huserDouble, huserBlank⟩ := hparted.userPart.take hmask hblank (n := userLen) (by decide)
  obtain ⟨hhost, hhostDouble, hhostBlank⟩ := hparted.hostPart.take hmask hblank (n := hostLen) (by decide)
  refine ⟨_, _, _, rfl, hnick, huser, hhost, List.length_take_le _ _, List.length_take_le _ _,
    List.length_take_le _ _, fun h => hparted.nickBang (List.mem_of_mem_take h),
    fun h => hparted.nickAt (List.mem_of_mem_take h), fun h => hparted.userAt (List.mem_of_mem_take h), ?_, ?_⟩
  · show NoDouble (userHost _ _ _)
    unfold userHost
    rw [List.append_assoc, List.cons_append]
    exact hnickDouble.append_cons (huserDouble.append_cons hhostDouble (by decide)) (by decide)
  · intro b hb
    have hmem : b ∈ userHost _ _ _ := hb
    unfold userHost at hmem
    simp only [List.mem_append, List.mem_cons] at hmem
    rcases hmem with ((hb | rfl | hb) | rfl | hb)
    · exact hnickBlank b hb
    · rfl
    · exact huserBlank b hb
    · rfl
    · exact hhostBlank b hb

/-- A mask in normal form falls apart at its separators. -/
theorem IsNormal.parts {r nick user host : Bytes} (h : IsNormal r nick user host) :
    maskParts r = (nick, user, host) := by
  have hat : strchr 64 r = some (nick ++ 33 :: user, host) := by
    rw [h.eq]
    refine strchr_append (w := nick ++ 33 :: user) ?_ host
    rw [List.mem_append, List.mem_cons]
    rintro (hmem | heq | hmem)
    · exact h.nickAt hmem
    · exact absurd heq (by decide)
    · exact h.userAt hmem
  have hbang : strchr 33 (nick ++ 33 :: user) = some (nick, user) := strchr_append h.nickBang user
  unfold maskParts
  rw [hat]
  dsimp only
  rw [hbang]
  dsimp only [orSplat]
  rw [if_neg h.nick_ne_nil, if_neg h.user_ne_nil, if_neg h.host_ne_nil]

/-- On a mask in normal form nothing is left to do. -/
theorem IsNormal.prettyText {r nick user host : Bytes} (h : IsNormal r nick user host) : prettyText r = r := by
  have hne : r ≠ [] := by
    rw [h.eq]
    unfold userHost
    exact List.append_ne_nil_of_right_ne_nil _ (List.cons_ne_nil _ _)
  have hcheck : checkString r = r := by
    unfold checkString
    rw [if_neg hne]
    exact List.takeWhile_eq_self_iff.mpr fun b hb => by rw [h.noBlank b hb]; rfl
  unfold ModeLine.prettyText
  rw [hcheck, collapse_of_noDouble h.noDouble, h.parts]
  dsimp only
  rw [List.take_of_length_le h.nick_length, List.take_of_length_le h.user_length,
    List.take_of_length_le h.host_length]
  exact h.eq.symm

/-- Whatever `pretty_mask` returns is in normal form and shorter than `BANLEN`, and
    `pretty_mask` returns it unchanged. -/
theorem prettyMask_normal (pos pos' : Nat) (idmask r : Bytes)
    (h : prettyMask pos idmask = some (r, pos')) :
    (∃ nick user host, IsNormal r nick user host) ∧ r.length < banLen ∧
      prettyMask 0 r = some (r, r.length + 1) := by
  have hr : r = prettyText idmask := by
    rw [prettyMask_eq] at h
    split at h
    · cases h
    · exact (Prod.mk.inj (Option.some.inj h)).1.symm
  obtain ⟨nick, user, host, hnormal⟩ := isNormal_prettyText idmask
  have hlen := prettyText_length_le_max idmask
  rw [← hr] at hnormal hlen
  refine ⟨⟨nick, user, host, hnormal⟩, ?_, ?_⟩
  · show r.length < 109
    omega
  · have hcollapse := (collapse_sublist (checkString r)).1.length_le
    have hcheck : (checkString r).length ≤ r.length + 1 := by
      unfold checkString
      split
      · exact Nat.le_add_left 1 _
      · exact le_trans (List.takeWhile_sublist _).length_le (Nat.le_succ _)
    rw [prettyMask_eq, if_neg (by unfold bufSize; omega), hnormal.prettyText, Nat.zero_add]

/-- A mask with three `@` and two `!`, stars side by side and a user that is too long. -/
theorem prettyMask_normal_long :
    prettyMask 7 [97, 42, 42, 33, 98, 33, 99, 99, 99, 99, 99, 99, 99, 99, 99, 99, 64, 100, 64, 64] =
        some ([97, 42, 33, 98, 33, 99, 99, 99, 99, 99, 99, 99, 99, 64, 100, 64, 64], 25) ∧
      prettyMask 0 [97, 42, 33, 98, 33, 99, 99, 99, 99, 99, 99, 99, 99, 64, 100, 64, 64] =
        some ([97, 42, 33, 98, 33, 99, 99, 99, 99, 99, 99, 99, 99, 64, 100, 64, 64], 18) :=
  ⟨by decide, (prettyMask_normal 7 25
    [97, 42, 42, 33, 98, 33, 99, 99, 99, 99, 99, 99, 99, 99, 99, 99, 64, 100, 64, 64] _ (by decide)).2.2⟩

end Bluebox.NormalMask
