/-
  Bluebox.Resolver.Name

  Reading the names of a DNS message: `labellen`, `irc_ns_name_unpack`,
  `irc_ns_name_skip` and `irc_dn_skipname` of `resolver/reslib.c`.

  A message is the list of its bytes.  `labellen` looks at the byte behind the length
  byte of a bit string before anything has said that the message goes on there, so a
  reader is given what lies behind the message too (`past`).

  `ircNsNameUnpack_iff`: what is unpacked is the name that the message has at the place,
  and every name is unpacked that is short enough and whose pointers are read before as
  much as the whole message has been; nothing behind the message tells.
-/
import Bluebox.Lib.DomainName

namespace Bluebox.Resolver

open Bluebox.Lib

/-- `NS_MAXCDNAME`. -/
def nsMaxcdname : Nat := 255

/-- `NS_CMPRSFLGS`. -/
def nsCmprsflgs : UInt8 := 0xc0

/-- `NS_TYPE_ELT`. -/
def nsTypeElt : UInt8 := 0x40

/-- `DNS_LABELTYPE_BITSTRING`. -/
def dnsLabeltypeBitstring : UInt8 := 0x41

/-- `labellen`; no result where it returns -1. -/
def labellen : Bytes → Option Nat
  | [] => none
  | l :: rest =>
    if l &&& nsCmprsflgs = nsCmprsflgs then none
    else if l &&& nsCmprsflgs = nsTypeElt then
      if l = dnsLabeltypeBitstring then
        rest.head?.map fun b => ((if b = 0 then 256 else b.toNat) + 7) / 8 + 1
      else none
    else some l.toNat

/-- The offset of a pointer, as the readers compute it. -/
def indirection (n lo : UInt8) : Nat := (n.toNat &&& 0x3f) <<< 8 ||| lo.toNat

-- ============================================================================
-- irc_ns_name_unpack
-- ============================================================================

/-- The loop of `irc_ns_name_unpack`: `dst` is what has been written, and `len` is set once
    there has been a pointer.  `src` is the place where the name starts. -/
def unpackLoop (msg past : Bytes) (src dstsiz : Nat) (srcp : Nat) (dst : Bytes) (len : Option Nat)
    (checked : Nat) : Option (Bytes × Nat) :=
  match msg.drop srcp with
  | [] => none
  | n :: rest =>
    if n = 0 then some (dst ++ [0], len.getD (srcp + 1 - src))
    else if n &&& nsCmprsflgs = 0 ∨ n &&& nsCmprsflgs = nsTypeElt then
      match labellen (n :: rest ++ past) with
      | none => none
      | some l =>
        if dst.length + l + 1 ≥ dstsiz ∨ srcp + 1 + l ≥ msg.length then none
        else unpackLoop msg past src dstsiz (srcp + 1 + l) (dst ++ n :: rest.take l) len (checked + (l + 1))
    else if n &&& nsCmprsflgs = nsCmprsflgs then
      match rest with
      | [] => none
      | lo :: _ =>
        if indirection n lo ≥ msg.length then none
        else if checked + 2 ≥ msg.length then none
        else unpackLoop msg past src dstsiz (indirection n lo) dst (some (len.getD (srcp + 1 - src + 1)))
          (checked + 2)
    else none
termination_by (dstsiz - dst.length) + (msg.length - checked)
decreasing_by
  · simp only [List.length_append, List.length_cons]
    omega
  · omega

/-- `irc_ns_name_unpack`: what it writes, and what it returns. -/
def ircNsNameUnpack (msg past : Bytes) (src dstsiz : Nat) : Option (Bytes × Nat) :=
  if src ≥ msg.length then none else unpackLoop msg past src dstsiz src [] none 0

-- ============================================================================
-- irc_ns_name_skip
-- ============================================================================

/-- The loop of `irc_ns_name_skip`: where `cp` is behind it. -/
def skipLoop (msg past : Bytes) (cp : Nat) : Option Nat :=
  match hd : msg.drop cp with
  | [] => some cp
  | n :: rest =>
    if n = 0 then some (cp + 1)
    else if n &&& nsCmprsflgs = 0 then skipLoop msg past (cp + 1 + n.toNat)
    else if n &&& nsCmprsflgs = nsTypeElt then
      match labellen (n :: rest ++ past) with
      | none => none
      | some l => skipLoop msg past (cp + 1 + l)
    else if n &&& nsCmprsflgs = nsCmprsflgs then some (cp + 1 + 1)
    else none
termination_by msg.length - cp
decreasing_by
  all_goals
    have hlt : cp < msg.length := by
      rw [← Nat.not_le, ← List.drop_eq_nil_iff, hd]
      simp
    omega

/-- `irc_ns_name_skip`: where the pointer stands afterwards. -/
def ircNsNameSkip (msg past : Bytes) (ptr : Nat) : Option Nat :=
  (skipLoop msg past ptr).bind fun cp => if cp > msg.length then none else some cp

/-- `irc_dn_skipname`. -/
def ircDnSkipname (msg past : Bytes) (ptr : Nat) : Option Nat :=
  (ircNsNameSkip msg past ptr).map (· - ptr)

-- ============================================================================
-- Labels
-- ============================================================================

/-- The labels that messages have: plain ones of at most 63 bytes, and bit strings. -/
def wireSize : Bytes → Option Nat
  | [] => none
  | n :: rest =>
    if n.toNat < 64 then some n.toNat
    else if n = dnsLabeltypeBitstring then rest.head?.map fun b => ((if b = 0 then 256 else b.toNat) + 7) / 8 + 1
    else none

/-- The two bits in front of a length byte, by the size of the byte. -/
theorem cmprsflgs_iff (n : UInt8) : (n &&& nsCmprsflgs = 0 ↔ n.toNat < 64) ∧
    (n &&& nsCmprsflgs = nsTypeElt ↔ 64 ≤ n.toNat ∧ n.toNat < 128) ∧
    (n &&& nsCmprsflgs = nsCmprsflgs ↔ IsPointer n) := by
  have hall : ∀ x : Fin 256, (UInt8.ofFin x &&& nsCmprsflgs = 0 ↔ (UInt8.ofFin x).toNat < 64) ∧
      (UInt8.ofFin x &&& nsCmprsflgs = nsTypeElt ↔ 64 ≤ (UInt8.ofFin x).toNat ∧ (UInt8.ofFin x).toNat < 128) ∧
      (UInt8.ofFin x &&& nsCmprsflgs = nsCmprsflgs ↔ 192 ≤ (UInt8.ofFin x).toNat) := by decide +kernel
  exact hall n.toFin

theorem indirection_eq (n lo : UInt8) : indirection n lo = pointerOffset n lo := by
  have hmod : n.toNat &&& 0x3f = n.toNat % 64 := Nat.and_two_pow_sub_one_eq_mod n.toNat 6
  have hlo : lo.toNat < 2 ^ 8 := lo.toNat_lt
  unfold indirection pointerOffset
  rw [hmod, ← Nat.shiftLeft_add_eq_or_of_lt hlo, Nat.shiftLeft_eq]

/-- In front of a byte of a label that the message holds, `labellen` is right. -/
theorem labellen_eq {n : UInt8} {rest past : Bytes} {l : Nat} (hn : n.toNat < 128) (hl : l < rest.length) :
    labellen (n :: rest ++ past) = some l ↔ wireSize (n :: rest) = some l := by
  obtain ⟨-, helt, hptr⟩ := cmprsflgs_iff n
  have hnp : ¬ n &&& nsCmprsflgs = nsCmprsflgs := by
    rw [hptr]
    show ¬ 192 ≤ n.toNat
    omega
  show (if _ then _ else _) = some l ↔ (if _ then _ else _) = some l
  rw [if_neg hnp]
  by_cases h64 : n.toNat < 64
  · rw [if_neg (by rw [helt]; omega), if_pos h64]
  · rw [if_pos (helt.mpr ⟨by omega, hn⟩), if_neg h64]
    cases rest with
    | nil => simp at hl
    | cons b rest => simp

/-- A label of a message is not longer than what `labellen` says. -/
theorem labellen_of_wireSize {n : UInt8} {rest : Bytes} (past : Bytes) {l : Nat} (h : wireSize (n :: rest) = some l) :
    labellen (n :: rest ++ past) = some l ∧ n.toNat < 128 ∧ (n.toNat < 64 → l = n.toNat) := by
  obtain ⟨-, helt, hptr⟩ := cmprsflgs_iff n
  show (if _ then _ else _) = some l ∧ _
  replace h : (if _ then _ else _) = some l := h
  by_cases h64 : n.toNat < 64
  · rw [if_pos h64] at h
    have hnp : ¬ n &&& nsCmprsflgs = nsCmprsflgs := by
      rw [hptr]
      show ¬ 192 ≤ n.toNat
      omega
    rw [if_neg hnp, if_neg (by rw [helt]; omega)]
    simp only [Option.some.injEq] at h
    exact ⟨by rw [h], by omega, fun _ => h.symm⟩
  · rw [if_neg h64] at h
    split at h
    next hbit =>
      subst hbit
      cases rest with
      | nil => simp at h
      | cons b rest =>
        refine ⟨?_, by decide, fun h => absurd h h64⟩
        rw [if_neg (by decide), if_pos (by decide), if_pos rfl]
        exact h
    next => simp at h

theorem labellen_wireLabel {l : Bytes} (hl : l.length < 64) (rest : Bytes) :
    labellen (wireLabel l ++ rest) = some l.length := by
  have hn := toNat_length_byte hl
  obtain ⟨-, helt, hptr⟩ := cmprsflgs_iff (UInt8.ofNat l.length)
  have hnptr : ¬ IsPointer (UInt8.ofNat l.length) := by
    show ¬ 192 ≤ (UInt8.ofNat l.length).toNat
    omega
  show (if _ then _ else _) = _
  rw [if_neg (fun h => hnptr (hptr.mp h)), if_neg (by rw [helt]; omega), hn]

theorem wireSize_wireLabel (l rest : Bytes) (hl : l.length < 64) : wireSize (wireLabel l ++ rest) = some l.length := by
  have hn := toNat_length_byte hl
  show (if _ then _ else _) = _
  rw [if_pos (by omega), hn]

-- ============================================================================
-- What is unpacked
-- ============================================================================

section Unpack

variable {msg past : Bytes} {src dstsiz srcp : Nat} {dst : Bytes} {len : Option Nat} {checked : Nat} {wire : Bytes}
  {n : Nat}

/-- What the loop of `irc_ns_name_unpack` returns from one of its states: the rest of the name
    goes behind what has been written. -/
def Unpacks (msg : Bytes) (src dstsiz srcp : Nat) (dst : Bytes) (len : Option Nat) (checked : Nat) (wire : Bytes)
    (n : Nat) : Prop :=
  ∃ ls span cost, NameAt wireSize msg srcp ls span cost ∧ (cost = 0 ∨ checked + cost < msg.length) ∧
    wire = dst ++ (ls.flatten ++ [0]) ∧ wire.length ≤ dstsiz ∧ n = len.getD (srcp + span - src)

theorem unpacks_root {rest : Bytes} (h : msg.drop srcp = 0 :: rest) (hdst : dst.length < dstsiz) :
    Unpacks msg src dstsiz srcp dst len checked wire n ↔ wire = dst ++ [0] ∧ n = len.getD (srcp + 1 - src) := by
  unfold Unpacks
  simp only [nameAt_root_iff h]
  constructor
  · rintro ⟨ls, span, cost, ⟨rfl, rfl, rfl⟩, -, rfl, -, rfl⟩
    simp
  · rintro ⟨rfl, rfl⟩
    refine ⟨[], 1, 0, ⟨rfl, rfl, rfl⟩, .inl rfl, by simp, ?_, rfl⟩
    simp only [List.length_append, List.length_singleton]
    omega

/-- The name behind a label of a message starts inside the message. -/
theorem length_label {b : UInt8} {rest : Bytes} {l : Nat} (h : msg.drop srcp = b :: rest)
    (hl : srcp + (l + 1) < msg.length) : l < rest.length ∧ (b :: rest.take l).length = l + 1 := by
  have hlen : (msg.drop srcp).length = rest.length + 1 := by rw [h, List.length_cons]
  rw [List.length_drop] at hlen
  refine ⟨by omega, ?_⟩
  rw [List.length_cons, List.length_take]
  omega

theorem unpacks_label {b : UInt8} {rest : Bytes} {l : Nat} (h : msg.drop srcp = b :: rest) (hb : b ≠ 0)
    (hb' : b.toNat < 128) (hl : labellen (b :: rest ++ past) = some l) :
    Unpacks msg src dstsiz srcp dst len checked wire n ↔
      ¬ (dst.length + l + 1 ≥ dstsiz ∨ srcp + 1 + l ≥ msg.length) ∧
        Unpacks msg src dstsiz (srcp + 1 + l) (dst ++ b :: rest.take l) len (checked + (l + 1)) wire n := by
  have hnp : ¬ IsPointer b := by
    show ¬ 192 ≤ b.toNat
    omega
  have hat : srcp + 1 + l = srcp + (l + 1) := by omega
  unfold Unpacks
  simp only [nameAt_label_iff h hb hnp]
  constructor
  · rintro ⟨ls, span, cost, ⟨l', ls', span', cost', hl', hs, rfl, rfl, rfl⟩, hcost, rfl, hwire, rfl⟩
    obtain rfl : l = l' := by
      have := (labellen_of_wireSize past hl').1
      rw [hl] at this
      simpa using this
    have hlt := hs.lt_length
    obtain ⟨-, hlabel⟩ := length_label h hlt
    simp only [List.flatten_cons, List.length_append, hlabel, List.length_singleton] at hwire
    refine ⟨by omega, ls', span', cost', by rwa [hat], ?_, by simp, ?_, ?_⟩
    · unfold readMore at hcost
      split at hcost <;> omega
    · simp only [List.flatten_cons, List.length_append, hlabel, List.length_singleton]
      omega
    · congr 1
      omega
  · rintro ⟨hfits, ls, span, cost, hs, hcost, rfl, hwire, rfl⟩
    rw [hat] at hs
    obtain ⟨hrest, hlabel⟩ := length_label h hs.lt_length
    refine ⟨_, _, _, ⟨l, ls, span, cost, (labellen_eq hb' hrest).mp hl, hs, rfl, rfl, rfl⟩, ?_, by simp, hwire, ?_⟩
    · unfold readMore
      split <;> omega
    · congr 1
      omega

theorem not_unpacks_label {b : UInt8} {rest : Bytes} (h : msg.drop srcp = b :: rest) (hb : b ≠ 0)
    (hnp : ¬ IsPointer b) (hl : wireSize (b :: rest) = none) :
    ¬ Unpacks msg src dstsiz srcp dst len checked wire n := by
  rintro ⟨ls, span, cost, hs, -⟩
  obtain ⟨l, -, -, -, hl', -⟩ := (nameAt_label_iff h hb hnp).mp hs
  simp [hl] at hl'

theorem unpacks_pointer {hi lo : UInt8} {rest : Bytes} (h : msg.drop srcp = hi :: lo :: rest) (hp : IsPointer hi)
    (hlen : len = none → src ≤ srcp) :
    Unpacks msg src dstsiz srcp dst len checked wire n ↔
      indirection hi lo < msg.length ∧ checked + 2 < msg.length ∧
        Unpacks msg src dstsiz (indirection hi lo) dst (some (len.getD (srcp + 1 - src + 1))) (checked + 2) wire
          n := by
  have hspan : len.getD (srcp + 2 - src) = len.getD (srcp + 1 - src + 1) := by
    cases len with
    | some k => rfl
    | none =>
      have := hlen rfl
      show srcp + 2 - src = srcp + 1 - src + 1
      omega
  unfold Unpacks
  simp only [nameAt_pointer_iff h hp, indirection_eq, Option.getD_some]
  constructor
  · rintro ⟨ls, span, cost, ⟨lo', rest', span', cost', hr, hs, rfl, rfl⟩, hcost, rfl, hwire, rfl⟩
    simp only [List.cons.injEq] at hr
    obtain ⟨rfl, rfl⟩ := hr
    refine ⟨hs.lt_length, by omega, ls, span', cost', hs, by omega, rfl, hwire, hspan⟩
  · rintro ⟨-, hchecked, ls, span, cost, hs, hcost, rfl, hwire, rfl⟩
    exact ⟨ls, 2, cost + 2, ⟨lo, rest, span, cost, rfl, hs, rfl, rfl⟩, by omega, rfl, hwire, hspan.symm⟩

theorem unpackLoop_iff (hdst : dst.length < dstsiz) (hlen : len = none → src ≤ srcp) :
    unpackLoop msg past src dstsiz srcp dst len checked = some (wire, n) ↔
      Unpacks msg src dstsiz srcp dst len checked wire n := by
  fun_induction unpackLoop msg past src dstsiz srcp dst len checked with
  | case1 srcp dst len checked h =>
    simp only [reduceCtorEq, false_iff]
    rintro ⟨ls, span, cost, hs, -⟩
    exact not_nameAt_of_nil h hs
  | case2 srcp dst len checked rest h =>
    rw [unpacks_root h hdst]
    simp [eq_comm]
  | case3 srcp dst len checked b rest h hb hclass hl =>
    have hb' : b.toNat < 128 := by
      rw [(cmprsflgs_iff b).1, (cmprsflgs_iff b).2.1] at hclass
      omega
    simp only [reduceCtorEq, false_iff]
    refine not_unpacks_label h hb (by show ¬ 192 ≤ b.toNat; omega) ?_
    cases hw : wireSize (b :: rest) with
    | none => rfl
    | some l =>
      rw [(labellen_of_wireSize past hw).1] at hl
      simp at hl
  | case4 srcp dst len checked b rest h hb hclass l hl hfull =>
    have hb' : b.toNat < 128 := by
      rw [(cmprsflgs_iff b).1, (cmprsflgs_iff b).2.1] at hclass
      omega
    simp only [reduceCtorEq, false_iff]
    rw [unpacks_label h hb hb' hl]
    tauto
  | case5 srcp dst len checked b rest h hb hclass l hl hfits ih =>
    have hb' : b.toNat < 128 := by
      rw [(cmprsflgs_iff b).1, (cmprsflgs_iff b).2.1] at hclass
      omega
    rw [unpacks_label h hb hb' hl, ih ?_ ?_]
    · tauto
    · simp only [List.length_append, List.length_cons, List.length_take]
      omega
    · intro hnone
      have := hlen hnone
      omega
  | case6 srcp dst len checked b hb hclass hp h =>
    simp only [reduceCtorEq, false_iff]
    rintro ⟨ls, span, cost, hs, -⟩
    obtain ⟨lo, rest, -, -, hr, -⟩ := (nameAt_pointer_iff h ((cmprsflgs_iff b).2.2.mp hp)).mp hs
    simp at hr
  | case7 srcp dst len checked b hb hclass hp lo rest hout h =>
    simp only [reduceCtorEq, false_iff]
    rw [unpacks_pointer h ((cmprsflgs_iff b).2.2.mp hp) hlen]
    omega
  | case8 srcp dst len checked b hb hclass hp lo rest hin hloop h =>
    simp only [reduceCtorEq, false_iff]
    rw [unpacks_pointer h ((cmprsflgs_iff b).2.2.mp hp) hlen]
    omega
  | case9 srcp dst len checked b hb hclass hp lo rest hin hloop h ih =>
    rw [unpacks_pointer h ((cmprsflgs_iff b).2.2.mp hp) hlen, ih hdst (by simp)]
    simp only [not_le, ge_iff_le] at hin hloop
    simp [hin, hloop]
  | case10 srcp dst len checked b rest h hb hclass hp =>
    simp only [reduceCtorEq, false_iff]
    rw [(cmprsflgs_iff b).1, (cmprsflgs_iff b).2.1] at hclass
    rw [(cmprsflgs_iff b).2.2] at hp
    refine not_unpacks_label h hb hp ?_
    have hbit : b ≠ dnsLabeltypeBitstring := by
      rintro rfl
      simp [dnsLabeltypeBitstring] at hclass
    show (if _ then _ else _) = none
    rw [if_neg (by omega), if_neg hbit]

end Unpack

/-- A name is skipped in as many bytes as it takes. -/
theorem skipLoop_span (past : Bytes) {msg : Bytes} {cp : Nat} {ls : List Bytes} {span cost : Nat}
    (h : NameAt wireSize msg cp ls span cost) : skipLoop msg past cp = some (cp + span) ∧ cp + span ≤ msg.length := by
  induction h with
  | @root off rest h =>
    have hlen : (msg.drop off).length = rest.length + 1 := by rw [h, List.length_cons]
    rw [List.length_drop] at hlen
    rw [skipLoop]
    split
    next h' => simp [h] at h'
    next n rest' h' =>
      obtain ⟨rfl, rfl⟩ : _ ∧ _ := by simpa [h] using h'.symm
      rw [if_pos rfl]
      exact ⟨rfl, by omega⟩
  | @label off l span cost n rest ls h hn hp hl hs ih =>
    obtain ⟨hskip, hle⟩ := ih
    obtain ⟨hl', hn128, hplain⟩ := labellen_of_wireSize past hl
    have hat : off + 1 + l = off + (l + 1) := by omega
    rw [skipLoop]
    split
    next h' => simp [h] at h'
    next n' rest' h' =>
      obtain ⟨rfl, rfl⟩ : _ ∧ _ := by simpa [h] using h'.symm
      obtain ⟨hzero, helt, -⟩ := cmprsflgs_iff n'
      rw [if_neg hn]
      refine ⟨?_, by omega⟩
      by_cases h64 : n'.toNat < 64
      · rw [if_pos (hzero.mpr h64), ← hplain h64, hat, hskip]
        congr 1
        omega
      · rw [if_neg (fun h => h64 (hzero.mp h)), if_pos (helt.mpr ⟨by omega, hn128⟩), hl']
        show skipLoop msg past (off + 1 + l) = _
        rw [hat, hskip]
        congr 1
        omega
  | @pointer off span cost hi lo rest ls h hp hs =>
    have hlen : (msg.drop off).length = rest.length + 2 := by rw [h, List.length_cons, List.length_cons]
    rw [List.length_drop] at hlen
    have hi192 : 192 ≤ hi.toNat := hp
    rw [skipLoop]
    split
    next h' => simp [h] at h'
    next n rest' h' =>
      obtain ⟨rfl, rfl⟩ : _ ∧ _ := by simpa [h] using h'.symm
      have hne : n ≠ 0 := by
        rintro rfl
        simp at hi192
      obtain ⟨hzero, helt, hptr⟩ := cmprsflgs_iff n
      rw [if_neg hne, if_neg (by rw [hzero]; omega), if_neg (by rw [helt]; omega), if_pos (hptr.mpr hp)]
      exact ⟨rfl, by omega⟩

theorem ircDnSkipname_span {msg past : Bytes} {src : Nat} {ls : List Bytes} {span cost : Nat}
    (h : NameAt wireSize msg src ls span cost) : ircDnSkipname msg past src = some span := by
  obtain ⟨hskip, hle⟩ := skipLoop_span past h
  unfold ircDnSkipname ircNsNameSkip
  rw [hskip]
  simp only [Option.bind_some, gt_iff_lt, if_neg (show ¬ msg.length < src + span by omega), Option.map_some]
  congr 1
  omega

/-- Unpacking returns the name that stands at the place, where that is short enough and its
    pointers come early enough, and nothing else; what is behind the message does not count.
    A name that is unpacked is skipped in as many bytes as its unpacking says. -/
theorem ircNsNameUnpack_iff (msg past : Bytes) (src : Nat) (wire : Bytes) (n : Nat) :
    (ircNsNameUnpack msg past src nsMaxcdname = some (wire, n) ↔
      ∃ ls cost, NameAt wireSize msg src ls n cost ∧ cost < msg.length ∧ wire = ls.flatten ++ [0] ∧
        wire.length ≤ nsMaxcdname) ∧
    (ircNsNameUnpack msg past src nsMaxcdname = some (wire, n) → ircDnSkipname msg past src = some n) := by
  have hiff : ircNsNameUnpack msg past src nsMaxcdname = some (wire, n) ↔
      ∃ ls cost, NameAt wireSize msg src ls n cost ∧ cost < msg.length ∧ wire = ls.flatten ++ [0] ∧
        wire.length ≤ nsMaxcdname := by
    unfold ircNsNameUnpack
    by_cases hsrc : src ≥ msg.length
    · rw [if_pos hsrc]
      simp only [reduceCtorEq, false_iff]
      rintro ⟨ls, cost, hs, -⟩
      have := hs.lt_length
      omega
    · rw [if_neg hsrc, unpackLoop_iff (by simp [nsMaxcdname]) (fun _ => Nat.le_refl src)]
      constructor
      · rintro ⟨ls, span, cost, hs, hcost, rfl, hwire, hn⟩
        obtain rfl : n = span := by
          simp only [Option.getD_none] at hn
          omega
        exact ⟨ls, cost, hs, by omega, by simp, hwire⟩
      · rintro ⟨ls, cost, hs, hcost, rfl, hwire⟩
        refine ⟨ls, n, cost, hs, by omega, by simp, hwire, ?_⟩
        simp only [Option.getD_none]
        omega
  refine ⟨hiff, fun h => ?_⟩
  obtain ⟨ls, cost, hs, -⟩ := hiff.mp h
  exact ircDnSkipname_span hs

end Bluebox.Resolver
